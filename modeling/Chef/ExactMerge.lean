import Chef.MergedState

namespace Chef
open Foundations List Bool ObjectView
namespace ExecutionState
open AddressSpace ConditionNode ConstraintManager ObjectState
section
variable {h : Heap} {s o : ExecutionState} {cpu : CpuObjects} {b : ExprBuilder}
structure Paths (h : Heap) (s o : ExecutionState) (split : List Nat × List Nat × List Nat) :
    Prop where
  first : s.constraints.path h.conditions = some (split.1 ++ split.2.1)
  second : o.constraints.path h.conditions = some (split.1 ++ split.2.2)

section
variable (hp : Paths h s o split) (ht : ConditionTree h.conditions) (hs : WellFormed cpu h s)
include hp ht hs
theorem Paths.shared_lt : ∀ n ∈ split.1, n < h.conditions.size := by
  intro n hn
  have hle := mem_pathFrom_le ht hp.first (mem_append_left _ hn)
  exact Nat.lt_of_le_of_lt hle hs.head_lt

theorem Paths.last_lt : split.1.getLast?.getD s.constraints.root < h.conditions.size := by
  cases hl : split.1.getLast? with
  | none => exact hs.root_lt
  | some n => exact hp.shared_lt ht hs n (mem_of_getLast? hl)

theorem Paths.grown (he : e.WellTyped ∧ e.width = 1)
    (ha : addConstraint alive e (split.1.getLast?.getD s.constraints.root) h.conditions =
      .ok (k, nodes)) :
    Satisfied nodes ⟨s.constraints.root, k⟩ ρ ↔ Holds h.conditions split.1 ρ ∧ e.eval ρ = 1 := by
  have hgr := addConstraint_spec ht (hp.last_lt ht hs) hs.root hs.root_lt
    (path_shared ht hp.first) he ha
  exact hgr.satisfied (hp.shared_lt ht hs)

end

structure MergedInto (cpu : CpuObjects) (b : ExprBuilder) (h : Heap) (s o : ExecutionState)
    (split : List Nat × List Nat × List Nat) (mos : List MemoryObject) (h' : Heap)
    (s' : ExecutionState) (inA inB : Expr) (hs : Heap × ExecutionState) : Prop where
  conjA : Conjunction h.conditions split.2.1 inA
  conjB : Conjunction h.conditions split.2.2 inB
  stack : StacksMerged b inA s.stack o.stack s'.stack
  objects : ObjectsMerged b inA h { s with stack := s'.stack } o mos hs
  writable : Differs cpu s o mo r r' → (h.objectStates.get r).readOnly = false
  constraints : Satisfied h'.conditions s'.constraints ρ ↔
    Holds h.conditions split.1 ρ ∧ (b.or inA inB).eval ρ = 1
  dirtyMask : DirtyMaskMerged cpu { hs.1 with conditions := h'.conditions }
    { hs.2 with constraints := s'.constraints } h' s'

theorem mergeInto_ok (L : MergeLawful b) (ht : ConditionTree h.conditions)
    (hs : WellFormed cpu h s) (ho : WellFormed cpu h o) (hp : Paths h s o split)
    (hmu : Mutated cpu s o (order mos))
    (hok : mergeInto cpu b littleEndian alive order h s o split mos = .ok (h', s')) :
    ∃ inA inB hs, MergedInto cpu b h s o split (order mos) h' s' inA inB hs := by
  obtain ⟨inA, hA, hok⟩ := bind_ok_iff.1 hok
  obtain ⟨inB, hB, hok⟩ := bind_ok_iff.1 hok
  obtain ⟨stack, hstk, hok⟩ := bind_ok_iff.1 hok
  obtain ⟨⟨h1, s1⟩, hlp, hok⟩ := bind_ok_iff.1 hok
  obtain ⟨⟨k, nodes⟩, hadd, hok⟩ := bind_ok_iff.1 hok
  obtain ⟨eA, hA', hc⟩ := conjunction_spec L ht split.2.1
  obtain ⟨eB, hB', hn⟩ := conjunction_spec L ht split.2.2
  obtain rfl := Except.ok.inj (hA.symm.trans hA')
  obtain rfl := Except.ok.inj (hB.symm.trans hB')
  have hbd : Bound h { s with stack := stack } := hs.bound.congr rfl rfl
  have hmt : Mutated cpu { s with stack := stack } o (order mos) :=
    ⟨hmu.nodup, hmu.mem_iff, hmu.concrete⟩
  obtain ⟨hI, hro⟩ := mergeObjects_ok L hbd ho.bound hmt hc.typed hlp
  obtain ⟨r, hr, _⟩ := hs.dirtyMask
  have hbound2 : Bound { h1 with conditions := nodes }
      { s1 with constraints := ⟨s.constraints.root, k⟩ } := hI.bound.congr rfl rfl
  have hdi := mergeDirtyMask_ok hbound2 (hI.pending hr hmu.dirtyMask_notMem).1 hok
  have hsc : s'.stack = stack := by
    rw [hdi.stack]
    exact congrArg ExecutionState.stack hI.rest
  refine ⟨inA, inB, (h1, s1), hc, hn, ?_, ?_, hro, fun {ρ} => ?_, ?_⟩
  · rw [hsc]
    exact mergeStacks_ok hstk
  · rw [hsc]
    exact hI
  · have hcd : h1.conditions = h.conditions := hI.conditions
    have hadd' : addConstraint alive (b.or inA inB)
        (split.1.getLast?.getD s.constraints.root) h.conditions = .ok (k, nodes) := by
      rw [← hcd]
      exact hadd
    rw [hdi.conditions, hdi.constraints]
    exact hp.grown ht hs (hc.or L hn).1 hadd'
  · rw [hdi.conditions, hdi.constraints]
    exact hdi

theorem mergeInto_total (littleEndian : Bool) (alive : Nat → Bool) (L : MergeLawful b)
    (ht : ConditionTree h.conditions) (hs : WellFormed cpu h s) (ho : WellFormed cpu h o)
    (hmu : Mutated cpu s o (order mos))
    (hl : ∀ {n : Nat} {fa fb : StackFrame}, s.stack[n]? = some fa → o.stack[n]? = some fb →
      LocalsMatch fa.locals fb.locals)
    (hro : ∀ {mo r r'}, Differs cpu s o mo r r' → (h.objectStates.get r).readOnly = false)
    (hsat : ∃ ρ, Holds h.conditions split.2.1 ρ) :
    ∃ r, mergeInto cpu b littleEndian alive order h s o split mos = .ok r := by
  obtain ⟨inA, hi, hn⟩ := conjunction_spec L ht split.2.1
  obtain ⟨inB, hB, hconjB⟩ := conjunction_spec L ht split.2.2
  obtain ⟨stack, hstk⟩ := mergeStacks_total b inA hl
  have hbd : Bound h { s with stack := stack } := hs.bound.congr rfl rfl
  have hmt : Mutated cpu { s with stack := stack } o (order mos) :=
    ⟨hmu.nodup, hmu.mem_iff, hmu.concrete⟩
  obtain ⟨⟨h1, s1⟩, hlp, hI⟩ := mergeObjects_total littleEndian L hbd ho.bound hmt hro hn.typed
  obtain ⟨ρ, hρ⟩ := hsat
  obtain ⟨⟨ht', hw'⟩, he⟩ := hn.or L hconjB
  have hacc := accepts_of_eval ht' hw' ((he ρ).2 (.inl hρ))
  obtain ⟨⟨k, nodes⟩, ha⟩ : ∃ c, addConstraint alive (b.or inA inB)
      (split.1.getLast?.getD s.constraints.root) h1.conditions = .ok c :=
    addConstraint_ok_iff.2 hacc
  obtain ⟨r, hr, hrr, hrc⟩ := hs.dirtyMask
  obtain ⟨r', hr', _, hrc'⟩ := ho.dirtyMask
  obtain ⟨hr1, hget⟩ := hI.pending hr hmu.dirtyMask_notMem
  obtain ⟨ul, hget', _⟩ := hI.other hr'
  have hbound2 : Bound { h1 with conditions := nodes }
      { s1 with constraints := ⟨s.constraints.root, k⟩ } := hI.bound.congr rfl rfl
  have hot2 : Bound { h1 with conditions := nodes } o := hI.otherBound.congr rfl rfl
  have hc : isAllConcrete (h1.objectStates.get r') = true := by
    rw [hget']
    exact hrc'
  obtain ⟨r, hok⟩ := mergeDirtyMask_total hbound2 hot2 hr1 hr' (hget ▸ hrr) (hget ▸ hrc) hc
  refine ⟨r, ?_⟩
  rw [mergeInto, hi, hB]
  simp only [bind, Except.bind, hstk, hlp, ha]
  exact hok

variable {h' : Heap} {s' : ExecutionState} {split : List Nat × List Nat × List Nat}
variable (hM : MergedInto cpu b h s o split mos h' s' inA inB hs)
include hM
theorem MergedInto.constraints_iff
    (L : MergeLawful b) : Satisfied h'.conditions s'.constraints ρ ↔ Holds h.conditions split.1 ρ ∧
      (Holds h.conditions split.2.1 ρ ∨ Holds h.conditions split.2.2 ρ) := by
  rw [hM.constraints, (hM.conjA.or L hM.conjB).2]

theorem MergedInto.satisfied (L : MergeLawful b) (hp : Paths h s o split)
    (hsat : Satisfied h'.conditions s'.constraints ρ) :
    (inA.eval ρ = 1 → Satisfied h.conditions s.constraints ρ) ∧
      (inA.eval ρ ≠ 1 → Satisfied h.conditions o.constraints ρ) := by
  obtain ⟨hh, hor⟩ := (hM.constraints_iff L).1 hsat
  rw [ne_eq, hM.conjA.eval_iff, satisfied_iff hp.first, satisfied_iff hp.second, holds_append,
    holds_append]
  exact ⟨fun hA => ⟨hh, hA⟩, fun hA => ⟨hh, hor.resolve_left hA⟩⟩

theorem MergedInto.kept (hne : mo ≠ cpu.dirtyMask) (hm : (mo, w) ∈ hs.2.addressSpace.objects) :
    (mo, w) ∈ s'.addressSpace.objects ∧
      h'.objectStates.get w = hs.1.objectStates.get w ∧ h'.host = h.host := by
  obtain ⟨hmem, hg⟩ := hM.dirtyMask.kept hne hm
  exact ⟨hmem, hg, hM.dirtyMask.host.trans hM.objects.host⟩

theorem MergedInto.same_value
    (L : MergeLawful b) (hB : Bound h s) (hm : (mo, r) ∈ s.addressSpace.objects)
    (hmo : mo ∉ mos) (hne : mo ≠ cpu.dirtyMask) (hi : i < mo.size)
    (hd : (h.objectStates.get r).updates.head.Defined ρ) :
    byteValue b h' r ρ i = byteValue b h r ρ i := by
  obtain ⟨hm1, hg1⟩ := hM.objects.pending hm hmo
  obtain ⟨_, hget', hh⟩ := hM.kept hne hm1
  have hget : h'.objectStates.get r = h.objectStates.get r := hget'.trans hg1
  have hi' : i < (h'.view r).state.size := by
    rw [Heap.view, hget, (hB.valid hm).size_eq, hB.object hm]
    exact hi
  have hvd : (h'.view r).state.Valid := by
    rw [Heap.view, hget]
    exact hB.valid hm
  obtain ⟨e, ul, n, hr, _, _, _, he⟩ := read8_spec L.read hvd hi'
  rw [byteValue_eq L hB hm hi hd, byteValue, hr]
  have hb : (h'.view r).byteAt ρ i = (h.view r).byteAt ρ i := by
    rw [byteAt, byteAt, isShared, isShared, Heap.view, Heap.view, hget, hh]
  rw [← hb]
  apply congrArg some
  apply he ρ
  rw [Heap.view, hget]
  exact hd

theorem MergedInto.merged_value
    (L : MergeLawful b) (hp : Paths h s o split) (hs0 : WellFormed cpu h s)
    (ho : WellFormed cpu h o) (hh : mo.isSharedConcrete = false)
    (hd : Differs cpu s o mo r r') (hmo : mo ∈ mos)
    (hsat : Satisfied h'.conditions s'.constraints ρ) :
    ∃ w, (mo, w) ∈ s'.addressSpace.objects ∧ ∀ i < mo.size, ∃ v,
      byteValue b h' w ρ i = some v ∧ (inA.eval ρ = 1 → byteValue b h r ρ i = some v) ∧
        (inA.eval ρ ≠ 1 → byteValue b h r' ρ i = some v) := by
  obtain ⟨hm, hm', _, _, _, hdi⟩ := hd
  obtain ⟨w, hw, hbs⟩ := hM.objects.merged hmo hm hm'
  obtain ⟨hw', hg, hhs⟩ := hM.kept hdi hw
  obtain ⟨hsatA, hsatB⟩ := hM.satisfied L hp hsat
  have hc : ∀ {x k i}, Bound h x → (mo, k) ∈ x.addressSpace.objects →
      (h.view k).byteAt ρ i = (h.objectStates.get k).contents ρ i := by
    intro x k i hB hk
    rw [byteAt, isShared, Heap.view, hB.object hk, hh]
    rfl
  refine ⟨w, hw', fun i hi => ?_⟩
  obtain ⟨e, he, hco⟩ := hbs i hi
  have hset : (h'.view w).settled b i = some e := by
    rw [← he]
    exact settled_congr hg (hhs.trans hM.objects.host.symm)
  refine ⟨e.eval ρ, byteValue_of_settled hset, fun hA => ?_, fun hA => ?_⟩
  · have hf := hs0.defined (hsatA hA) hm
    rw [byteValue_eq L hs0.bound hm hi hf, hc hs0.bound hm, (hco ρ).1 hA hf]
  · have hf := ho.defined (hsatB hA) hm'
    rw [byteValue_eq L ho.bound hm' hi hf, hc ho.bound hm', (hco ρ).2 hA hf]

theorem MergedInto.exact (L : MergeLawful b) (hp : Paths h s o split) (hs0 : WellFormed cpu h s)
    (ho : WellFormed cpu h o) (hmu : Mutated cpu s o mos)
    (hsm : s.addressSpace.objects.map Prod.fst = o.addressSpace.objects.map Prod.fst) :
    ExactMerge cpu b h s o h' s' split.1 split.2.1 split.2.2 := by
  constructor
  · exact hM.constraints_iff L
  · intro ρ n j fa fb x y _ ha hb hx hy
    obtain ⟨f, z, hf, hz, he⟩ := hM.stack.value L hM.conjA.typed ha hb hx hy
      (hs0.locals_typed ha hx) (ho.locals_typed hb hy)
    refine ⟨f, z, hf, hz, ?_⟩
    rw [he, ← hM.conjA.eval_iff]
    exact ⟨fun hA => if_pos hA, fun hA => if_neg hA⟩
  · intro ρ mo r hsat hm hv hsy hdi
    rw [← hM.conjA.eval_iff]
    obtain ⟨hsatA, hsatB⟩ := hM.satisfied L hp hsat
    obtain ⟨⟨mo', r'⟩, hm', hmo'⟩ : ∃ e ∈ o.addressSpace.objects, e.1 = mo := by
      rw [← mem_map, ← hsm]
      exact mem_map_of_mem hm
    obtain rfl : mo' = mo := hmo'
    by_cases hr : r = r'
    · subst hr
      have hmo : mo' ∉ mos := by
        intro hmem
        obtain ⟨k, k', hd⟩ := hmu.mem_iff.1 hmem
        apply hd.2.2.1
        rw [← (hs0.bound.sorted.address_eq hm hd.1 rfl).2]
        exact (ho.bound.sorted.address_eq hm' hd.2.1 rfl).2
      have hde : (h.objectStates.get r).updates.head.Defined ρ := by
        by_cases hA : inA.eval ρ = 1
        · exact hs0.defined (hsatA hA) hm
        · exact ho.defined (hsatB hA) hm'
      refine ⟨r, r, hm', (hM.kept hdi (hM.objects.pending hm hmo).1).1, fun i hi => ?_⟩
      have hvalue' := hM.same_value L hs0.bound hm hmo hdi hi hde
      rw [hvalue', byteValue_eq L hs0.bound hm hi hde]
      exact ⟨_, rfl, fun _ => rfl, fun _ => rfl⟩
    · have hd : Differs cpu s o mo' r r' := ⟨hm, hm', hr, hv, hsy, hdi⟩
      have hmo := hmu.mem_iff.2 ⟨r, r', hd⟩
      obtain ⟨w, hw, hbs⟩ := hM.merged_value L hp hs0 ho (hmu.concrete hmo) hd hmo hsat
      exact ⟨r', w, hm', hw, hbs⟩

end

def plainBuilder : ExprBuilder where
  read := .read
  select := .select
  concat := .concat
  extract e offset w := if offset = 0 ∧ w = e.width then e else .extract e offset w
  zext := .zext
  add := .arithmetic .add
  and := .arithmetic .and
  or := .arithmetic .or
  eq := .compare .eq

theorem plainBuilder_lawful : MergeLawful plainBuilder where
  select h := ⟨h, rfl, fun _ => rfl⟩
  and h := ⟨h, rfl, fun _ => rfl⟩
  or h := ⟨h, rfl, fun _ => rfl⟩
  read := ⟨fun h => h, fun _ => rfl, fun _ _ => rfl, fun _ h => h⟩
  extract := if_pos ⟨rfl, rfl⟩

namespace Forked
def cpu : CpuObjects :=
  ⟨⟨0, 0, 1, true, false, false⟩, ⟨1, 1, 1, true, false, false⟩, ⟨2, 2, 1, true, false, false⟩, 0,
    0⟩

def page : MemoryObject := ⟨3, 3, 1, true, false, false⟩

def filled (mo : MemoryObject) (x : UInt8) : ObjectState :=
  ⟨mo, 0, none, fun _ => x, none, none, ⟨none, .null⟩, mo.size, false⟩

def input : Expr := .read ⟨0, 1, []⟩ .null (.constant 32 0)

def condition : Expr := .compare .eq input (.constant 8 0)

def heap : Heap where
  objectStates := ⟨[filled page 5, filled page 7, filled cpu.dirtyMask 1]⟩
  host := fun _ => 0
  nextArray := 1
  conditions := ⟨[⟨none, none, [(condition, 1), (.not condition, 2)]⟩, ⟨some 0, some condition, []⟩,
    ⟨some 0, some (.not condition), []⟩]⟩

def state (caller : Option Nat) (branch : Fin 2) : ExecutionState where
  active := false
  pc := 16
  symbolics := [(0, 0)]
  stack := [⟨caller, ⟨0, 1⟩, [some (.constant 8 branch)], rfl⟩]
  constraints := ⟨0, branch + 1⟩
  addressSpace := ⟨branch + 1, [(cpu.dirtyMask, 2), (page, branch)]⟩
  cpuSystemObject := 2
  memcache := fun _ => none

theorem bound_state (hm : (mo, r) ∈ (state caller branch).addressSpace.objects) :
    r < heap.objectStates.size ∧ ∃ x, heap.objectStates.get r = filled mo x ∧ mo.size = 1 := by
  obtain hm | hm := mem_cons.1 hm
  · cases hm
    exact ⟨by decide, 1, rfl, rfl⟩
  cases mem_singleton.1 hm
  match branch with
  | 0 => exact ⟨by decide, 5, rfl, rfl⟩
  | 1 => exact ⟨by decide, 7, rfl, rfl⟩

theorem filled_valid (hs : mo.size = 1) : (filled mo x).Valid where
  size_eq := rfl
  size_lt := Nat.lt_of_le_of_lt (Nat.le_of_eq hs) (by decide)
  cached _ _ := .inl rfl
  known_typed h := by cases h
  known_symbolic h := by cases h
  updates_typed := trivial
  root_size h := by cases h

variable (caller : Option Nat)
theorem bound (branch : Fin 2) : Bound heap (state caller branch) := by
  constructor
  · exact pairwise_pair.2 (Nat.lt_succ_self 2)
  · intro mo r hm
    exact (bound_state hm).1
  · intro mo r hm
    obtain ⟨_, x, hx, _⟩ := bound_state hm
    rw [hx]
    rfl
  · intro mo r hm
    obtain ⟨_, x, hx, hs⟩ := bound_state hm
    rw [hx]
    exact filled_valid hs

theorem wellFormed (branch : Fin 2) : WellFormed cpu heap (state caller branch) where
  bound := bound caller branch
  root := rfl
  root_lt := by show 0 < 3; decide
  head_lt := Nat.succ_lt_succ branch.isLt
  path := by
    match branch with
    | 0 => exact ⟨[1], rfl⟩
    | 1 => exact ⟨[2], rfl⟩
  locals_typed {n j f e} hf he := by
    have hmem := mem_of_getElem? hf
    cases mem_singleton.1 hmem
    have hmem' := mem_of_getElem? he
    cases mem_singleton.1 hmem'
    exact Nat.lt_trans branch.isLt (by decide)
  defined _ hm := by
    obtain ⟨_, x, hx, _⟩ := bound_state hm
    rw [hx]
    exact trivial
  dirtyMask := ⟨2, mem_cons_self, rfl, rfl⟩

theorem tree : ConditionTree heap.conditions := .of_nodes (by decide) (by decide) (by decide)

theorem satisfiable : ∃ ρ, (state caller 0).constraints.Satisfied heap.conditions ρ := by
  refine ⟨fun _ _ => 0, [1], rfl, ?_⟩
  intro n hn
  rw [mem_singleton.1 hn]
  rfl

end Forked

variable {h h' : Heap} {s s' o : ExecutionState} {cpu : CpuObjects} {b : ExprBuilder}
  {order : List MemoryObject → List MemoryObject}

structure MergeChecked (cpu : CpuObjects) (h : Heap) (s o : ExecutionState) (as bs : List Nat)
    (mos : List MemoryObject) : Prop where
  inactive : s.active = false ∧ o.active = false
  pc : s.pc = o.pc
  symbolics : s.symbolics = o.symbolics
  depth : s.stack.length = o.stack.length
  path : s.constraints.path h.conditions = some as
  otherPath : o.constraints.path h.conditions = some bs
  cpuState : compareArchitecturalConcreteState cpu h s o = false
  mutated : mutatedObjects cpu s.addressSpace.objects o.addressSpace.objects = some mos

theorem MergeChecked.merge_eq (hc : MergeChecked cpu h s o as bs mos) :
    merge cpu b littleEndian alive order h s o =
      (mergeInto cpu b littleEndian alive order h s o (splitShared as bs) mos).map
        fun r => (true, r) := by
  have hw := walkStacks_iff.2 hc.depth
  simp [merge, hc.inactive.1, hc.inactive.2, hc.pc, hc.symbolics, hw, hc.path, hc.otherPath,
    hc.cpuState, hc.mutated]

theorem MergeChecked.paths (hc : MergeChecked cpu h s o as bs mos) :
    Paths h s o (splitShared as bs) := by
  obtain ⟨ha, hb⟩ := splitShared_append as bs
  exact ⟨ha ▸ hc.path, hb ▸ hc.otherPath⟩

theorem merge_cases (hok : merge cpu b littleEndian alive order h s o = .ok (merged, h', s')) :
    merged = false ∧ h' = h ∧ s' = s ∨ merged = true ∧ ∃ as bs mos,
      MergeChecked cpu h s o as bs mos ∧
        mergeInto cpu b littleEndian alive order h s o (splitShared as bs) mos = .ok (h', s') := by
  rw [merge] at hok
  split at hok
  · cases hok
  rename_i ha
  rw [not_eq_true, or_eq_false_iff] at ha
  split at hok
  · cases hok
    exact .inl ⟨rfl, rfl, rfl⟩
  rename_i hpc
  split at hok
  · cases hok
    exact .inl ⟨rfl, rfl, rfl⟩
  rename_i hy
  split at hok
  · cases hok
    exact .inl ⟨rfl, rfl, rfl⟩
  rename_i hw
  rw [not_eq_false, walkStacks_iff] at hw
  split at hok
  next as bs hA hB =>
    split at hok
    · cases hok
      exact .inl ⟨rfl, rfl, rfl⟩
    rename_i hc
    split at hok
    · cases hok
      exact .inl ⟨rfl, rfl, rfl⟩
    rename_i mos hm
    cases hi : mergeInto cpu b littleEndian alive order h s o (splitShared as bs) mos with
    | error e =>
      rw [hi] at hok
      cases hok
    | ok r =>
      rw [hi] at hok
      cases hok
      exact .inr ⟨rfl, as, bs, mos, ⟨ha, Decidable.not_not.1 hpc, Decidable.not_not.1 hy,
        hw, hA, hB, not_eq_true _ ▸ hc, hm⟩, hi⟩
  · cases hok

/-- A merged state stands for one of the two states. -/
theorem merge_exact (L : MergeLawful b) (horder : ∀ mos, (order mos).Perm mos)
    (ht : ConditionTree h.conditions) (hs : WellFormed cpu h s) (ho : WellFormed cpu h o)
    (hok : merge cpu b littleEndian alive order h s o = .ok (merged, h', s')) :
    (merged = true → ∃ shared onlyA onlyB, s.constraints.path h.conditions =
      some (shared ++ onlyA) ∧ o.constraints.path h.conditions = some (shared ++ onlyB) ∧
      (∀ n, onlyA.head? = some n → onlyB.head? ≠ some n) ∧
      ExactMerge cpu b h s o h' s' shared onlyA onlyB) ∧
    (merged = false → s' = s ∧ h' = h) := by
  obtain ⟨rfl, rfl, rfl⟩ | ⟨rfl, as, bs, mos, hc, hi⟩ := merge_cases hok
  · exact ⟨fun hm => (by cases hm), fun _ => ⟨rfl, rfl⟩⟩
  refine ⟨fun _ => ?_, fun hm => (by cases hm)⟩
  obtain ⟨hsm, hmut⟩ := mutatedObjects_spec hs.bound.sorted ho.bound.sorted hc.mutated
  obtain ⟨inA, inB, hs', hM⟩ := mergeInto_ok L ht hs ho hc.paths (hmut.perm (horder mos)) hi
  exact ⟨_, _, _, hc.paths.first, hc.paths.second, splitShared_diverges as bs,
    hM.exact L hc.paths hs ho (hmut.perm (horder mos)) hsm⟩

theorem merge_exact_forked : ∃ h' s',
    merge Forked.cpu plainBuilder true (fun _ => true) (fun mos => mos) Forked.heap
      (Forked.state none 0) (Forked.state none 1) = .ok (true, h', s') ∧
    ∃ shared onlyA onlyB,
      (Forked.state none 0).constraints.path Forked.heap.conditions = some (shared ++ onlyA) ∧
      (Forked.state none 1).constraints.path Forked.heap.conditions = some (shared ++ onlyB) ∧
      (∀ n, onlyA.head? = some n → onlyB.head? ≠ some n) ∧
      ExactMerge Forked.cpu plainBuilder Forked.heap (Forked.state none 0)
        (Forked.state none 1) h' s'
        shared onlyA onlyB := by
  obtain ⟨h', s', hok⟩ : ∃ h' s', merge Forked.cpu plainBuilder true (fun _ => true)
      (fun mos => mos) Forked.heap (Forked.state none 0) (Forked.state none 1) =
        .ok (true, h', s') := ⟨_, _, rfl⟩
  exact ⟨h', s', hok, (merge_exact plainBuilder_lawful (fun _ => .refl _) Forked.tree
    (Forked.wellFormed none 0) (Forked.wellFormed none 1) hok).1 rfl⟩

def StacksAgree (as bs : List StackFrame) : Prop :=
  Forall₂ (fun fa fb => fa.caller = fb.caller ∧ fa.kf = fb.kf) as bs

structure CanMerge (cpu : CpuObjects) (h : Heap) (s o : ExecutionState) : Prop where
  inactive : s.active = false ∧ o.active = false
  pc : s.pc = o.pc
  symbolics : s.symbolics = o.symbolics
  depth : s.stack.length = o.stack.length
  locals {n : Nat} {fa fb : StackFrame} : s.stack[n]? = some fa → o.stack[n]? = some fb →
    LocalsMatch fa.locals fb.locals
  cpuState : i < cpu.commonStart ∨ cpu.commonEnd ≤ i ∧ i < cpu.cpuSystemState.size →
    (h.objectStates.get s.cpuSystemObject).concreteStore i =
      (h.objectStates.get o.cpuSystemObject).concreteStore i
  objects : s.addressSpace.objects.map Prod.fst = o.addressSpace.objects.map Prod.fst
  concrete : Differs cpu s o mo r r' → mo.isSharedConcrete = false
  writable : Differs cpu s o mo r r' → (h.objectStates.get r).readOnly = false

theorem compareArchitecturalConcreteState_iff :
    compareArchitecturalConcreteState cpu h s o = false ↔
      ∀ i, i < cpu.commonStart ∨ cpu.commonEnd ≤ i ∧ i < cpu.cpuSystemState.size →
        (h.objectStates.get s.cpuSystemObject).concreteStore i =
          (h.objectStates.get o.cpuSystemObject).concreteStore i := by
  simp only [compareArchitecturalConcreteState, or_eq_false_iff, any_eq_false,
    mem_range, mem_range'_1, bne_iff_ne, Decidable.not_not]
  constructor
  · rintro ⟨hl, hh⟩ i hi
    obtain hi | hi := hi
    · exact hl i hi
    · exact hh i (by omega)
  · intro ha
    exact ⟨fun i hi => ha i (.inl hi), fun i hi => ha i (.inr (by omega))⟩

theorem mutatedObjects_total (hB : Bound h s) (hO : Bound h o) (hc : CanMerge cpu h s o) :
    ∃ mos, mutatedObjects cpu s.addressSpace.objects o.addressSpace.objects = some mos := by
  refine ⟨_, mutatedObjects_eq_some_iff.2 ⟨hc.objects, ?_, rfl⟩⟩
  rintro ⟨⟨mo, r⟩, mo', r'⟩ hp hmu
  obtain ⟨rfl, hm, hm'⟩ := (mem_zip_iff hB.sorted hO.sorted hc.objects).1 hp
  exact hc.concrete ⟨hm, hm', isMutated_iff.1 hmu⟩

theorem CanMerge.merge_total (littleEndian : Bool) (alive : Nat → Bool) (hn :
    CanMerge cpu h s o) (L : MergeLawful b) (hr : ∀ mos, (order mos).Perm mos) (ht :
    ConditionTree h.conditions) (hs : WellFormed cpu h s) (ho : WellFormed cpu h o) (hsat : ∃ ρ,
    s.constraints.Satisfied h.conditions ρ) : ∃ h' s', merge cpu b littleEndian alive order h s o =
    .ok (true, h', s') := by
  obtain ⟨as, hA⟩ := hs.path
  obtain ⟨bs, hB⟩ := ho.path
  obtain ⟨mos, hms⟩ := mutatedObjects_total hs.bound ho.bound hn
  have hc : MergeChecked cpu h s o as bs mos := ⟨hn.inactive, hn.pc, hn.symbolics,
    hn.depth, hA, hB, compareArchitecturalConcreteState_iff.2 fun _ => hn.cpuState, hms⟩
  obtain ⟨_, hm⟩ := mutatedObjects_spec hs.bound.sorted ho.bound.sorted hms
  obtain ⟨ρ, hρ⟩ := hsat
  rw [satisfied_iff hc.paths.first, holds_append] at hρ
  obtain ⟨⟨h', s'⟩, hi⟩ := mergeInto_total littleEndian alive L ht hs ho
    (hm.perm (hr mos)) hn.locals hn.writable ⟨ρ, hρ.2⟩
  exact ⟨h', s', by rw [hc.merge_eq, hi]; rfl⟩

theorem canMerge_of_merge (L : MergeLawful b) (hr : ∀ mos, (order mos).Perm mos)
    (ht : ConditionTree h.conditions) (hs : WellFormed cpu h s) (ho : WellFormed cpu h o)
    (hok : merge cpu b littleEndian alive order h s o = .ok (true, h', s')) :
    CanMerge cpu h s o := by
  obtain ⟨hm, _⟩ | ⟨_, as, bs, mos, hc, hi⟩ := merge_cases hok
  · cases hm
  obtain ⟨hsm, hmu⟩ := mutatedObjects_spec hs.bound.sorted ho.bound.sorted hc.mutated
  obtain ⟨inA, inB, hs', hM⟩ := mergeInto_ok L ht hs ho hc.paths (hmu.perm (hr mos)) hi
  exact ⟨hc.inactive, hc.pc, hc.symbolics, hc.depth, hM.stack.locals,
    fun {i} => compareArchitecturalConcreteState_iff.1 hc.cpuState i, hsm,
    fun hd => hmu.concrete (hmu.mem_iff.2 ⟨_, _, hd⟩), hM.writable⟩

/-- Merged states have the same calls, unless nothing else keeps them apart. -/
theorem merge_stacks_agree_iff (L : MergeLawful b) (horder : ∀ mos, (order mos).Perm mos)
    (ht : ConditionTree h.conditions) (hs : WellFormed cpu h s) (ho : WellFormed cpu h o)
    (hsat : ∃ ρ, s.constraints.Satisfied h.conditions ρ) :
    (∀ h' s', merge cpu b littleEndian alive order h s o = .ok (true, h', s') →
      StacksAgree s.stack o.stack) ↔ StacksAgree s.stack o.stack ∨ ¬CanMerge cpu h s o := by
  constructor
  · intro ha
    by_cases hc : CanMerge cpu h s o
    · obtain ⟨h', s', hok⟩ := CanMerge.merge_total littleEndian alive hc L horder ht hs ho hsat
      exact .inl (ha h' s' hok)
    · exact .inr hc
  · intro hor h' s' hok
    exact hor.resolve_right fun hn => hn (canMerge_of_merge L horder ht hs ho hok)

theorem merge_stacks_agree_forked :
    StacksAgree (Forked.state none 0).stack (Forked.state none 1).stack ∧ ∀ h' s',
      merge Forked.cpu plainBuilder true (fun _ => true) (fun mos => mos) Forked.heap
        (Forked.state none 0) (Forked.state none 1) = .ok (true, h', s') →
      StacksAgree (Forked.state none 0).stack (Forked.state none 1).stack := by
  have ha : StacksAgree (Forked.state none 0).stack (Forked.state none 1).stack :=
    .cons ⟨rfl, rfl⟩ .nil
  exact ⟨ha, (merge_stacks_agree_iff plainBuilder_lawful (fun _ => .refl _) Forked.tree
    (Forked.wellFormed none 0) (Forked.wellFormed none 1) (Forked.satisfiable none)).2
    (.inl ha)⟩

theorem merge_of_different_callers : ∃ h' s',
    merge Forked.cpu plainBuilder true (fun _ => true) (fun mos => mos) Forked.heap
      (Forked.state (some 1) 0) (Forked.state (some 2) 1) = .ok (true, h', s') ∧
    WellFormed Forked.cpu Forked.heap (Forked.state (some 1) 0) ∧
    WellFormed Forked.cpu Forked.heap (Forked.state (some 2) 1) ∧
    ¬StacksAgree (Forked.state (some 1) 0).stack (Forked.state (some 2) 1).stack := by
  refine ⟨_, _, rfl, Forked.wellFormed _ _, Forked.wellFormed _ _, fun h => ?_⟩
  obtain ⟨⟨hc, _⟩, _⟩ := forall₂_cons.1 h
  cases hc

end ExecutionState
end Chef
