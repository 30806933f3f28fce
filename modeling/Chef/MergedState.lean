import Chef.ConditionTree
import Chef.MergedObjects

namespace Chef
open Foundations List Option
namespace ExecutionState
open AddressSpace ConditionNode ConstraintManager ObjectState
theorem splitShared_append (as bs : List Nat) :
    as = (splitShared as bs).1 ++ (splitShared as bs).2.1 ∧
      bs = (splitShared as bs).1 ++ (splitShared as bs).2.2 := by
  fun_induction splitShared as bs with
  | case1 a as bs ih =>
    rw [cons_append, cons_append, ← ih.1, ← ih.2]
    exact ⟨rfl, rfl⟩
  | case2 a as b bs hne | case3 as bs h => exact ⟨rfl, rfl⟩

theorem splitShared_diverges (as bs : List Nat) : ∀ n, (splitShared as bs).2.1.head? = some n →
    (splitShared as bs).2.2.head? ≠ some n := by
  fun_induction splitShared as bs with
  | case1 a as bs ih => exact ih
  | case2 a as b bs hne =>
    intro n ha hb
    exact hne ((some.inj ha).trans (some.inj hb).symm)
  | case3 as bs h =>
    intro n ha hb
    cases as with
    | nil => cases ha
    | cons a as =>
      cases bs with
      | nil => cases hb
      | cons b bs => exact h a as b bs rfl rfl

structure Conjunction (nodes : Store ConditionNode) (l : List Nat) (e : Expr) : Prop where
  typed : e.WellTyped ∧ e.width = 1
  eval_iff : e.eval ρ = 1 ↔ Holds nodes l ρ

theorem conjunction_spec (L : MergeLawful b) (ht : ConditionTree nodes) (l : List Nat) :
    ∃ e, conjunction b (l.map (exprOf nodes)) = .ok e ∧ Conjunction nodes l e := by
  rw [conjunction, foldlM_map]
  apply foldlM_total (Conjunction nodes)
  · refine ⟨⟨Nat.one_lt_two, rfl⟩, fun {ρ} => ?_⟩
    exact ⟨fun _ n (hn : n ∈ []) => (not_mem_nil hn).elim, fun _ => rfl⟩
  intro done n rest acc _ hc
  obtain ⟨hty, hw⟩ := hc.typed
  obtain ⟨htp, hwidth'⟩ := exprOf_typed ht n
  have ha := L.and (l := acc) (r := exprOf nodes n) ⟨hty, htp, hw.trans hwidth'.symm⟩
  refine ⟨_, if_pos (hw.trans hwidth'.symm), ⟨ha.wellTyped, ha.width_eq.trans hw⟩, fun {ρ} => ?_⟩
  rw [ha.eval_eq, eval_and_iff hty htp hw hwidth', hc.eval_iff, holds_append]
  rw [Holds, Holds, forall_mem_singleton]

theorem Conjunction.or (L : MergeLawful b) (ha : Conjunction nodes l inA)
    (hb : Conjunction nodes m inB) : ((b.or inA inB).WellTyped ∧ (b.or inA inB).width = 1) ∧
      ∀ ρ, (b.or inA inB).eval ρ = 1 ↔ Holds nodes l ρ ∨ Holds nodes m ρ := by
  obtain ⟨hat, haw⟩ := ha.typed
  obtain ⟨hbt, hbw⟩ := hb.typed
  have hor := L.or (l := inA) (r := inB) ⟨hat, hbt, haw.trans hbw.symm⟩
  refine ⟨⟨hor.wellTyped, hor.width_eq.trans haw⟩, fun ρ => ?_⟩
  rw [hor.eval_eq, eval_or_iff hat hbt haw hbw, ha.eval_iff, hb.eval_iff]

section
variable {j n : Nat}
theorem walkStacks_iff : walkStacks as bs = true ↔ as.length = bs.length := by
  fun_induction walkStacks as bs with
  | case1 fa as fb bs hne ih | case2 fa as fb bs heq ih =>
    rw [ih, length_cons, length_cons, Nat.succ_inj]
  | case3 => simp
  | case4 as bs hc hn =>
    cases as with
    | nil =>
      cases bs with
      | nil => exact (hn rfl rfl).elim
      | cons fb bs => simp
    | cons fa as =>
      cases bs with
      | nil => simp
      | cons fb bs => exact (hc _ _ _ _ rfl rfl).elim

structure LocalsMatch (as bs : List (Option Expr)) : Prop where
  reaches (j : Nat) (x : Expr) : as[j]? = some (some x) → j < bs.length
  width (j : Nat) (x y : Expr) : as[j]? = some (some x) → bs[j]? = some (some y) → x ≠ y →
    x.width = y.width

theorem valuesMatch_iff : valuesMatch av bv = true ↔
    ∀ x y, av = some x → bv = some y → x ≠ y → x.width = y.width := by
  cases av with
  | none => simp [valuesMatch]
  | some x =>
    cases bv with
    | none => simp [valuesMatch]
    | some y =>
      simp only [valuesMatch, Bool.or_eq_true, beq_iff_eq, some.injEq]
      constructor
      · intro h x' y' hx hy hne
        subst hx hy
        exact h.resolve_left hne
      · intro h
        exact Decidable.or_iff_not_imp_left.2 (h x y rfl rfl)

theorem localsMatch_cons : LocalsMatch (av :: as) (bv :: bs) ↔
    valuesMatch av bv = true ∧ LocalsMatch as bs := by
  rw [valuesMatch_iff]
  constructor
  · intro h
    refine ⟨fun x y hx hy => ?_, fun j x hx => ?_, fun j => h.width (j + 1)⟩
    · exact h.width 0 x y (congrArg some hx) (congrArg some hy)
    · exact Nat.lt_of_succ_lt_succ (h.reaches (j + 1) x hx)
  rintro ⟨hv, h⟩
  refine ⟨fun j x hx => ?_, fun j x y hx hy => ?_⟩
  · cases j with
    | zero => exact Nat.zero_lt_succ _
    | succ j => exact Nat.succ_lt_succ (h.reaches j x hx)
  · cases j with
    | zero => exact hv x y (some.inj hx) (some.inj hy)
    | succ j => exact h.width j x y hx hy

theorem localsMatch_nil : LocalsMatch as [] ↔ ∀ x, some x ∉ as := by
  constructor
  · intro h x hx
    obtain ⟨j, hj⟩ := mem_iff_getElem?.1 hx
    exact Nat.not_lt_zero _ (h.reaches j x hj)
  · intro h
    exact ⟨fun j x hx => (h x (mem_of_getElem? hx)).elim, fun j x y _ hy => by cases hy⟩

theorem checkLocals_ok_iff : checkLocals as bs = .ok () ↔ LocalsMatch as bs := by
  fun_induction checkLocals as bs with
  | case1 av as bv bs hv ih => rw [localsMatch_cons, ih, hv, eq_self, true_and]
  | case2 av as bv bs hv =>
    rw [localsMatch_cons]
    exact ⟨fun h => (by cases h), fun h => absurd h.1 hv⟩
  | case3 bs =>
    exact ⟨fun _ => ⟨fun j x hx => (by cases hx), fun j x y hx => (by cases hx)⟩, fun _ => rfl⟩
  | case4 as ih => simp [ih, localsMatch_nil]
  | case5 x as =>
    rw [localsMatch_nil]
    exact ⟨fun h => (by cases h), fun h => (h x mem_cons_self).elim⟩

theorem mergeLocals_get (ha : as[j]? = some (some x)) (hb : bs[j]? = some (some y)) :
    (mergeLocals b inA as bs)[j]? = some (some (if x ≠ y then b.select inA x y else x)) := by
  induction as generalizing bs j with
  | nil => cases ha
  | cons av as ih =>
    cases bs with
    | nil => cases hb
    | cons bv bs =>
      cases j with
      | zero =>
        obtain rfl := some.inj ha
        obtain rfl := some.inj hb
        rw [mergeLocals, List.getElem?_cons_zero, mergeValue]
        split <;> rfl
      | succ j => exact ih ha hb

structure StacksMerged (b : ExprBuilder) (inA : Expr) (as bs fs : List StackFrame) : Prop where
  locals {n : Nat} {fa fb : StackFrame} : as[n]? = some fa → bs[n]? = some fb →
    LocalsMatch fa.locals fb.locals
  frame {n : Nat} {fa fb : StackFrame} : as[n]? = some fa → bs[n]? = some fb →
    ∃ f : StackFrame, fs[n]? = some f ∧ f.locals = mergeLocals b inA fa.locals fb.locals

theorem mergeFrame_ok (hf : mergeFrame b inA fa fb = .ok f) :
    LocalsMatch fa.locals fb.locals ∧ f.locals = mergeLocals b inA fa.locals fb.locals := by
  rw [mergeFrame] at hf
  cases hc : checkLocals fa.locals fb.locals with
  | error e =>
    rw [hc] at hf
    cases hf
  | ok u =>
    rw [hc] at hf
    cases hf
    exact ⟨checkLocals_ok_iff.1 hc, rfl⟩

theorem mergeFrame_total (b : ExprBuilder) (inA : Expr) (h : LocalsMatch fa.locals fb.locals) :
    ∃ f, mergeFrame b inA fa fb = .ok f := by
  rw [mergeFrame, checkLocals_ok_iff.2 h]
  exact ⟨_, rfl⟩

theorem mergeStacks_ok (h : mergeStacks b inA as bs = .ok fs) : StacksMerged b inA as bs fs := by
  fun_induction mergeStacks b inA as bs generalizing fs with
  | case1 fa as fb bs ih =>
    obtain ⟨f, hf, hr⟩ := bind_ok_iff.1 h
    obtain ⟨hm, hl⟩ := mergeFrame_ok hf
    cases hs : mergeStacks b inA as bs with
    | error e =>
      rw [hs] at hr
      cases hr
    | ok fs' =>
      rw [hs] at hr
      cases hr
      have hI := ih hs
      constructor
      · intro n fa' fb' ha hb
        cases n with
        | zero =>
          cases ha
          cases hb
          exact hm
        | succ n => exact hI.locals ha hb
      · intro n fa' fb' ha hb
        cases n with
        | zero =>
          cases ha
          cases hb
          exact ⟨f, rfl, hl⟩
        | succ n => exact hI.frame ha hb
  | case2 as bs hc =>
    have hno : ∀ {n : Nat} {fa fb}, as[n]? = some fa → bs[n]? = some fb → False := by
      intro n fa fb ha hb
      cases as with
      | nil => cases ha
      | cons fa as =>
        cases bs with
        | nil => cases hb
        | cons fb bs => exact hc _ _ _ _ rfl rfl
    exact ⟨fun ha hb => (hno ha hb).elim, fun ha hb => (hno ha hb).elim⟩

theorem mergeStacks_total (b : ExprBuilder) (inA : Expr)
    (h : ∀ {n : Nat} {fa fb : StackFrame}, as[n]? = some fa → bs[n]? = some fb →
      LocalsMatch fa.locals fb.locals) : ∃ fs, mergeStacks b inA as bs = .ok fs := by
  fun_induction mergeStacks b inA as bs with
  | case1 fa as fb bs ih =>
    obtain ⟨f, hf⟩ := mergeFrame_total b inA (h (n := 0) rfl rfl)
    obtain ⟨fs, hfs⟩ := ih fun {n _ _} ha hb => h (n := n + 1) ha hb
    rw [hf, hfs]
    exact ⟨_, rfl⟩
  | case2 as bs hc => exact ⟨_, rfl⟩

theorem StacksMerged.value (L : MergeLawful b) (hS : StacksMerged b inA as bs fs)
    (hA : inA.WellTyped ∧ inA.width = 1) (ha : as[n]? = some fa) (hb : bs[n]? = some fb)
    (hx : fa.locals[j]? = some (some x)) (hy : fb.locals[j]? = some (some y))
    (hxt : x.WellTyped) (hyt : y.WellTyped) : ∃ f : StackFrame, ∃ z, fs[n]? = some f ∧
      f.locals[j]? = some (some z) ∧
      ∀ ρ, z.eval ρ = if inA.eval ρ = 1 then x.eval ρ else y.eval ρ := by
  obtain ⟨f, hf, hl⟩ := hS.frame ha hb
  refine ⟨f, _, hf, hl ▸ mergeLocals_get hx hy, fun ρ => ?_⟩
  split
  next hne =>
    have hs := L.select (c := inA) (t := x) (f := y)
      ⟨hA.1, hxt, hyt, hA.2, (hS.locals ha hb).width j x y hx hy hne⟩
    rw [hs.eval_eq, Expr.eval]
  next heq => rw [Decidable.not_not.1 heq, ite_self]

end

structure DirtyMaskMerged (cpu : CpuObjects) (h : Heap) (s : ExecutionState) (h' : Heap)
    (s' : ExecutionState) : Prop where
  host : h'.host = h.host
  conditions : h'.conditions = h.conditions
  constraints : s'.constraints = s.constraints
  stack : s'.stack = s.stack
  kept : mo ≠ cpu.dirtyMask → (mo, k) ∈ s.addressSpace.objects →
    (mo, k) ∈ s'.addressSpace.objects ∧ h'.objectStates.get k = h.objectStates.get k

theorem Writeable.dirtyMask (hW : Writeable h s cpu.dirtyMask r w h' s') (hB : Bound h s)
    (hm : (cpu.dirtyMask, r) ∈ s.addressSpace.objects) :
    DirtyMaskMerged cpu h s (clearDirtyMask h' w r' n) s' where
  host := hW.host
  conditions := hW.conditions
  constraints := by rw [hW.rest]
  stack := by rw [hW.rest]
  kept {mo k} hne hk := by
    have hkw : w ≠ k := by
      intro he
      obtain hwr | hge := hW.fresh
      · apply hne
        rw [← hB.object hk, ← he, hwr, hB.object hm]
      · have hlt := hB.lt_size hk
        omega
    constructor
    · rw [hW.objects, mem_map_rebind]
      exact .inr ⟨hne, hk⟩
    · exact (Store.get_modify_ne _ _ hkw).trans (hW.old (hB.lt_size hk))

theorem mergeDirtyMask_ok (hB : Bound h s) (hm : (cpu.dirtyMask, r) ∈ s.addressSpace.objects)
    (hok : mergeDirtyMask cpu o h s = .ok (h', s')) : DirtyMaskMerged cpu h s h' s' := by
  rw [mergeDirtyMask, hB.sorted.findObject hm] at hok
  split at hok
  next os otherOS he _ =>
    obtain rfl := some.inj he
    obtain ⟨⟨w, h1, s1⟩, hget, hr⟩ := bind_ok_iff.1 hok
    obtain ⟨w', h1', s1', hget', hW⟩ := getWriteable_spec cpu hB hm (getWriteable_writable hget)
    rw [hget] at hget'
    cases hget'
    split at hr
    · cases hr
      exact hW.dirtyMask hB hm
    · cases hr
  · cases hok

theorem mergeDirtyMask_total (hB : Bound h s) (hO : Bound h o)
    (hm : (cpu.dirtyMask, r) ∈ s.addressSpace.objects)
    (hm' : (cpu.dirtyMask, r') ∈ o.addressSpace.objects)
    (hro : (h.objectStates.get r).readOnly = false)
    (hc : isAllConcrete (h.objectStates.get r) = true)
    (hc' : isAllConcrete (h.objectStates.get r') = true) :
    ∃ hs, mergeDirtyMask cpu o h s = .ok hs := by
  obtain ⟨w, h1, s1, hg, hW⟩ := getWriteable_spec cpu hB hm hro
  have hw : isAllConcrete (h1.objectStates.get w) = true := by
    rw [hW.state]
    exact hc
  have hr' : isAllConcrete (h1.objectStates.get r') = true := by
    rw [hW.old (hO.lt_size hm')]
    exact hc'
  rw [mergeDirtyMask, hB.sorted.findObject hm, hO.sorted.findObject hm']
  simp only [hg, bind, Except.bind, hw, hr']
  exact ⟨_, rfl⟩

def byteValue (b : ExprBuilder) (h : Heap) (r : Nat) (ρ : Assignment) (i : Nat) : Option Nat :=
  match (h.view r).read8 b i with
  | .ok p => some (p.1.eval ρ)
  | .error _ => none

structure WellFormed (cpu : CpuObjects) (h : Heap) (s : ExecutionState) : Prop where
  bound : Bound h s
  root : (h.conditions.get s.constraints.root).parent = none
  root_lt : s.constraints.root < h.conditions.size
  head_lt : s.constraints.head < h.conditions.size
  path : ∃ l, s.constraints.path h.conditions = some l
  locals_typed {n j : Nat} {f : StackFrame} {e : Expr} : s.stack[n]? = some f →
    f.locals[j]? = some (some e) → e.WellTyped
  defined : s.constraints.Satisfied h.conditions ρ → (mo, r) ∈ s.addressSpace.objects →
    (h.objectStates.get r).updates.head.Defined ρ
  dirtyMask : ∃ r, (cpu.dirtyMask, r) ∈ s.addressSpace.objects ∧
    (h.objectStates.get r).readOnly = false ∧ isAllConcrete (h.objectStates.get r) = true

/-- It stands for the first state under its conditions, else for the second. -/
structure ExactMerge (cpu : CpuObjects) (b : ExprBuilder) (h : Heap) (s o : ExecutionState)
    (h' : Heap) (s' : ExecutionState) (shared onlyA onlyB : List Nat) : Prop where
  constraints : s'.constraints.Satisfied h'.conditions ρ ↔ Holds h.conditions shared ρ ∧
    (Holds h.conditions onlyA ρ ∨ Holds h.conditions onlyB ρ)
  locals {n j : Nat} {fa fb : StackFrame} {x y : Expr} : s'.constraints.Satisfied h'.conditions ρ →
    s.stack[n]? = some fa → o.stack[n]? = some fb →
    fa.locals[j]? = some (some x) → fb.locals[j]? = some (some y) →
    ∃ f : StackFrame, ∃ z, s'.stack[n]? = some f ∧ f.locals[j]? = some (some z) ∧
      (Holds h.conditions onlyA ρ → z.eval ρ = x.eval ρ) ∧
      (¬Holds h.conditions onlyA ρ → z.eval ρ = y.eval ρ)
  bytes : s'.constraints.Satisfied h'.conditions ρ → (mo, r) ∈ s.addressSpace.objects →
    mo.isValueIgnored = false → mo ≠ cpu.cpuSystemState → mo ≠ cpu.dirtyMask →
    ∃ r' w, (mo, r') ∈ o.addressSpace.objects ∧ (mo, w) ∈ s'.addressSpace.objects ∧
      ∀ i < mo.size, ∃ v, byteValue b h' w ρ i = some v ∧
        (Holds h.conditions onlyA ρ → byteValue b h r ρ i = some v) ∧
        (¬Holds h.conditions onlyA ρ → byteValue b h r' ρ i = some v)

theorem byteValue_of_settled (hs : (h.view r).settled b i = some e) :
    byteValue b h r ρ i = some (e.eval ρ) := by rw [byteValue, ObjectView.settled_read8 hs]

theorem byteValue_eq (L : MergeLawful b) (hB : Bound h s) (hm : (mo, r) ∈ s.addressSpace.objects)
    (hi : i < mo.size) (hd : (h.objectStates.get r).updates.head.Defined ρ) :
    byteValue b h r ρ i = some ((h.view r).byteAt ρ i).toNat := by
  have hi' : i < (h.view r).state.size := by
    rw [Heap.view, (hB.valid hm).size_eq, hB.object hm]
    exact hi
  obtain ⟨e, ul, n, hr, _, _, _, he⟩ := ObjectView.read8_spec L.read (hB.valid hm) hi'
  rw [byteValue, hr]
  exact congrArg some (he ρ hd)

end ExecutionState
end Chef
