import Chef.MergedBytes

namespace Chef
open Foundations List
namespace ExecutionState
open AddressSpace ObjectState
structure ObjectMerged (b : ExprBuilder) (inA : Expr) (h : Heap) (s : ExecutionState)
    (mo : MemoryObject) (r r' w : Nat) (h' : Heap) (s' : ExecutionState) : Prop where
  host : h'.host = h.host
  conditions : h'.conditions = h.conditions
  size_le : h.objectStates.size ≤ h'.objectStates.size
  lt_size : w < h'.objectStates.size
  old : k < h.objectStates.size → k ≠ r → k ≠ r' → h'.objectStates.get k = h.objectStates.get k
  other : ∃ updates, h'.objectStates.get r' = { h.objectStates.get r' with updates := updates } ∧
    UpdatesAgree (h.objectStates.get r') updates
  object : (h'.objectStates.get w).object = mo
  valid : (h'.objectStates.get w).Valid
  objects : s'.addressSpace.objects =
    s.addressSpace.objects.map fun e => if e.1 = mo then (mo, w) else e
  rest : s' = { s with
    addressSpace := s'.addressSpace
    cpuSystemObject := s'.cpuSystemObject
    memcache := s'.memcache }
  merged : i < mo.size → ∃ e, (h'.view w).settled b i = some e ∧
    Chosen inA (h.objectStates.get r) (h.objectStates.get r') i e

theorem mergeObject_spec (cpu : CpuObjects) (littleEndian : Bool) (L : MergeLawful b)
    (hB : Bound h s) (hO : Bound h o)
    (hm : (mo, r) ∈ s.addressSpace.objects) (hm' : (mo, r') ∈ o.addressSpace.objects)
    (hne : r ≠ r') (hs : mo.isSharedConcrete = false)
    (hro : (h.objectStates.get r).readOnly = false) (hA : inA.WellTyped) (hA' : inA.width = 1) :
    ∃ w h' s', mergeObject cpu b littleEndian inA o (h, s) mo = .ok (h', s') ∧
      ObjectMerged b inA h s mo r r' w h' s' := by
  obtain ⟨w, h1, s1, hg, hW⟩ := getWriteable_spec cpu hB hm hro
  have hobj := hB.object hm
  have hobj' := hO.object hm'
  have hvd := hB.valid hm
  have hvl := hO.valid hm'
  have hr' := hO.lt_size hm'
  have hwr' : w ≠ r' := by
    obtain he | hge := hW.fresh
    · exact he ▸ hne
    · omega
  have hr1 : h1.objectStates.get r' = h.objectStates.get r' := hW.old hr'
  have hw1 : (h1.objectStates.get w).Valid := by
    rw [hW.state]
    exact ⟨hvd.size_eq, hvd.size_lt, hvd.cached, hvd.known_typed,
      hvd.known_symbolic, hvd.updates_typed, hvd.root_size⟩
  have hobj1 : (h1.objectStates.get w).object = mo := by
    rw [hW.state]
    exact hobj
  have hz : (h1.objectStates.get w).size = mo.size := by rw [hw1.size_eq, hobj1]
  have hsi : (h1.objectStates.get r').size = mo.size := by rw [hr1, hvl.size_eq, hobj']
  obtain ⟨h', hlp, hmr⟩ := foldlM_range_total (n := mo.size)
    (f := mergeByte b littleEndian inA w r') (x := h1) (BytesMerged b inA h1 w r')
    (.init hw1 (hr1 ▸ hvl)) (by
      intro done i h hi hnd hP
      apply hP.step L hwr' hW.lt_size (Nat.lt_of_lt_of_le hr' hW.size_le) (hr1 ▸ hvl) _ _
        (hz ▸ hi) (hsi ▸ hi) hnd hA hA'
      · rw [ObjectView.isShared, Heap.view, hr1, hobj']
        exact hs
      · rw [ObjectView.isShared, Heap.view, hobj1]
        exact hs)
  refine ⟨w, h', s1, ?_, ?_⟩
  · rw [mergeObject, hB.sorted.findObject hm, hO.sorted.findObject hm']
    simp only [hg, bind, Except.bind, hlp]
    rfl
  refine ⟨hmr.host.trans hW.host, hmr.conditions.trans hW.conditions, ?_, ?_, ?_, ?_,
    hmr.object.trans hobj1, hmr.valid, hW.objects, hW.rest, ?_⟩
  · rw [hmr.size_eq]
    exact hW.size_le
  · rw [hmr.size_eq]
    exact hW.lt_size
  · intro k hk hkr hkr'
    have hkw : k ≠ w := by
      obtain he | hge := hW.fresh
      · exact he ▸ hkr
      · omega
    rw [hmr.others hkw hkr']
    exact hW.old hk
  · rw [← hr1]
    exact hmr.other
  · intro i hi
    obtain ⟨e, he, hc⟩ := hmr.merged (mem_range.2 hi)
    rw [hW.state, hr1] at hc
    exact ⟨e, he, hc⟩

structure ObjectsMerged (b : ExprBuilder) (inA : Expr) (h0 : Heap) (s0 o : ExecutionState)
    (done : List MemoryObject) (hs : Heap × ExecutionState) : Prop where
  host : hs.1.host = h0.host
  conditions : hs.1.conditions = h0.conditions
  bound : Bound hs.1 hs.2
  otherBound : Bound hs.1 o
  rest : hs.2 = { s0 with
    addressSpace := hs.2.addressSpace
    cpuSystemObject := hs.2.cpuSystemObject
    memcache := hs.2.memcache }
  pending : (mo, r) ∈ s0.addressSpace.objects → mo ∉ done →
    (mo, r) ∈ hs.2.addressSpace.objects ∧ hs.1.objectStates.get r = h0.objectStates.get r
  other : (mo, r') ∈ o.addressSpace.objects → ∃ updates,
    hs.1.objectStates.get r' = { h0.objectStates.get r' with updates := updates } ∧
      UpdatesAgree (h0.objectStates.get r') updates
  merged : mo ∈ done → (mo, r) ∈ s0.addressSpace.objects → (mo, r') ∈ o.addressSpace.objects →
    ∃ w, (mo, w) ∈ hs.2.addressSpace.objects ∧ ∀ i < mo.size, ∃ e,
      (hs.1.view w).settled b i = some e ∧
        Chosen inA (h0.objectStates.get r) (h0.objectStates.get r') i e

theorem ObjectsMerged.init (hB : Bound h0 s0) (hO : Bound h0 o) :
    ObjectsMerged b inA h0 s0 o [] (h0, s0) := by
  refine ⟨rfl, rfl, hB, hO, rfl, fun hm _ => ⟨hm, rfl⟩, fun hm => ?_, fun hm => ?_⟩
  · exact ⟨_, rfl, (hO.valid hm).agree⟩
  · cases hm

section
variable (hM : ObjectMerged b inA h s mo r r' w h' s')
include hM
theorem ObjectMerged.frame
    (hobj : (h.objectStates.get r).object = mo) (hobj' : (h.objectStates.get r').object = mo)
    (hk : k < h.objectStates.size) (hmo : (h.objectStates.get k).object ≠ mo) :
    h'.objectStates.get k = h.objectStates.get k := by
  apply hM.old hk
  · intro he
    exact hmo (he ▸ hobj)
  · intro he
    exact hmo (he ▸ hobj')

theorem ObjectMerged.bound (hB : Bound h s)
    (hm : (mo, r) ∈ s.addressSpace.objects) (hobj' : (h.objectStates.get r').object = mo) :
    Bound h' s' := by
  have hfr : ∀ {mo' k}, mo' ≠ mo → (mo', k) ∈ s.addressSpace.objects →
      h'.objectStates.get k = h.objectStates.get k := by
    intro mo' k hne hk
    apply hM.frame (hB.object hm) hobj' (hB.lt_size hk)
    rw [hB.object hk]
    exact hne
  constructor
  · rw [hM.objects]
    exact hB.sorted.map_rebind mo w
  · intro mo' k hk
    rw [hM.objects, mem_map_rebind] at hk
    obtain ⟨rfl, rfl, _⟩ | ⟨_, hk⟩ := hk
    · exact hM.lt_size
    · exact Nat.lt_of_lt_of_le (hB.lt_size hk) hM.size_le
  · intro mo' k hk
    rw [hM.objects, mem_map_rebind] at hk
    obtain ⟨rfl, rfl, _⟩ | ⟨hne, hk⟩ := hk
    · exact hM.object
    · rw [hfr hne hk]
      exact hB.object hk
  · intro mo' k hk
    rw [hM.objects, mem_map_rebind] at hk
    obtain ⟨rfl, rfl, _⟩ | ⟨hne, hk⟩ := hk
    · exact hM.valid
    · rw [hfr hne hk]
      exact hB.valid hk

variable (hO : Bound h o) (hobj : (h.objectStates.get r).object = mo)
  (hm' : (mo, r') ∈ o.addressSpace.objects)
include hO hobj hm'
theorem ObjectMerged.otherState (hk : (mo', k) ∈ o.addressSpace.objects) : ∃ updates,
    h'.objectStates.get k = { h.objectStates.get k with updates := updates } ∧
      UpdatesAgree (h.objectStates.get k) updates := by
  by_cases hmo : mo' = mo
  · subst hmo
    obtain ⟨_, rfl⟩ := hO.sorted.address_eq hk hm' rfl
    exact hM.other
  refine ⟨(h.objectStates.get k).updates, ?_, (hO.valid hk).agree⟩
  apply hM.frame hobj (hO.object hm') (hO.lt_size hk)
  rw [hO.object hk]
  exact hmo

theorem ObjectMerged.otherBound : Bound h' o := by
  refine ⟨hO.sorted, fun hk => Nat.lt_of_lt_of_le (hO.lt_size hk) hM.size_le, ?_, ?_⟩
  · intro mo' k hk
    obtain ⟨updates, hst, _⟩ := hM.otherState hO hobj hm' hk
    rw [hst]
    exact hO.object hk
  · intro mo' k hk
    obtain ⟨updates, hst, ha⟩ := hM.otherState hO hobj hm' hk
    rw [hst]
    exact ha.valid (hO.valid hk)

end

theorem ObjectsMerged.step (hI : ObjectsMerged b inA h0 s0 o done (h, s)) (hB : Bound h0 s0)
    (hO : Bound h0 o) (hmo : mo ∉ done) (hm : (mo, r) ∈ s0.addressSpace.objects)
    (hm' : (mo, r') ∈ o.addressSpace.objects) (hM : ObjectMerged b inA h s mo r r' w h' s') :
    ObjectsMerged b inA h0 s0 o (done ++ [mo]) (h', s') := by
  obtain ⟨hms, hget⟩ := hI.pending hm hmo
  have hobj := hI.bound.object hms
  have hobj' := hI.otherBound.object hm'
  refine ⟨hM.host.trans hI.host, hM.conditions.trans hI.conditions, hM.bound hI.bound hms hobj',
    hM.otherBound hI.otherBound hobj hm', ?_, ?_, ?_, ?_⟩
  · have hr := hM.rest
    have hs : s = { s0 with
      addressSpace := s.addressSpace
      cpuSystemObject := s.cpuSystemObject
      memcache := s.memcache } := hI.rest
    rw [hs] at hr
    exact hr
  · intro mo1 r1 hm1 hd1
    rw [mem_append, mem_singleton, not_or] at hd1
    obtain ⟨hms1, hg1⟩ := hI.pending hm1 hd1.1
    constructor
    · rw [hM.objects, mem_map_rebind]
      exact .inr ⟨hd1.2, hms1⟩
    · rw [hM.frame hobj hobj' (hI.bound.lt_size hms1) (hI.bound.object hms1 ▸ hd1.2)]
      exact hg1
  · intro mo1 k hk
    obtain ⟨ul, hul, ha⟩ := hI.other hk
    obtain ⟨ul', hul', hag⟩ := hM.otherState hI.otherBound hobj hm' hk
    rw [hul] at hul' hag
    exact ⟨ul', hul', ha.trans hag⟩
  · intro mo1 r1 r1' hd1 hm1 hm1'
    obtain hd1 | hd1 := mem_append.1 hd1
    · have hne : mo1 ≠ mo := fun he => hmo (he ▸ hd1)
      obtain ⟨w1, hw1, hbs⟩ := hI.merged hd1 hm1 hm1'
      refine ⟨w1, ?_, fun i hi => ?_⟩
      · rw [hM.objects, mem_map_rebind]
        exact .inr ⟨hne, hw1⟩
      obtain ⟨e, he, hc⟩ := hbs i hi
      refine ⟨e, ?_, hc⟩
      rw [← he]
      exact ObjectView.settled_congr (hM.frame hobj hobj' (hI.bound.lt_size hw1)
        (hI.bound.object hw1 ▸ hne)) hM.host
    · obtain rfl := mem_singleton.1 hd1
      obtain ⟨_, rfl⟩ := hB.sorted.address_eq hm1 hm rfl
      obtain ⟨_, rfl⟩ := hO.sorted.address_eq hm1' hm' rfl
      refine ⟨w, ?_, fun i hi => ?_⟩
      · rw [hM.objects, mem_map_rebind]
        exact .inl ⟨rfl, rfl, _, hms⟩
      obtain ⟨e, he, hc⟩ := hM.merged hi
      refine ⟨e, he, fun ρ => ?_⟩
      obtain ⟨ul, hul, ha⟩ := hI.other hm'
      have hc' := hc ρ
      rw [hget, hul] at hc'
      refine ⟨hc'.1, fun hA hd => ?_⟩
      rw [hc'.2 hA (ha.defined hd), ha.contents]
      rw [(hO.valid hm').size_eq, hO.object hm']
      exact hi

theorem isMutated_iff : isMutated cpu mo r r' = true ↔
    r ≠ r' ∧ mo.isValueIgnored = false ∧ mo ≠ cpu.cpuSystemState ∧ mo ≠ cpu.dirtyMask := by
  simp [isMutated, and_assoc]

theorem mutatedObjects_eq_some_iff : mutatedObjects cpu as bs = some mos ↔
    as.map Prod.fst = bs.map Prod.fst ∧
      (∀ p ∈ as.zip bs, isMutated cpu p.1.1 p.1.2 p.2.2 = true → p.1.1.isSharedConcrete = false) ∧
      mos = ((as.zip bs).filter fun p => isMutated cpu p.1.1 p.1.2 p.2.2).map fun p => p.1.1 := by
  fun_induction mutatedObjects cpu as bs generalizing mos with
  | case1 ma ra as mb rb bs hne =>
    constructor
    · rintro ⟨⟩
    · rintro ⟨h, _⟩
      exact absurd (cons.inj h).1 hne
  | case2 ma ra as mb rb bs heq hm hs =>
    constructor
    · rintro ⟨⟩
    rintro ⟨_, h, _⟩
    have hns := h ((ma, ra), (mb, rb)) mem_cons_self hm
    rw [hs] at hns
    cases hns
  | case3 ma ra as mb rb bs heq hm hs ih =>
    obtain rfl := Decidable.not_not.1 heq
    rw [Option.map_eq_some_iff]
    simp only [ih, zip_cons_cons, map_cons, forall_mem_cons, filter_cons, hm, if_true]
    constructor
    · rintro ⟨mos', ⟨hsm, hns, hms⟩, h⟩
      exact ⟨by rw [hsm], ⟨fun _ => Bool.eq_false_iff.2 hs, hns⟩, by rw [← h, hms]⟩
    · rintro ⟨hsm, ⟨_, hns⟩, hms⟩
      exact ⟨_, ⟨(cons.inj hsm).2, hns, rfl⟩, hms.symm⟩
  | case4 ma ra as mb rb bs heq hm ih =>
    obtain rfl := Decidable.not_not.1 heq
    simp only [ih, zip_cons_cons, map_cons, forall_mem_cons, filter_cons, hm]
    simp
  | case5 =>
    constructor
    · rintro ⟨⟩
      exact ⟨rfl, by simp, rfl⟩
    · rintro ⟨_, _, h⟩
      exact congrArg some h.symm
  | case6 as bs hc hn =>
    constructor
    · rintro ⟨⟩
    rintro ⟨hsm, _⟩
    cases as with
    | nil => exact (hn rfl (map_eq_nil_iff.1 hsm.symm)).elim
    | cons e as =>
      cases bs with
      | nil => cases hsm
      | cons e' bs => exact (hc _ _ _ _ _ _ rfl rfl).elim

theorem mem_zip_iff (hs : Sorted as) (hs' : Sorted bs) (h : as.map Prod.fst = bs.map Prod.fst) :
    ((mo, r), (mo', r')) ∈ as.zip bs ↔ mo' = mo ∧ (mo, r) ∈ as ∧ (mo, r') ∈ bs := by
  induction as generalizing bs with
  | nil => simp
  | cons e as ih =>
    cases bs with
    | nil => cases h
    | cons e' bs =>
      obtain ⟨ma, ra⟩ := e
      obtain ⟨mb, rb⟩ := e'
      obtain ⟨he, hr⟩ := cons.inj h
      obtain rfl : ma = mb := he
      rw [Sorted, pairwise_cons] at hs hs'
      rw [zip_cons_cons, mem_cons, ih hs.2 hs'.2 hr]
      have hn : ∀ {k} {l : List (MemoryObject × Nat)}, (∀ e ∈ l, ma.address < e.1.address) →
          (ma, k) ∉ l := by
        intro k l hlt hmem
        exact Nat.lt_irrefl _ (hlt _ hmem)
      constructor
      · intro hp
        obtain hp | ⟨rfl, hm, hm'⟩ := hp
        · cases hp
          exact ⟨rfl, mem_cons_self, mem_cons_self⟩
        · exact ⟨rfl, mem_cons_of_mem _ hm, mem_cons_of_mem _ hm'⟩
      · rintro ⟨hmo, hm, hm'⟩
        subst hmo
        obtain he | hin := mem_cons.1 hm
        · cases he
          obtain he' | hin' := mem_cons.1 hm'
          · cases he'
            exact .inl rfl
          · exact absurd hin' (hn hs'.1)
        · obtain he' | hin' := mem_cons.1 hm'
          · cases he'
            exact absurd hin (hn hs.1)
          · exact .inr ⟨rfl, hin, hin'⟩

def Differs (cpu : CpuObjects) (s o : ExecutionState) (mo : MemoryObject) (r r' : Nat) : Prop :=
  (mo, r) ∈ s.addressSpace.objects ∧ (mo, r') ∈ o.addressSpace.objects ∧ r ≠ r' ∧
    mo.isValueIgnored = false ∧ mo ≠ cpu.cpuSystemState ∧ mo ≠ cpu.dirtyMask

structure Mutated (cpu : CpuObjects) (s o : ExecutionState) (mos : List MemoryObject) : Prop where
  nodup : mos.Nodup
  mem_iff : mo ∈ mos ↔ ∃ r r', Differs cpu s o mo r r'
  concrete : mo ∈ mos → mo.isSharedConcrete = false

theorem Mutated.perm (h : Mutated cpu s o mos) (hp : mos'.Perm mos) : Mutated cpu s o mos' where
  nodup := hp.nodup_iff.2 h.nodup
  mem_iff := hp.mem_iff.trans h.mem_iff
  concrete hm := h.concrete (hp.mem_iff.1 hm)

theorem Mutated.dirtyMask_notMem (h : Mutated cpu s o mos) : cpu.dirtyMask ∉ mos := by
  intro hm
  obtain ⟨r, r', hd⟩ := h.mem_iff.1 hm
  exact hd.2.2.2.2.2 rfl

theorem mutatedObjects_spec (hs : Sorted s.addressSpace.objects)
    (ho : Sorted o.addressSpace.objects)
    (h : mutatedObjects cpu s.addressSpace.objects o.addressSpace.objects = some mos) :
    s.addressSpace.objects.map Prod.fst = o.addressSpace.objects.map Prod.fst ∧
      Mutated cpu s o mos := by
  obtain ⟨hsm, hns, rfl⟩ := mutatedObjects_eq_some_iff.1 h
  have hmem : ∀ {mo}, mo ∈ ((s.addressSpace.objects.zip o.addressSpace.objects).filter fun p =>
      isMutated cpu p.1.1 p.1.2 p.2.2).map (fun p => p.1.1) ↔ ∃ r r', Differs cpu s o mo r r' := by
    intro mo
    simp only [mem_map, mem_filter, isMutated_iff, Differs]
    constructor
    · rintro ⟨⟨⟨ma, r⟩, mb, r'⟩, ⟨hp, ht⟩, he⟩
      obtain ⟨rfl, hm, hm'⟩ := (mem_zip_iff hs ho hsm).1 hp
      obtain rfl : mb = mo := he
      exact ⟨r, r', hm, hm', ht⟩
    · rintro ⟨r, r', hm, hm', ht⟩
      exact ⟨((mo, r), (mo, r')), ⟨(mem_zip_iff hs ho hsm).2 ⟨rfl, hm, hm'⟩, ht⟩, rfl⟩
  refine ⟨hsm, ?_, hmem, ?_⟩
  · have hf : (s.addressSpace.objects.zip o.addressSpace.objects).map (fun p => p.1.1) =
        s.addressSpace.objects.map Prod.fst := by
      have hl := congrArg length hsm
      rw [length_map, length_map] at hl
      have hz := congrArg (map Prod.fst) (map_fst_zip (Nat.le_of_eq hl))
      rw [map_map] at hz
      exact hz
    have hnd : (s.addressSpace.objects.map Prod.fst).Nodup := by
      apply List.Pairwise.map _ _ hs
      intro e e' hlt he
      rw [he] at hlt
      exact Nat.lt_irrefl _ hlt
    rw [← hf] at hnd
    exact hnd.sublist (filter_sublist.map _)
  · intro mo hmo
    obtain ⟨p, hp, rfl⟩ := mem_map.1 hmo
    obtain ⟨hp, ht⟩ := mem_filter.1 hp
    exact hns p hp ht

theorem mergeObject_step (littleEndian : Bool) (L : MergeLawful b)
    (hI : ObjectsMerged b inA h0 s0 o done (h, s)) (hB : Bound h0 s0) (hO : Bound h0 o)
    (hmo : mo ∉ done) (hd : Differs cpu s0 o mo r r') (hh : mo.isSharedConcrete = false)
    (hr : (h0.objectStates.get r).readOnly = false) (hA : inA.WellTyped ∧ inA.width = 1) :
    ∃ hs, mergeObject cpu b littleEndian inA o (h, s) mo = .ok hs ∧
      ObjectsMerged b inA h0 s0 o (done ++ [mo]) hs := by
  obtain ⟨hm, hm', hne, _⟩ := hd
  obtain ⟨hms, hg⟩ := hI.pending hm hmo
  rw [← hg] at hr
  obtain ⟨w, h', s', hok, hM⟩ := mergeObject_spec cpu littleEndian L hI.bound hI.otherBound hms hm'
    hne hh hr hA.1 hA.2
  exact ⟨_, hok, hI.step hB hO hmo hm hm' hM⟩

theorem mergeObject_writable (hI : ObjectsMerged b inA h0 s0 o done (h, s))
    (hmo : mo ∉ done) (hm : (mo, r) ∈ s0.addressSpace.objects)
    (hok : mergeObject cpu b littleEndian inA o (h, s) mo = .ok hs) :
    (h0.objectStates.get r).readOnly = false := by
  obtain ⟨hms, hg⟩ := hI.pending hm hmo
  rw [← hg]
  rw [mergeObject, hI.bound.sorted.findObject hms] at hok
  split at hok
  next os otherOS he _ =>
    obtain rfl := Option.some.inj he
    obtain ⟨wos, hw, _⟩ := bind_ok_iff.1 hok
    exact getWriteable_writable hw
  · cases hok

theorem mergeObjects_total (littleEndian : Bool) (L : MergeLawful b) (hB : Bound h0 s0)
    (hO : Bound h0 o) (hm : Mutated cpu s0 o mos)
    (hr : ∀ {mo r r'}, Differs cpu s0 o mo r r' → (h0.objectStates.get r).readOnly = false)
    (hA : inA.WellTyped ∧ inA.width = 1) :
    ∃ hs, mos.foldlM (mergeObject cpu b littleEndian inA o) (h0, s0) = .ok hs ∧
      ObjectsMerged b inA h0 s0 o mos hs := by
  apply foldlM_total (ObjectsMerged b inA h0 s0 o) (.init hB hO)
  intro done mo rest ⟨h, s⟩ hl hI
  have hmem : mo ∈ mos := hl ▸ mem_append_cons_self
  obtain ⟨r, r', hd⟩ := hm.mem_iff.1 hmem
  exact mergeObject_step littleEndian L hI hB hO (notMem_of_nodup hm.nodup hl) hd
    (hm.concrete hmem) (hr hd) hA

theorem mergeObjects_ok (L : MergeLawful b) (hB : Bound h0 s0) (hO : Bound h0 o)
    (ht : Mutated cpu s0 o mos) (hA : inA.WellTyped ∧ inA.width = 1)
    (hok : mos.foldlM (mergeObject cpu b littleEndian inA o) (h0, s0) = .ok hs) :
    ObjectsMerged b inA h0 s0 o mos hs ∧
      ∀ {mo r r'}, Differs cpu s0 o mo r r' → (h0.objectStates.get r).readOnly = false := by
  have hlp := foldlM_ok (fun done hs => ObjectsMerged b inA h0 s0 o done hs ∧
    ∀ {mo r}, mo ∈ done → (mo, r) ∈ s0.addressSpace.objects →
      (h0.objectStates.get r).readOnly = false) ⟨.init hB hO, fun hm => by cases hm⟩ ?_ hok
  · refine ⟨hlp.1, fun {mo r r'} hd => ?_⟩
    exact hlp.2 (ht.mem_iff.2 ⟨r, r', hd⟩) hd.1
  intro done mo rest ⟨h, s⟩ hs hl ⟨hI, hw⟩ hok
  have hmem : mo ∈ mos := hl ▸ mem_append_cons_self
  have hmo := notMem_of_nodup ht.nodup hl
  obtain ⟨r, r', hd⟩ := ht.mem_iff.1 hmem
  have hro := mergeObject_writable hI hmo hd.1 hok
  obtain ⟨hs', hok', hI'⟩ := mergeObject_step littleEndian L hI hB hO hmo hd
    (ht.concrete hmem) hro hA
  rw [hok] at hok'
  obtain rfl := Except.ok.inj hok'
  refine ⟨hI', fun {mo1 r1} hm1 hr1 => ?_⟩
  obtain hm1 | hm1 := mem_append.1 hm1
  · exact hw hm1 hr1
  obtain rfl := mem_singleton.1 hm1
  obtain ⟨_, rfl⟩ := hB.sorted.address_eq hr1 hd.1 rfl
  exact hro

end ExecutionState
end Chef
