import Chef.PathReading
import Chef.Foundations.Transition
import Mathlib.Data.List.Perm.Subperm

namespace Chef
open Foundations List Option PathBuilder
namespace PathRun
variable {δ π σ : Type}
def listen (L : Listeners δ π σ) (items : List (TraceEntry δ)) (indices : List Nat)
    (m : StateMap π σ) : StateMap π σ :=
  indices.foldl (fun m k =>
    match items[k]? with
    | some e => L.onEachItem k e m
    | none => m) m

def itemsAt (items : List (TraceEntry δ)) (indices : List Nat) : List (Nat × TraceEntry δ) :=
  indices.filterMap fun k => items[k]?.map (k, ·)

section
variable {items : List (TraceEntry δ)} {indices : List Nat}
theorem mem_itemsAt : (k, e) ∈ itemsAt items indices ↔ k ∈ indices ∧ items[k]? = some e := by
  rw [itemsAt, mem_filterMap]
  constructor
  · rintro ⟨k', hk', he⟩
    obtain ⟨e', he', heq⟩ := map_eq_some_iff.1 he
    cases heq
    exact ⟨hk', he'⟩
  · rintro ⟨hk, he⟩
    exact ⟨k, hk, by rw [he]; rfl⟩

theorem itemsAt_pairwise (h : indices.Pairwise (· < ·)) : (itemsAt items indices).Pairwise (·.1 <
    ·.1) := by
  apply List.Pairwise.filterMap _ _ h
  intro k k' hlt x hx x' hx'
  obtain ⟨e, _, rfl⟩ := map_eq_some_iff.1 hx
  obtain ⟨e', _, rfl⟩ := map_eq_some_iff.1 hx'
  exact hlt

end

section
variable {L : Listeners δ π σ} {items : List (TraceEntry δ)} {r r' r1 r2 : PathRun δ π σ}
  {seg : Nat} {indices : List Nat}

theorem setState_self (seg : Nat) (m : StateMap π σ) (r : PathRun δ π σ) :
    (r.setState seg m).segmentState seg = m := by simp [setState]

theorem setState_ne (hj : j ≠ seg) (m : StateMap π σ) (r : PathRun δ π σ) :
    (r.setState seg m).segmentState j = r.segmentState j := by simp [setState, hj]

structure Processed (L : Listeners δ π σ) (items : List (TraceEntry δ)) (seg : Nat)
    (indices : List Nat) (r r' : PathRun δ π σ) : Prop where
  builder : r'.builder = r.builder
  own : r'.segmentState seg = listen L items indices (r.segmentState seg)
  other : ∀ {j}, j ≠ seg → r'.segmentState j = r.segmentState j
  delivered : r'.delivered = r.delivered ++ itemsAt items indices

theorem Processed.nil (r : PathRun δ π σ) : Processed L items seg [] r r :=
  ⟨rfl, rfl, fun _ => rfl, (append_nil _).symm⟩

theorem Processed.append (h : Processed L items seg indices r r1)
    (h' : Processed L items seg more r1 r2) : Processed L items seg (indices ++ more) r r2 where
  builder := h'.builder.trans h.builder
  own := by rw [h'.own, h.own, listen, listen, listen, foldl_append]
  other := fun hj => (h'.other hj).trans (h.other hj)
  delivered := by
    rw [h'.delivered, h.delivered, append_assoc, itemsAt, itemsAt, itemsAt, filterMap_append]

theorem processIndex_processed (hc : r.builder.currentSegment = seg)
    (he : items[k]? = some e) (hs : e.stateId = stateId) :
    ∃ r', r.processIndex L items stateId k = .ok r' ∧ Processed L items seg [k] r r' := by
  refine ⟨r.processItem L k e, ?_, rfl, ?_, ?_, ?_⟩
  · rw [processIndex, he]
    exact if_pos hs
  · refine (congrArg _ hc.symm).trans ((setState_self _ _ r).trans ?_)
    simp [listen, he, hc]
  · intro j hj
    exact setState_ne (hc ▸ hj) _ r
  · simp [processItem, itemsAt, he]

theorem processIndices_processed (hc : r.builder.currentSegment = seg)
    (h : ∀ k ∈ indices, ∃ e, items[k]? = some e ∧ e.stateId = stateId) :
    ∃ r', indices.foldlM (processIndex L items stateId) r = .ok r' ∧
      Processed L items seg indices r r' := by
  apply foldlM_total (fun done r' => Processed L items seg done r r') (.nil r)
  intro done k rest r1 hl hr1
  obtain ⟨e, he, hs⟩ := h k (hl ▸ mem_append_cons_self)
  obtain ⟨r2, hr2, hp⟩ := processIndex_processed (L := L) ((congrArg _ hr1.builder).trans hc) he hs
  exact ⟨r2, hr2, hr1.append hp⟩

theorem processSegment_processed (hc : r.builder.currentSegment = seg)
    (h : ∀ k ∈ (r.segment seg).indices,
      ∃ e, items[k]? = some e ∧ e.stateId = (r.segment seg).stateId) :
    ∃ r', r.processSegment L items seg = .ok r' ∧
      Processed L items seg (r.segment seg).indices r r' := by
  apply foldlM_total
    (fun done r' => Processed L items seg (done.flatMap PathFragment.indices) r r') (.nil r)
  intro done f rest r1 hl hr1
  have hs : r1.segment seg = r.segment seg := by rw [segment, segment, hr1.builder]
  have hf : ∀ k ∈ f.indices, ∃ e, items[k]? = some e ∧ e.stateId = (r1.segment seg).stateId := by
    intro k hk
    rw [hs]
    apply h k
    rw [PathSegment.indices, hl]
    exact mem_flatMap.2 ⟨f, mem_append_cons_self, hk⟩
  obtain ⟨r2, hr2, hp⟩ := processIndices_processed (L := L) ((congrArg _ hr1.builder).trans hc) hf
  refine ⟨r2, hr2, ?_⟩
  rw [flatMap_append, flatMap_singleton]
  exact hr1.append hp

structure Over (b : PathBuilder) (r : PathRun δ π σ) : Prop where
  segments : r.builder.segments = b.segments
  leaves : r.builder.leaves = b.leaves

theorem Over.segment (h : Over b r) (i : Nat) : r.segment i = b.segment i := by
  rw [PathRun.segment, PathBuilder.segment, PathBuilder.segment, h.segments]

def initialState (L : Listeners δ π σ) (b : PathBuilder) (r : PathRun δ π σ) (i : Nat) :
    StateMap π σ :=
  match (b.segment i).parent with
  | none => []
  | some p => (r.segmentState p).map fun e => (e.1, L.clone e.2)

def Settled (L : Listeners δ π σ) (items : List (TraceEntry δ)) (b : PathBuilder)
    (r : PathRun δ π σ) (i : Nat) : Prop :=
  r.segmentState i = listen L items (b.segment i).indices (initialState L b r i)

structure Visited (L : Listeners δ π σ) (items : List (TraceEntry δ)) (b : PathBuilder)
    (seg : Nat) (r r' : PathRun δ π σ) : Prop where
  onBuilder : Over b r'
  own : r'.segmentState seg = listen L items (b.segment seg).indices (initialState L b r seg)
  other : ∀ {j}, j ≠ seg → r'.segmentState j = r.segmentState j
  delivered : r'.delivered = r.delivered ++ itemsAt items (b.segment seg).indices

theorem visitSegment_visited (hr : Over b r) (hn : r.segmentState seg = [])
    (h : ∀ k ∈ (b.segment seg).indices,
      ∃ e, items[k]? = some e ∧ e.stateId = (b.segment seg).stateId) :
    ∃ r', r.visitSegment L items seg = .ok r' ∧ Visited L items b seg r r' := by
  have hcp : (r.enter seg).copyState L seg =
      .ok ((r.enter seg).setState seg (initialState L b r seg)) := by
    have hs : (r.enter seg).segment seg = b.segment seg := hr.segment seg
    rw [copyState, hs, initialState]
    cases (b.segment seg).parent with
    | none =>
      rw [setState, ← hn]
      simp [enter]
    | some p =>
      have hst : (r.enter seg).segmentState seg = [] := hn
      simp only [hst, isEmpty_nil, if_true]
      rfl
  rw [← hr.segment seg] at h
  have hc : ((r.enter seg).setState seg (initialState L b r seg)).builder.currentSegment = seg :=
    rfl
  obtain ⟨r', hr', hp⟩ := processSegment_processed (L := L) hc h
  refine ⟨r', ?_, ⟨?_, ?_⟩, ?_, ?_, ?_⟩
  · rw [visitSegment, hcp]
    exact hr'
  · rw [hp.builder]
    exact hr.segments
  · rw [hp.builder]
    exact hr.leaves
  · rw [hp.own, setState_self]
    exact congrArg (fun seg => listen L items seg.indices _) (hr.segment seg)
  · intro j hj
    rw [hp.other hj, setState_ne hj]
    rfl
  · rw [hp.delivered]
    exact congrArg (fun seg => r.delivered ++ itemsAt items seg.indices) (hr.segment seg)

theorem initialState_congr
    (h : ∀ p, (b.segment i).parent = some p → r'.segmentState p = r.segmentState p) :
    initialState L b r' i = initialState L b r i := by
  rw [initialState, initialState]
  cases hp : (b.segment i).parent with
  | none => rfl
  | some p => simp only [h p hp]

theorem Settled.congr (h : Settled L items b r i) (ho : r'.segmentState i = r.segmentState i)
    (hp : ∀ p, (b.segment i).parent = some p → r'.segmentState p = r.segmentState p) :
    Settled L items b r' i := by
  rw [Settled, ho, initialState_congr hp]
  exact h

theorem Visited.settled (h : Visited L items b seg r r')
    (hpa : ∀ p, (b.segment seg).parent = some p → p ≠ seg) : Settled L items b r' seg := by
  rw [Settled, h.own, initialState_congr fun p hp => h.other (hpa p hp)]

theorem settled_unique (hl : b.Lineage i path) (h1 : ∀ j ∈ path, Settled L items b r1 j)
    (h2 : ∀ j ∈ path, Settled L items b r2 j) : r1.segmentState i = r2.segmentState i := by
  induction hl with
  | root hp =>
    rw [h1 _ mem_cons_self, h2 _ mem_cons_self]
    apply congrArg
    apply initialState_congr
    intro p hp'
    rw [hp] at hp'
    cases hp'
  | child hp _ ih =>
    have hs := ih (fun j hj => h1 j (mem_cons_of_mem _ hj))
      (fun j hj => h2 j (mem_cons_of_mem _ hj))
    rw [h1 _ mem_cons_self, h2 _ mem_cons_self]
    apply congrArg
    apply initialState_congr
    intro p' hp'
    rw [hp] at hp'
    cases hp'
    exact hs

variable {b : PathBuilder}
structure Walked (L : Listeners δ π σ) (items : List (TraceEntry δ)) (b : PathBuilder)
    (path : List Nat) (r r' : PathRun δ π σ) : Prop where
  onBuilder : Over b r'
  settled : ∀ j ∈ path, Settled L items b r' j
  other : ∀ j, j ∉ path → r'.segmentState j = r.segmentState j
  delivered : r'.delivered = r.delivered ++ itemsAt items (b.pathIndices path)

theorem Visited.walked (h : Visited L items b seg r r') (hp : (b.segment seg).parent = none) :
    Walked L items b [seg] r r' where
  onBuilder := h.onBuilder
  settled := by
    intro j hj
    rw [mem_singleton.1 hj]
    apply h.settled
    intro p hp'
    rw [hp] at hp'
    cases hp'
  other := fun _ hj => h.other fun he => hj (mem_singleton.2 he)
  delivered := by
    rw [h.delivered]
    simp [pathIndices]

theorem Walked.visit (hb : b.IsTree states) (hs : seg < b.segments.size)
    (hl : b.Lineage seg (seg :: rest)) (h : Walked L items b rest r r1)
    (hv : Visited L items b seg r1 r') : Walked L items b (seg :: rest) r r' := by
  have hn := lineage_rest hb hs hl
  have hle := hl.le hb hs
  constructor
  case onBuilder => exact hv.onBuilder
  case settled =>
    intro j hj
    have hj' := hle j hj
    rcases mem_cons.1 hj with rfl | hm
    · apply hv.settled
      intro p hp
      exact Nat.ne_of_lt (hb.parent hs hp).1
    have hne : j ≠ seg := fun he => hn (he ▸ hm)
    apply (h.settled j hm).congr (hv.other hne)
    intro p hp
    have hlt := (hb.parent (by omega) hp).1
    exact hv.other (by omega)
  case other =>
    intro j hj
    rw [mem_cons, not_or] at hj
    rw [hv.other hj.1, h.other j hj.2]
  case delivered =>
    rw [hv.delivered, h.delivered, pathIndices_cons, append_assoc, itemsAt,
      itemsAt, itemsAt, filterMap_append]

theorem exists_walked (hb : b.IsTree states) (hh : b.Holds items) (hr : Over b r)
    (hi : i < b.segments.size) (hl : b.Lineage i path) (hn : ∀ j ∈ path, r.segmentState j = []) :
    ∃ r', path.reverse.foldlM (visitSegment L items) r = .ok r' ∧ Walked L items b path r r' := by
  induction hl with
  | root hp =>
    obtain ⟨r', hr', hv⟩ := visitSegment_visited (L := L) hr (hn _ mem_cons_self)
      fun k hk => hh.entries hi hk
    refine ⟨r', ?_, hv.walked hp⟩
    rw [reverse_singleton, foldlM_cons, hr']
    rfl
  | child hp hl ih =>
    have hlt := (hb.parent hi hp).1
    obtain ⟨r1, hr1, hw⟩ := ih (by omega) fun j hj => hn j (mem_cons_of_mem _ hj)
    have ht := lineage_rest hb hi (.child hp hl)
    have hst := (hw.other _ ht).trans (hn _ mem_cons_self)
    obtain ⟨r', hr', hv⟩ := visitSegment_visited (L := L) hw.onBuilder hst
      fun k hk => hh.entries hi hk
    refine ⟨r', ?_, hw.visit hb hi (.child hp hl) hv⟩
    rw [reverse_cons, foldlM_append, hr1]
    change foldlM (visitSegment L items) r1 _ = _
    rw [foldlM_cons, hr']
    rfl

theorem resetTree_eq (r : PathRun δ π σ) :
    r.resetTree = (r.builder.leaves.flatMap Prod.snd).foldl deleteState r := by
  rw [resetTree, foldl_flatMap]

theorem deleteStates (l : List Nat) (r : PathRun δ π σ) :
    (l.foldl deleteState r).builder = r.builder ∧ (l.foldl deleteState r).delivered = r.delivered ∧
      ∀ j, (l.foldl deleteState r).segmentState j = if j ∈ l then [] else r.segmentState j := by
  induction l generalizing r with
  | nil => exact ⟨rfl, rfl, fun _ => rfl⟩
  | cons i l ih =>
    obtain ⟨hl, hd, hst⟩ := ih (r.deleteState i)
    refine ⟨hl, hd, fun j => ?_⟩
    rw [foldl_cons, hst, deleteState]
    by_cases hj : j = i
    · subst hj
      rw [setState_self, if_pos mem_cons_self, ite_self]
    · rw [setState_ne hj]
      simp only [mem_cons, hj, false_or]

theorem resetTree_over (hr : Over b r) : Over b r.resetTree := by
  have hl := (deleteStates (r.builder.leaves.flatMap Prod.snd) r).1
  rw [← resetTree_eq] at hl
  exact ⟨by rw [hl, hr.segments], by rw [hl, hr.leaves]⟩

theorem resetTree_empty (hb : b.IsTree states) (hr : Over b r) (hi : i < b.segments.size) :
    r.resetTree.segmentState i = [] := by
  obtain ⟨l, hl, hm⟩ := hb.listed hi
  rw [resetTree_eq, (deleteStates _ r).2.2, hr.leaves]
  apply if_pos
  exact mem_flatMap.2 ⟨_, mem_of_lookup hl, hm⟩

theorem resetTree_delivered (r : PathRun δ π σ) : r.resetTree.delivered = r.delivered := by
  rw [resetTree_eq, (deleteStates _ r).2.1]

theorem ancestors_congr {b' : PathBuilder} (h : b'.segments = b.segments) (steps i : Nat) :
    b'.ancestors steps i = b.ancestors steps i := by
  induction steps generalizing i with
  | zero => rfl
  | succ steps ih => simp only [ancestors, PathBuilder.segment, h, ih]

theorem processPath_walked (hb : b.IsTree states) (hh : b.Holds items) (hr : Over b r)
    (ht : b.latest t = some i) :
    ∃ path r', b.Lineage i path ∧ r.processPath L items t = .ok (true, r') ∧
      Walked L items b path r.resetTree r' := by
  have hi := (hb.latest ht).1
  obtain ⟨path, hp, hl⟩ := exists_ancestors hb hi hi
  obtain ⟨r', hr', hw⟩ := exists_walked (L := L) hb hh (resetTree_over hr) hi hl
    fun j hj => resetTree_empty hb hr (Nat.lt_of_le_of_lt (hl.le hb hi j hj) hi)
  obtain ⟨segments, hk, hla⟩ := bind_eq_some_iff.1 ht
  have ha : r.builder.ancestors r.builder.segments.size i = some path := by
    rw [ancestors_congr hr.segments, hr.segments, hp]
  refine ⟨path, r', hl, ?_, hw⟩
  rw [processPath, (resetTree_over hr).leaves, hk]
  simp only [hla, ha, hr']
  rfl

structure Walk (L : Listeners δ π σ) (items : List (TraceEntry δ)) (b : PathBuilder)
    (done stack : List Nat) (r : PathRun δ π σ) : Prop where
  onBuilder : Over b r
  nodup : (done ++ stack).Nodup
  bound : ∀ i ∈ done ++ stack, i < b.segments.size
  settled : ∀ i ∈ done, Settled L items b r i
  empty : ∀ i, i ∉ done → r.segmentState i = []
  parent : ∀ {i p}, i ∈ done ++ stack → (b.segment i).parent = some p → p ∈ done
  child : ∀ {i c}, i ∈ done → c ∈ (b.segment i).children → c ∈ done ++ stack
  root : 0 ∈ done ++ stack

theorem Walk.length_le (h : Walk L items b done stack r) :
    done.length + stack.length ≤ b.segments.size := by
  have hs : done ++ stack ⊆ range b.segments.size := fun i hi => mem_range.2 (h.bound i hi)
  have hle := (subperm_of_subset h.nodup hs).length_le
  rw [length_append, length_range] at hle
  exact hle

theorem Walk.complete (h : Walk L items b done [] r) (hb : b.IsTree states)
    (hi : i < b.segments.size) : i ∈ done := by
  have hro := h.root
  rw [append_nil] at hro
  induction i using Nat.strongRecOn with
  | ind i ih =>
    cases hp : (b.segment i).parent with
    | none => exact hb.orphan hi hp ▸ hro
    | some p =>
      obtain ⟨hlt, hm⟩ := hb.parent hi hp
      have hd := h.child (ih p hlt (by omega)) hm
      rw [append_nil] at hd
      exact hd

variable (hb : b.IsTree states)
include hb
theorem Walk.next (h : Walk L items b done (seg :: stack) r) (hv : Visited L items b seg r r') :
    Walk L items b (done ++ [seg]) ((b.segment seg).children.reverse ++ stack) r' := by
  have hm : ∀ {i}, i ∈ done ++ [seg] ++ ((b.segment seg).children.reverse ++ stack) ↔
      i ∈ done ++ seg :: stack ∨ i ∈ (b.segment seg).children := by
    intro i
    simp only [mem_append, mem_cons, mem_reverse, not_mem_nil, or_false]
    tauto
  have hse : seg ∈ done ++ seg :: stack := mem_append_cons_self
  have hg := h.bound seg hse
  have hn : seg ∉ done := notMem_of_nodup h.nodup rfl
  have hw : ∀ c ∈ (b.segment seg).children, c ∉ done ++ seg :: stack := by
    intro c hc hin
    exact hn (h.parent hin (hb.child hg hc).2)
  constructor
  case onBuilder => exact hv.onBuilder
  case nodup =>
    have ho : (done ++ [seg] ++ stack).Nodup := by
      rw [append_assoc]
      exact h.nodup
    obtain ⟨hd, ht, hap⟩ := nodup_append.1 ho
    have hks := nodup_reverse.2 (hb.nodup hg)
    refine nodup_append.2 ⟨hd, nodup_append.2 ⟨hks, ht, ?_⟩, ?_⟩
    · rintro c hc _ hs rfl
      exact hw c (mem_reverse.1 hc) (mem_append_right _ (mem_cons_of_mem _ hs))
    rintro i hi _ hj rfl
    rcases mem_append.1 hj with hj | hj
    · apply hw i (mem_reverse.1 hj)
      have hin := mem_append_left stack hi
      rw [append_assoc] at hin
      exact hin
    · exact hap i hi i hj rfl
  case bound =>
    intro i hi
    rcases hm.1 hi with hi | hi
    · exact h.bound i hi
    · exact (hb.child hg hi).1
  case settled =>
    intro i hi
    rcases mem_append.1 hi with hi | hi
    · have hne : i ≠ seg := fun he => hn (he ▸ hi)
      apply (h.settled i hi).congr (hv.other hne)
      intro p hp
      have hpd := h.parent (mem_append_left _ hi) hp
      exact hv.other fun he => hn (he ▸ hpd)
    · rw [mem_singleton.1 hi]
      apply hv.settled
      intro p hp
      exact Nat.ne_of_lt (hb.parent hg hp).1
  case empty =>
    intro i hi
    rw [mem_append, not_or, mem_singleton] at hi
    rw [hv.other hi.2, h.empty i hi.1]
  case parent =>
    intro i p hi hp
    rcases hm.1 hi with hi | hi
    · exact mem_append_left _ (h.parent hi hp)
    rw [(hb.child hg hi).2] at hp
    cases hp
    exact mem_append_cons_self
  case child =>
    intro i c hi hc
    apply hm.2
    rcases mem_append.1 hi with hi | hi
    · exact .inl (h.child hi hc)
    · rw [mem_singleton.1 hi] at hc
      exact .inr hc
  case root => exact hm.2 (.inl h.root)

theorem processStack_walk (hh : b.Holds items)
    (h : Walk L items b done stack r) (hrn : rounds + done.length = b.segments.size) :
    ∃ done' r', r.processStack L items rounds stack = .ok r' ∧ Walk L items b done' [] r' := by
  induction rounds generalizing done stack r with
  | zero =>
    have hle := h.length_le
    cases stack with
    | nil => exact ⟨done, r, by rw [processStack], h⟩
    | cons seg stack =>
      rw [length_cons] at hle
      omega
  | succ rounds ih =>
    cases stack with
    | nil => exact ⟨done, r, by rw [processStack], h⟩
    | cons seg stack =>
      have hse : seg ∈ done ++ seg :: stack := mem_append_cons_self
      have hn : seg ∉ done := notMem_of_nodup h.nodup rfl
      obtain ⟨r1, hr1, hv⟩ := visitSegment_visited (L := L) h.onBuilder (h.empty seg hn)
        fun k hk => hh.entries (h.bound seg hse) hk
      obtain ⟨done', r', hr', hw⟩ := ih (h.next hb hv)
        (by rw [length_append, length_singleton]; omega)
      refine ⟨done', r', ?_, hw⟩
      rw [processStack, hr1]
      change r1.processStack L items rounds ((r1.segment seg).children.reverse ++ stack) = _
      rw [hv.onBuilder.segment, hr']

theorem processTree_settled (hh : b.Holds items) :
    ∃ r, (fresh b).processTree L items = .ok r ∧ Over b r ∧
      ∀ i, i < b.segments.size → Settled L items b r i := by
  have hl : Walk L items b [] [0] (fresh b) := by
    constructor
    case onBuilder => exact ⟨rfl, rfl⟩
    case nodup => exact nodup_singleton 0
    case bound =>
      intro i hi
      rw [mem_singleton.1 hi]
      exact hb.root.1
    case settled => exact fun i hi => nomatch hi
    case empty => exact fun _ _ => rfl
    case parent =>
      intro i p hi hp
      rw [mem_singleton.1 hi, hb.root.2] at hp
      cases hp
    case child => exact fun hi => nomatch hi
    case root => exact mem_singleton_self 0
  obtain ⟨done, r, hr, hw⟩ := processStack_walk hb hh hl (Nat.add_zero _)
  exact ⟨r, hr, hw.onBuilder, fun i hi => hw.settled i (hw.complete hb hi)⟩

end

/-- The builder after analyses of paths or of the whole tree. -/
inductive Analysed (L : Listeners δ π σ) (items : List (TraceEntry δ)) (b : PathBuilder) :
    PathRun δ π σ → Prop where
  | fresh : Analysed L items b (fresh b)
  | path : Analysed L items b r → r.processPath L items t = .ok (found, r') → Analysed L items b r'
  | tree : Analysed L items b r → r.processTree L items = .ok r' → Analysed L items b r'

section
variable {L : Listeners δ π σ} {items : List (TraceEntry δ)} {r r' : PathRun δ π σ}
  {b : PathBuilder}

theorem copyState_over (hr : Over b r) (h : r.copyState L seg = .ok r') : Over b r' := by
  rw [copyState] at h
  split at h
  · cases h
    exact hr
  split at h
  · cases h
    exact ⟨hr.segments, hr.leaves⟩
  · cases h

theorem processIndex_over (hr : Over b r)
    (h : r.processIndex L items stateId index = .ok r') : Over b r' := by
  rw [processIndex] at h
  split at h
  · cases h
  split at h
  · cases h
    exact ⟨hr.segments, hr.leaves⟩
  · cases h

section
variable (hr : Over b r)
include hr
theorem processSegment_over (h : r.processSegment L items seg = .ok r') : Over b r' := by
  apply foldlM_ok (fun _ r => Over b r) hr _ h
  intro _ f _ r1 r2 _ hr1 h2
  apply foldlM_ok (fun _ r => Over b r) hr1 _ h2
  intro _ k _ r3 r4 _ hr3 h4
  exact processIndex_over hr3 h4

theorem visitSegment_over (h : r.visitSegment L items seg = .ok r') : Over b r' := by
  obtain ⟨r1, hcp, hp⟩ := bind_ok_iff.1 h
  have hr1 := copyState_over (r := r.enter seg) ⟨hr.segments, hr.leaves⟩ hcp
  exact processSegment_over hr1 hp

theorem processStack_over (h : r.processStack L items rounds stack = .ok r') : Over b r' := by
  induction rounds generalizing stack r with
  | zero =>
    cases stack with
    | nil =>
      cases h
      exact hr
    | cons seg stack =>
      cases h
  | succ rounds ih =>
    cases stack with
    | nil =>
      cases h
      exact hr
    | cons seg stack =>
      rw [processStack] at h
      obtain ⟨r1, hvi, hs⟩ := bind_ok_iff.1 h
      exact ih (visitSegment_over hr hvi) hs

theorem processPath_over (h : r.processPath L items t = .ok (found, r')) : Over b r' := by
  rw [processPath] at h
  split at h
  · cases h
    exact resetTree_over hr
  split at h
  · cases h
  split at h
  · cases h
  obtain ⟨r1, hfo, heq⟩ := map_ok_iff.1 h
  cases heq
  apply foldlM_ok (fun _ r => Over b r) (resetTree_over hr) _ hfo
  intro _ seg _ r2 r3 _ hr2 h3
  exact visitSegment_over hr2 h3

end

theorem Analysed.onBuilder (h : Analysed L items b r) : Over b r := by
  induction h with
  | fresh => exact ⟨rfl, rfl⟩
  | path _ hp ih => exact processPath_over ih hp
  | tree _ ht ih => exact processStack_over ih ht

/-- Listeners get the items of a path once, in the order of the trace. -/
theorem processPath_delivers (h : WellFormedTrace items) (L : Listeners δ π σ) :
    ∃ b, read items = .ok b ∧ ∀ r, Analysed L items b r → ∀ t ∈ statesOf items, ∃ r' l,
        r.processPath L items t = .ok (true, r') ∧ r'.delivered = r.delivered ++ l ∧
          l.Pairwise (·.1 < ·.1) ∧
          ∀ k e, (k, e) ∈ l ↔ items[k]? = some e ∧ OnPath items t items.length k := by
  obtain ⟨b, hd, hb, hh⟩ := exists_read h
  refine ⟨b, hd, fun r hr t ht => ?_⟩
  obtain ⟨i, hi⟩ := hb.known.1 ht
  obtain ⟨path, r', hl, hr', hw⟩ := processPath_walked (L := L) hb hh hr.onBuilder hi
  obtain ⟨hso, hm⟩ := hh.paths hi hl
  refine ⟨r', itemsAt items (b.pathIndices path), hr', ?_, itemsAt_pairwise hso, ?_⟩
  · rw [hw.delivered, resetTree_delivered]
  · intro k e
    rw [mem_itemsAt, hm, and_comm]

end

def twoForks : List (TraceEntry Unit) :=
  [⟨0, .other ()⟩, ⟨0, .fork 16 [0, 1]⟩, ⟨1, .other ()⟩, ⟨0, .fork 32 [2, 0]⟩, ⟨2, .other ()⟩]

theorem twoForks_wellFormed : WellFormedTrace twoForks := by
  have h0 : WellFormedTrace (twoForks.take 1) :=
    .snoc .nil ⟨by decide, (nomatch ·), by decide, by decide⟩
  have h1 : WellFormedTrace (twoForks.take 2) :=
    .snoc h0 ⟨by decide, by rintro _ _ ⟨⟩; decide, by decide, by decide⟩
  have h2 : WellFormedTrace (twoForks.take 3) :=
    .snoc h1 ⟨by decide, (nomatch ·), by decide, by decide⟩
  have h3 : WellFormedTrace (twoForks.take 4) :=
    .snoc h2 ⟨by decide, by rintro _ _ ⟨⟩; decide, by decide, by decide⟩
  exact .snoc h3 ⟨by decide, (nomatch ·), by decide, by decide⟩

def countItems : Listeners Unit Unit Nat where
  onEachItem _ _ m := (m.getState () 0).2.map fun e => (e.1, e.2 + 1)
  clone n := n

theorem twoForks_delivers : ∃ b r, read twoForks = .ok b ∧
      (fresh b).processPath countItems twoForks 2 = .ok (true, r) ∧
      (1, ⟨0, .fork 16 [0, 1]⟩) ∈ r.delivered := by
  obtain ⟨b, hrd, h⟩ := processPath_delivers twoForks_wellFormed countItems
  obtain ⟨r, l, hr, hd, _, hm⟩ := h (fresh b) .fresh 2 (by decide)
  refine ⟨b, r, hrd, hr, ?_⟩
  rw [hd]
  apply mem_append_right
  refine (hm 1 _).2 ⟨rfl, ?_⟩
  have hf : twoForks[3]? = some ⟨0, .fork 32 [2, 0]⟩ := rfl
  have ho : OnPath twoForks 0 4 1 := .own (by decide) rfl rfl
  exact .inherited (by decide) hf (by decide) (by decide) ho

section
variable {L : Listeners δ π σ} {items : List (TraceEntry δ)}
/-- The walk over the tree leaves in a leaf what the walk along its path does. -/
theorem processTree_eq_processPath [DecidableEq π] (h : WellFormedTrace items)
    (L : Listeners δ π σ) :
    ∃ b tree, read items = .ok b ∧ (fresh b).processTree L items = .ok tree ∧
      ∀ t ∈ b.getPaths, ∃ r, (fresh b).processPath L items t = .ok (true, r) ∧
        ∀ processor, tree.getState processor t = r.getState processor t := by
  obtain ⟨b, hd, hb, hh⟩ := exists_read h
  obtain ⟨tree, htree, hov, hs⟩ := processTree_settled (L := L) hb hh
  refine ⟨b, tree, hd, htree, fun t ht => ?_⟩
  obtain ⟨i, hi⟩ := hb.mem_getPaths ht
  have hz := (hb.latest hi).1
  have hn : Over b (fresh b : PathRun δ π σ) := ⟨rfl, rfl⟩
  obtain ⟨path, r, hl, hr, hw⟩ := processPath_walked (L := L) hb hh hn hi
  have hst : tree.segmentState i = r.segmentState i := by
    apply settled_unique hl _ hw.settled
    intro j hj
    exact hs j (Nat.lt_of_le_of_lt (hl.le hb hz j hj) hz)
  refine ⟨r, hr, fun processor => ?_⟩
  have hlate : ∀ {r : PathRun δ π σ}, Over b r → r.builder.latest t = some i := by
    intro r hr
    rw [latest_congr hr.leaves, hi]
  rw [getState, getState, hlate hov, hlate hw.onBuilder, bind_some, bind_some, hst]

end

theorem twoForks_sameStates : ∃ b tree r, read twoForks = .ok b ∧
      (fresh b).processTree countItems twoForks = .ok tree ∧
      (fresh b).processPath countItems twoForks 2 = .ok (true, r) ∧
      tree.getState () 2 = r.getState () 2 := by
  obtain ⟨b, tree, hd, ht, h⟩ := processTree_eq_processPath twoForks_wellFormed countItems
  have hp : 2 ∈ b.getPaths := by
    have hl : (read twoForks).toOption.map getPaths = some [0, 1, 2] := by decide +kernel
    obtain ⟨b', hb', heq⟩ := ok_of_toOption_map hl
    rw [hd] at hb'
    cases hb'
    rw [heq]
    decide
  obtain ⟨r, hr, hst⟩ := h 2 hp
  exact ⟨b, tree, r, hd, ht, hr, hst ()⟩

end PathRun
end Chef
