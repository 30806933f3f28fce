import Chef.TraceSegments

namespace Chef
open PathFragment hiding indices
open Foundations List PathSegment PathBuilder Store
theorem StateToSegments.lookup_push (leaves : StateToSegments) (stateId seg state : Nat) :
    (leaves.push stateId seg).lookup state =
      if state = stateId then some ((leaves.lookup stateId).getD [] ++ [seg])
      else leaves.lookup state := by
  rw [push]
  cases hl : leaves.lookup stateId with
  | none =>
    simp only [lookup_append]
    by_cases he : state = stateId
    · rw [if_pos he, he, hl]
      simp
    · rw [if_neg he, lookup_cons, beq_false_of_ne he]
      simp
  | some segs =>
    refine (lookup_map_at leaves stateId state (· ++ [seg])).trans ?_
    rw [hl]
    rfl

theorem PathFragment.indices_extend {f : PathFragment} (hle : f.startIndex ≤ f.endIndex)
    (hn : f.endIndex + 1 = n) : (mk f.startIndex n).indices = f.indices ++ [n] := by
  have hc : n + 1 - f.startIndex = f.endIndex + 1 - f.startIndex + 1 := by omega
  have he : f.startIndex + 1 * (f.endIndex + 1 - f.startIndex) = n := by omega
  rw [indices, indices, hc, range'_concat, he]

theorem PathFragment.indices_single (n : Nat) : (mk n n).indices = [n] := by
  rw [indices, Nat.add_sub_cancel_left]
  rfl

namespace PathBuilder
inductive Lineage (b : PathBuilder) : Nat → List Nat → Prop where
  | root : (b.segment i).parent = none → Lineage b i [i]
  | child : (b.segment i).parent = some p → Lineage b p path → Lineage b i (i :: path)

def pathIndices (b : PathBuilder) (path : List Nat) : List Nat :=
  path.reverse.flatMap fun i => (b.segment i).indices

/-- Parents and children agree, and each state has a latest segment. -/
structure IsTree (states : List Nat) (b : PathBuilder) : Prop where
  current : b.latest b.current.stateId = some b.currentSegment
  known : ∀ {t}, t ∈ states ↔ ∃ i, b.latest t = some i
  latest : ∀ {t i}, b.latest t = some i →
    i < b.segments.size ∧ (b.segment i).stateId = t ∧ (b.segment i).children = []
  listed : ∀ {i}, i < b.segments.size → ∃ l, b.leaves.lookup (b.segment i).stateId = some l ∧ i ∈ l
  root : 0 < b.segments.size ∧ (b.segment 0).parent = none
  parent : ∀ {i p}, i < b.segments.size → (b.segment i).parent = some p →
    p < i ∧ i ∈ (b.segment p).children
  child : ∀ {p c}, p < b.segments.size → c ∈ (b.segment p).children →
    c < b.segments.size ∧ (b.segment c).parent = some p
  nodup : ∀ {p}, p < b.segments.size → (b.segment p).children.Nodup
  orphan : ∀ {i}, i < b.segments.size → (b.segment i).parent = none → i = 0
  nonempty : ∀ {t l}, b.leaves.lookup t = some l → l ≠ []

structure Holds (items : List (TraceEntry δ)) (b : PathBuilder) : Prop where
  entries : ∀ {i k}, i < b.segments.size → k ∈ (b.segment i).indices →
    ∃ e, items[k]? = some e ∧ e.stateId = (b.segment i).stateId
  contiguous : ∀ {f}, b.current.fragmentList.getLast? = some f →
    f.startIndex ≤ f.endIndex ∧ f.endIndex + 1 = items.length
  paths : ∀ {t i path}, b.latest t = some i → b.Lineage i path →
    (b.pathIndices path).Pairwise (· < ·) ∧
      ∀ k, k ∈ b.pathIndices path ↔ OnPath items t items.length k

section
variable {b b' : PathBuilder}
theorem Lineage.head (h : b.Lineage i path) : ∃ rest, path = i :: rest := by
  cases h with
  | root _ => exact ⟨[], rfl⟩
  | child _ _ => exact ⟨_, rfl⟩

section
variable (hb : b.IsTree states) (hi : i < b.segments.size) (h : b.Lineage i path)
include hb hi h
theorem Lineage.le : ∀ j ∈ path, j ≤ i := by
  induction h with
  | root _ =>
    intro j hj
    exact Nat.le_of_eq (mem_singleton.1 hj)
  | child hp _ ih =>
    have hlt := (hb.parent hi hp).1
    intro j hj
    rcases mem_cons.1 hj with rfl | hj
    · exact Nat.le_refl _
    · exact Nat.le_trans (ih (by omega) j hj) (by omega)

theorem Lineage.not_mem_of_leaf (hj : (b.segment j).children = []) (hne : j ≠ i) : j ∉ path := by
  induction h with
  | root _ =>
    intro hm
    exact hne (mem_singleton.1 hm)
  | child hp hl ih =>
    rename_i i p rest
    have hr := hb.parent hi hp
    have hpj : j ≠ p := by
      rintro rfl
      rw [hj] at hr
      cases hr.2
    intro hm
    rcases mem_cons.1 hm with rfl | hm
    · exact hne rfl
    · exact ih (by omega) hpj hm

end

theorem Lineage.congr (h : b.Lineage i path)
    (hp : ∀ j ∈ path, (b'.segment j).parent = (b.segment j).parent) : b'.Lineage i path := by
  induction h with
  | root hno => exact .root ((hp _ mem_cons_self).trans hno)
  | child hs _ ih =>
    refine .child ((hp _ mem_cons_self).trans hs) (ih ?_)
    intro j hj
    exact hp j (mem_cons_of_mem _ hj)

theorem pathIndices_cons (b : PathBuilder) (i : Nat) (path : List Nat) :
    b.pathIndices (i :: path) = b.pathIndices path ++ (b.segment i).indices := by simp [pathIndices]

theorem pathIndices_congr
    (h : ∀ j ∈ path, (b'.segment j).fragmentList = (b.segment j).fragmentList) :
    b'.pathIndices path = b.pathIndices path := by
  induction path with
  | nil => rfl
  | cons j path ih =>
    rw [pathIndices_cons, pathIndices_cons, ih fun k hk => h k (mem_cons_of_mem _ hk),
      indices, indices, h j mem_cons_self]

theorem IsTree.mem_getPaths (hb : b.IsTree states) (ht : t ∈ b.getPaths) :
    ∃ i, b.latest t = some i := by
  cases hl : b.leaves.lookup t with
  | none => exact absurd ht (not_mem_keys_of_lookup hl)
  | some l =>
    refine ⟨l.getLast (hb.nonempty hl), ?_⟩
    rw [PathBuilder.latest, hl]
    exact List.getLast?_eq_some_getLast (hb.nonempty hl)

theorem exists_ancestors (hb : b.IsTree states) (hi : i < b.segments.size)
    (hs : i < steps) : ∃ path, b.ancestors steps i = some path ∧ b.Lineage i path := by
  induction steps generalizing i with
  | zero => omega
  | succ steps ih =>
    rw [ancestors]
    cases hp : (b.segment i).parent with
    | none => exact ⟨[i], rfl, .root hp⟩
    | some p =>
      have hlt := (hb.parent hi hp).1
      obtain ⟨path, ht, hl⟩ := ih (i := p) (by omega) (by omega)
      exact ⟨i :: path, congrArg (Option.map (i :: ·)) ht, .child hp hl⟩

structure Recorded (b b' : PathBuilder) (i n : Nat) : Prop where
  current : b'.currentSegment = i
  leaves : b'.leaves = b.leaves
  size : b'.segments.size = b.segments.size
  parent : ∀ j, (b'.segment j).parent = (b.segment j).parent
  stateId : ∀ j, (b'.segment j).stateId = (b.segment j).stateId
  children : ∀ j, (b'.segment j).children = (b.segment j).children
  other : ∀ j, j ≠ i → (b'.segment j).fragmentList = (b.segment j).fragmentList
  indices : (b'.segment i).indices = (b.segment i).indices ++ [n]
  last : ∀ {f}, (b'.segment i).fragmentList.getLast? = some f →
    f.startIndex ≤ f.endIndex ∧ f.endIndex = n

theorem latest_congr (h : b'.leaves = b.leaves) (t : Nat) : b'.latest t = b.latest t := by
  rw [latest, latest, h]

theorem Recorded.isTree (h : Recorded b b' i n) (hb : b.IsTree states)
    (hi : b.latest t = some i) : b'.IsTree states where
  current := by
    rw [PathBuilder.current, h.current, h.stateId, latest_congr h.leaves, (hb.latest hi).2.1, hi]
  known := by
    simp only [latest_congr h.leaves]
    exact hb.known
  latest := by
    simp only [latest_congr h.leaves, h.size, h.stateId, h.children]
    exact hb.latest
  listed := by
    simp only [h.leaves, h.size, h.stateId]
    exact hb.listed
  root := by
    rw [h.size, h.parent]
    exact hb.root
  parent := by
    simp only [h.size, h.parent, h.children]
    exact hb.parent
  child := by
    simp only [h.size, h.parent, h.children]
    exact hb.child
  nodup := by
    simp only [h.size, h.children]
    exact hb.nodup
  orphan := by
    simp only [h.size, h.parent]
    exact hb.orphan
  nonempty := by
    simp only [h.leaves]
    exact hb.nonempty

theorem lineage_rest (hb : b.IsTree states) (hi : i < b.segments.size)
    (h : b.Lineage i (i :: rest)) : i ∉ rest := by
  generalize ht : i :: rest = path at h
  cases h with
  | root _ =>
    cases ht
    exact not_mem_nil
  | child hp hl =>
    cases ht
    have hlt := (hb.parent hi hp).1
    intro hm
    have hle := hl.le hb (by omega) i hm
    omega

theorem Recorded.holds
    (h : Recorded b b' i past.length) (hb : b.IsTree (statesOf past)) (hh : b.Holds past)
    (hx : e.Follows past) (hi : b.latest e.stateId = some i) : b'.Holds (past ++ [e]) where
  entries := by
    intro j k hj hk
    rw [h.size] at hj
    rw [h.stateId]
    have ho : k ∈ (b.segment j).indices →
        ∃ e', (past ++ [e])[k]? = some e' ∧ e'.stateId = (b.segment j).stateId := by
      intro hk
      obtain ⟨e', he', hs⟩ := hh.entries hj hk
      exact ⟨e', getElem?_append_of_some he', hs⟩
    by_cases hji : j = i
    · subst hji
      rw [h.indices] at hk
      rcases mem_append.1 hk with hk | hk
      · exact ho hk
      · rw [mem_singleton.1 hk]
        exact ⟨e, List.getElem?_concat_length, (hb.latest hi).2.1.symm⟩
    · rw [PathSegment.indices, h.other j hji] at hk
      exact ho hk
  contiguous := by
    intro f hf
    rw [PathBuilder.current, h.current] at hf
    obtain ⟨hle, hn⟩ := h.last hf
    rw [length_append, hn]
    exact ⟨by omega, rfl⟩
  paths := by
    intro t j path hj hl
    rw [latest_congr h.leaves] at hj
    have hl' : b.Lineage j path := hl.congr fun k _ => (h.parent k).symm
    have hz := (hb.latest hj).1
    obtain ⟨hso, hm⟩ := hh.paths hj hl'
    rw [length_append]
    by_cases hji : j = i
    · subst hji
      obtain ⟨rest, rfl⟩ := hl'.head
      obtain rfl : t = e.stateId := (hb.latest hj).2.1.symm.trans (hb.latest hi).2.1
      have hr : b'.pathIndices rest = b.pathIndices rest := by
        apply pathIndices_congr
        intro k hk
        apply h.other
        rintro rfl
        exact lineage_rest hb hz hl' hk
      have hp : b'.pathIndices (j :: rest) = b.pathIndices (j :: rest) ++ [past.length] := by
        rw [pathIndices_cons, pathIndices_cons, hr, h.indices, append_assoc]
      rw [hp]
      constructor
      · refine pairwise_append.2 ⟨hso, pairwise_singleton _ _, ?_⟩
        intro k hk n hn
        rw [mem_singleton.1 hn]
        exact ((hm k).1 hk).lt
      · intro k
        rw [mem_append, mem_singleton, hm]
        exact onPath_snoc_self.symm
    · have hp : b'.pathIndices path = b.pathIndices path := by
        apply pathIndices_congr
        intro k hk
        apply h.other
        rintro rfl
        exact hl'.not_mem_of_leaf hb hz (hb.latest hi).2.2 (Ne.symm hji) hk
      have hne : e.stateId ≠ t := by
        rintro rfl
        rw [hi] at hj
        exact hji (Option.some.inj hj).symm
      rw [hp]
      refine ⟨hso, fun k => ?_⟩
      rw [hm]
      exact (onPath_snoc_other hx (hb.known.2 ⟨j, hj⟩) hne).symm

theorem segment_modifyCurrent (b : PathBuilder) (f : PathSegment → PathSegment) (j : Nat) :
    (b.modifyCurrent f).segment j =
      if b.currentSegment = j ∧ j < b.segments.size then f (b.segment j) else b.segment j :=
  b.segments.get_modify _ _ _

section
variable (hi : b.currentSegment < b.segments.size)
include hi
theorem recorded_modifyCurrent
    (hf : ∀ seg, f seg = { seg with fragmentList := (f seg).fragmentList })
    (hn : (f b.current).indices = b.current.indices ++ [n])
    (hla : ∀ {g}, (f b.current).fragmentList.getLast? = some g →
      g.startIndex ≤ g.endIndex ∧ g.endIndex = n) :
    Recorded b (b.modifyCurrent f) b.currentSegment n := by
  have ho : (b.modifyCurrent f).segment b.currentSegment = f b.current := by
    rw [segment_modifyCurrent, if_pos ⟨rfl, hi⟩, current]
  have hkp : ∀ j, ∃ l, (b.modifyCurrent f).segment j = { b.segment j with fragmentList := l } := by
    intro j
    rw [segment_modifyCurrent]
    split
    · exact ⟨_, hf _⟩
    · exact ⟨_, rfl⟩
  have hr : ∀ {β : Type} (p : PathSegment → β),
      (∀ seg l, p { seg with fragmentList := l } = p seg) →
      ∀ j, p ((b.modifyCurrent f).segment j) = p (b.segment j) := by
    intro β p hp j
    obtain ⟨l, hl⟩ := hkp j
    rw [hl, hp]
  refine ⟨rfl, rfl, size_modify _ _ _, hr parent fun _ _ => rfl,
    hr stateId fun _ _ => rfl, hr children fun _ _ => rfl, ?_, ?_, ?_⟩
  · intro j hj
    rw [segment_modifyCurrent, if_neg fun h => hj h.1.symm]
  · rw [ho]
    exact hn
  · intro g hg
    rw [ho] at hg
    exact hla hg

theorem appendFragment_recorded :
    Recorded b (b.modifyCurrent (appendFragment ⟨n, n⟩)) b.currentSegment n := by
  apply recorded_modifyCurrent hi
  · intro seg
    rfl
  · simp [appendFragment, indices, indices_single]
  intro g hg
  rw [appendFragment, getLast?_concat] at hg
  cases hg
  exact ⟨Nat.le_refl _, rfl⟩

theorem setLastFragment_recorded {n : Nat} (hf :
    b.current.fragmentList.getLast? = some f) (hle : f.startIndex ≤ f.endIndex) (hn : f.endIndex +
    1 = n) :
    Recorded b (b.modifyCurrent (setLastFragment ⟨f.startIndex, n⟩)) b.currentSegment n := by
  have hl : b.current.fragmentList = b.current.fragmentList.dropLast ++ [f] :=
    (dropLast_append_getLast? f hf).symm
  apply recorded_modifyCurrent hi
  · intro seg
    rfl
  · rw [setLastFragment, indices, indices, hl]
    simp only [dropLast_concat, flatMap_append, flatMap_cons, flatMap_nil,
      append_nil, indices_extend hle hn, append_assoc]
  intro g hg
  rw [setLastFragment, getLast?_concat] at hg
  cases hg
  exact ⟨by simp only; omega, rfl⟩

theorem extend_appendFragment : (b.modifyCurrent (appendFragment ⟨n, n⟩)).extendFragment n =
      .ok (b.modifyCurrent (appendFragment ⟨n, n⟩)) := by
  have ho : (b.modifyCurrent (appendFragment ⟨n, n⟩)).current = b.current.appendFragment ⟨n, n⟩ :=
    (segment_modifyCurrent b _ _).trans (if_pos ⟨rfl, hi⟩)
  have hla : (b.current.appendFragment ⟨n, n⟩).fragmentList.getLast? = some ⟨n, n⟩ :=
    getLast?_concat
  have hs : setLastFragment ⟨n, n⟩ ∘ appendFragment ⟨n, n⟩ = appendFragment ⟨n, n⟩ := by
    funext seg
    simp [setLastFragment, appendFragment]
  rw [extendFragment, ho, hla]
  simp only [Nat.le_refl, if_true, modifyCurrent, modify_modify, hs]

end

theorem Recorded.of_current
    (h : Recorded { b with currentSegment := c } b' i n) : Recorded b b' i n :=
  ⟨h.current, h.leaves, h.size, h.parent, h.stateId, h.children, h.other, h.indices, h.last⟩

theorem exists_recorded (hb : b.IsTree states) (hh : b.Holds past) (hi : b.latest t = some i) :
    ∃ b1 b', b.switchState past.length t = .ok b1 ∧ b1.current.stateId = t ∧
      b1.extendFragment past.length = .ok b' ∧ Recorded b b' i past.length := by
  obtain ⟨hs, hst, _⟩ := hb.latest hi
  by_cases ht : t = b.current.stateId
  · have hc : b.currentSegment = i := by
      have hlate := hb.current
      rw [← ht, hi] at hlate
      exact (Option.some.inj hlate).symm
    rw [← hc] at hs ⊢
    refine ⟨b, ?_⟩
    cases hla : b.current.fragmentList.getLast? with
    | none =>
      refine ⟨_, if_pos ht, ht.symm, ?_, appendFragment_recorded hs⟩
      rw [extendFragment, hla]
    | some f =>
      obtain ⟨hle, hn⟩ := hh.contiguous hla
      refine ⟨_, if_pos ht, ht.symm, ?_, setLastFragment_recorded hs hla hle hn⟩
      rw [extendFragment, hla]
      exact if_pos (by omega)
  · obtain ⟨segments, hl, hg⟩ := Option.bind_eq_some_iff.1 hi
    have hr := appendFragment_recorded (b := { b with currentSegment := i }) (n := past.length) hs
    refine ⟨_, _, ?_, ?_, extend_appendFragment (b := { b with currentSegment := i }) hs,
      hr.of_current⟩
    · rw [switchState, if_neg ht, hl]
      simp only [hg]
      exact if_pos hst
    · rw [current, hr.current, hr.stateId]
      exact hst

structure Grown (b b' : PathBuilder) (pc : Nat) (children : List Nat) : Prop where
  current : b'.currentSegment = b.currentSegment
  size : b'.segments.size = b.segments.size + children.length
  other : ∀ {j}, j < b.segments.size → j ≠ b.currentSegment → b'.segment j = b.segment j
  own : b'.segment b.currentSegment =
    { b.current with children := range' b.segments.size children.length }
  new : ∀ {m c}, children[m]? = some c →
    b'.segment (b.segments.size + m) = ⟨some b.currentSegment, c, pc, [], []⟩
  kept : ∀ {t}, t ∉ children → b'.leaves.lookup t = b.leaves.lookup t
  pushed : ∀ {m c}, children[m]? = some c →
    b'.leaves.lookup c = some ((b.leaves.lookup c).getD [] ++ [b.segments.size + m])

theorem Grown.nil (hc : b.current.children = []) : Grown b b pc [] where
  current := rfl
  size := rfl
  other := fun _ _ => rfl
  own := by
    rw [length_nil, range'_zero, ← hc]
    rfl
  new := fun h => nomatch h
  kept := fun _ => rfl
  pushed := fun h => nomatch h

theorem get_alloc_modify {m : Store PathSegment} (hi : i < m.size) (j : Nat) :
    ((m.alloc x).modify i f).get j =
      if j = i then f (m.get i) else if j = m.size then x else m.get j := by
  rw [get_modify, size_alloc]
  by_cases hj : j = i
  · subst hj
    rw [if_pos ⟨rfl, by omega⟩, if_pos rfl, get_alloc_of_lt _ _ hi]
  · rw [if_neg fun h => hj h.1.symm, if_neg hj, get_alloc]

theorem Grown.cons (h : Grown b b1 pc done)
    (hi : b.currentSegment < b.segments.size) (hc : c ∉ done) :
    ∃ b', b1.newSegment pc c = .ok b' ∧ Grown b b' pc (done ++ [c]) := by
  have ho : b1.current.children = List.range' b.segments.size done.length := by
    rw [PathBuilder.current, h.current, h.own]
  have hno : (b1.current.children.any fun c' => (b1.segment c').stateId = c) = false := by
    rw [ho, any_eq_false]
    intro j hj
    obtain ⟨m, hm, rfl⟩ := mem_range'.1 hj
    have hg : done[m]? = some done[m] := List.getElem?_eq_getElem hm
    rw [Nat.one_mul, h.new hg]
    intro he
    exact hc (of_decide_eq_true he ▸ getElem_mem hm)
  have hr : b1.currentSegment < b1.segments.size := by
    rw [h.current, h.size]
    omega
  refine ⟨_, if_neg (by rw [hno]; decide), ?_⟩
  have hs := get_alloc_modify (x := ⟨some b1.currentSegment, c, pc, [], []⟩)
    (f := fun seg => { seg with children := seg.children ++ [b1.segments.size] }) hr
  constructor
  · exact h.current
  · rw [size_modify, size_alloc, h.size, length_append]
    rfl
  · intro j hj hne
    refine (hs j).trans ?_
    rw [h.current, if_neg hne, if_neg (by rw [h.size]; omega)]
    exact h.other hj hne
  · rw [← h.current]
    refine (hs _).trans ?_
    rw [if_pos rfl]
    change { b1.current with children := b1.current.children ++ [b1.segments.size] } = _
    rw [ho, PathBuilder.current, h.current, h.own, h.size, length_append,
      length_singleton, List.range'_concat, Nat.one_mul]
  · intro m c' hm
    refine (hs _).trans ?_
    rw [h.current, if_neg (by omega), h.size]
    rcases getElem?_snoc_cases hm with ⟨hm, hlt⟩ | ⟨rfl, rfl⟩
    · rw [if_neg (by omega)]
      exact h.new hm
    · rw [if_pos rfl]
  · intro t ht
    rw [mem_append, not_or, mem_singleton] at ht
    rw [StateToSegments.lookup_push, if_neg ht.2, h.kept ht.1]
  · intro m c' hm
    rw [StateToSegments.lookup_push]
    rcases getElem?_snoc_cases hm with ⟨hd, _⟩ | ⟨rfl, rfl⟩
    · have hne : c' ≠ c := fun he => hc (he ▸ mem_of_getElem? hd)
      rw [if_neg hne, h.pushed hd]
    · rw [if_pos rfl, h.kept hc, h.size]

theorem exists_grown (pc : Nat) {children : List Nat} (hi : b.currentSegment < b.segments.size)
    (hc : b.current.children = []) (hn : children.Nodup) :
    ∃ b', children.foldlM (newSegment pc) b = .ok b' ∧ Grown b b' pc children := by
  apply foldlM_total (fun done b1 => Grown b b1 pc done) (.nil hc)
  intro done c rest b1 hl h
  exact h.cons hi (notMem_of_nodup hn hl)

variable {children : List Nat} (h : Grown b b' pc children)
include h
theorem Grown.segment_old (hj : j < b.segments.size) :
    ∃ l, b'.segment j = { b.segment j with children := l } := by
  by_cases hne : j = b.currentSegment
  · subst hne
    exact ⟨_, h.own⟩
  · exact ⟨_, h.other hj hne⟩

theorem Grown.old_congr {p : PathSegment → β}
    (hp : ∀ seg l, p { seg with children := l } = p seg) (hj : j < b.segments.size) :
    p (b'.segment j) = p (b.segment j) := by
  obtain ⟨l, hl⟩ := h.segment_old hj
  rw [hl, hp]

theorem Grown.old_or_new (hj : j < b'.segments.size) :
    j < b.segments.size ∨ ∃ m c, children[m]? = some c ∧ j = b.segments.size + m := by
  rw [h.size] at hj
  by_cases hlt : j < b.segments.size
  · exact .inl hlt
  · have hm : j - b.segments.size < children.length := by omega
    exact .inr ⟨_, _, List.getElem?_eq_getElem hm, by omega⟩

theorem Grown.latest_new (hm : children[m]? = some c) :
    b'.latest c = some (b.segments.size + m) := by
  rw [latest, h.pushed hm]
  exact getLast?_concat

theorem Grown.latest_old (ht : t ∉ children) :
    b'.latest t = b.latest t := by rw [latest, h.kept ht, latest]

theorem Grown.mem_children (hj : j < b'.segments.size) (hc : c ∈ (b'.segment j).children) :
    (j < b.segments.size ∧ c ∈ (b.segment j).children) ∨
      j = b.currentSegment ∧ ∃ m t, children[m]? = some t ∧ c = b.segments.size + m := by
  rcases h.old_or_new hj with hj | ⟨m, t, hm, rfl⟩
  · by_cases hne : j = b.currentSegment
    · subst hne
      rw [h.own] at hc
      obtain ⟨m, hm, rfl⟩ := mem_range'.1 hc
      exact .inr ⟨rfl, m, _, List.getElem?_eq_getElem hm, by omega⟩
    · rw [h.other hj hne] at hc
      exact .inl ⟨hj, hc⟩
  · rw [h.new hm] at hc
    cases hc

theorem Grown.follow (hi : b.currentSegment < b.segments.size)
    (hse : b.current.stateId ∈ children) : ∃ m, children[m]? = some b.current.stateId ∧
      b'.followState children = { b' with currentSegment := b.segments.size + m } := by
  have hst : b'.current.stateId = b.current.stateId := by
    rw [PathBuilder.current, h.current]
    exact h.old_congr (p := stateId) (fun _ _ => rfl) hi
  have hks : b'.current.children = List.range' b.segments.size children.length := by
    rw [PathBuilder.current, h.current, h.own]
  cases hf : children.findIdx? fun c => b'.current.stateId = c with
  | none =>
    rw [List.findIdx?_eq_none_iff] at hf
    have hn := hf _ hse
    rw [hst, decide_eq_false_iff_not] at hn
    exact absurd rfl hn
  | some m =>
    obtain ⟨hm, heq, _⟩ := List.findIdx?_eq_some_iff_getElem.1 hf
    rw [hst, decide_eq_true_iff] at heq
    refine ⟨m, by rw [List.getElem?_eq_getElem hm, heq], ?_⟩
    rw [followState, hf]
    simp only [hks, getD_eq_getElem?_getD, List.getElem?_range' hm, Option.getD_some, Nat.one_mul]

theorem Grown.isTree (hb : b.IsTree states) (hse : b.current.stateId ∈ children) :
    (b'.followState children).IsTree (states ++ children) := by
  obtain ⟨hi, _, hf⟩ := hb.latest hb.current
  obtain ⟨own, ho, hfollow⟩ := h.follow hi hse
  have hparent : ∀ {j}, j < b.segments.size → (b'.segment j).parent = (b.segment j).parent :=
    h.old_congr (p := parent) fun _ _ => rfl
  have hst : ∀ {j}, j < b.segments.size → (b'.segment j).stateId = (b.segment j).stateId :=
    h.old_congr (p := stateId) fun _ _ => rfl
  rw [hfollow]
  constructor
  case current =>
    change b'.latest (b'.segment (b.segments.size + own)).stateId = _
    rw [h.new ho]
    exact h.latest_new ho
  case known =>
    intro t
    change _ ↔ ∃ i, b'.latest t = some i
    rw [mem_append]
    by_cases ht : t ∈ children
    · obtain ⟨m, hm⟩ := mem_iff_getElem?.1 ht
      exact ⟨fun _ => ⟨_, h.latest_new hm⟩, fun _ => .inr ht⟩
    · rw [h.latest_old ht, ← hb.known, or_iff_left ht]
  case latest =>
    intro t i (ht : b'.latest t = some i)
    change i < b'.segments.size ∧ (b'.segment i).stateId = t ∧ (b'.segment i).children = []
    by_cases hmem : t ∈ children
    · obtain ⟨m, hm⟩ := mem_iff_getElem?.1 hmem
      rw [h.latest_new hm] at ht
      cases ht
      have hlt := (List.getElem?_eq_some_iff.1 hm).1
      rw [h.new hm, h.size]
      exact ⟨by omega, rfl, rfl⟩
    · rw [h.latest_old hmem] at ht
      obtain ⟨hlt, hs, hc⟩ := hb.latest ht
      have hne : i ≠ b.currentSegment := by
        rintro rfl
        exact hmem (hs ▸ hse)
      rw [h.other hlt hne, h.size]
      exact ⟨by omega, hs, hc⟩
  case listed =>
    intro j (hj : j < b'.segments.size)
    change ∃ l, b'.leaves.lookup (b'.segment j).stateId = some l ∧ j ∈ l
    rcases h.old_or_new hj with hj | ⟨m, c, hm, rfl⟩
    · obtain ⟨l, hl, hmem⟩ := hb.listed hj
      rw [hst hj]
      by_cases hc : (b.segment j).stateId ∈ children
      · obtain ⟨m, hm⟩ := mem_iff_getElem?.1 hc
        rw [h.pushed hm, hl]
        exact ⟨_, rfl, mem_append_left _ hmem⟩
      · exact ⟨l, (h.kept hc).trans hl, hmem⟩
    · rw [h.new hm, h.pushed hm]
      exact ⟨_, rfl, mem_append_cons_self⟩
  case root =>
    refine ⟨?_, (hparent hb.root.1).trans hb.root.2⟩
    rw [h.size]
    exact Nat.lt_of_lt_of_le hb.root.1 (Nat.le_add_right _ _)
  case parent =>
    intro j p (hj : j < b'.segments.size) (hp : (b'.segment j).parent = some p)
    change p < j ∧ j ∈ (b'.segment p).children
    rcases h.old_or_new hj with hj | ⟨m, c, hm, rfl⟩
    · rw [hparent hj] at hp
      obtain ⟨hlt, hmem⟩ := hb.parent hj hp
      have hne : p ≠ b.currentSegment := by
        rintro rfl
        rw [hf] at hmem
        cases hmem
      rw [h.other (Nat.lt_trans hlt hj) hne]
      exact ⟨hlt, hmem⟩
    · rw [h.new hm] at hp
      cases hp
      have hlt := (List.getElem?_eq_some_iff.1 hm).1
      rw [h.own]
      refine ⟨by omega, mem_range'.2 ⟨m, hlt, by omega⟩⟩
  case child =>
    intro p c (hp : p < b'.segments.size) (hc : c ∈ (b'.segment p).children)
    change c < b'.segments.size ∧ (b'.segment c).parent = some p
    rw [h.size]
    rcases h.mem_children hp hc with ⟨hp, hc⟩ | ⟨rfl, m, t, hm, rfl⟩
    · obtain ⟨hlt, hr⟩ := hb.child hp hc
      rw [hparent hlt]
      exact ⟨by omega, hr⟩
    · have hlt := (List.getElem?_eq_some_iff.1 hm).1
      rw [h.new hm]
      exact ⟨by omega, rfl⟩
  case nodup =>
    intro p (hp : p < b'.segments.size)
    change (b'.segment p).children.Nodup
    rcases h.old_or_new hp with hp | ⟨m, c, hm, rfl⟩
    · by_cases hne : p = b.currentSegment
      · rw [hne, h.own]
        exact nodup_range'
      · rw [h.other hp hne]
        exact hb.nodup hp
    · rw [h.new hm]
      exact nodup_nil
  case orphan =>
    intro j (hj : j < b'.segments.size) (hno : (b'.segment j).parent = none)
    rcases h.old_or_new hj with hj | ⟨m, c, hm, rfl⟩
    · exact hb.orphan hj ((hparent hj).symm.trans hno)
    · rw [h.new hm] at hno
      cases hno
  case nonempty =>
    intro t l (hl : b'.leaves.lookup t = some l)
    by_cases ht : t ∈ children
    · obtain ⟨m, hm⟩ := mem_iff_getElem?.1 ht
      rw [h.pushed hm] at hl
      cases hl
      exact append_ne_nil_of_right_ne_nil _ (cons_ne_nil _ _)
    · rw [h.kept ht] at hl
      exact hb.nonempty hl

theorem Grown.pathIndices (hp : ∀ j ∈ path, j < b.segments.size) :
    b'.pathIndices path = b.pathIndices path := by
  apply pathIndices_congr
  intro j hj
  exact h.old_congr (p := fragmentList) (fun _ _ => rfl) (hp j hj)

theorem Grown.lineage (hb : b.IsTree states)
    (hi : i < b.segments.size) (hl : b'.Lineage i path) : b.Lineage i path := by
  induction hl with
  | root hno =>
    rw [h.old_congr (p := parent) (fun _ _ => rfl) hi] at hno
    exact .root hno
  | child hs _ ih =>
    rw [h.old_congr (p := parent) (fun _ _ => rfl) hi] at hs
    exact .child hs (ih (Nat.lt_trans (hb.parent hi hs).1 hi))

theorem Grown.holds {items : List (TraceEntry δ)}
    (hb : b.IsTree states) (hh : b.Holds items) (hse : b.current.stateId ∈ children)
    (hn : ∀ c ∈ children, ∀ k, OnPath items c items.length k ↔
      OnPath items b.current.stateId items.length k) : (b'.followState children).Holds items := by
  obtain ⟨hi, _, _⟩ := hb.latest hb.current
  obtain ⟨own, hw, hfollow⟩ := h.follow hi hse
  rw [hfollow]
  constructor
  case entries =>
    intro j k (hj : j < b'.segments.size) (hk : k ∈ (b'.segment j).indices)
    change ∃ e, items[k]? = some e ∧ e.stateId = (b'.segment j).stateId
    rcases h.old_or_new hj with hj | ⟨m, c, hm, rfl⟩
    · rw [h.old_congr (p := indices) (fun _ _ => rfl) hj] at hk
      rw [h.old_congr (p := stateId) (fun _ _ => rfl) hj]
      exact hh.entries hj hk
    · rw [h.new hm] at hk
      cases hk
  case contiguous =>
    intro f (hf : (b'.segment (b.segments.size + own)).fragmentList.getLast? = some f)
    rw [h.new hw] at hf
    cases hf
  case paths =>
    intro t i path (ht : b'.latest t = some i) hl
    have hl : b'.Lineage i path := hl.congr fun _ _ => rfl
    change (b'.pathIndices path).Pairwise (· < ·) ∧
      ∀ k, k ∈ b'.pathIndices path ↔ OnPath items t items.length k
    by_cases hmem : t ∈ children
    · obtain ⟨m, hm⟩ := mem_iff_getElem?.1 hmem
      rw [h.latest_new hm] at ht
      cases ht
      cases hl with
      | root hno =>
        rw [h.new hm] at hno
        cases hno
      | child hs hl =>
        rw [h.new hm] at hs
        cases hs
        have ho := h.lineage hb hi hl
        have hr := h.pathIndices fun j hj => Nat.lt_of_le_of_lt (ho.le hb hi j hj) hi
        obtain ⟨hso, hp⟩ := hh.paths hb.current ho
        rw [pathIndices_cons, h.new hm, hr]
        simp only [indices, flatMap_nil, append_nil]
        exact ⟨hso, fun k => (hp k).trans (hn t hmem k).symm⟩
    · rw [h.latest_old hmem] at ht
      have hlt := (hb.latest ht).1
      have ho := h.lineage hb hlt hl
      rw [h.pathIndices fun j hj => Nat.lt_of_le_of_lt (ho.le hb hlt j hj) hlt]
      exact hh.paths ht ho

end

theorem onItem_kept {b : PathBuilder}
    (hp : WellFormedTrace past) (hn : e.Follows past) (hb : b.IsTree (statesOf past))
    (hh : b.Holds past) :
    ∃ b', b.onItem past.length e = .ok b' ∧ b'.IsTree (statesOf (past ++ [e])) ∧
      b'.Holds (past ++ [e]) := by
  obtain ⟨i, hi⟩ := hb.known.1 hn.known
  obtain ⟨b1, b2, hsw, hst, he, hrc⟩ := exists_recorded hb hh hi
  have ht := hrc.isTree hb hi
  have hho := hrc.holds hb hh hn hi
  have hr : b2.current.stateId = e.stateId := by
    rw [current, hrc.current, hrc.stateId]
    exact (hb.latest hi).2.1
  rw [onItem, hsw, statesOf_snoc]
  have hks := hn.distinct
  cases hk : e.item with
  | other _ =>
    rw [TraceEntry.children, hk, append_nil]
    refine ⟨b2, ?_, ht, hho⟩
    simp [bind, Except.bind, hst, he]
  | fork pc children =>
    have hl : e.children = children := by rw [TraceEntry.children, hk]
    rw [hl] at hks ⊢
    obtain ⟨hs, _, hf⟩ := ht.latest ht.current
    obtain ⟨b3, hfo, hgr⟩ := exists_grown pc hs hf hks
    have hse : b2.current.stateId ∈ children := hr ▸ hn.self hk
    refine ⟨b3.followState children, ?_, hgr.isTree ht hse, ?_⟩
    · simp [bind, Except.bind, hst, he, hfo]
    apply hgr.holds ht hho hse
    intro c hc k
    rw [hr, length_append]
    by_cases hne : c = e.stateId
    · rw [hne]
    · exact onPath_snoc_new hp hn (hl ▸ hc) hne

theorem new_latest (t : Nat) : new.latest t = if t = 0 then some 0 else none := by
  by_cases ht : t = 0
  · subst ht
    rfl
  · rw [latest, new, lookup_cons, beq_false_of_ne ht, if_neg ht]
    rfl

theorem new_size : new.segments.size = 1 := rfl

theorem new_isTree : new.IsTree (statesOf ([] : List (TraceEntry δ))) := by
  constructor
  case current => rfl
  case known =>
    intro t
    rw [new_latest, statesOf, flatMap_nil, mem_singleton]
    split
    next ht => exact ⟨fun _ => ⟨0, rfl⟩, fun _ => ht⟩
    next ht => exact ⟨fun h => absurd h ht, by rintro ⟨i, ⟨⟩⟩⟩
  case latest =>
    intro t i h
    rw [new_latest] at h
    split at h
    next ht =>
      cases h
      exact ⟨Nat.zero_lt_one, ht.symm, rfl⟩
    · cases h
  case listed =>
    intro i hi
    rw [new_size, Nat.lt_one_iff] at hi
    subst hi
    exact ⟨[0], rfl, mem_cons_self⟩
  case root => exact ⟨Nat.zero_lt_one, rfl⟩
  case parent =>
    intro i p hi hp
    rw [new_size, Nat.lt_one_iff] at hi
    subst hi
    cases hp
  case child =>
    intro p c hp hc
    rw [new_size, Nat.lt_one_iff] at hp
    subst hp
    cases hc
  case nodup =>
    intro p hp
    rw [new_size, Nat.lt_one_iff] at hp
    subst hp
    exact nodup_nil
  case orphan =>
    intro i hi _
    rw [new_size] at hi
    omega
  case nonempty =>
    intro t l hl
    have hm := mem_of_lookup hl
    rw [new, mem_singleton] at hm
    cases hm
    exact cons_ne_nil _ _

theorem new_holds : new.Holds ([] : List (TraceEntry δ)) := by
  constructor
  case entries =>
    intro i k hi hk
    rw [new_size, Nat.lt_one_iff] at hi
    subst hi
    cases hk
  case contiguous =>
    rintro f ⟨⟩
  case paths =>
    intro t i path ht hl
    rw [new_latest] at ht
    split at ht
    · cases ht
      cases hl with
      | root _ =>
        refine ⟨.nil, fun k => ⟨(nomatch ·), fun h => ?_⟩⟩
        exact absurd h.lt (Nat.not_lt_zero k)
      | child hp _ => cases hp
    · cases ht

theorem read_snoc (past : List (TraceEntry δ)) (e : TraceEntry δ) :
    read (past ++ [e]) = (read past).bind (onItem past.length e) := by
  rw [read, zipIdx_append, foldlM_append, Nat.zero_add, ← read]
  cases read past with
  | error _ => rfl
  | ok b =>
    simp only [bind, Except.bind, zipIdx_cons, zipIdx_nil, foldlM_cons, foldlM_nil]
    cases b.onItem past.length e <;> rfl

/-- A trace is read into a tree that holds its items. -/
theorem exists_read {items : List (TraceEntry δ)} (h : WellFormedTrace items) :
    ∃ b, read items = .ok b ∧ b.IsTree (statesOf items) ∧ b.Holds items := by
  induction h with
  | nil => exact ⟨new, rfl, new_isTree, new_holds⟩
  | snoc hp hn ih =>
    obtain ⟨b, hr, hb, hh⟩ := ih
    obtain ⟨b', hit, hb', hh'⟩ := onItem_kept hp hn hb hh
    refine ⟨b', ?_, hb', hh'⟩
    rw [read_snoc, hr]
    exact hit

end PathBuilder
end Chef
