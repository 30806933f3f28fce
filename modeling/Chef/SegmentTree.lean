import Chef.Foundations.Forest
import Chef.HighLevelExecutor

namespace Chef
open Foundations List Store HighLevelPathSegment
namespace HighLevelExecutor
section
variable (x : HighLevelExecutor σ)
def childrenOf (s : Nat) : List (UInt64 × Nat) := (x.segments.get s).children

def occupants (s : Nat) : List Nat := (x.segments.get s).lowLevelStates

def Child (s c : Nat) : Prop := ∃ k, (k, c) ∈ x.childrenOf s

theorem childrenOf_of_le (h : x.segments.size ≤ s) : x.childrenOf s = [] := by
  rw [childrenOf, x.segments.get_of_le h]
  rfl

/-- A path runs along first children; others start a path. -/
structure SegmentTree : Prop where
  child_lt : (k, c) ∈ x.childrenOf s → s < c ∧ c < x.segments.size
  parent_unique : (k, c) ∈ x.childrenOf s → (k', c) ∈ x.childrenOf s' → s = s' ∧ k = k'
  keys_nodup : ((x.childrenOf s).map Prod.fst).Nodup
  key_allowed : (k, c) ∈ x.childrenOf s → reservedKey k = false
  first_on_path : x.childrenOf s = (k, c) :: rest → x.pathOf c = x.pathOf s
  others_fresh : x.childrenOf s = first :: rest → (k, c) ∈ rest → t < c → x.pathOf t ≠ x.pathOf c
  path_lt : s < x.segments.size → x.pathOf s < x.paths.size
  same_path : a < x.segments.size → b < x.segments.size → x.pathOf a = x.pathOf b →
    Below x.Child a b ∨ Below x.Child b a

end

structure SameShape (x y : HighLevelExecutor σ) : Prop where
  paths : y.paths.size = x.paths.size
  segments : y.segments.size = x.segments.size
  children : y.childrenOf s = x.childrenOf s
  path : y.pathOf s = x.pathOf s

theorem SameShape.trans (h : SameShape x y) (h' : SameShape y z) : SameShape x z where
  paths := h'.paths.trans h.paths
  segments := h'.segments.trans h.segments
  children := h'.children.trans h.children
  path := h'.path.trans h.path

theorem SameShape.child (h : SameShape x y) : y.Child = x.Child := by
  funext s c
  simp only [Child, h.children]

theorem SameShape.segmentTree (h : SameShape x y) (hT : SegmentTree x) : SegmentTree y where
  child_lt hc := by
    rw [h.children] at hc
    rw [h.segments]
    exact hT.child_lt hc
  parent_unique hc hc' := by
    rw [h.children] at hc hc'
    exact hT.parent_unique hc hc'
  keys_nodup {s} := by
    rw [h.children]
    exact hT.keys_nodup
  key_allowed hc := hT.key_allowed (h.children ▸ hc)
  first_on_path hc := by
    rw [h.path, h.path]
    exact hT.first_on_path (h.children ▸ hc)
  others_fresh hc hm ht := by
    rw [h.path, h.path]
    exact hT.others_fresh (h.children ▸ hc) hm ht
  path_lt hs := by
    rw [h.path, h.paths]
    exact hT.path_lt (h.segments ▸ hs)
  same_path ha hb he := by
    rw [h.path, h.path] at he
    rw [h.child]
    exact hT.same_path (h.segments ▸ ha) (h.segments ▸ hb) he

namespace SegmentTree
variable {x : HighLevelExecutor σ} (h : SegmentTree x)
include h
theorem isForest : IsForest x.Child fun s => s where
  rank_lt := fun ⟨_, hc⟩ => (h.child_lt hc).1
  parent_unique := fun ⟨_, hc⟩ ⟨_, hc'⟩ => (h.parent_unique hc hc').1

theorem below_lt (hs : s < x.segments.size) (hb : Below x.Child s t) : t < x.segments.size := by
  rcases hb.cases_tail with he | ⟨u, _, k, hc⟩
  · exact he ▸ hs
  · exact (h.child_lt hc).2

theorem getNextSegment_child (hc : (k, c) ∈ x.childrenOf s) :
    x.getNextSegment s k = .ok (c, x) := by
  rw [getNextSegment, h.key_allowed hc, ← childrenOf, lookup_of_mem h.keys_nodup hc]
  rfl

theorem child_segments_nodup : ((x.childrenOf s).map Prod.snd).Nodup := by
  have hn := (h.keys_nodup (s := s)).of_map
  refine hn.map_on ?_
  rintro ⟨k, c⟩ hc ⟨k', c'⟩ hc' he
  cases he
  rw [(h.parent_unique hc hc').2]

theorem other_off_path (hs : x.childrenOf s = first :: rest)
    (hm : (k, c) ∈ rest) : x.pathOf c ≠ x.pathOf s := by
  have hc : (k, c) ∈ x.childrenOf s := hs ▸ mem_cons_of_mem _ hm
  exact fun he => h.others_fresh hs hm (h.child_lt hc).1 he.symm

theorem eq_first_of_path (hs : x.childrenOf s = (k0, c0) :: rest)
    (hc : (k, c) ∈ x.childrenOf s) (hp : x.pathOf c = x.pathOf s) : (k, c) = (k0, c0) := by
  rcases mem_cons.1 (hs ▸ hc) with he | hm
  · exact he
  · exact absurd hp (h.other_off_path hs hm)

end SegmentTree

variable {x : HighLevelExecutor σ}
theorem childrenOf_createRootSegment (x : HighLevelExecutor σ) (t : Nat) :
    x.createRootSegment.2.childrenOf t = x.childrenOf t := by
  simp only [childrenOf, createRootSegment, get_alloc]
  split
  next he =>
    rw [x.segments.get_of_le (Nat.le_of_eq he.symm)]
    rfl
  · rfl

theorem pathOf_createRootSegment (x : HighLevelExecutor σ) (ht : t < x.segments.size) :
    x.createRootSegment.2.pathOf t = x.pathOf t := by
  simp only [pathOf, createRootSegment, x.segments.get_alloc_of_lt _ ht]

theorem pathOf_newRoot (x : HighLevelExecutor σ) :
    x.createRootSegment.2.pathOf x.segments.size = x.paths.size := by
  simp [pathOf, createRootSegment]

theorem SegmentTree.createRootSegment (h : SegmentTree x) : SegmentTree x.createRootSegment.2 := by
  have hks := x.childrenOf_createRootSegment
  have hz : x.createRootSegment.2.segments.size = x.segments.size + 1 := by
    simp [HighLevelExecutor.createRootSegment]
  have hpaths : x.createRootSegment.2.paths.size = x.paths.size + 1 := by
    simp [HighLevelExecutor.createRootSegment]
  have hk : x.createRootSegment.2.Child = x.Child := by
    funext s c
    simp only [Child, hks]
  have hp : ∀ {t}, t < x.segments.size + 1 → t < x.segments.size ∧
      x.createRootSegment.2.pathOf t = x.pathOf t ∨
      t = x.segments.size ∧ x.createRootSegment.2.pathOf t = x.paths.size := by
    intro t ht
    obtain hlt | heq := Nat.lt_succ_iff_lt_or_eq.1 ht
    · exact .inl ⟨hlt, x.pathOf_createRootSegment hlt⟩
    · exact .inr ⟨heq, heq ▸ x.pathOf_newRoot⟩
  constructor
  case child_lt =>
    intro s k c hc
    have hlt := h.child_lt (hks s ▸ hc)
    omega
  case parent_unique =>
    intro s k c s' k' hc hc'
    exact h.parent_unique (hks s ▸ hc) (hks s' ▸ hc')
  case keys_nodup =>
    intro s
    rw [hks]
    exact h.keys_nodup
  case key_allowed =>
    intro s k c hc
    exact h.key_allowed (hks s ▸ hc)
  case first_on_path =>
    intro s k c rest hs
    rw [hks] at hs
    have hlt := h.child_lt (s := s) (hs ▸ mem_cons_self)
    rw [x.pathOf_createRootSegment hlt.2, x.pathOf_createRootSegment (by omega)]
    exact h.first_on_path hs
  case others_fresh =>
    intro s first rest k c t hs hm ht
    rw [hks] at hs
    have hlt := h.child_lt (s := s) (hs ▸ mem_cons_of_mem _ hm)
    rw [x.pathOf_createRootSegment hlt.2, x.pathOf_createRootSegment (by omega)]
    exact h.others_fresh hs hm ht
  case path_lt =>
    intro s hs
    obtain ⟨hlt, he⟩ | ⟨_, he⟩ := hp (hz ▸ hs)
    · have := h.path_lt hlt
      omega
    · omega
  case same_path =>
    intro a b ha hb he
    rw [hk]
    obtain ⟨hla, hea⟩ | ⟨rfl, hea⟩ := hp (hz ▸ ha) <;>
      obtain ⟨hlb, heb⟩ | ⟨rfl, heb⟩ := hp (hz ▸ hb)
    · exact h.same_path hla hlb (by omega)
    · have := h.path_lt hla
      omega
    · have := h.path_lt hlb
      omega
    · exact .inl .refl

section
variable (x : HighLevelExecutor σ)
theorem childrenOf_addChild (hs : s < x.segments.size) (k : UInt64)
    (t : Nat) : (x.addChild s k).childrenOf t =
      if t = s then x.childrenOf s ++ [(k, x.segments.size)] else x.childrenOf t := by
  refine (proj_modify _ _ children (.inl ?_) t).trans ?_
  · rw [size_alloc]
    exact Nat.lt_succ_of_lt hs
  split
  next hts =>
    rw [hts, x.segments.get_alloc_of_lt _ hs]
    rfl
  · exact x.segments.proj_alloc children (by rfl) t

section
variable (s : Nat) (k : UInt64)
include s k
theorem pathOf_addChild (ht : t < x.segments.size) : (x.addChild s k).pathOf t = x.pathOf t := by
  refine (get_modify_proj _ _ path (by intro; rfl) _ _).trans ?_
  rw [get_alloc_of_lt _ _ ht, pathOf]

theorem pathOf_newChild : (x.addChild s k).pathOf x.segments.size =
      if x.childrenOf s = [] then x.pathOf s else x.paths.size := by
  refine (get_modify_proj _ _ path (by intro; rfl) _ _).trans ?_
  rw [get_alloc_size]
  simp only [List.isEmpty_iff]
  rfl

theorem size_addChild : (x.addChild s k).segments.size = x.segments.size + 1 := by simp [addChild]

theorem paths_size_addChild : (x.addChild s k).paths.size =
      if x.childrenOf s = [] then x.paths.size else x.paths.size + 1 := by
  by_cases he : x.childrenOf s = []
  · rw [if_pos he]
    rw [childrenOf] at he
    simp [addChild, he]
  · rw [if_neg he]
    rw [childrenOf] at he
    simp [addChild, he]

end

theorem child_addChild (hs : s < x.segments.size) (k : UInt64) :
    (x.addChild s k).Child = AddLeaf x.Child s x.segments.size := by
  funext a b
  simp only [Child, AddLeaf, childrenOf_addChild x hs, eq_iff_iff]
  by_cases ha : a = s
  · subst ha
    simp [exists_or]
  · simp [ha]

end

theorem SegmentTree.not_child_size (h : SegmentTree x) (a : Nat) : ¬x.Child a x.segments.size := by
  rintro ⟨k, hc⟩
  have := h.child_lt hc
  omega

theorem not_size_child (x : HighLevelExecutor σ) (b : Nat) : ¬x.Child x.segments.size b := by
  rintro ⟨k, hc⟩
  rw [x.childrenOf_of_le (Nat.le_refl _)] at hc
  cases hc

theorem SegmentTree.below_addChild_iff (hs : s < x.segments.size) (hb : b < x.segments.size) :
    Below (x.addChild s k).Child a b ↔ Below x.Child a b := by
  rw [x.child_addChild hs]
  exact below_addLeaf_iff x.not_size_child (by omega) (by omega)

theorem SegmentTree.mem_childrenOf_addChild (hs : s < x.segments.size) :
    (k', c) ∈ (x.addChild s k).childrenOf t ↔
      (k', c) ∈ x.childrenOf t ∨ t = s ∧ k' = k ∧ c = x.segments.size := by
  rw [x.childrenOf_addChild hs]
  by_cases ht : t = s
  · subst ht
    simp
  · simp [ht]

theorem SegmentTree.pathOf_addChild_cases (h : SegmentTree x) (ht : t < x.segments.size + 1) :
    t < x.segments.size ∧ (x.addChild s k).pathOf t = x.pathOf t ∨
      t = x.segments.size ∧ (x.childrenOf s = [] ∧ (x.addChild s k).pathOf t = x.pathOf s ∨
        x.childrenOf s ≠ [] ∧ (x.addChild s k).pathOf t = x.paths.size ∧
          ∀ u < x.segments.size, x.pathOf u ≠ x.paths.size) := by
  obtain hlt | heq := Nat.lt_succ_iff_lt_or_eq.1 ht
  · exact .inl ⟨hlt, x.pathOf_addChild s k hlt⟩
  subst heq
  refine .inr ⟨rfl, ?_⟩
  rw [x.pathOf_newChild]
  by_cases he : x.childrenOf s = []
  · exact .inl ⟨he, if_pos he⟩
  refine .inr ⟨he, if_neg he, fun u hu => ?_⟩
  have := h.path_lt hu
  omega

theorem SegmentTree.addChild (h : SegmentTree x) (hs : s < x.segments.size)
    (hk : reservedKey k = false) (hn : (x.childrenOf s).lookup k = none) :
    SegmentTree (x.addChild s k) := by
  constructor
  case child_lt =>
    intro t k' c hc
    rw [x.size_addChild]
    obtain hc | ⟨rfl, rfl, rfl⟩ := (mem_childrenOf_addChild hs).1 hc
    · have := h.child_lt hc
      omega
    · omega
  case parent_unique =>
    intro t k' c t' k'' hc hc'
    rw [mem_childrenOf_addChild hs] at hc hc'
    obtain hm | ⟨rfl, rfl, rfl⟩ := hc
    · obtain hm' | ⟨_, _, rfl⟩ := hc'
      · exact h.parent_unique hm hm'
      · exact absurd ⟨_, hm⟩ (h.not_child_size t)
    · obtain hm' | ⟨ht, hk', _⟩ := hc'
      · exact absurd ⟨_, hm'⟩ (h.not_child_size t')
      · exact ⟨ht.symm, hk'.symm⟩
  case keys_nodup =>
    intro t
    rw [x.childrenOf_addChild hs]
    split
    · rw [map_append, nodup_append]
      refine ⟨h.keys_nodup, by simp, ?_⟩
      intro a ha b hb hab
      have hbk : b = k := by simpa using hb
      exact not_mem_keys_of_lookup hn (hbk ▸ hab ▸ ha)
    · exact h.keys_nodup
  case key_allowed =>
    intro t k' c hc
    obtain hc | ⟨rfl, rfl, rfl⟩ := (mem_childrenOf_addChild hs).1 hc
    · exact h.key_allowed hc
    · exact hk
  case first_on_path =>
    intro t k' c rest ht
    rw [x.childrenOf_addChild hs] at ht
    split at ht
    next hts =>
      subst hts
      cases hl : x.childrenOf t with
      | nil =>
        rw [hl] at ht
        cases ht
        rw [x.pathOf_newChild, if_pos hl, x.pathOf_addChild _ _ hs]
      | cons e es =>
        rw [hl] at ht
        cases ht
        have hlt := h.child_lt (s := t) (hl ▸ mem_cons_self)
        rw [x.pathOf_addChild _ _ hlt.2, x.pathOf_addChild _ _ hs]
        exact h.first_on_path hl
    · have hlt := h.child_lt (s := t) (ht ▸ mem_cons_self)
      rw [x.pathOf_addChild _ _ hlt.2, x.pathOf_addChild _ _ (by omega)]
      exact h.first_on_path ht
  case others_fresh =>
    intro t first rest k' c u ht hm hu
    rw [x.childrenOf_addChild hs] at ht
    have ho : ∀ {es}, x.childrenOf t = first :: es → (k', c) ∈ es →
        (x.addChild s k).pathOf u ≠ (x.addChild s k).pathOf c := by
      intro es hl hm
      have hlt := h.child_lt (s := t) (hl ▸ mem_cons_of_mem _ hm)
      rw [x.pathOf_addChild _ _ hlt.2, x.pathOf_addChild _ _ (by omega)]
      exact h.others_fresh hl hm hu
    split at ht
    next hts =>
      subst hts
      cases hl : x.childrenOf t with
      | nil =>
        rw [hl] at ht
        cases ht
        cases hm
      | cons e es =>
        rw [hl] at ht
        cases ht
        obtain hm | hm := mem_append.1 hm
        · exact ho hl hm
        cases mem_singleton.1 hm
        rw [x.pathOf_newChild, if_neg (by rw [hl]; simp), x.pathOf_addChild _ _ hu]
        have := h.path_lt hu
        omega
    · exact ho ht hm
  case path_lt =>
    intro t ht
    rw [x.size_addChild] at ht
    rw [x.paths_size_addChild]
    obtain ⟨hlt, he⟩ | ⟨_, ⟨hl, he⟩ | ⟨hl, he, _⟩⟩ := h.pathOf_addChild_cases ht (k := k)
    · rw [he]
      have := h.path_lt hlt
      split <;> omega
    · rw [he, if_pos hl]
      exact h.path_lt hs
    · rw [he, if_neg hl]
      omega
  case same_path =>
    have hn : ∀ {a}, a < x.segments.size → (x.addChild s k).pathOf x.segments.size = x.pathOf a →
        Below (x.addChild s k).Child a x.segments.size := by
      intro a ha he
      obtain ⟨hlt, _⟩ | ⟨_, ⟨hl, hp⟩ | ⟨_, hp, hf⟩⟩ :=
        h.pathOf_addChild_cases (Nat.lt_succ_self x.segments.size) (s := s) (k := k)
      · omega
      · have hbl : Below x.Child a s := by
          obtain hb | hb := h.same_path ha hs (he.symm.trans hp)
          · exact hb
          obtain rfl | ⟨c, ⟨k', hc⟩, _⟩ := hb.cases_head
          · exact .refl
          · rw [hl] at hc
            cases hc
        rw [x.child_addChild hs]
        exact hbl.addLeaf.tail (.inr ⟨rfl, rfl⟩)
      · exact absurd (he.symm.trans hp) (hf a ha)
    intro a b ha hb he
    rw [x.size_addChild] at ha hb
    obtain hla | rfl := Nat.lt_succ_iff_lt_or_eq.1 ha
    · obtain hlb | rfl := Nat.lt_succ_iff_lt_or_eq.1 hb
      · rw [below_addChild_iff hs hlb, below_addChild_iff hs hla]
        rw [x.pathOf_addChild _ _ hla, x.pathOf_addChild _ _ hlb] at he
        exact h.same_path hla hlb he
      · exact .inl (hn hla (by rw [← he, x.pathOf_addChild _ _ hla]))
    · obtain hlb | rfl := Nat.lt_succ_iff_lt_or_eq.1 hb
      · exact .inr (hn hlb (by rw [he, x.pathOf_addChild _ _ hlb]))
      · exact .inl .refl

/-- It finds a child, or adds one with a new key. -/
theorem getNextSegment_cases (hg : x.getNextSegment s k = .ok (c, y)) :
    (k, c) ∈ x.childrenOf s ∧ y = x ∨
      reservedKey k = false ∧ (x.childrenOf s).lookup k = none ∧ c = x.segments.size ∧
        y = x.addChild s k := by
  rw [getNextSegment, ← childrenOf] at hg
  split at hg
  · cases hg
  next hk =>
    split at hg
    next child hl =>
      cases hg
      exact .inl ⟨mem_of_lookup hl, rfl⟩
    next hl =>
      cases hg
      exact .inr ⟨Bool.eq_false_of_not_eq_true hk, hl, rfl, rfl⟩

theorem getNextSegment_error (hg : x.getNextSegment s k = .error f) : f = .reservedKey := by
  rw [getNextSegment] at hg
  split at hg
  · cases hg
    rfl
  · split at hg <;> cases hg

theorem SegmentTree.getNextSegment (h : SegmentTree x) (hs : s < x.segments.size)
    (hg : x.getNextSegment s k = .ok (c, y)) : SegmentTree y ∧ (k, c) ∈ y.childrenOf s := by
  obtain ⟨hc, rfl⟩ | ⟨hk, hl, rfl, rfl⟩ := getNextSegment_cases hg
  · exact ⟨h, hc⟩
  · exact ⟨h.addChild hs hk hl, (mem_childrenOf_addChild hs).2 (.inr ⟨rfl, rfl, rfl⟩)⟩

end HighLevelExecutor
end Chef
