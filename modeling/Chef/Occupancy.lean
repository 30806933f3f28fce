import Chef.SegmentTree

namespace Chef
open Foundations LowLevelState Store HighLevelPathSegment Set
namespace HighLevelExecutor
/-- They differ at most in interrupt flags and topological order. -/
structure SameTree (x y : HighLevelExecutor σ) : Prop where
  paths : y.paths = x.paths
  segments : y.segments = x.segments
  hlStates : y.hlStates = x.hlStates
  highLevelStates : y.highLevelStates = x.highLevelStates
  stateMap : y.stateMap = x.stateMap
  selectedState : y.selectedState = x.selectedState
  hlStrategy : y.hlStrategy = x.hlStrategy
  llSize : y.llStates.size = x.llStates.size
  position : y.positionOf l = x.positionOf l

namespace SameTree
variable {x y z : HighLevelExecutor σ}
theorem refl : SameTree x x := ⟨rfl, rfl, rfl, rfl, rfl, rfl, rfl, rfl, rfl⟩

theorem trans (h : SameTree x y) (h' : SameTree y z) : SameTree x z where
  paths := h'.paths.trans h.paths
  segments := h'.segments.trans h.segments
  hlStates := h'.hlStates.trans h.hlStates
  highLevelStates := h'.highLevelStates.trans h.highLevelStates
  stateMap := h'.stateMap.trans h.stateMap
  selectedState := h'.selectedState.trans h.selectedState
  hlStrategy := h'.hlStrategy.trans h.hlStrategy
  llSize := h'.llSize.trans h.llSize
  position := h'.position.trans h.position

theorem setAPICState (x : HighLevelExecutor σ) (l : Nat) (enabled : Bool) :
    SameTree x (x.setAPICState l enabled) where
  paths := rfl
  segments := rfl
  hlStates := rfl
  highLevelStates := rfl
  stateMap := rfl
  selectedState := rfl
  hlStrategy := rfl
  llSize := x.llStates.size_modify l _
  position := x.llStates.get_modify_proj _ segment (by intro; rfl) _ _

theorem enterNode (x : HighLevelExecutor σ) (l : Nat) (index : TopologicIndex) :
    SameTree x (x.enterNode l index) := by
  rw [HighLevelExecutor.enterNode]
  split
  · exact refl
  constructor
  case llSize => exact x.llStates.size_modify l _
  case position =>
    intro l'
    exact x.llStates.get_modify_proj _ segment (by intro; rfl) _ _
  all_goals rfl

theorem leaveNode (x : HighLevelExecutor σ) (l : Nat) : SameTree x (x.leaveNode l) := by
  rw [HighLevelExecutor.leaveNode]
  split
  · exact refl
  · exact ⟨rfl, rfl, rfl, rfl, rfl, rfl, rfl, rfl, rfl⟩

theorem enterSegment (h : SameTree x y) (s l : Nat) :
    SameTree (x.enterSegment s l) (y.enterSegment s l) := by
  have hpath : y.pathOf s = x.pathOf s := by rw [pathOf, pathOf, h.segments]
  constructor
  case paths => simp only [HighLevelExecutor.enterSegment, h.paths, hpath]
  case segments => simp only [HighLevelExecutor.enterSegment, h.segments]
  case llSize => simp only [HighLevelExecutor.enterSegment, size_modify, h.llSize]
  case position =>
    intro l'
    have hp := h.position (l := l')
    simp only [positionOf, HighLevelExecutor.enterSegment, get_modify, h.llSize]
    split
    · rfl
    · exact hp
  all_goals simp only [HighLevelExecutor.enterSegment]
  · exact h.hlStates
  · exact h.highLevelStates
  · exact h.stateMap
  · exact h.selectedState
  · exact h.hlStrategy

theorem disableBoth (x : HighLevelExecutor σ) (s l : Nat) : SameTree x (x.disableBoth s l) := by
  rw [HighLevelExecutor.disableBoth]
  split
  · exact (setAPICState _ _ _).trans (setAPICState _ _ _)
  · exact refl

theorem joinState (x : HighLevelExecutor σ) (s l : Nat) :
    SameTree (x.enterSegment s l) (x.joinState s l) := by
  have hent := (disableBoth x s l).enterSegment s l
  rw [HighLevelExecutor.joinState]
  split
  · exact hent.trans (setAPICState _ _ _)
  · exact hent

theorem leaveState (x : HighLevelExecutor σ) (s l : Nat) :
    SameTree (x.exitSegment s l) (x.leaveState s l) := by
  rw [HighLevelExecutor.leaveState]
  split
  · exact setAPICState _ _ _
  · exact refl

theorem shape (h : SameTree x y) : SameShape x y where
  paths := by rw [h.paths]
  segments := by rw [h.segments]
  children {s} := by simp only [childrenOf, h.segments]
  path {s} := by simp only [pathOf, h.segments]

theorem occupants (h : SameTree x y) : y.occupants s = x.occupants s := by
  rw [HighLevelExecutor.occupants, HighLevelExecutor.occupants, h.segments]

theorem statesOnPath (h : SameTree x y) : y.statesOnPath p = x.statesOnPath p := by
  rw [HighLevelExecutor.statesOnPath, HighLevelExecutor.statesOnPath, h.paths]

end SameTree

section
variable (x : HighLevelExecutor σ)
theorem positionOf_enterSegment (hl : l < x.llStates.size) :
    (x.enterSegment s l).positionOf l' = if l' = l then s else x.positionOf l' :=
  x.llStates.proj_modify _ segment (.inl hl) l'

theorem occupants_enterSegment (hs : s < x.segments.size) : (x.enterSegment s l).occupants t =
      if t = s then (x.occupants t).insert l else x.occupants t :=
  x.segments.proj_modify _ lowLevelStates (.inl hs) t

theorem statesOnPath_enterSegment (hp : x.pathOf s < x.paths.size) :
    (x.enterSegment s l).statesOnPath p =
      if p = x.pathOf s then (x.statesOnPath p).insert l else x.statesOnPath p :=
  x.paths.proj_modify _ HighLevelPath.lowLevelStates (.inl hp) p

theorem enterSegment_shape (s l : Nat) : SameShape x (x.enterSegment s l) where
  paths := size_modify _ _ _
  segments := size_modify _ _ _
  children := get_modify_proj _ _ children (by intro; rfl) _ _
  path := get_modify_proj _ _ path (by intro; rfl) _ _

theorem parent_enterSegment (s l t : Nat) :
    ((x.enterSegment s l).segments.get t).parent = (x.segments.get t).parent :=
  get_modify_proj _ _ parent (by intro; rfl) _ _

theorem statesOnPath_addChild (s : Nat) (k : UInt64) (p : Nat) :
    (x.addChild s k).statesOnPath p = x.statesOnPath p := by
  simp only [statesOnPath, addChild]
  split
  · rfl
  · exact x.paths.proj_alloc HighLevelPath.lowLevelStates rfl p

theorem statesOnPath_createRootSegment (p : Nat) :
    x.createRootSegment.2.statesOnPath p = x.statesOnPath p :=
  x.paths.proj_alloc HighLevelPath.lowLevelStates rfl p

theorem occupants_exitSegment (s l t : Nat) : (x.exitSegment s l).occupants t =
    if t = s then (x.occupants t).erase l else x.occupants t :=
  x.segments.proj_modify _ lowLevelStates (.inr rfl) t

theorem statesOnPath_exitSegment (s l p : Nat) : (x.exitSegment s l).statesOnPath p =
    if p = x.pathOf s then (x.statesOnPath p).erase l else x.statesOnPath p :=
  x.paths.proj_modify _ HighLevelPath.lowLevelStates (.inr rfl) p

theorem exitSegment_shape (s l : Nat) : SameShape x (x.exitSegment s l) where
  paths := size_modify _ _ _
  segments := size_modify _ _ _
  children := get_modify_proj _ _ children (by intro; rfl) _ _
  path := get_modify_proj _ _ path (by intro; rfl) _ _

theorem parent_exitSegment (s l t : Nat) :
    ((x.exitSegment s l).segments.get t).parent = (x.segments.get t).parent :=
  get_modify_proj _ _ parent (by intro; rfl) _ _

end

structure Occupied (x : HighLevelExecutor σ) (A : Set Nat) : Prop where
  occupants : l ∈ x.occupants s ↔ l ∈ A ∧ x.positionOf l = s
  onPath : l ∈ x.statesOnPath p ↔ l ∈ A ∧ x.pathOf (x.positionOf l) = p
  occupants_nodup : (x.occupants s).Nodup
  onPath_nodup : (x.statesOnPath p).Nodup
  low_lt : l ∈ A → l < x.llStates.size
  position_lt : l ∈ A → x.positionOf l < x.segments.size

namespace Occupied
variable {x y : HighLevelExecutor σ} (h : Occupied x A)
include h
theorem extend (hoc : ∀ s, y.occupants s = x.occupants s)
    (hon : ∀ p, y.statesOnPath p = x.statesOnPath p)
    (hpos : ∀ l ∈ A, y.positionOf l = x.positionOf l)
    (hp : ∀ s < x.segments.size, y.pathOf s = x.pathOf s)
    (hll : x.llStates.size ≤ y.llStates.size) (hsg : x.segments.size ≤ y.segments.size) :
    Occupied y A := by
  constructor
  case occupants =>
    intro s l
    rw [hoc, h.occupants]
    exact and_congr_right fun hl => by rw [hpos l hl]
  case onPath =>
    intro p l
    rw [hon, h.onPath]
    exact and_congr_right fun hl => by rw [hpos l hl, hp _ (h.position_lt hl)]
  case occupants_nodup =>
    intro s
    rw [hoc]
    exact h.occupants_nodup
  case onPath_nodup =>
    intro p
    rw [hon]
    exact h.onPath_nodup
  case low_lt => exact fun hl => lt_of_lt_of_le (h.low_lt hl) hll
  case position_lt =>
    intro l hl
    rw [hpos l hl]
    exact lt_of_lt_of_le (h.position_lt hl) hsg

theorem sameTree (hs : SameTree x y) : Occupied y A :=
  h.extend (fun _ => hs.occupants) (fun _ => hs.statesOnPath) (fun _ _ => hs.position)
    (fun _ _ => hs.shape.path) (le_of_eq hs.llSize.symm) (le_of_eq hs.shape.segments.symm)

theorem createRootSegment : Occupied x.createRootSegment.2 A := by
  apply h.extend
  case hoc => exact x.segments.proj_alloc lowLevelStates rfl
  case hon => exact x.statesOnPath_createRootSegment
  case hpos => exact fun _ _ => rfl
  case hp => exact fun _ hs => x.pathOf_createRootSegment hs
  case hll => exact Nat.le_refl _
  case hsg => simp [HighLevelExecutor.createRootSegment]

theorem addChild (s : Nat) (k : UInt64) : Occupied (x.addChild s k) A := by
  apply h.extend
  case hoc =>
    intro t
    exact (get_modify_proj _ _ lowLevelStates (by intro; rfl) _ _).trans
      (x.segments.proj_alloc lowLevelStates (by rfl) t)
  case hon => exact statesOnPath_addChild x s k
  case hpos => exact fun _ _ => rfl
  case hp => exact fun _ ht => x.pathOf_addChild s k ht
  case hll => exact le_refl _
  case hsg =>
    rw [x.size_addChild]
    exact Nat.le_succ _

theorem getNextSegment (hg : x.getNextSegment s k = .ok (c, y)) : Occupied y A := by
  obtain ⟨_, rfl⟩ | ⟨_, _, _, rfl⟩ := getNextSegment_cases hg
  · exact h
  · exact h.addChild s k

theorem allocLowLevelState (ll : LowLevelState) (live : List Nat) :
    Occupied { x with llStates := x.llStates.alloc ll, stateMap := live } A := by
  apply h.extend
  case hpos =>
    intro l hl
    simp only [positionOf, x.llStates.get_alloc_of_lt ll (h.low_lt hl)]
  case hll => simp
  all_goals simp only [HighLevelExecutor.occupants, statesOnPath, pathOf, implies_true]
  exact le_refl _

theorem enterSegment (hT : SegmentTree x) (hs : s < x.segments.size)
    (hl : l < x.llStates.size) (hA : l ∉ A) : Occupied (x.enterSegment s l) (insert l A) := by
  have hsh := x.enterSegment_shape s l
  constructor
  case occupants =>
    intro t l'
    rw [x.occupants_enterSegment hs, x.positionOf_enterSegment hl, mem_insert_iff]
    by_cases hl' : l' = l
    · subst hl'
      by_cases ht : t = s
      · simp [ht]
      · simp [ht, h.occupants, hA, Ne.symm ht]
    · by_cases ht : t = s <;> simp [ht, hl', h.occupants]
  case onPath =>
    intro p l'
    rw [x.statesOnPath_enterSegment (hT.path_lt hs), x.positionOf_enterSegment hl, hsh.path,
      mem_insert_iff]
    by_cases hl' : l' = l
    · subst hl'
      by_cases hp : p = x.pathOf s
      · simp [hp]
      · simp [hp, h.onPath, hA, Ne.symm hp]
    · by_cases hp : p = x.pathOf s <;> simp [hp, hl', h.onPath]
  case occupants_nodup =>
    intro t
    rw [x.occupants_enterSegment hs]
    split
    · exact h.occupants_nodup.insert
    · exact h.occupants_nodup
  case onPath_nodup =>
    intro p
    rw [x.statesOnPath_enterSegment (hT.path_lt hs)]
    split
    · exact h.onPath_nodup.insert
    · exact h.onPath_nodup
  case low_lt =>
    intro l' hl'
    simp only [HighLevelExecutor.enterSegment, size_modify]
    obtain rfl | hl' := hl'
    · exact hl
    · exact h.low_lt hl'
  case position_lt =>
    intro l' hl'
    rw [x.positionOf_enterSegment hl, hsh.segments]
    split
    · exact hs
    next hne => exact h.position_lt (hl'.resolve_left hne)

theorem exitSegment (l : Nat) : Occupied (x.exitSegment (x.positionOf l) l) (A \ {l}) := by
  have hpos : ∀ l', (x.exitSegment (x.positionOf l) l).positionOf l' = x.positionOf l' :=
    fun _ => rfl
  have hsh := x.exitSegment_shape (x.positionOf l) l
  constructor
  case occupants =>
    intro t l'
    rw [x.occupants_exitSegment, hpos, mem_sdiff, mem_singleton_iff]
    split
    · rw [h.occupants_nodup.mem_erase_iff, h.occupants]
      tauto
    next ht =>
      rw [h.occupants]
      constructor
      · rintro ⟨hA, rfl⟩
        exact ⟨⟨hA, fun he => ht (he ▸ rfl)⟩, rfl⟩
      · exact fun hA => ⟨hA.1.1, hA.2⟩
  case onPath =>
    intro p l'
    rw [x.statesOnPath_exitSegment, hpos, hsh.path, mem_sdiff, mem_singleton_iff]
    split
    · rw [h.onPath_nodup.mem_erase_iff, h.onPath]
      tauto
    next hp =>
      rw [h.onPath]
      constructor
      · rintro ⟨hA, rfl⟩
        exact ⟨⟨hA, fun he => hp (he ▸ rfl)⟩, rfl⟩
      · exact fun hA => ⟨hA.1.1, hA.2⟩
  case occupants_nodup =>
    intro t
    rw [x.occupants_exitSegment]
    split
    · exact h.occupants_nodup.erase _
    · exact h.occupants_nodup
  case onPath_nodup =>
    intro p
    rw [x.statesOnPath_exitSegment]
    split
    · exact h.onPath_nodup.erase _
    · exact h.onPath_nodup
  case low_lt => exact fun hl => h.low_lt hl.1
  case position_lt =>
    intro l' hl'
    rw [hpos, hsh.segments]
    exact h.position_lt hl'.1

end Occupied

variable {x y : HighLevelExecutor σ}
theorem moveLowLevelState_cases (hm : x.moveLowLevelState l k = .ok y) :
    ∃ c z, x.getNextSegment (x.positionOf l) k = .ok (c, z) ∧
      SameTree ((z.exitSegment (x.positionOf l) l).enterSegment c l) y := by
  obtain ⟨⟨c, z⟩, hg, hy⟩ := bind_ok_iff.1 hm
  obtain rfl := Except.ok.inj hy
  refine ⟨c, z, hg, ?_⟩
  exact ((SameTree.leaveState z (x.positionOf l) l).enterSegment c l).trans
    (SameTree.joinState _ _ _)

variable (x : HighLevelExecutor σ)
theorem removeLowLevelState_sameTree (l : Nat) :
    SameTree { x.exitSegment (x.positionOf l) l with stateMap := x.stateMap.erase l }
      (x.removeLowLevelState l) := by
  have h := (SameTree.leaveState x (x.positionOf l) l).trans (SameTree.leaveNode _ l)
  constructor
  case stateMap => simp only [removeLowLevelState, h.stateMap, exitSegment]
  case position =>
    intro l'
    exact h.position
  all_goals simp only [removeLowLevelState]
  · exact h.paths
  · exact h.segments
  · exact h.hlStates
  · exact h.highLevelStates
  · exact h.selectedState
  · exact h.hlStrategy
  · exact h.llSize

theorem cloneLowLevelState_sameTree (l : Nat) :
    SameTree ((x.withLowLevelState (x.positionOf l) (x.llStates.get l).apicEnabled).enterSegment
      (x.positionOf l) x.llStates.size) (x.cloneLowLevelState l) :=
  (SameTree.joinState _ _ _).trans (SameTree.enterNode _ _ _)

theorem createRootStates_sameTree (apicEnabled : Bool) :
    SameTree ((x.withRootState.withLowLevelState x.segments.size apicEnabled).enterSegment
      x.segments.size x.llStates.size) (x.createRootStates apicEnabled) :=
  (SameTree.joinState _ _ _).trans (SameTree.enterNode _ _ _)

end HighLevelExecutor
end Chef
