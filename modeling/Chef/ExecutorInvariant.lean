import Chef.HighLevelAdvance

namespace Chef
open Foundations List Store HighLevelPathSegment
namespace HighLevelExecutor
namespace Rooted
variable {x y : HighLevelExecutor σ} (hR : Rooted x)
include hR
theorem relocate (hsh : SameShape x y) (hhl : y.hlStates = x.hlStates)
    (hlv : y.highLevelStates = x.highLevelStates)
    (hp : ∀ s, (y.segments.get s).parent = (x.segments.get s).parent)
    (hw : ∀ l ∈ y.stateMap, ∃ h ∈ x.highLevelStates,
      Below x.Child (x.segmentOf h) (y.positionOf l)) : Rooted y := by
  have hg : y.segmentOf = x.segmentOf := by
    funext h
    rw [segmentOf, segmentOf, hhl]
  constructor
  case high_lt =>
    intro h hh
    rw [hhl]
    exact hR.high_lt (hlv ▸ hh)
  case nodup =>
    rw [hlv]
    exact hR.nodup
  case segment_lt =>
    intro h hh
    rw [hg, hsh.segments]
    exact hR.segment_lt (hlv ▸ hh)
  case cut =>
    intro h hh
    rw [hp, hg]
    exact hR.cut (hlv ▸ hh)
  case frontier =>
    rw [hsh.child, hlv, hg]
    refine ⟨hR.frontier.separated, ?_⟩
    rintro p ⟨l, hl, rfl⟩
    exact hw l hl

theorem covered (hl : l ∈ x.stateMap) :
    ∃ h ∈ x.highLevelStates, Below x.Child (x.segmentOf h) (x.positionOf l) :=
  hR.frontier.covers ⟨l, hl, rfl⟩

theorem addChild (hs : s < x.segments.size) (k : UInt64) : Rooted (x.addChild s k) := by
  constructor
  case high_lt => exact hR.high_lt
  case nodup => exact hR.nodup
  case segment_lt =>
    intro h hh
    rw [x.size_addChild]
    exact Nat.lt_succ_of_lt (hR.segment_lt hh)
  case cut =>
    intro h hh
    refine (get_modify_proj _ _ parent (by intro; rfl) _ _).trans ?_
    have hlt := hR.segment_lt hh
    rw [segmentOf] at hlt
    rw [segmentOf, HighLevelExecutor.addChild, get_alloc_of_lt _ _ hlt]
    exact hR.cut hh
  case frontier =>
    constructor
    · intro i j hi hj hb
      exact hR.frontier.separated hi hj
        ((SegmentTree.below_addChild_iff hs (hR.segment_lt hj)).1 hb)
    intro p hp
    obtain ⟨h, hh, hb⟩ := hR.frontier.covers hp
    rw [x.child_addChild hs]
    exact ⟨h, hh, hb.addLeaf⟩

theorem getNextSegment (hs : s < x.segments.size)
    (hg : x.getNextSegment s k = .ok (c, y)) : Rooted y := by
  obtain ⟨_, rfl⟩ | ⟨_, _, _, rfl⟩ := getNextSegment_cases hg
  · exact hR
  · exact hR.addChild hs k

theorem withRootState (hT : SegmentTree x) : Rooted x.withRootState := by
  have hk : x.withRootState.Child = x.Child := by
    funext s c
    exact congrArg (fun cs => ∃ k, (k, c) ∈ cs) (x.childrenOf_createRootSegment s)
  have ho : ∀ {h}, h < x.hlStates.size → x.withRootState.segmentOf h = x.segmentOf h :=
    fun hh => congrArg HighLevelState.segment (x.hlStates.get_alloc_of_lt _ hh)
  have hn : x.withRootState.segmentOf x.hlStates.size = x.segments.size :=
    congrArg HighLevelState.segment (x.hlStates.get_alloc_size _)
  have hlv : ∀ {h}, h ∈ x.withRootState.highLevelStates →
      h ∈ x.highLevelStates ∧ x.withRootState.segmentOf h = x.segmentOf h ∨
        h = x.hlStates.size ∧ x.withRootState.segmentOf h = x.segments.size := by
    intro h hh
    obtain hh | hh := mem_append.1 hh
    · exact .inl ⟨hh, ho (hR.high_lt hh)⟩
    · cases mem_singleton.1 hh
      exact .inr ⟨rfl, hn⟩
  have hz : x.withRootState.hlStates.size = x.hlStates.size + 1 := size_alloc _ _
  have hg : x.withRootState.segments.size = x.segments.size + 1 := size_alloc _ _
  constructor
  case high_lt =>
    intro h hh
    rw [hz]
    obtain ⟨hh, _⟩ | ⟨rfl, _⟩ := hlv hh
    · exact Nat.lt_succ_of_lt (hR.high_lt hh)
    · exact Nat.lt_succ_self _
  case nodup =>
    refine nodup_append.2 ⟨hR.nodup, nodup_singleton _, ?_⟩
    intro a ha b hb hab
    have := hR.high_lt ha
    have := mem_singleton.1 hb
    omega
  case segment_lt =>
    intro h hh
    obtain ⟨hh, he⟩ | ⟨rfl, he⟩ := hlv hh
    · have := hR.segment_lt hh
      omega
    · omega
  case cut =>
    intro h hh
    obtain ⟨hh, he⟩ | ⟨rfl, he⟩ := hlv hh
    · rw [he]
      refine (congrArg parent (x.segments.get_alloc_of_lt _ (hR.segment_lt hh))).trans (hR.cut hh)
    · rw [he]
      exact congrArg parent (x.segments.get_alloc_size _)
  case frontier =>
    rw [hk]
    constructor
    · intro i j hi hj hb
      obtain ⟨hi, hei⟩ | ⟨hi, hei⟩ := hlv hi <;> obtain ⟨hj, hej⟩ | ⟨hj, hej⟩ := hlv hj <;>
        rw [hei, hej] at hb
      · exact hR.frontier.separated hi hj hb
      · obtain he | ⟨t, _, ht⟩ := hb.cases_tail
        · have := hR.segment_lt hi
          omega
        · exact absurd ht (hT.not_child_size t)
      · obtain he | ⟨t, ht, _⟩ := hb.cases_head
        · have := hR.segment_lt hj
          omega
        · exact absurd ht (x.not_size_child t)
      · exact hi.trans hj.symm
    · intro p hp
      obtain ⟨h, hh, hb⟩ := hR.frontier.covers hp
      exact ⟨h, mem_append_left _ hh, (ho (hR.high_lt hh)).symm ▸ hb⟩

end Rooted

structure Invariant {S : HighLevelStrategy σ} (L : S.Lawful) (x : HighLevelExecutor σ) : Prop where
  tree : SegmentTree x
  occupied : Occupied x { l | l ∈ x.stateMap }
  map_nodup : x.stateMap.Nodup
  rooted : Rooted x
  tracks : L.Tracks x.hlStrategy { h | h ∈ x.highLevelStates }
  selected : x.selectedState = some h → h ∈ x.highLevelStates

variable {S : HighLevelStrategy σ} {L : S.Lawful}
theorem Informs.tracks (hi : Informs S x.hlStrategy h succ (.ok strategy))
    (ha : Advance x h succ y) (ht : L.Tracks x.hlStrategy { h | h ∈ x.highLevelStates }) :
    L.Tracks strategy { h | h ∈ y.highLevelStates } := by
  generalize hc : Except.ok strategy = call at hi
  cases hi with
  | kill =>
    have he : { g | g ∈ y.highLevelStates } = { g | g ∈ x.highLevelStates } \ {h} := by
      ext g
      simp [ha.live]
    exact he ▸ L.killState ht hc.symm
  | update =>
    have he : { g | g ∈ y.highLevelStates } = { g | g ∈ x.highLevelStates } := by
      ext g
      have := ha.mem
      by_cases hg : g = h <;> simp_all [ha.live]
    exact he ▸ L.updateState ht hc.symm
  | add =>
    rename_i states
    have he : { g | g ∈ y.highLevelStates } =
        { g | g ∈ x.highLevelStates } ∪ { g | g ∈ states } := by
      ext g
      have := ha.mem
      by_cases hg : g = h <;> simp_all [ha.live]
    exact he ▸ L.addStates ht hc.symm

theorem Informs.ok (hS : S.Total L) (hi : Informs S x.hlStrategy h succ call)
    (ha : Advance x h succ y) (hT : SegmentTree x) (hR : Rooted x)
    (ht : L.Tracks x.hlStrategy { h | h ∈ x.highLevelStates }) :
    ∃ strategy, call = .ok strategy := by
  cases hi with
  | kill => exact hS.killState ht ha.mem
  | update => exact hS.updateState ht ha.mem
  | add =>
    rename_i states
    have hnd : (h :: states).Nodup := (ha.segments.nodup_iff.2 hT.child_segments_nodup).of_map
    apply hS.addStates ht
    · rintro g ⟨⟩
      exact ha.mem
    · exact (nodup_cons.1 hnd).2
    intro g hg hx
    obtain rfl | hle := ha.fresh (mem_cons_of_mem _ hg)
    · exact (nodup_cons.1 hnd).1 hg
    · have := hR.high_lt hx
      omega

theorem Invariant.empty_segment (hI : Invariant L x) (he : x.occupants s = []) :
    ∀ l ∈ x.stateMap, x.positionOf l ≠ s := by
  intro l hl hp
  have hm := hI.occupied.occupants.2 ⟨hl, hp⟩
  rw [he] at hm
  cases hm

theorem Invariant.advance (hI : Invariant L x) (ha : Advance x h succ y)
    (hi : Informs S x.hlStrategy h succ (.ok strategy)) (he : x.occupants (x.segmentOf h) = []) :
    Invariant L ({ y with hlStrategy := strategy }.selectNext S) := by
  have hsm := ha.same
  have hR : Rooted y := ha.rooted hI.tree hI.rooted (hI.empty_segment he)
  constructor
  case tree =>
    have hsh : SameShape x ({ y with hlStrategy := strategy }.selectNext S) :=
      hsm.shape.trans ⟨rfl, rfl, rfl, rfl⟩
    exact hsh.segmentTree hI.tree
  case occupied =>
    have hp : ({ y with hlStrategy := strategy }.selectNext S).stateMap = x.stateMap := hsm.stateMap
    rw [hp]
    apply hI.occupied.extend
    · exact fun _ => hsm.occupants
    · intro p
      exact congrArg (fun paths => (paths.get p).lowLevelStates) hsm.paths
    · exact fun l _ => hsm.position l
    · exact fun _ _ => hsm.path
    · exact le_of_eq (congrArg size hsm.llStates).symm
    · exact le_of_eq hsm.size.symm
  case map_nodup =>
    have hm := hI.map_nodup
    rw [← hsm.stateMap] at hm
    exact hm
  case rooted =>
    exact hR.relocate ⟨rfl, rfl, rfl, rfl⟩ rfl rfl (fun _ => rfl) fun _ hl => hR.covered hl
  case tracks =>
    have ht := hi.tracks ha hI.tracks
    exact L.selectState ht
  case selected =>
    have ht := hi.tracks ha hI.tracks
    intro g hs
    exact L.selectState_mem ht hs

variable {order : List (UInt64 × Nat) → List (UInt64 × Nat)}
section
variable (hord : ∀ cs, (order cs).Perm cs) (hI : Invariant L x) (hs : x.selectedState = some h)
include hord hI hs
theorem doUpdateSelectedState_cases :
    x.occupants (x.segmentOf h) ≠ [] ∧ x.doUpdateSelectedState S order h = .ok none ∨
      x.occupants (x.segmentOf h) = [] ∧
        ((∃ e0 e1 rest, x.childrenOf (x.segmentOf h) = e0 :: e1 :: rest ∧ e0.1 = 0 ∧
          x.doUpdateSelectedState S order h = .error .successorNotFound) ∨
        ∃ succ y call, Advance x h succ y ∧ Informs S x.hlStrategy h succ call ∧
          x.doUpdateSelectedState S order h =
            (y.withStrategy call >>= fun z => .ok (some (z.selectNext S)))) := by
  have hh := hI.selected hs
  rw [doUpdateSelectedState, hI.rooted.cut hh, ← occupants]
  by_cases he : x.occupants (x.segmentOf h) = []
  · refine .inr ⟨he, ?_⟩
    rw [if_neg (not_not.2 he), if_neg (by simp)]
    obtain ⟨e0, e1, rest, hc, hz, hr⟩ | ⟨succ, y, call, ha, hi, hr⟩ :=
      advanceSelected_cases hord hI.tree hI.rooted hh (S := S)
    · refine .inl ⟨e0, e1, rest, hc, hz, ?_⟩
      rw [hr]
      rfl
    · refine .inr ⟨succ, y, call, ha, hi, ?_⟩
      rw [hr]
  · exact .inl ⟨he, if_pos he⟩

variable (hu : x.doUpdateSelectedState S order h = .ok (some z))
include hu
theorem doUpdateSelectedState_some :
    ∃ succ y strategy, x.occupants (x.segmentOf h) = [] ∧ Advance x h succ y ∧
      Informs S x.hlStrategy h succ (.ok strategy) ∧
        z = { y with hlStrategy := strategy }.selectNext S := by
  obtain ⟨_, hr⟩ | ⟨he, ⟨_, _, _, _, _, hr⟩ | ⟨succ, y, call, ha, hi, hr⟩⟩ :=
    doUpdateSelectedState_cases hord hI hs
  · rw [hr] at hu
    cases hu
  · rw [hr] at hu
    cases hu
  rw [hr] at hu
  cases call with
  | error f => cases hu
  | ok strategy =>
    cases hu
    exact ⟨succ, y, strategy, he, ha, hi, rfl⟩

theorem Invariant.doUpdateSelectedState : Invariant L z := by
  obtain ⟨succ, y, strategy, he, ha, hi, rfl⟩ := doUpdateSelectedState_some hord hI hs hu
  exact hI.advance ha hi he

end

/-- What one advance keeps, the whole update keeps. -/
theorem tryUpdateSelectedState_induction {P : HighLevelExecutor σ → Prop}
    (ht : ∀ x h z, P x → x.selectedState = some h →
      x.doUpdateSelectedState S order h = .ok (some z) → P z)
    (hP : P x) (hu : x.tryUpdateSelectedState S order fuel = .ok y) : P y := by
  induction fuel generalizing x with
  | zero => cases hu
  | succ fuel ih =>
    rw [tryUpdateSelectedState] at hu
    split at hu
    · cases hu
      exact hP
    next h hs =>
      obtain ⟨r, hr, hu⟩ := bind_ok_iff.1 hu
      cases r with
      | none =>
        cases hu
        exact hP
      | some z => exact ih (ht x h z hP hs hr) hu

theorem Invariant.tryUpdateSelectedState (hord : ∀ cs, (order cs).Perm cs)
    (hI : Invariant L x) (hu : x.tryUpdateSelectedState S order fuel = .ok y) : Invariant L y :=
  tryUpdateSelectedState_induction
    (fun _ _ _ hI hs hr => Invariant.doUpdateSelectedState hord hI hs hr) hI hu

theorem Invariant.initial (L : S.Lawful) : Invariant L (initial S) := by
  have hz : (HighLevelExecutor.initial S).segments.size = 0 := rfl
  have hm : (HighLevelExecutor.initial S).stateMap = [] := rfl
  have hlv : (HighLevelExecutor.initial S).highLevelStates = [] := rfl
  have hks : ∀ s, (HighLevelExecutor.initial S).childrenOf s = [] := fun s =>
    (HighLevelExecutor.initial S).childrenOf_of_le (Nat.zero_le s)
  have ho : ∀ s, (HighLevelExecutor.initial S).occupants s = [] := fun s =>
    congrArg lowLevelStates (get_of_le _ (Nat.zero_le s))
  have hon : ∀ p, (HighLevelExecutor.initial S).statesOnPath p = [] := fun p =>
    congrArg HighLevelPath.lowLevelStates (get_of_le _ (Nat.zero_le p))
  constructor
  case tree => constructor <;> simp [hks, hz]
  case occupied => constructor <;> simp [ho, hon, hm]
  case map_nodup => exact nodup_nil
  case rooted =>
    constructor
    case frontier => constructor <;> simp [hlv, hm]
    all_goals simp [hlv]
  case tracks =>
    have he : { h | h ∈ (HighLevelExecutor.initial S).highLevelStates } = ∅ := by simp [hlv]
    rw [he]
    exact L.init
  case selected =>
    rintro h ⟨⟩

section
variable (hI : Invariant L x)
include hI
theorem Invariant.sameTree (h : SameTree x y) : Invariant L y where
  tree := h.shape.segmentTree hI.tree
  occupied := by
    rw [h.stateMap]
    exact hI.occupied.sameTree h
  map_nodup := by
    rw [h.stateMap]
    exact hI.map_nodup
  rooted := by
    apply hI.rooted.relocate h.shape h.hlStates h.highLevelStates (fun s => by rw [h.segments])
    intro l hl
    rw [h.position]
    exact hI.rooted.covered (h.stateMap ▸ hl)
  tracks := by
    rw [h.hlStrategy, h.highLevelStates]
    exact hI.tracks
  selected hs := by
    rw [h.highLevelStates]
    exact hI.selected (h.selectedState ▸ hs)

theorem Invariant.getNextSegment (hs : s < x.segments.size)
    (hg : x.getNextSegment s k = .ok (c, y)) : Invariant L y := by
  have ht := (hI.tree.getNextSegment hs hg).1
  have ho := hI.occupied.getNextSegment hg
  have hr := hI.rooted.getNextSegment hs hg
  obtain ⟨_, rfl⟩ | ⟨_, _, _, rfl⟩ := getNextSegment_cases hg
  · exact hI
  · exact ⟨ht, ho, hI.map_nodup, hr, hI.tracks, hI.selected⟩

theorem Invariant.moveTo (hl : l ∈ x.stateMap) (hc : (k, c) ∈ x.childrenOf (x.positionOf l)) :
    Invariant L ((x.exitSegment (x.positionOf l) l).enterSegment c l) := by
  have hsh := (x.exitSegment_shape (x.positionOf l) l).trans
    ((x.exitSegment (x.positionOf l) l).enterSegment_shape c l)
  have hw := hI.occupied.low_lt hl
  have hp : ∀ l', ((x.exitSegment (x.positionOf l) l).enterSegment c l).positionOf l' =
      if l' = l then c else x.positionOf l' :=
    fun l' => (x.exitSegment (x.positionOf l) l).positionOf_enterSegment hw
  constructor
  case tree => exact hsh.segmentTree hI.tree
  case occupied =>
    have hx := hI.occupied.exitSegment l
    have ht := (x.exitSegment_shape (x.positionOf l) l).segmentTree hI.tree
    have hlt : c < (x.exitSegment (x.positionOf l) l).segments.size := by
      rw [(x.exitSegment_shape (x.positionOf l) l).segments]
      exact (hI.tree.child_lt hc).2
    have hn := hx.enterSegment ht hlt hw (by simp)
    have hset : insert l ({ l | l ∈ x.stateMap } \ {l}) = { l | l ∈ x.stateMap } := by
      ext l'
      by_cases he : l' = l <;> simp [he, hl]
    exact hset ▸ hn
  case map_nodup => exact hI.map_nodup
  case rooted =>
    apply hI.rooted.relocate hsh rfl rfl
    · intro s
      rw [parent_enterSegment, parent_exitSegment]
    intro l' hl'
    rw [hp]
    split
    · obtain ⟨h, hh, hb⟩ := hI.rooted.covered hl
      exact ⟨h, hh, hb.tail ⟨k, hc⟩⟩
    · exact hI.rooted.covered hl'
  case tracks => exact hI.tracks
  case selected => exact hI.selected

theorem Invariant.moveLowLevelState (hl : l ∈ x.stateMap)
    (hm : x.moveLowLevelState l k = .ok y) : Invariant L y := by
  obtain ⟨c, z, hg, hsm⟩ := moveLowLevelState_cases hm
  have hs := hI.occupied.position_lt hl
  have hz := hI.getNextSegment hs hg
  have hc := (hI.tree.getNextSegment hs hg).2
  have hp : z.positionOf l = x.positionOf l := by
    obtain ⟨_, rfl⟩ | ⟨_, _, _, rfl⟩ := getNextSegment_cases hg <;> rfl
  have hmap : l ∈ z.stateMap := by
    obtain ⟨_, rfl⟩ | ⟨_, _, _, rfl⟩ := getNextSegment_cases hg <;> exact hl
  rw [← hp] at hc hsm
  exact (hz.moveTo hmap hc).sameTree hsm

theorem Invariant.removeLowLevelState (l : Nat) : Invariant L (x.removeLowLevelState l) := by
  apply Invariant.sameTree _ (x.removeLowLevelState_sameTree l)
  have hsh : SameShape x { x.exitSegment (x.positionOf l) l with stateMap := x.stateMap.erase l } :=
    (x.exitSegment_shape (x.positionOf l) l).trans ⟨rfl, rfl, rfl, rfl⟩
  constructor
  case tree => exact hsh.segmentTree hI.tree
  case occupied =>
    have ht : { l' | l' ∈ x.stateMap.erase l } = { l' | l' ∈ x.stateMap } \ {l} := by
      ext l'
      simp [hI.map_nodup.mem_erase_iff, and_comm]
    rw [ht]
    exact (hI.occupied.exitSegment l).extend (fun _ => rfl) (fun _ => rfl) (fun _ _ => rfl)
      (fun _ _ => rfl) (le_refl _) (le_refl _)
  case map_nodup => exact hI.map_nodup.erase l
  case rooted =>
    apply hI.rooted.relocate hsh rfl rfl
    · exact fun s => x.parent_exitSegment (x.positionOf l) l s
    · exact fun l' hl' => hI.rooted.covered (mem_of_mem_erase hl')
  case tracks => exact hI.tracks
  case selected => exact hI.selected

theorem Invariant.enterNew (hs : s < x.segments.size)
    (hh : h ∈ x.highLevelStates) (hb : Below x.Child (x.segmentOf h) s) (apicEnabled : Bool) :
    Invariant L ((x.withLowLevelState s apicEnabled).enterSegment s x.llStates.size) := by
  have hn : x.llStates.size ∉ x.stateMap := fun hm => lt_irrefl _ (hI.occupied.low_lt hm)
  have ho : Occupied (x.withLowLevelState s apicEnabled) { l | l ∈ x.stateMap } :=
    hI.occupied.allocLowLevelState _ _
  have ht : SegmentTree (x.withLowLevelState s apicEnabled) :=
    SameShape.segmentTree (x := x) ⟨rfl, rfl, rfl, rfl⟩ hI.tree
  have hlt : x.llStates.size < (x.withLowLevelState s apicEnabled).llStates.size := by
    simp [withLowLevelState]
  have hsh : SameShape x ((x.withLowLevelState s apicEnabled).enterSegment s x.llStates.size) :=
    SameShape.trans (y := x.withLowLevelState s apicEnabled) ⟨rfl, rfl, rfl, rfl⟩
      (enterSegment_shape _ _ _)
  constructor
  case tree => exact hsh.segmentTree hI.tree
  case occupied =>
    have hset : { l | l ∈ x.stateMap ++ [x.llStates.size] } =
        insert x.llStates.size { l | l ∈ x.stateMap } := by
      ext l
      simp [or_comm]
    have he := ho.enterSegment ht hs hlt hn
    rw [← hset] at he
    exact he
  case map_nodup =>
    refine nodup_append.2 ⟨hI.map_nodup, nodup_singleton _, ?_⟩
    intro a ha b hb hab
    exact hn (mem_singleton.1 hb ▸ hab ▸ ha)
  case rooted =>
    apply hI.rooted.relocate hsh rfl rfl
    · exact fun t => parent_enterSegment _ s _ t
    intro l hl
    rw [positionOf_enterSegment _ hlt]
    split
    · exact ⟨h, hh, hb⟩
    next hne =>
      have hm : l ∈ x.stateMap := by
        obtain hm | hm := mem_append.1 hl
        · exact hm
        · exact absurd (mem_singleton.1 hm) hne
      have hp : (x.withLowLevelState s apicEnabled).positionOf l = x.positionOf l :=
        congrArg LowLevelState.segment (x.llStates.get_alloc_of_lt _ (hI.occupied.low_lt hm))
      rw [hp]
      exact hI.rooted.covered hm
  case tracks => exact hI.tracks
  case selected => exact hI.selected

theorem Invariant.cloneLowLevelState (hl : l ∈ x.stateMap) :
    Invariant L (x.cloneLowLevelState l) := by
  obtain ⟨h, hh, hb⟩ := hI.rooted.covered hl
  exact (hI.enterNew (hI.occupied.position_lt hl) hh hb _).sameTree
    (x.cloneLowLevelState_sameTree l)

end

def withSelection (x : HighLevelExecutor σ) (strategy : σ) (selected : Option Nat) :
    HighLevelExecutor σ :=
  { x with hlStrategy := strategy, selectedState := selected }

theorem SameTree.withSelection (h : SameTree x y) (strategy : σ) (selected : Option Nat) :
    SameTree (x.withSelection strategy selected) (y.withSelection strategy selected) :=
  ⟨h.paths, h.segments, h.hlStates, h.highLevelStates, h.stateMap, rfl, rfl, h.llSize, h.position⟩

theorem SegmentTree.withRootState (hT : SegmentTree x) : SegmentTree x.withRootState :=
  SameShape.segmentTree (x := x.createRootSegment.2) ⟨rfl, rfl, rfl, rfl⟩ hT.createRootSegment

theorem Occupied.withRootState (ho : Occupied x A) : Occupied x.withRootState A :=
  ho.createRootSegment.extend (fun _ => rfl) (fun _ => rfl) (fun _ _ => rfl)
    (fun _ _ => rfl) (le_refl _) (le_refl _)

theorem Invariant.withRootState {selected : Option Nat} (hI : Invariant L x)
    (ht : L.Tracks strategy { h | h ∈ x.withRootState.highLevelStates })
    (hsel : ∀ h, selected = some h → h ∈ x.withRootState.highLevelStates) :
    Invariant L (x.withRootState.withSelection strategy selected) := by
  have hr := hI.rooted.withRootState hI.tree
  constructor
  case tree =>
    exact SameShape.segmentTree (x := x.withRootState) ⟨rfl, rfl, rfl, rfl⟩ hI.tree.withRootState
  case occupied =>
    exact hI.occupied.withRootState.extend (fun _ => rfl) (fun _ => rfl) (fun _ _ => rfl)
      (fun _ _ => rfl)
      (le_refl _) (le_refl _)
  case map_nodup => exact hI.map_nodup
  case rooted =>
    exact hr.relocate ⟨rfl, rfl, rfl, rfl⟩ rfl rfl (fun _ => rfl) fun _ hl => hr.covered hl
  case tracks => exact ht
  case selected => exact hsel _

theorem Invariant.createState (hI : Invariant L x) (hc : x.createState S apicEnabled = .ok y) :
    Invariant L y := by
  have hm := x.createRootStates_sameTree apicEnabled
  obtain ⟨z, hz, hy⟩ := bind_ok_iff.1 hc
  cases hy
  have hstr : (x.createRootStates apicEnabled).hlStrategy = x.hlStrategy := hm.hlStrategy
  rw [hstr] at hz
  cases hl : S.addStates x.hlStrategy none [x.hlStates.size] with
  | error f =>
    rw [hl] at hz
    cases hz
  | ok strategy =>
    rw [hl] at hz
    cases hz
    have hset : { h | h ∈ x.withRootState.highLevelStates } =
        { h | h ∈ x.highLevelStates } ∪ { h | h ∈ [x.hlStates.size] } := by
      ext h
      simp [HighLevelExecutor.withRootState, or_comm]
    have ht : L.Tracks strategy { h | h ∈ x.withRootState.highLevelStates } :=
      hset ▸ L.addStates hI.tracks hl
    have hr := hI.withRootState (L.selectState ht) (fun h hs => L.selectState_mem ht hs)
    have hlv : x.hlStates.size ∈ x.withRootState.highLevelStates :=
      mem_append_right _ (mem_singleton.2 rfl)
    have hsz : x.segments.size < x.withRootState.segments.size := by
      simp [HighLevelExecutor.withRootState, createRootSegment]
    have hg : x.withRootState.segmentOf x.hlStates.size = x.segments.size :=
      congrArg HighLevelState.segment (x.hlStates.get_alloc_size _)
    have hb : Below x.withRootState.Child (x.withRootState.segmentOf x.hlStates.size)
        x.segments.size := hg ▸ .refl
    exact (hr.enterNew hsz hlv hb apicEnabled).sameTree (hm.withSelection _ _)

theorem Invariant.beforeUpdate (hI : Invariant L x) (hb : x.beforeUpdate S e = .ok y) :
    Invariant L y := by
  cases e with
  | create apicEnabled => exact hI.createState hb
  | clone l =>
    simp only [HighLevelExecutor.beforeUpdate] at hb
    split at hb
    next hl =>
      cases hb
      exact hI.cloneLowLevelState hl
    · cases hb
  | step l k =>
    simp only [HighLevelExecutor.beforeUpdate] at hb
    split at hb
    next hl => exact hI.moveLowLevelState hl hb
    · cases hb
  | terminate l =>
    simp only [HighLevelExecutor.beforeUpdate] at hb
    split at hb
    · cases hb
      exact hI.removeLowLevelState l
    · cases hb

theorem Invariant.handle (hord : ∀ cs, (order cs).Perm cs) (hI : Invariant L x)
    (hh : x.handle S order fuel e = .ok y) : Invariant L y := by
  obtain ⟨z, hz, hy⟩ := bind_ok_iff.1 hh
  have hIz := hI.beforeUpdate hz
  split at hy
  · exact hIz.tryUpdateSelectedState hord hy
  · cases hy
    exact hIz

/-- Every run keeps it. -/
theorem Invariant.reachable (hord : ∀ cs, (order cs).Perm cs) (L : S.Lawful)
    (hr : (machine S order).Reachable allow x) : Invariant L x := by
  apply hr.invariant
  · rintro s rfl
    exact .initial L
  · rintro s e s' hI _ ⟨fuel, hh⟩
    exact hI.handle hord hh

end HighLevelExecutor
end Chef
