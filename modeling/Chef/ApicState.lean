import Chef.SelectedState

namespace Chef
open Foundations List
namespace HighLevelExecutor
def apicOf (x : HighLevelExecutor σ) (l : Nat) : Bool := (x.llStates.get l).apicEnabled

def companions (x : HighLevelExecutor σ) (l : Nat) : List Nat :=
  x.statesOnPath (x.pathOf (x.positionOf l))

def ApicOn (x : HighLevelExecutor σ) (A : Set Nat) : Prop :=
  ∀ l ∈ A, x.apicOf l = true ↔ x.companions l = [l]

section
variable {x y : HighLevelExecutor σ} {A : Set Nat}
section
variable (x : HighLevelExecutor σ)
theorem apicOf_setAPICState (hl : l < x.llStates.size) (enabled : Bool) (l' : Nat) :
    (x.setAPICState l enabled).apicOf l' = if l' = l then enabled else x.apicOf l' :=
  x.llStates.proj_modify _ LowLevelState.apicEnabled (.inl hl) l'

theorem apicOf_enterSegment (s l l' : Nat) : (x.enterSegment s l).apicOf l' = x.apicOf l' :=
  Store.get_modify_proj _ _ LowLevelState.apicEnabled (by intro; rfl) _ _

theorem apicOf_enterNode (l : Nat) (index : TopologicIndex) (l' : Nat) :
    (x.enterNode l index).apicOf l' = x.apicOf l' := by
  rw [enterNode]
  split
  · rfl
  · exact Store.get_modify_proj _ _ LowLevelState.apicEnabled (by intro; rfl) _ _

theorem apicOf_leaveNode (l l' : Nat) : (x.leaveNode l).apicOf l' = x.apicOf l' := by
  rw [leaveNode]
  split <;> rfl

end

theorem SameTree.companions (h : SameTree x y) (l : Nat) : y.companions l = x.companions l := by
  rw [HighLevelExecutor.companions, HighLevelExecutor.companions, h.statesOnPath, h.position,
    h.shape.path]

theorem ApicOn.sameTree (ha : ApicOn x A) (h : SameTree x y)
    (hp : ∀ l ∈ A, y.apicOf l = x.apicOf l) : ApicOn y A := by
  intro l hl
  rw [h.companions, hp l hl]
  exact ha l hl

theorem apicOf_leaveState (ho : Occupied x A) (l l' : Nat) :
    (x.leaveState (x.positionOf l) l).apicOf l' =
      if (x.companions l).erase l = [l'] then true else x.apicOf l' := by
  have hp : (x.exitSegment (x.positionOf l) l).pathOf (x.positionOf l) =
      x.pathOf (x.positionOf l) := (x.exitSegment_shape _ _).path
  have hs : (x.exitSegment (x.positionOf l) l).statesOnPath
      ((x.exitSegment (x.positionOf l) l).pathOf (x.positionOf l)) = (x.companions l).erase l := by
    rw [hp, x.statesOnPath_exitSegment, if_pos rfl, companions]
  rw [leaveState, hs]
  split
  next other he =>
    have hm : other ∈ x.companions l := mem_of_mem_erase (he ▸ mem_singleton_self other)
    have hlt : other < x.llStates.size := ho.low_lt (ho.onPath.1 hm).1
    rw [apicOf_setAPICState (x.exitSegment (x.positionOf l) l) hlt]
    rw [he]
    by_cases hl' : l' = other
    · rw [if_pos hl', if_pos (by rw [hl'])]
    · rw [if_neg hl', if_neg fun h => hl' (singleton_inj.1 h).symm]
      rfl
  next hne =>
    rw [if_neg (hne l')]
    rfl

theorem ApicOn.leaveState (ha : ApicOn x A) (ho : Occupied x A) (hl : l ∈ A) :
    ApicOn (x.leaveState (x.positionOf l) l) (A \ {l}) := by
  rintro l' ⟨hl', hne⟩
  have hne : l' ≠ l := hne
  have hsm := SameTree.leaveState x (x.positionOf l) l
  have ht : (x.leaveState (x.positionOf l) l).companions l' =
      if x.pathOf (x.positionOf l') = x.pathOf (x.positionOf l) then (x.companions l).erase l
      else x.companions l' := by
    have hpos : (x.exitSegment (x.positionOf l) l).positionOf l' = x.positionOf l' := rfl
    rw [hsm.companions, companions, (x.exitSegment_shape _ _).path, x.statesOnPath_exitSegment,
      hpos]
    split
    next he => rw [he, companions]
    · rw [companions]
  rw [apicOf_leaveState ho, ht]
  by_cases hp : x.pathOf (x.positionOf l') = x.pathOf (x.positionOf l)
  · rw [if_pos hp]
    have hb : x.companions l' ≠ [l'] := by
      intro he
      have hm : l ∈ x.companions l' := ho.onPath.2 ⟨hl, hp.symm⟩
      rw [he, mem_singleton] at hm
      exact hne hm.symm
    have hf := (not_congr (ha l' hl')).2 hb
    by_cases hs : (x.companions l).erase l = [l']
    · simp [hs]
    · simp [hs, hf]
  · rw [if_neg hp]
    have hs : (x.companions l).erase l ≠ [l'] := by
      intro he
      have hm : l' ∈ x.companions l := mem_of_mem_erase (he ▸ mem_singleton_self l')
      exact hp (ho.onPath.1 hm).2
    rw [if_neg hs]
    exact ha l' hl'

theorem length_insert_of_not_mem {ls : List Nat} (h : l ∉ ls) :
    (ls.insert l).length = ls.length + 1 := by rw [insert_of_not_mem h, length_cons]

theorem apicOf_joinState (ho : Occupied x A) (hT : SegmentTree x) (hs : s < x.segments.size)
    (hl : l < x.llStates.size) (hA : l ∉ A) (l' : Nat) : (x.joinState s l).apicOf l' =
      match x.statesOnPath (x.pathOf s) with
      | [] => if l' = l then true else x.apicOf l'
      | [other] => if l' = l ∨ l' = other then false else x.apicOf l'
      | _ => x.apicOf l' := by
  have hn : l ∉ x.statesOnPath (x.pathOf s) := fun hm => hA (ho.onPath.1 hm).1
  have hd := SameTree.disableBoth x s l
  have hp : ((x.disableBoth s l).enterSegment s l).pathOf s = x.pathOf s :=
    ((x.disableBoth s l).enterSegment_shape s l).path.trans hd.shape.path
  have hlen : (((x.disableBoth s l).enterSegment s l).statesOnPath
      (((x.disableBoth s l).enterSegment s l).pathOf s)).length =
        (x.statesOnPath (x.pathOf s)).length + 1 := by
    have hlt : (x.disableBoth s l).pathOf s < (x.disableBoth s l).paths.size := by
      rw [hd.shape.path, hd.paths]
      exact hT.path_lt hs
    rw [hp, statesOnPath_enterSegment _ hlt, hd.shape.path, if_pos rfl, hd.statesOnPath,
      length_insert_of_not_mem hn]
  have hz : l < ((x.disableBoth s l).enterSegment s l).llStates.size := by
    rw [(hd.enterSegment s l).llSize]
    simpa [enterSegment] using hl
  rw [joinState, hlen]
  rcases hP : x.statesOnPath (x.pathOf s) with _ | ⟨other, _ | ⟨b, rest⟩⟩
  · have hno : x.disableBoth s l = x := by rw [disableBoth, hP]
    rw [if_pos (by simp), apicOf_setAPICState _ hz, apicOf_enterSegment, hno]
  · have hot : other < x.llStates.size := by
      have hm : other ∈ x.statesOnPath (x.pathOf s) := hP ▸ mem_singleton_self other
      exact ho.low_lt (ho.onPath.1 hm).1
    rw [if_neg (by simp), apicOf_enterSegment, disableBoth, hP]
    rw [apicOf_setAPICState (x.setAPICState other false) (by simpa [setAPICState] using hl),
      apicOf_setAPICState x hot]
    by_cases h1 : l' = l <;> by_cases h2 : l' = other <;> simp [h1, h2]
  · have hno : x.disableBoth s l = x := by rw [disableBoth, hP]
    rw [if_neg (by simp), apicOf_enterSegment, hno]

theorem ApicOn.joinState (ha : ApicOn x A) (ho : Occupied x A) (hT : SegmentTree x)
    (hs : s < x.segments.size) (hl : l < x.llStates.size) (hA : l ∉ A)
    (hcr : 2 ≤ (x.statesOnPath (x.pathOf s)).length → x.apicOf l = false) :
    ApicOn (x.joinState s l) (insert l A) := by
  have hf : l ∉ x.statesOnPath (x.pathOf s) := fun hm => hA (ho.onPath.1 hm).1
  have hc : ∀ l', (x.joinState s l).companions l' =
      if x.pathOf (if l' = l then s else x.positionOf l') = x.pathOf s then
        (x.statesOnPath (x.pathOf s)).insert l
      else x.statesOnPath (x.pathOf (if l' = l then s else x.positionOf l')) := by
    intro l'
    rw [(SameTree.joinState x s l).companions, companions, (x.enterSegment_shape s l).path,
      x.statesOnPath_enterSegment (hT.path_lt hs), x.positionOf_enterSegment hl]
    exact if_ctx_congr Iff.rfl (fun hp => by rw [hp]) fun _ => rfl
  intro l' hl'
  rw [apicOf_joinState ho hT hs hl hA]
  by_cases he : l' = l
  · have hn : (x.joinState s l).companions l' = (x.statesOnPath (x.pathOf s)).insert l := by
      rw [hc, if_pos he, if_pos rfl]
    subst he
    rw [hn, insert_of_not_mem hf]
    match hP : x.statesOnPath (x.pathOf s) with
    | [] => simp
    | [other] => simp
    | a :: b :: rest => simp [hcr, hP]
  · have hl' : l' ∈ A := hl'.resolve_left he
    have hi := ha l' hl'
    by_cases hp : x.pathOf (x.positionOf l') = x.pathOf s
    · have hn : (x.joinState s l).companions l' = (x.statesOnPath (x.pathOf s)).insert l := by
        rw [hc, if_neg he, if_pos hp]
      have hm : l' ∈ x.statesOnPath (x.pathOf s) := ho.onPath.2 ⟨hl', hp⟩
      rw [companions, hp] at hi
      rw [hn, insert_of_not_mem hf]
      match hP : x.statesOnPath (x.pathOf s) with
      | [] =>
        rw [hP] at hm
        cases hm
      | [other] =>
        rw [hP] at hm
        simp [mem_singleton.1 hm]
      | a :: b :: rest =>
        rw [hP] at hi
        simpa using hi
    · have hn : (x.joinState s l).companions l' = x.companions l' := by
        rw [hc, if_neg he, if_neg hp, companions]
      have hot : ∀ other, x.statesOnPath (x.pathOf s) = [other] → l' ≠ other := by
        rintro other hP rfl
        exact hp (ho.onPath.1 (hP ▸ mem_singleton_self l')).2
      rw [hn]
      match hP : x.statesOnPath (x.pathOf s) with
      | [] =>
        simp only [if_neg he]
        exact hi
      | [other] =>
        simp only [he, hot other hP, or_self, if_false]
        exact hi
      | a :: b :: rest => exact hi

end

variable {S : HighLevelStrategy σ} {L : S.Lawful} {x y : HighLevelExecutor σ}
variable {order : List (UInt64 × Nat) → List (UInt64 × Nat)}
/-- A live low-level state takes interrupts if and only if it is alone. -/
def ApicConsistent (x : HighLevelExecutor σ) : Prop := ApicOn x { l | l ∈ x.stateMap }

def JoinsCrowd (x : HighLevelExecutor σ) : StreamEvent → Prop
  | .step l k => x.companions l = [l] ∧ ∃ c, (k, c) ∈ x.childrenOf (x.positionOf l) ∧
      x.pathOf c ≠ x.pathOf (x.positionOf l) ∧ 2 ≤ (x.statesOnPath (x.pathOf c)).length
  | _ => False

theorem ApicConsistent.getNextSegment (ha : ApicConsistent x) (hI : Invariant L x)
    (hg : x.getNextSegment s k = .ok (c, y)) : ApicConsistent y := by
  obtain ⟨_, rfl⟩ | ⟨_, _, _, rfl⟩ := getNextSegment_cases hg
  · exact ha
  intro l hl
  have hp := x.pathOf_addChild s k (hI.occupied.position_lt hl)
  have hon := statesOnPath_addChild x s k (x.pathOf (x.positionOf l))
  have hc : (x.addChild s k).companions l = x.companions l :=
    (congrArg (x.addChild s k).statesOnPath hp).trans hon
  rw [hc]
  exact ha l hl

theorem apicOf_leaveState_self (ho : Occupied x A) (l : Nat) :
    (x.leaveState (x.positionOf l) l).apicOf l = x.apicOf l := by
  rw [apicOf_leaveState ho, if_neg]
  intro he
  have hm : l ∈ (x.companions l).erase l := he ▸ mem_singleton_self l
  exact (ho.onPath_nodup.mem_erase_iff.1 hm).1 rfl

section
variable (ha : ApicConsistent x)
include ha
section
variable (hI : Invariant L x) (hl : l ∈ x.stateMap)
include hI hl
theorem ApicConsistent.moveTo (hc : (k, c) ∈ x.childrenOf (x.positionOf l)) (hcr :
    ¬JoinsCrowd x (.step l k)) : ApicOn ((x.leaveState (x.positionOf l) l).joinState c l) { l | l ∈
    x.stateMap } := by
  have hm := SameTree.leaveState x (x.positionOf l) l
  have hsh := (x.exitSegment_shape (x.positionOf l) l).trans hm.shape
  have ht : insert l ({ l | l ∈ x.stateMap } \ {l}) = { l | l ∈ x.stateMap } := by
    ext l'
    by_cases he : l' = l <;> simp [he, hl]
  rw [← ht]
  apply ApicOn.joinState
  case ha => exact ha.leaveState hI.occupied hl
  case ho => exact (hI.occupied.exitSegment l).sameTree hm
  case hT => exact hsh.segmentTree hI.tree
  case hs =>
    rw [hsh.segments]
    exact (hI.tree.child_lt hc).2
  case hl =>
    rw [hm.llSize]
    exact hI.occupied.low_lt hl
  case hA => simp
  case hcr =>
    intro hn
    rw [hm.statesOnPath, hsh.path, x.statesOnPath_exitSegment] at hn
    rw [apicOf_leaveState_self hI.occupied, ← Bool.not_eq_true, ha l hl]
    intro hal
    split at hn
    next hp =>
      have her : (x.statesOnPath (x.pathOf c)).erase l = [] := by
        rw [hp, ← companions, hal]
        simp
      rw [her] at hn
      simp at hn
    next hp => exact hcr ⟨hal, c, hc, hp, hn⟩

theorem ApicConsistent.moveLowLevelState (hcr : ¬JoinsCrowd x (.step l k))
    (hm : x.moveLowLevelState l k = .ok y) : ApicConsistent y := by
  obtain ⟨⟨c, z⟩, hg, hy⟩ := bind_ok_iff.1 hm
  obtain rfl := Except.ok.inj hy
  have hs := hI.occupied.position_lt hl
  have hc := (hI.tree.getNextSegment hs hg).2
  have hz := ha.getNextSegment hI hg
  have hIz := hI.getNextSegment hs hg
  have hst : z.positionOf l = x.positionOf l ∧ z.stateMap = x.stateMap := by
    obtain ⟨_, rfl⟩ | ⟨_, _, _, rfl⟩ := getNextSegment_cases hg <;> exact ⟨rfl, rfl⟩
  have hco : ¬JoinsCrowd z (.step l k) := by
    obtain ⟨_, rfl⟩ | ⟨_, _, hn, rfl⟩ := getNextSegment_cases hg
    · exact hcr
    rintro ⟨_, d, hd, hp, hlen⟩
    rw [hst.1] at hd hp
    have hdc : d = c := by
      have h1 := lookup_of_mem (hI.tree.getNextSegment hs hg).1.keys_nodup hd
      have h2 := lookup_of_mem (hI.tree.getNextSegment hs hg).1.keys_nodup hc
      exact Option.some.inj (h1.symm.trans h2)
    rw [hdc, hn, x.pathOf_newChild] at hp hlen
    split at hp
    · exact hp (x.pathOf_addChild _ _ hs).symm
    next hne =>
      rw [if_neg hne, x.statesOnPath_addChild, statesOnPath, x.paths.get_of_le (le_refl _)] at hlen
      have hr : 2 ≤ 0 := hlen
      omega
  have hmap := SameTree.joinState (z.leaveState (x.positionOf l) l) c l
  have hmap' := SameTree.leaveState z (x.positionOf l) l
  have hk : ((z.leaveState (x.positionOf l) l).joinState c l).stateMap = z.stateMap :=
    hmap.stateMap.trans hmap'.stateMap
  rw [ApicConsistent, hk]
  rw [← hst.1] at hc ⊢
  exact hz.moveTo hIz (hst.2 ▸ hl) hc hco

theorem ApicConsistent.removeLowLevelState : ApicConsistent (x.removeLowLevelState l) := by
  have hle := ha.leaveState hI.occupied hl
  have hn := SameTree.leaveNode (x.leaveState (x.positionOf l) l) l
  have hm : ((x.leaveState (x.positionOf l) l).leaveNode l).stateMap = x.stateMap :=
    hn.stateMap.trans (SameTree.leaveState x (x.positionOf l) l).stateMap
  have hs : { l' | l' ∈ (x.removeLowLevelState l).stateMap } = { l' | l' ∈ x.stateMap } \ {l} := by
    ext l'
    simp [HighLevelExecutor.removeLowLevelState, hm, hI.map_nodup.mem_erase_iff, and_comm]
  have hon := hle.sameTree hn fun l' _ => apicOf_leaveNode _ l l'
  rw [ApicConsistent, hs]
  exact fun l' hl' => hon l' hl'

end

theorem ApicConsistent.enterNew
    (ho : Occupied x { l | l ∈ x.stateMap }) (hT : SegmentTree x) (hs : s < x.segments.size)
        (index : TopologicIndex)
    (hcr : 2 ≤ (x.statesOnPath (x.pathOf s)).length → apicEnabled = false) :
    ApicConsistent (((x.withLowLevelState s apicEnabled).joinState s x.llStates.size).enterNode
      x.llStates.size index) := by
  have hd : ∀ l ∈ x.stateMap, (x.withLowLevelState s apicEnabled).llStates.get l =
      x.llStates.get l :=
    fun l hl => x.llStates.get_alloc_of_lt _ (ho.low_lt hl)
  have hon : ApicOn (x.withLowLevelState s apicEnabled) { l | l ∈ x.stateMap } := by
    intro l hl
    have hc : (x.withLowLevelState s apicEnabled).companions l = x.companions l :=
      congrArg (fun state => x.statesOnPath (x.pathOf (LowLevelState.segment state))) (hd l hl)
    rw [apicOf, hd l hl, hc]
    exact ha l hl
  have hlt : x.llStates.size < (x.withLowLevelState s apicEnabled).llStates.size := by
    simp [withLowLevelState]
  have hw : (x.withLowLevelState s apicEnabled).apicOf x.llStates.size = apicEnabled :=
    congrArg LowLevelState.apicEnabled (x.llStates.get_alloc_size _)
  have ht : SegmentTree (x.withLowLevelState s apicEnabled) :=
    SameShape.segmentTree (x := x) ⟨rfl, rfl, rfl, rfl⟩ hT
  have hj := hon.joinState (ho.allocLowLevelState _ _) ht hs hlt
    (fun hm => lt_irrefl _ (ho.low_lt hm)) (fun hlen => hw.trans (hcr hlen))
  have hn := SameTree.enterNode
    ((x.withLowLevelState s apicEnabled).joinState s x.llStates.size) x.llStates.size index
  have hset : { l | l ∈ (((x.withLowLevelState s apicEnabled).joinState s x.llStates.size).enterNode
      x.llStates.size index).stateMap } = insert x.llStates.size { l | l ∈ x.stateMap } := by
    rw [hn.stateMap, (SameTree.joinState _ s x.llStates.size).stateMap]
    ext l
    simp [enterSegment, withLowLevelState, or_comm]
  rw [ApicConsistent, hset]
  exact hj.sameTree hn fun l' _ => apicOf_enterNode _ _ _ l'

theorem ApicConsistent.cloneLowLevelState (hI : Invariant L x)
    (hl : l ∈ x.stateMap) : ApicConsistent (x.cloneLowLevelState l) := by
  apply ha.enterNew hI.occupied hI.tree (hI.occupied.position_lt hl)
  intro hn
  rw [← Bool.not_eq_true, ← apicOf, ha l hl, companions]
  intro hal
  rw [hal] at hn
  simp at hn

theorem ApicConsistent.withRootState (hI : Invariant L x) : ApicConsistent x.withRootState := by
  intro l hl
  have hp : x.withRootState.pathOf (x.positionOf l) = x.pathOf (x.positionOf l) :=
    x.pathOf_createRootSegment (hI.occupied.position_lt hl)
  have hc : x.withRootState.companions l = x.companions l :=
    (congrArg x.withRootState.statesOnPath hp).trans (x.statesOnPath_createRootSegment _)
  rw [hc]
  exact ha l hl

theorem ApicConsistent.createRootStates (hI : Invariant L x)
    (apicEnabled : Bool) : ApicConsistent (x.createRootStates apicEnabled) := by
  have hs : x.segments.size < x.withRootState.segments.size := by
    simp [HighLevelExecutor.withRootState, createRootSegment]
  apply (ha.withRootState hI).enterNew hI.occupied.withRootState hI.tree.withRootState hs
  intro hlen
  have hn : x.withRootState.statesOnPath (x.withRootState.pathOf x.segments.size) = [] := by
    have hp : x.withRootState.pathOf x.segments.size = x.paths.size := x.pathOf_newRoot
    rw [hp]
    refine (x.statesOnPath_createRootSegment _).trans ?_
    rw [statesOnPath, x.paths.get_of_le (le_refl _)]
    rfl
  rw [hn] at hlen
  simp at hlen

theorem ApicConsistent.congr (hll : y.llStates = x.llStates)
    (ht : y.paths = x.paths) (hp : ∀ s, y.pathOf s = x.pathOf s)
    (hm : y.stateMap = x.stateMap) : ApicConsistent y := by
  intro l hl
  have hc : y.companions l = x.companions l := by
    rw [companions, companions, hp, positionOf, hll, statesOnPath, ht, ← statesOnPath, ← positionOf]
  rw [apicOf, hll, hc]
  exact ha l (hm ▸ hl)

theorem ApicConsistent.createState (hI : Invariant L x)
    (hc : x.createState S apicEnabled = .ok y) : ApicConsistent y := by
  obtain ⟨z, hz, hy⟩ := bind_ok_iff.1 hc
  cases hy
  have hr := ha.createRootStates hI apicEnabled
  generalize x.createRootStates apicEnabled = w at hz hr
  simp only [withStrategy] at hz
  split at hz <;> cases hz
  exact hr.congr rfl rfl (fun _ => rfl) rfl

theorem ApicConsistent.tryUpdateSelectedState (hI : Invariant L x) (ho : ∀ cs, (order cs).Perm cs)
    (hu : x.tryUpdateSelectedState S order fuel = .ok y) : ApicConsistent y := by
  have hk := tryUpdateSelectedState_induction
    (P := fun z => Invariant L z ∧ ApicConsistent z) ?_ ⟨hI, ha⟩ hu
  · exact hk.2
  rintro w h z ⟨hIw, hw⟩ hs hz
  refine ⟨hIw.doUpdateSelectedState ho hs hz, ?_⟩
  obtain ⟨succ, v, strategy, _, hd, _, rfl⟩ := doUpdateSelectedState_some ho hIw hs hz
  have hm := hd.same
  exact hw.congr hm.llStates hm.paths (fun _ => hm.path) hm.stateMap

theorem ApicConsistent.handle (hI : Invariant L x)
    (ho : ∀ cs, (order cs).Perm cs) (he : ¬JoinsCrowd x e)
    (hh : x.handle S order fuel e = .ok y) : ApicConsistent y := by
  obtain ⟨z, hz, hy⟩ := bind_ok_iff.1 hh
  have hp : ApicConsistent z := by
    cases e with
    | create apicEnabled => exact ha.createState hI hz
    | clone l =>
      simp only [beforeUpdate] at hz
      split at hz <;> cases hz
      rename_i hl
      exact ha.cloneLowLevelState hI hl
    | step l k =>
      simp only [beforeUpdate] at hz
      split at hz
      next hl => exact ha.moveLowLevelState hI hl he hz
      · cases hz
    | terminate l =>
      simp only [beforeUpdate] at hz
      split at hz <;> cases hz
      rename_i hl
      exact ha.removeLowLevelState hI hl
  split at hy
  · exact hp.tryUpdateSelectedState (hI.beforeUpdate hz) ho hy
  · cases hy
    exact hp

end

/-- If no lone state joins a path with states, the lone states take interrupts. -/
theorem apicConsistent_reachable (L : S.Lawful) (horder : ∀ cs, (order cs).Perm cs)
    (hr : (machine S order).Reachable (fun x e => ¬JoinsCrowd x e) x) : ApicConsistent x := by
  have hb : Invariant L x ∧ ApicConsistent x := by
    apply hr.invariant (I := fun x => Invariant L x ∧ ApicConsistent x)
    · rintro s rfl
      refine ⟨.initial L, fun l hl => ?_⟩
      cases hl
    · rintro s e s' ⟨hI, ha⟩ he ⟨fuel, hh⟩
      exact ⟨hI.handle horder hh, ha.handle hI horder he hh⟩
  exact hb.2

theorem apicConsistent_reachable_dfs :
    ∃ x, (machine (selectorStrategy .dfs) fun cs => cs).Reachable (fun x e => ¬JoinsCrowd x e) x ∧
      x.stateMap = [0, 1] ∧ ApicConsistent x := by
  obtain ⟨x, y, hx, hf, hy, hm⟩ : ∃ x y, runEvents (selectorStrategy .dfs) (fun cs => cs) 9
      [.create false, .clone 0] (initial (selectorStrategy .dfs)) = .ok x ∧
      x.childrenOf (x.positionOf 0) = [] ∧
      x.handle (selectorStrategy .dfs) (fun cs => cs) 9 (.step 0 1) = .ok y ∧
      y.stateMap = [0, 1] := ⟨_, _, rfl, rfl, rfl, rfl⟩
  have hr : (machine (selectorStrategy .dfs) fun cs => cs).Reachable
      (fun x e => ¬JoinsCrowd x e) x := by
    apply reachable_runEvents _ (.init rfl) hx
    simp [JoinsCrowd]
  have he : ¬JoinsCrowd x (.step 0 1) := by
    rintro ⟨_, c, hc, _⟩
    rw [hf] at hc
    cases hc
  have hr' := hr.step he ⟨9, hy⟩
  exact ⟨y, hr', hm, apicConsistent_reachable (selectorLawful .dfs) (fun _ => .refl _) hr'⟩

theorem lone_state_keeps_interrupts_in_crowd :
    ∃ x, (machine (selectorStrategy .dfs) fun cs => cs).Reached x ∧ 2 ∈ x.stateMap ∧
      x.apicOf 2 = true ∧ x.companions 2 = [2, 3, 1] ∧ ¬ApicConsistent x := by
  obtain ⟨x, hx, hm, ha, hc⟩ : ∃ x, runEvents (selectorStrategy .dfs) (fun cs => cs) 9
      [.create false, .clone 0, .clone 0, .step 0 1, .step 1 2, .clone 1, .terminate 0, .step 2 2]
      (initial (selectorStrategy .dfs)) = .ok x ∧ x.stateMap = [1, 2, 3] ∧
      x.apicOf 2 = true ∧ x.companions 2 = [2, 3, 1] := ⟨_, rfl, rfl, rfl, rfl⟩
  have hmem : 2 ∈ x.stateMap := by simp [hm]
  refine ⟨x, reachable_runEvents (fun _ _ _ => trivial) (.init rfl) hx, hmem, ha, hc, fun h => ?_⟩
  have hn := (h 2 hmem).1 ha
  rw [hc] at hn
  cases hn

end HighLevelExecutor
end Chef
