import Chef.TopologicTree

namespace Chef
open Foundations Store HighLevelExecutor
namespace HighLevelExecutor
structure SameTopology (x y : HighLevelExecutor σ) : Prop where
  nodes : y.nodes = x.nodes
  stateMap : y.stateMap = x.stateMap
  size : y.llStates.size = x.llStates.size
  topoIndex : ∀ l, (y.llStates.get l).topoIndex = (x.llStates.get l).topoIndex

namespace SameTopology
variable {x y z : HighLevelExecutor σ}
theorem refl (x : HighLevelExecutor σ) : SameTopology x x := ⟨rfl, rfl, rfl, fun _ => rfl⟩

theorem trans (h : SameTopology x y) (h' : SameTopology y z) : SameTopology x z where
  nodes := h'.nodes.trans h.nodes
  stateMap := h'.stateMap.trans h.stateMap
  size := h'.size.trans h.size
  topoIndex l := (h'.topoIndex l).trans (h.topoIndex l)

theorem levels (h : SameTopology x y) (l : Nat) : y.levels l = x.levels l :=
  congrArg List.reverse (h.topoIndex l)

section
variable (x : HighLevelExecutor σ)
theorem setAPICState (l : Nat) (enabled : Bool) : SameTopology x (x.setAPICState l enabled) where
  nodes := rfl
  stateMap := rfl
  size := size_modify _ _ _
  topoIndex k := by
    refine get_modify_proj _ _ LowLevelState.topoIndex ?_ l k
    intro s
    rfl

theorem enterSegment (s l : Nat) : SameTopology x (x.enterSegment s l) where
  nodes := rfl
  stateMap := rfl
  size := size_modify _ _ _
  topoIndex k := by
    refine get_modify_proj _ _ LowLevelState.topoIndex ?_ l k
    intro s
    rfl

theorem disableBoth (s l : Nat) : SameTopology x (x.disableBoth s l) := by
  rw [HighLevelExecutor.disableBoth]
  split
  · exact (setAPICState x _ _).trans (setAPICState _ _ _)
  · exact refl x

theorem joinState (s l : Nat) : SameTopology x (x.joinState s l) := by
  have he := (disableBoth x s l).trans (enterSegment _ s l)
  rw [HighLevelExecutor.joinState]
  split
  · exact he.trans (setAPICState _ _ _)
  · exact he

theorem leaveState (s l : Nat) : SameTopology x (x.leaveState s l) := by
  have he : SameTopology x (x.exitSegment s l) := ⟨rfl, rfl, rfl, fun _ => rfl⟩
  rw [HighLevelExecutor.leaveState]
  split
  · exact he.trans (setAPICState _ _ _)
  · exact he

end

theorem getNextSegment (h : x.getNextSegment s k = .ok (c, y)) : SameTopology x y := by
  rw [HighLevelExecutor.getNextSegment] at h
  split at h
  · cases h
  split at h
  · cases h
    exact refl x
  · cases h
    exact ⟨rfl, rfl, rfl, fun _ => rfl⟩

theorem stepHighLevelState (h : x.stepHighLevelState k hlpc = .ok y) : SameTopology x y := by
  obtain ⟨⟨c, z⟩, hz, hy⟩ := bind_ok_iff.1 h
  cases hy
  exact (getNextSegment hz).trans ⟨rfl, rfl, rfl, fun _ => rfl⟩

theorem forkHighLevelState (h : x.forkHighLevelState k hlpc = .ok (c, y)) : SameTopology x y := by
  obtain ⟨⟨d, z⟩, hz, hy⟩ := bind_ok_iff.1 h
  split at hy
  · cases hy
  · cases hy
    exact (getNextSegment hz).trans ⟨rfl, rfl, rfl, fun _ => rfl⟩

theorem forkChildren (h : forkChildren k s children hlpc add x = .ok r) : SameTopology x r.2.2 := by
  fun_induction HighLevelExecutor.forkChildren k s children hlpc add x with
  | case1 =>
    cases h
    exact refl _
  | case2 => cases h
  | case3 _ _ _ _ _ _ _ _ ih => exact ih h
  | case4 _ _ _ _ _ _ _ ih =>
    obtain ⟨⟨c, z⟩, hz, hy⟩ := bind_ok_iff.1 h
    have hf : SameTopology _ (z.addHighLevelState c) :=
      (forkHighLevelState hz).trans ⟨rfl, rfl, rfl, fun _ => rfl⟩
    exact hf.trans (ih _ hy)

theorem withStrategy (h : x.withStrategy s = .ok y) : SameTopology x y := by
  cases s with
  | error fault => cases h
  | ok strategy =>
    cases h
    exact ⟨rfl, rfl, rfl, fun _ => rfl⟩

theorem selectNext (S : HighLevelStrategy σ) (x : HighLevelExecutor σ) :
    SameTopology x (x.selectNext S) := ⟨rfl, rfl, rfl, fun _ => rfl⟩

variable {S : HighLevelStrategy σ}
theorem advanceSelected (h : x.advanceSelected S order k = .ok y) : SameTopology x y := by
  rw [HighLevelExecutor.advanceSelected] at h
  split at h
  · have her : SameTopology x { x with highLevelStates := x.highLevelStates.erase k } :=
      ⟨rfl, rfl, rfl, fun _ => rfl⟩
    exact her.trans (withStrategy h)
  · obtain ⟨z, hz, hy⟩ := bind_ok_iff.1 h
    exact (stepHighLevelState hz).trans (withStrategy hy)
  obtain ⟨r, hr, hs⟩ := bind_ok_iff.1 h
  split at hs
  · cases hs
  · obtain ⟨z, hz, hy⟩ := bind_ok_iff.1 hs
    exact ((forkChildren hr).trans (stepHighLevelState hz)).trans (withStrategy hy)

theorem tryUpdateSelectedState (h : tryUpdateSelectedState S order fuel x = .ok y) :
    SameTopology x y := by
  induction fuel generalizing x with
  | zero => cases h
  | succ fuel ih =>
    rw [tryUpdateSelectedState] at h
    split at h
    · cases h
      exact refl _
    obtain ⟨r, hr, hy⟩ := bind_ok_iff.1 h
    rw [doUpdateSelectedState] at hr
    split at hr
    · cases hr
      cases hy
      exact refl _
    split at hr
    · cases hr
    obtain ⟨z, hz, hs⟩ := bind_ok_iff.1 hr
    cases hs
    exact ((advanceSelected hz).trans (selectNext S z)).trans (ih hy)

end SameTopology

inductive StreamMoves (x : HighLevelExecutor σ) : StreamEvent → HighLevelExecutor σ → Prop where
  | create : SameTopology
      ((x.withRootState.withLowLevelState x.segments.size apicEnabled).enterNode x.llStates.size
        [x.nodes.size]) y → StreamMoves x (.create apicEnabled) y
  | clone : l ∈ x.stateMap → SameTopology
      ((x.withLowLevelState (x.positionOf l) (x.llStates.get l).apicEnabled).enterNode
        x.llStates.size (x.llStates.get l).topoIndex) y → StreamMoves x (.clone l) y
  | step : SameTopology x y → StreamMoves x (.step l hlpc) y
  | terminate : l ∈ x.stateMap → SameTopology
      { x.leaveNode l with stateMap := x.stateMap.erase l } y → StreamMoves x (.terminate l) y

theorem SameTopology.enterNode (h : SameTopology x y) (l : Nat) (index : TopologicIndex) :
    SameTopology (x.enterNode l index) (y.enterNode l index) := by
  rw [HighLevelExecutor.enterNode, HighLevelExecutor.enterNode]
  split
  · exact h
  refine ⟨?_, h.stateMap, ?_, ?_⟩
  · show y.nodes.modify _ _ = x.nodes.modify _ _
    rw [h.nodes]
  · show (y.llStates.modify _ _).size = (x.llStates.modify _ _).size
    rw [size_modify, size_modify, h.size]
  intro k
  show ((y.llStates.modify _ _).get k).topoIndex = ((x.llStates.modify _ _).get k).topoIndex
  rw [get_modify, get_modify, h.size]
  split
  · rfl
  · exact h.topoIndex k

theorem SameTopology.leaveNode (h : SameTopology x y) (l : Nat) :
    SameTopology (x.leaveNode l) (y.leaveNode l) := by
  rw [HighLevelExecutor.leaveNode, HighLevelExecutor.leaveNode, h.topoIndex l]
  split
  · exact h
  refine ⟨?_, h.stateMap, h.size, h.topoIndex⟩
  show y.nodes.modify _ _ = x.nodes.modify _ _
  rw [h.nodes]

theorem leaveNode_stateMap (x : HighLevelExecutor σ) (l : Nat) :
    (x.leaveNode l).stateMap = x.stateMap := by
  rw [leaveNode]
  split <;> rfl

theorem handle_streamMoves (h : x.handle S order fuel e = .ok y) : StreamMoves x e y := by
  obtain ⟨z, hz, hy⟩ := bind_ok_iff.1 h
  cases e with
  | create apicEnabled =>
    cases hy
    obtain ⟨w, hw, hs⟩ := bind_ok_iff.1 hz
    cases hs
    refine .create (((SameTopology.joinState _ x.segments.size x.llStates.size).enterNode _ _).trans
      ((SameTopology.withStrategy hw).trans (.selectNext S w)))
  | clone l =>
    cases hy
    rw [beforeUpdate] at hz
    split at hz
    next hl =>
      cases hz
      exact .clone hl ((SameTopology.joinState _ (x.positionOf l) x.llStates.size).enterNode _ _)
    · cases hz
  | step l hlpc =>
    rw [beforeUpdate] at hz
    split at hz
    · obtain ⟨⟨c, w⟩, hw, hm⟩ := bind_ok_iff.1 hz
      cases hm
      exact .step ((((SameTopology.getNextSegment hw).trans (.leaveState _ _ _)).trans
        (.joinState _ _ _)).trans (.tryUpdateSelectedState hy))
    · cases hz
  | terminate l =>
    rw [beforeUpdate] at hz
    split at hz
    next hl =>
      cases hz
      have hle := (SameTopology.leaveState x (x.positionOf l) l).leaveNode l
      have hp := hle.stateMap.trans (leaveNode_stateMap x l)
      have hr : SameTopology { x.leaveNode l with stateMap := x.stateMap.erase l }
          (x.removeLowLevelState l) :=
        ⟨hle.nodes, congrArg (List.erase · l) hp, hle.size, hle.topoIndex⟩
      exact .terminate hl (hr.trans (.tryUpdateSelectedState hy))
    · cases hz

end HighLevelExecutor
end Chef
