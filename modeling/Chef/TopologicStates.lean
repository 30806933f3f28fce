import Chef.TopologicRuns

namespace Chef
open Foundations List Store Option HighLevelExecutor
namespace TopologicNode
def statesAt (nodes : Store TopologicNode) (n : Nat) : List Nat := (nodes.get n).states

variable {nodes : Store TopologicNode}
theorem mem_insertState (hn : n < nodes.size) :
    k ∈ statesAt (insertState nodes n l) m ↔ k ∈ statesAt nodes m ∨ k = l ∧ m = n := by
  rw [statesAt, statesAt, insertState, get_modify]
  by_cases hm : n = m
  · subst hm
    rw [if_pos ⟨rfl, hn⟩]
    simp only [and_true]
    split
    next hmem =>
      refine ⟨Or.inl, ?_⟩
      rintro (hk | rfl)
      · exact hk
      · exact hmem
    · rw [mem_append, mem_singleton]
  · rw [if_neg fun h => hm h.1]
    refine ⟨Or.inl, ?_⟩
    rintro (hk | ⟨-, rfl⟩)
    · exact hk
    · exact absurd rfl hm

theorem nodup_insertState (h : (statesAt nodes m).Nodup) :
    (statesAt (insertState nodes n l) m).Nodup := by
  rw [statesAt] at h
  rw [statesAt, insertState, get_modify]
  split
  · simp only
    split
    · exact h
    next hl =>
      rw [← concat_eq_append]
      exact h.concat hl
  · exact h

theorem mem_removeState (h : (statesAt nodes n).Nodup) :
    k ∈ statesAt (removeState nodes n l) m ↔ k ∈ statesAt nodes m ∧ ¬(k = l ∧ m = n) := by
  rw [statesAt] at h
  rw [statesAt, statesAt, removeState, get_modify]
  by_cases hm : n = m
  · subst hm
    by_cases hn : n < nodes.size
    · rw [if_pos ⟨rfl, hn⟩]
      simp only [and_true]
      rw [h.mem_erase_iff, and_comm]
    · rw [if_neg fun h => hn h.2, get_of_le _ (Nat.not_lt.1 hn)]
      exact iff_of_false not_mem_nil fun h => not_mem_nil h.1
  · rw [if_neg fun h => hm h.1]
    refine ⟨fun hk => ⟨hk, ?_⟩, And.left⟩
    rintro ⟨-, rfl⟩
    exact hm rfl

theorem nodup_removeState (h : (statesAt nodes m).Nodup) :
    (statesAt (removeState nodes n l) m).Nodup := by
  rw [statesAt] at h
  rw [statesAt, removeState, get_modify]
  split
  · exact h.erase l
  · exact h

end TopologicNode

namespace HighLevelExecutor
open TopologicNode
/-- Each live state is in the set of the last node of its index only. -/
structure NodesOccupied (x : HighLevelExecutor σ) : Prop where
  mem_iff : ∀ l ∈ x.stateMap, ∀ n, l ∈ statesAt x.nodes n ↔ (x.levels l).head? = some n
  alive : l ∈ statesAt x.nodes n → l ∈ x.stateMap
  nodup : ∀ n, (statesAt x.nodes n).Nodup

variable {x y : HighLevelExecutor σ} {nodes : Store TopologicNode}
namespace NodesOccupied
section
variable (h : NodesOccupied x)
include h
theorem same (hs : SameTopology x y) : NodesOccupied y where
  mem_iff l hl n := by
    rw [hs.nodes, hs.levels l]
    exact h.mem_iff l (hs.stateMap ▸ hl) n
  alive hl := by
    rw [hs.nodes] at hl
    rw [hs.stateMap]
    exact h.alive hl
  nodup n := by
    rw [hs.nodes]
    exact h.nodup n

section
variable (ht : Topologic x level)
include ht
theorem enter (hs : ∀ m, statesAt nodes m = statesAt x.nodes m) (hn : n < nodes.size)
    (hy : Entered x nodes n ls y) : NodesOccupied y where
  mem_iff l hl m := by
    rw [hy.nodes, mem_insertState hn, hs, hy.levels]
    rw [hy.stateMap, mem_append, mem_singleton] at hl
    obtain hl | rfl := hl
    · have hne := (ht.alive l hl).ne
      rw [if_neg hne, h.mem_iff l hl]
      exact or_iff_left fun hw => hne hw.1
    rw [if_pos rfl, head?_cons, some.injEq]
    constructor
    · rintro (ho | ⟨-, rfl⟩)
      · exact absurd (ht.alive _ (h.alive ho)) (lt_irrefl _)
      · rfl
    · rintro rfl
      exact Or.inr ⟨rfl, rfl⟩
  alive hl := by
    rw [hy.nodes, mem_insertState hn, hs] at hl
    rw [hy.stateMap, mem_append, mem_singleton]
    exact hl.imp h.alive And.left
  nodup m := by
    rw [hy.nodes]
    apply nodup_insertState
    rw [hs]
    exact h.nodup m

theorem terminate (hl : l ∈ x.stateMap) :
    NodesOccupied { x.leaveNode l with stateMap := x.stateMap.erase l } := by
  obtain ⟨slot, outer, hv, -, -⟩ := ht.levels_cons hl
  have hsl : ∀ n, l ∈ statesAt x.nodes n ↔ n = slot := by
    intro n
    rw [h.mem_iff l hl, hv, head?_cons, some.injEq, eq_comm]
  rw [leaveNode_eq hv]
  refine ⟨?_, ?_, fun n => nodup_removeState (h.nodup n)⟩
  · intro k hk n
    obtain ⟨hne, hk⟩ := ht.nodup.mem_erase_iff.1 hk
    rw [mem_removeState (h.nodup slot)]
    exact (and_iff_left fun hr => hne hr.1).trans (h.mem_iff k hk n)
  · intro n k hk
    obtain ⟨ho, hn⟩ := (mem_removeState (h.nodup slot)).1 hk
    refine ht.nodup.mem_erase_iff.2 ⟨?_, h.alive ho⟩
    rintro rfl
    exact hn ⟨rfl, (hsl n).1 ho⟩

theorem moveState (hl : l ∈ x.stateMap) (hm : Moved x level e l slot n outer ls nodes level') :
    NodesOccupied (x.moveState l slot nodes (n :: ls)) := by
  have ho := ht.path l hl
  rw [hm.levels] at ho
  have hp := ho.grows hm.grows
  have hne := hm.goes.ne hm.graded hp
  have hn := (hm.goes.path hm.graded hp).lt hm.graded
  have hs : ∀ m, statesAt nodes m = statesAt x.nodes m := hm.grows.states
  have hnd : ∀ m, (statesAt (insertState nodes n l) m).Nodup := by
    intro m
    apply nodup_insertState
    rw [hs]
    exact h.nodup m
  have hsl : ∀ m, l ∈ statesAt x.nodes m ↔ m = slot := by
    intro m
    rw [h.mem_iff l hl, hm.levels, head?_cons, some.injEq, eq_comm]
  have hmem : ∀ k m, k ∈ statesAt (removeState (insertState nodes n l) slot l) m ↔
      if k = l then m = n else k ∈ statesAt x.nodes m := by
    intro k m
    rw [mem_removeState (hnd slot), mem_insertState hn, hs]
    split
    next hk =>
      rw [hk, hsl]
      constructor
      · rintro ⟨rfl | ⟨-, rfl⟩, hnt⟩
        · exact absurd ⟨rfl, rfl⟩ hnt
        · rfl
      · rintro rfl
        exact ⟨Or.inr ⟨rfl, rfl⟩, fun hsl => hne hsl.2⟩
    next hk =>
      refine ⟨?_, fun hmem => ⟨Or.inl hmem, fun hkl => hk hkl.1⟩⟩
      rintro ⟨hmem | hkl, -⟩
      · exact hmem
      · exact absurd hkl.1 hk
  rw [moveState_eq]
  refine ⟨?_, ?_, fun m => nodup_removeState (hnd m)⟩
  · intro k hk m
    rw [hmem, levels_of_modify (ht.alive l hl) rfl]
    split
    · rw [head?_cons, some.injEq, eq_comm]
    · exact h.mem_iff k hk m
  · intro m k hk
    rw [hmem] at hk
    split at hk
    next hkl =>
      rw [hkl]
      exact hl
    · exact h.alive hk

theorem stream (hs : StreamMoves x e y) : NodesOccupied y := by
  cases hs with
  | create hs =>
    have hy : Entered x (x.nodes.alloc root) x.nodes.size [] y := .enterNode hs rfl rfl rfl
    refine h.enter ht (grows_alloc_root x.nodes level).states ?_ hy
    rw [size_alloc]
    exact Nat.lt_succ_self _
  | @clone l y hl hs =>
    obtain ⟨slot, outer, hv, hsl, -⟩ := ht.levels_cons hl
    rw [topoIndex_eq hv] at hs
    exact h.enter ht (fun _ => rfl) hsl (.enterNode hs rfl rfl rfl)
  | step hs => exact h.same hs
  | @terminate l y hl hs => exact (h.terminate ht hl).same hs

end

theorem expire (n : Nat) : NodesOccupied { x with nodes := x.nodes.map (forget n) } := by
  have hs : ∀ m, statesAt (x.nodes.map (forget n)) m = statesAt x.nodes m := by
    intro m
    rw [statesAt, get_forget]
    rfl
  refine ⟨?_, ?_, ?_⟩
  · intro l hl m
    rw [hs]
    exact h.mem_iff l hl m
  · intro m l hl
    rw [hs] at hl
    exact h.alive hl
  · intro m
    rw [hs]
    exact h.nodup m

end

theorem initial (S : HighLevelStrategy σ) : NodesOccupied (initial S) := by
  have hs : ∀ m, statesAt (HighLevelExecutor.initial S).nodes m = [] := by
    intro m
    rfl
  refine ⟨fun _ hl => absurd hl not_mem_nil, ?_, ?_⟩
  · intro n l hl
    exact absurd hl not_mem_nil
  · intro n
    exact nodup_nil

end NodesOccupied

variable {S : HighLevelStrategy σ}
theorem NodesOccupied.handleTopology (h : NodesOccupied x) (ht : Topologic x level)
    (hok : x.handleTopology S order fuel e = .ok y) : NodesOccupied y := by
  obtain ⟨s, -, hs⟩ | ⟨n, -, hn, rfl⟩ | ⟨l, slot, n, outer, ls, nodes, level', hl, -, rfl, hm⟩ :=
    handleTopology_cases ht hok
  · exact h.stream ht hs
  · exact h.expire n
  · exact h.moveState ht hl hm

/-- A live state is only in the set of its last node. -/
theorem states_of_reached (hr : (topologyMachine S order).Reached x) : (∀ l ∈ x.stateMap, ∀ n,
      l ∈ (x.nodes.get n).states ↔ (x.llStates.get l).topoIndex.getLast? = some n) ∧
    ∀ n, ∀ l ∈ (x.nodes.get n).states, l ∈ x.stateMap := by
  have hi : (∃ level, Topologic x level) ∧ NodesOccupied x := by
    apply hr.invariant
    · rintro _ rfl
      exact ⟨⟨_, Topologic.initial S⟩, NodesOccupied.initial S⟩
    · rintro s e s' ⟨⟨level, ht⟩, ho⟩ - ⟨fuel, hok⟩
      exact ⟨ht.handleTopology hok, ho.handleTopology ht hok⟩
  constructor
  · intro l hl n
    rw [← head?_reverse]
    exact hi.2.mem_iff l hl n
  · intro n l hl
    exact hi.2.alive hl

def sharedNode : List TopologyEvent :=
  [.stream (.create true), .basicBlock 0 2, .stream (.clone 0), .push 0, .stream (.terminate 0)]

theorem sharedNode_states : ∃ x, plainMachine.Reached x ∧ x.stateMap = [1] ∧ (∀ l ∈ x.stateMap, ∀ n,
        l ∈ (x.nodes.get n).states ↔ (x.llStates.get l).topoIndex.getLast? = some n) ∧
      ∀ n, ∀ l ∈ (x.nodes.get n).states, l ∈ x.stateMap := by
  obtain ⟨x, hx, hm⟩ : ∃ x, runWhile (fun _ _ => True) plainHandle sharedNode
      (initial (selectorStrategy .dfs)) = some x ∧ x.stateMap = [1] :=
    ⟨_, rfl, by decide⟩
  have hre : plainMachine.Reached x := .runWhile (fun _ _ _ h => ⟨1, h⟩) (.init rfl) hx
  exact ⟨x, hre, hm, states_of_reached hre⟩

end HighLevelExecutor
end Chef
