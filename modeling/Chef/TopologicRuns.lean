import Chef.TopologicMoves

namespace Chef
open Foundations Relation List Store HighLevelExecutor Nat
def TopologyEvent.state? : TopologyEvent → Option Nat
  | .push l | .pop l | .basicBlock l _ => some l
  | .stream _ | .expire _ => none

namespace TopologicNode
def root : TopologicNode := ⟨none, -1, 0, true, none, none, []⟩

section
variable {nodes : Store TopologicNode}
theorem next_alloc_root : Next (nodes.alloc root) a b ↔ Next nodes a b := by
  rw [Next, Next, get_alloc]
  split
  next ha =>
    rw [ha, get_of_le _ le_rfl]
    rfl
  · rfl

theorem down_alloc_root (nodes : Store TopologicNode) (a : Nat) :
    ((nodes.alloc root).get a).down = (nodes.get a).down := by
  rw [get_alloc]
  split
  next ha =>
    rw [ha, get_of_le _ le_rfl]
    rfl
  · rfl

def rootLevel (nodes : Store TopologicNode) (level : Nat → Nat) (m : Nat) : Nat :=
  if m = nodes.size then 0 else level m

theorem grows_alloc_root (nodes : Store TopologicNode) (level : Nat → Nat) :
    Grows nodes (nodes.alloc root) level (rootLevel nodes level) where
  size_le := by rw [size_alloc]; exact le_succ _
  key hm := by rw [get_alloc_of_lt _ _ hm]
  callBase hm := by rw [get_alloc_of_lt _ _ hm]
  level_eq hm := if_neg hm.ne
  next hn := TransGen.single (next_alloc_root.2 hn)
  down hd := (down_alloc_root _ _).trans hd
  states m := by
    rw [get_alloc]
    split
    next hm =>
      rw [hm, get_of_le _ le_rfl]
      rfl
    · rfl

theorem Graded.alloc_root (h : Graded nodes level) :
    Graded (nodes.alloc root) (rootLevel nodes level) where
  next_lt hn := by
    rw [size_alloc]
    exact (h.next_lt (next_alloc_root.1 hn)).trans (lt_succ_self _)
  next_key hn := by
    rw [next_alloc_root] at hn
    rw [get_alloc, if_neg hn.ne_size, get_alloc_of_lt _ _ (h.next_lt hn)]
    exact h.next_key hn
  next_callBase hn := by
    rw [next_alloc_root] at hn
    rw [get_alloc_of_lt _ _ (h.next_lt hn), get_alloc, if_neg hn.ne_size]
    exact h.next_callBase hn
  next_level hn := by
    rw [next_alloc_root] at hn
    rw [rootLevel, rootLevel, if_neg hn.ne_size, if_neg (h.next_lt hn).ne]
    exact h.next_level hn
  down_lt hd := by
    rw [down_alloc_root] at hd
    rw [size_alloc]
    exact (h.down_lt hd).trans (lt_succ_self _)
  down_key hd := by
    rw [down_alloc_root] at hd
    rw [get_alloc_of_lt _ _ (h.down_lt hd)]
    exact h.down_key hd
  down_level hd := by
    rw [down_alloc_root] at hd
    rw [rootLevel, rootLevel, if_neg (ne_size_of_down hd), if_neg (h.down_lt hd).ne]
    exact h.down_level hd

theorem path_alloc_root (nodes : Store TopologicNode) (level : Nat → Nat) :
    Path (nodes.alloc root) (rootLevel nodes level) [nodes.size] := by
  refine .root ?_ (if_pos rfl) ?_
  · rw [size_alloc]
    exact lt_succ_self _
  · rw [get_alloc_size]
    rfl

end

variable (nodes : Store TopologicNode)
def insertState (n l : Nat) : Store TopologicNode :=
  nodes.modify n fun m => { m with states := if l ∈ m.states then m.states else m.states ++ [l] }

def removeState (n l : Nat) : Store TopologicNode :=
  nodes.modify n fun m => { m with states := m.states.erase l }

theorem sameLinks_insertState (n l : Nat) : SameLinks nodes (insertState nodes n l) :=
  SameLinks.modify nodes n fun states => if l ∈ states then states else states ++ [l]

theorem sameLinks_removeState (n l : Nat) : SameLinks nodes (removeState nodes n l) :=
  SameLinks.modify nodes n fun states => states.erase l

end TopologicNode

namespace HighLevelExecutor
open TopologicNode
variable {x y : HighLevelExecutor σ} {nodes : Store TopologicNode}
theorem enterNode_eq (x : HighLevelExecutor σ) (l n : Nat) (ls : List Nat) :
    x.enterNode l (n :: ls).reverse = { x with
        llStates := x.llStates.modify l fun s => { s with topoIndex := (n :: ls).reverse }
        nodes := insertState x.nodes n l } := by
  rw [enterNode, getLast?_reverse, head?_cons]
  rfl

theorem moveState_eq (x : HighLevelExecutor σ) (l slot n : Nat) (nodes : Store TopologicNode)
    (ls : List Nat) : x.moveState l slot nodes (n :: ls) = { x with
        llStates := x.llStates.modify l fun s => { s with topoIndex := (n :: ls).reverse }
        nodes := removeState (insertState nodes n l) slot l } := by
  rw [moveState, enterNode_eq]
  rfl

theorem reverse_levels (x : HighLevelExecutor σ) (l : Nat) :
    (x.levels l).reverse = (x.llStates.get l).topoIndex := reverse_reverse _

theorem topoIndex_eq (h : x.levels l = ls) : (x.llStates.get l).topoIndex = ls.reverse := by
  rw [← h, reverse_levels]

theorem leaveNode_eq (hl : x.levels l = slot :: outer) :
    x.leaveNode l = { x with nodes := removeState x.nodes slot l } := by
  have hla : (x.llStates.get l).topoIndex.getLast? = some slot := by
    rw [← head?_reverse, ← levels, hl, head?_cons]
  rw [leaveNode, hla]
  rfl

theorem levels_of_modify (hl : l < x.llStates.size)
    (hy : y.llStates = x.llStates.modify l fun s => { s with topoIndex := ls.reverse }) (k : Nat) :
    y.levels k = if k = l then ls else x.levels k := by
  rw [levels, levels, hy, get_modify]
  by_cases hk : k = l
  · rw [if_pos ⟨hk.symm, hk ▸ hl⟩, if_pos hk, reverse_reverse]
  · rw [if_neg fun h => hk h.1.symm, if_neg hk]

/-- A new low-level state stands at a node. -/
structure Entered (x : HighLevelExecutor σ) (nodes : Store TopologicNode) (n : Nat) (ls : List Nat)
    (y : HighLevelExecutor σ) : Prop where
  nodes : y.nodes = insertState nodes n x.llStates.size
  stateMap : y.stateMap = x.stateMap ++ [x.llStates.size]
  size : y.llStates.size = x.llStates.size + 1
  levels k : y.levels k = if k = x.llStates.size then n :: ls else x.levels k

theorem Entered.enterNode {w : HighLevelExecutor σ}
    (hs : SameTopology (w.enterNode x.llStates.size (n :: ls).reverse) y)
    (hn : w.nodes = nodes) (hm : w.stateMap = x.stateMap ++ [x.llStates.size])
    (hl : w.llStates = x.llStates.alloc s) : Entered x nodes n ls y := by
  rw [enterNode_eq] at hs
  refine ⟨hn ▸ hs.nodes, hs.stateMap.trans hm, ?_, fun k => ?_⟩
  · rw [hs.size, size_modify, hl, size_alloc]
  rw [hs.levels, HighLevelExecutor.levels, HighLevelExecutor.levels, hl, get_modify, size_alloc,
    get_alloc]
  by_cases hk : k = x.llStates.size
  · rw [if_pos ⟨hk.symm, hk ▸ lt_succ_self _⟩, if_pos hk, if_pos hk, reverse_reverse]
  · rw [if_neg fun h => hk h.1.symm, if_neg hk, if_neg hk]

namespace Topologic
section
variable (h : Topologic x level)
include h
theorem same (hs : SameTopology x y) : Topologic y level where
  graded := hs.nodes ▸ h.graded
  path l hl := by
    rw [hs.nodes, hs.levels l]
    exact h.path l (hs.stateMap ▸ hl)
  alive l hl := by
    rw [hs.size]
    exact h.alive l (hs.stateMap ▸ hl)
  nodup := hs.stateMap ▸ h.nodup

theorem rearrange (hg : TopologicNode.Grows x.nodes nodes level level') (hgr :
    Graded nodes level') (hli : SameLinks nodes y.nodes) (hv : ∀ l ∈ y.stateMap,
    (l ∈ x.stateMap ∧ y.levels l = x.levels l) ∨ Path nodes level' (y.levels l)) (ha : ∀ l ∈
    y.stateMap, l < y.llStates.size) (hnd : y.stateMap.Nodup) : Topologic y level' where
  graded := hli.graded hgr
  path l hl := by
    apply hli.path
    obtain ⟨ho, heq⟩ | hp := hv l hl
    · rw [heq]
      exact (h.path l ho).grows hg
    · exact hp
  alive := ha
  nodup := hnd

theorem moveState (hl : l ∈ x.stateMap) (hm : Moved x level e l slot n outer ls nodes level') :
    Topologic (x.moveState l slot nodes (n :: ls)) level' := by
  have hp := h.path l hl
  rw [hm.levels] at hp
  have hn := hm.goes.path hm.graded (hp.grows hm.grows)
  rw [moveState_eq]
  refine h.rearrange hm.grows hm.graded
    ((sameLinks_insertState _ _ _).trans (sameLinks_removeState _ _ _)) ?_ ?_ h.nodup
  · intro k hk
    rw [levels_of_modify (h.alive l hl) rfl]
    by_cases hkl : k = l
    · rw [if_pos hkl]
      exact Or.inr hn
    · rw [if_neg hkl]
      exact Or.inl ⟨hk, rfl⟩
  · intro k hk
    rw [size_modify]
    exact h.alive k hk

theorem expire (hn : x.Unowned n) : Topologic { x with nodes := x.nodes.map (forget n) } level where
  graded := h.graded.forget n
  path l hl := (h.path l hl).forget hn.1 fun hm => hn.2.2 l hl (mem_reverse.1 hm)
  alive := h.alive
  nodup := h.nodup

end

theorem enter (h : Topologic x level) (hg : TopologicNode.Grows x.nodes nodes level level')
    (hgr : Graded nodes level') (hp : Path nodes level' (n :: ls)) (hy : Entered x nodes n ls y) :
    Topologic y level' := by
  refine h.rearrange hg hgr (hy.nodes ▸ sameLinks_insertState _ _ _) ?_ ?_ ?_
  · intro k hk
    rw [hy.levels]
    rw [hy.stateMap, mem_append, mem_singleton] at hk
    obtain hk | hk := hk
    · rw [if_neg (h.alive k hk).ne]
      exact Or.inl ⟨hk, rfl⟩
    · rw [if_pos hk]
      exact Or.inr hp
  · intro k hk
    rw [hy.size]
    rw [hy.stateMap, mem_append, mem_singleton] at hk
    obtain hk | hk := hk
    · exact (h.alive k hk).trans (lt_succ_self _)
    · rw [hk]
      exact lt_succ_self _
  · rw [hy.stateMap, nodup_append]
    refine ⟨h.nodup, nodup_singleton _, ?_⟩
    intro k hk k' hk'
    rw [mem_singleton.1 hk']
    exact (h.alive k hk).ne

theorem stream (h : Topologic x level) (hs : StreamMoves x e y) : ∃ level', Topologic y level' := by
  cases hs with
  | create hs =>
    exact ⟨_, h.enter (grows_alloc_root _ _) h.graded.alloc_root (path_alloc_root _ _)
      (.enterNode hs rfl rfl rfl)⟩
  | @clone l y hl hs =>
    obtain ⟨slot, outer, hv, -, hp⟩ := h.levels_cons hl
    rw [topoIndex_eq hv] at hs
    exact ⟨level, h.enter (TopologicNode.Grows.refl _ _) h.graded hp (.enterNode hs rfl rfl rfl)⟩
  | step hs => exact ⟨level, h.same hs⟩
  | @terminate l y hl hs =>
    refine ⟨level, Topologic.same ?_ hs⟩
    obtain ⟨slot, outer, hv, -, -⟩ := h.levels_cons hl
    rw [leaveNode_eq hv]
    refine h.rearrange (TopologicNode.Grows.refl _ _) h.graded (sameLinks_removeState _ _ _) ?_ ?_
      (h.nodup.erase l)
    · intro k hk
      exact Or.inl ⟨mem_of_mem_erase hk, rfl⟩
    · intro k hk
      exact h.alive k (mem_of_mem_erase hk)

theorem initial (S : HighLevelStrategy σ) : Topologic (initial S) fun _ => 0 where
  graded := by
    have hn : ∀ m, ((HighLevelExecutor.initial S).nodes.get m).next = none := fun m => by
      rfl
    have hd : ∀ m, ((HighLevelExecutor.initial S).nodes.get m).down = none := fun m => by
      rfl
    constructor <;> intro m n h
    iterate 4 exact absurd ((hn m).symm.trans h) nofun
    iterate 3 exact absurd ((hd m).symm.trans h) nofun
  path _ hl := absurd hl not_mem_nil
  alive _ hl := absurd hl not_mem_nil
  nodup := nodup_nil

end Topologic

variable {S : HighLevelStrategy σ}
theorem ok_of_whenAlive (h : x.whenAlive l r = .ok y) : l ∈ x.stateMap ∧ r = .ok y := by
  rw [whenAlive] at h
  split at h
  next hl => exact ⟨hl, h⟩
  · cases h

section
variable (h : Topologic x level) (hok : x.handleTopology S order fuel e = .ok y)
include h hok
theorem handleTopology_cases : (∃ s, e = .stream s ∧ StreamMoves x s y) ∨
      (∃ n, e = .expire n ∧ x.Unowned n ∧ y = { x with nodes := x.nodes.map (forget n) }) ∨
      ∃ l slot n outer ls nodes level', l ∈ x.stateMap ∧ e.state? = some l ∧
        y = x.moveState l slot nodes (n :: ls) ∧
          Moved x level e l slot n outer ls nodes level' := by
  cases e with
  | stream s =>
    left
    rw [handleTopology] at hok
    cases hs : x.handle S order fuel s with
    | error fault =>
      rw [hs] at hok
      cases hok
    | ok z =>
      rw [hs] at hok
      cases hok
      exact ⟨s, rfl, handle_streamMoves hs⟩
  | expire n =>
    right
    left
    rw [handleTopology, expire] at hok
    split at hok
    next hn =>
      cases hok
      exact ⟨n, rfl, hn, rfl⟩
    · cases hok
  | push l =>
    obtain ⟨hl, hok⟩ := ok_of_whenAlive hok
    obtain ⟨slot, n, outer, ls, nodes, level', hm, hmo⟩ := onStackFramePush_moves h hl
    cases hm.symm.trans hok
    exact .inr (.inr ⟨l, slot, n, outer, ls, nodes, level', hl, rfl, rfl, hmo⟩)
  | pop l =>
    obtain ⟨hl, hok⟩ := ok_of_whenAlive hok
    have hr := returns_of_onStackFramePopping_ok hok
    obtain ⟨slot, n, outer, ls, nodes, level', hm, hmo⟩ := onStackFramePopping_moves h hl hr
    cases hm.symm.trans hok
    exact .inr (.inr ⟨l, slot, n, outer, ls, nodes, level', hl, rfl, rfl, hmo⟩)
  | basicBlock l bbIndex =>
    obtain ⟨hl, hok⟩ := ok_of_whenAlive hok
    obtain ⟨slot, n, outer, ls, nodes, level', hm, hmo⟩ := stepBasicBlock_moves h hl bbIndex
    cases hm.symm.trans hok
    exact .inr (.inr ⟨l, slot, n, outer, ls, nodes, level', hl, rfl, rfl, hmo⟩)

theorem Topologic.handleTopology : ∃ level', Topologic y level' := by
  obtain ⟨s, -, hs⟩ | ⟨n, -, hn, rfl⟩ | ⟨l, slot, n, outer, ls, nodes, level', hl, -, rfl, hm⟩ :=
    handleTopology_cases h hok
  · exact h.stream hs
  · exact ⟨level, h.expire hn⟩
  · exact ⟨level', h.moveState hl hm⟩

end

theorem Topologic.reachable
    (h : (topologyMachine S order).Reachable allow x) : ∃ level, Topologic x level := by
  apply h.invariant
  · rintro _ rfl
    exact ⟨_, Topologic.initial S⟩
  · rintro s e s' ⟨level, hs⟩ - ⟨fuel, hok⟩
    exact hs.handleTopology hok

/-- A state comes to a later place of the tree. -/
structure MovesForward (x : HighLevelExecutor σ) (l : Nat) (y : HighLevelExecutor σ) : Prop where
  places : ∃ level, Graded y.nodes level ∧ Path y.nodes level (x.levels l) ∧
    Path y.nodes level (y.levels l)
  forward : Precedes y.nodes (x.llStates.get l).topoIndex (y.llStates.get l).topoIndex

theorem Moved.movesForward (h : Topologic x level) (hl : l ∈ x.stateMap)
    (hm : Moved x level e l slot n outer ls nodes level') :
    MovesForward x l (x.moveState l slot nodes (n :: ls)) := by
  have ha := h.moveState hl hm
  have hli := (sameLinks_insertState nodes n l).trans (sameLinks_removeState _ slot l)
  have hns : (x.moveState l slot nodes (n :: ls)).nodes =
      removeState (insertState nodes n l) slot l := by rw [moveState_eq]
  have hv : (x.moveState l slot nodes (n :: ls)).levels l = n :: ls := by
    rw [moveState_eq, levels_of_modify (h.alive l hl) rfl, if_pos rfl]
  refine ⟨⟨level', ha.graded, ?_, ha.path l ?_⟩, ?_⟩
  · rw [hns]
    exact hli.path ((h.path l hl).grows hm.grows)
  · rw [moveState_eq]
    exact hl
  have hp := hm.goes.precedes
  rw [← hm.levels, ← hv, reverse_levels, reverse_levels] at hp
  rw [Precedes, hns, hli.next]
  exact hp

/-- Only a return without a call does not move forward. -/
theorem movesForward_iff (hr : (topologyMachine S order).Reached x) (hl : l ∈ x.stateMap)
    (he : e.state? = some l) :
    (∃ y, (topologyMachine S order).step x e y ∧ MovesForward x l y) ↔
      (e = .pop l → x.Returns l) := by
  obtain ⟨level, h⟩ := Topologic.reachable hr
  cases e with
  | stream s => cases he
  | expire n => cases he
  | push k =>
    cases he
    obtain ⟨slot, n, outer, ls, nodes, level', hm, hmo⟩ := onStackFramePush_moves h hl
    refine iff_of_true ⟨_, ⟨0, ?_⟩, hmo.movesForward h hl⟩ nofun
    rw [handleTopology, whenAlive, if_pos hl, hm]
  | basicBlock k bbIndex =>
    cases he
    obtain ⟨slot, n, outer, ls, nodes, level', hm, hmo⟩ := stepBasicBlock_moves h hl bbIndex
    refine iff_of_true ⟨_, ⟨0, ?_⟩, hmo.movesForward h hl⟩ nofun
    rw [handleTopology, whenAlive, if_pos hl, hm]
  | pop k =>
    cases he
    constructor
    · rintro ⟨y, ⟨fuel, hok⟩, -⟩ -
      rw [handleTopology, whenAlive, if_pos hl] at hok
      exact returns_of_onStackFramePopping_ok hok
    intro ht
    obtain ⟨slot, n, outer, ls, nodes, level', hm, hmo⟩ := onStackFramePopping_moves h hl (ht rfl)
    refine ⟨_, ⟨0, ?_⟩, hmo.movesForward h hl⟩
    rw [handleTopology, whenAlive, if_pos hl, hm]

abbrev plainMachine : Machine (HighLevelExecutor (QueuedSelector Nat)) TopologyEvent :=
  topologyMachine (selectorStrategy .dfs) fun children => children

abbrev plainHandle : HighLevelExecutor (QueuedSelector Nat) → TopologyEvent →
    Except TopologyFault (HighLevelExecutor (QueuedSelector Nat)) :=
  handleTopology (selectorStrategy .dfs) (fun children => children) 1

/-- A copy of a state in a loop is called into the loop's chain. -/
def sharedChain : List TopologyEvent :=
  [.stream (.create true), .basicBlock 0 0, .stream (.clone 0), .basicBlock 0 0, .push 1]

theorem sharedChain_reached : ∃ x, plainMachine.Reached x ∧ 0 ∈ x.stateMap ∧
    1 ∈ x.stateMap ∧ x.onStackFramePopping 1 = .error .noCaller := by
  have hx : runWhile (fun _ _ => True) plainHandle sharedChain
    (initial (selectorStrategy .dfs)) = some _ := rfl
  exact ⟨_, .runWhile (fun _ _ _ h => ⟨1, h⟩) (.init rfl) hx, by decide, by decide, by rfl⟩

theorem sharedChain_movesForward : ∃ x, plainMachine.Reached x ∧ 0 ∈ x.stateMap ∧
      ∃ y, plainMachine.step x (.basicBlock 0 3) y ∧ MovesForward x 0 y := by
  obtain ⟨x, hre, hm, -⟩ := sharedChain_reached
  exact ⟨x, hre, hm, (movesForward_iff hre hm rfl).2 nofun⟩

theorem sharedChain_pop_stops : ∃ x, plainMachine.Reached x ∧ 1 ∈ x.stateMap ∧
      x.onStackFramePopping 1 = .error .noCaller ∧ ∀ y, ¬plainMachine.step x (.pop 1) y := by
  obtain ⟨x, hre, -, hm, hp⟩ := sharedChain_reached
  refine ⟨x, hre, hm, hp, ?_⟩
  rintro y ⟨fuel, hok⟩
  rw [handleTopology, whenAlive, if_pos hm, hp] at hok
  cases hok

end HighLevelExecutor
end Chef
