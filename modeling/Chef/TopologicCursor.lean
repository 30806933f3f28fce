import Mathlib.Logic.Function.Iterate
import Mathlib.Data.List.Basic

namespace Chef
open List
/-- A node with its weak links, which may have expired. -/
inductive TopologicTree (α : Type) where
  | expired
  | node (states : List α) (down next : TopologicTree α)

namespace TopologicTree
def down : TopologicTree α → TopologicTree α
  | .expired => .expired
  | .node _ down _ => down

def next : TopologicTree α → TopologicTree α
  | .expired => .expired
  | .node _ _ next => next

def states : TopologicTree α → List α
  | .expired => []
  | .node states _ _ => states

/-- Nodes are left while none follows on their chain. -/
def leave : List (TopologicTree α) → List (TopologicTree α)
  | [] => []
  | n :: outer =>
    match n.next with
    | .expired => leave outer
    | .node states down next => .node states down next :: outer

/-- The back of the cursor comes first. -/
def stepCursor : List (TopologicTree α) → List (TopologicTree α)
  | [] => []
  | n :: outer =>
    match n.down with
    | .node states down next => .node states down next :: n :: outer
    | .expired =>
      match n.next with
      | .node states down next => .node states down next :: outer
      | .expired => leave (n :: outer)

def preorder : TopologicTree α → List (TopologicTree α)
  | .expired => []
  | .node states down next => .node states down next :: (down.preorder ++ next.preorder)

def afterChains : List (TopologicTree α) → List (TopologicTree α)
  | [] => []
  | n :: outer => n.next.preorder ++ afterChains outer

/-- The cursor's node and those after it. -/
def upcoming : List (TopologicTree α) → List (TopologicTree α)
  | [] => []
  | n :: outer => n :: (n.down.preorder ++ afterChains (n :: outer))

theorem upcoming_cons (states : List α) (down next : TopologicTree α)
    (outer : List (TopologicTree α)) : upcoming (.node states down next :: outer) =
      (TopologicTree.node states down next).preorder ++ afterChains outer := by
  rw [preorder, cons_append, append_assoc]
  rfl

theorem upcoming_leave (cursor : List (TopologicTree α)) :
    upcoming (leave cursor) = afterChains cursor := by
  induction cursor with
  | nil => rfl
  | cons n outer ih =>
    rw [leave, afterChains]
    cases hn : n.next with
    | expired => exact ih
    | node states down next => exact upcoming_cons states down next outer

theorem upcoming_stepCursor (cursor : List (TopologicTree α)) :
    upcoming (stepCursor cursor) = (upcoming cursor).tail := by
  cases cursor with
  | nil => rfl
  | cons n outer =>
    rw [stepCursor, upcoming, tail_cons]
    cases hd : n.down with
    | node states down next => exact upcoming_cons states down next (n :: outer)
    | expired =>
      cases hn : n.next with
      | node states down next =>
        rw [afterChains, hn]
        exact upcoming_cons states down next outer
      | expired => exact upcoming_leave (n :: outer)

section
variable (pathId : α → Int) (path : Int)
def stateOf (n : TopologicTree α) : Option α := n.states.find? fun s => pathId s == path

def findNextState : List (TopologicTree α) → Nat → Option α × List (TopologicTree α) × Nat
  | [], counter => (none, [], counter)
  | n :: outer, counter =>
    match stateOf pathId path n with
    | some s => (some s, n :: outer, counter)
    | none => findNextState (stepCursor (n :: outer)) (counter + 1)
termination_by cursor => (upcoming cursor).length
decreasing_by
  rw [upcoming_stepCursor]
  exact Nat.lt_succ_self _

/-- The first state on the path, and the cursor at its node. -/
structure Finds (cursor : List (TopologicTree α)) (counter : Nat)
    (r : Option α × List (TopologicTree α) × Nat) : Prop where
  state : r.1 = (upcoming cursor).findSome? (stateOf pathId path)
  node : r.2.1.head? = (upcoming cursor).find? fun n => (stateOf pathId path n).isSome
  moved : ∃ i, r.2.1 = stepCursor^[i] cursor ∧ r.2.2 = counter + i

theorem findNextState_finds (cursor : List (TopologicTree α)) (counter : Nat) :
    Finds pathId path cursor counter (findNextState pathId path cursor counter) := by
  fun_induction findNextState pathId path cursor counter with
  | case1 counter => exact ⟨rfl, rfl, 0, rfl, rfl⟩
  | case2 n outer counter s hs =>
    exact ⟨by simp [upcoming, hs], by simp [upcoming, hs], 0, rfl, rfl⟩
  | case3 n outer counter hs ih =>
    obtain ⟨h, hn, i, hi, hc⟩ := ih
    rw [upcoming_stepCursor] at h hn
    refine ⟨?_, ?_, i + 1, hi, by omega⟩
    · rw [h, upcoming, findSome?_cons, hs]
      rfl
    · rw [hn, upcoming, find?_cons, hs]
      rfl

end

/-- Nodes that come later on the chain of a node, or the node. -/
inductive OnChain : TopologicTree α → TopologicTree α → Prop where
  | self : OnChain (.node s d t) (.node s d t)
  | next : OnChain t n → OnChain (.node s d t) n

inductive IsPath (root : TopologicTree α) : List (TopologicTree α) → Prop where
  | top : OnChain root n → IsPath root [n]
  | under : IsPath root (m :: outer) → OnChain m.down n → IsPath root (n :: m :: outer)

theorem OnChain.preorder (h : OnChain t n) :
    ∃ before, t.preorder = before ++ n :: (n.down.preorder ++ n.next.preorder) := by
  induction h with
  | self => exact ⟨[], rfl⟩
  | @next t n s d _ ih =>
    obtain ⟨before, hb⟩ := ih
    refine ⟨.node s d t :: (d.preorder ++ before), ?_⟩
    rw [TopologicTree.preorder, hb, cons_append, append_assoc]

theorem IsPath.preorder (h : IsPath root cursor) :
    ∃ before, root.preorder = before ++ upcoming cursor := by
  induction h with
  | top hc =>
    obtain ⟨before, hb⟩ := hc.preorder
    refine ⟨before, hb.trans ?_⟩
    simp [upcoming, afterChains]
  | @under m outer n _ hc ih =>
    obtain ⟨before, hb⟩ := ih
    obtain ⟨before', hb'⟩ := hc.preorder
    refine ⟨before ++ m :: before', hb.trans ?_⟩
    simp [upcoming, afterChains, hb']

theorem upcoming_iterate (cursor : List (TopologicTree α)) (i : Nat) :
    upcoming (stepCursor^[i] cursor) = (upcoming cursor).drop i := by
  induction i with
  | zero => rfl
  | succ i ih => rw [Function.iterate_succ_apply', upcoming_stepCursor, ih, tail_drop]

theorem head?_iterate (cursor : List (TopologicTree α)) (i : Nat) :
    (stepCursor^[i] cursor).head? = (upcoming cursor)[i]? := by
  rw [← head?_drop, ← upcoming_iterate]
  cases stepCursor^[i] cursor <;> rfl

/-- The steps visit the nodes behind the cursor, and the search finds the first of them. -/
theorem cursor_right {root : TopologicTree α} (h : IsPath root cursor) (pathId : α → Int)
    (path : Int) (counter : Nat) :
    (∃ before, root.preorder = before ++ upcoming cursor) ∧
      (∀ i, (stepCursor^[i] cursor).head? = (upcoming cursor)[i]?) ∧
      Finds pathId path cursor counter (findNextState pathId path cursor counter) :=
  ⟨h.preorder, head?_iterate cursor, findNextState_finds pathId path cursor counter⟩

theorem cursor_right_under : (findNextState id 7 [.node [1] .expired .expired,
    .node [5] (.node [1] .expired .expired) (.node [7] .expired .expired)] 0).1 =
      some (7 : Int) := by
  obtain ⟨-, -, h⟩ := cursor_right (.under (.top .self) .self : IsPath _
    [.node [1] .expired .expired,
      .node [5] (.node [(1 : Int)] .expired .expired) (.node [7] .expired .expired)]) id 7 0
  rw [h.state]
  rfl

end TopologicTree
end Chef
