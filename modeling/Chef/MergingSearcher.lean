import Chef.Foundations.Transition
import Mathlib.Data.Finset.Basic

namespace Chef
open Foundations Function
structure MergePool where
  firstState : Option Nat
  states : Finset Nat

abbrev MergePools := Nat → Option MergePool

namespace MergePools
def get (pools : MergePools) (g : Nat) : MergePool := (pools g).getD ⟨none, ∅⟩

def setStates (pools : MergePools) (g : Nat) (f : Finset Nat → Finset Nat) : MergePools :=
  if g = 0 then pools
  else update pools g (some { pools.get g with states := f (pools.get g).states })

end MergePools

/-- The group of each live state is zero if it is in none. -/
structure MergingSearcher where
  mergePools : MergePools
  activeStates : Finset Nat
  currentState : Option Nat
  nextMergeGroupId : Nat
  groupId : Nat → Option Nat

inductive SearcherFault where
  | notRunning
  | unknownState
  | deadState

namespace MergingSearcher
def removeState (s : MergingSearcher) (state : Nat) : MergingSearcher := { s with
    activeStates := s.activeStates.erase state
    mergePools := s.mergePools.setStates ((s.groupId state).getD 0) fun states => states.erase state
    currentState := if s.currentState = some state then none else s.currentState
    groupId := update s.groupId state none }

def addState (s : MergingSearcher) (added : Nat × Nat) : MergingSearcher := { s with
    activeStates := insert added.1 s.activeStates
    mergePools := s.mergePools.setStates added.2 (insert added.1)
    groupId := update s.groupId added.1 (some added.2) }

def update (added : List (Nat × Nat)) (removed : List Nat) (s : MergingSearcher) :
    MergingSearcher :=
  (added.filter fun a => a.1 ∉ removed).foldl addState (removed.foldl removeState s)

def suspend (state : Nat) (s : MergingSearcher) : MergingSearcher := { s with
    currentState := if s.currentState = some state then none else s.currentState
    activeStates := s.activeStates.erase state }

def resume (state : Nat) (s : MergingSearcher) : MergingSearcher :=
  { s with activeStates := insert state s.activeStates }

def setGroupId (state g : Nat) (s : MergingSearcher) : MergingSearcher :=
  { s with groupId := Function.update s.groupId state (some g) }

def setPool (g : Nat) (pool : Option MergePool) (s : MergingSearcher) : MergingSearcher :=
  { s with mergePools := Function.update s.mergePools g pool }

def selectState (choice : Nat) (s : MergingSearcher) : Except SearcherFault MergingSearcher :=
  match s.currentState with
  | some _ => .ok s
  | none =>
    if choice ∈ s.activeStates then .ok { s with currentState := some choice }
    else .error .notRunning

def mergeStart (state : Nat) (s : MergingSearcher) : MergingSearcher :=
  if s.groupId state = some 0 then
    { s with
      nextMergeGroupId := s.nextMergeGroupId + 1
      groupId := Function.update s.groupId state (some s.nextMergeGroupId)
      mergePools := s.mergePools.setStates s.nextMergeGroupId (insert state) }
  else s

def mergeInto (first g : Nat) (states : Finset Nat) (s : MergingSearcher) : MergingSearcher :=
  if states = ∅ then setPool g none (setGroupId first 0 (resume first s))
  else setPool g (some ⟨some first, states⟩) s

/-- A state that is merged is terminated. -/
def mergeEnd (state : Nat) (success : Bool) (s : MergingSearcher) :
    Except SearcherFault MergingSearcher :=
  let g := (s.groupId state).getD 0
  match s.mergePools g with
  | none => .ok s
  | some pool =>
    match pool.firstState with
    | none =>
      if pool.states.erase state = ∅ then .ok (setPool g none (setGroupId state 0 s))
      else .ok (suspend state (setPool g (some ⟨some state, pool.states.erase state⟩) s))
    | some first =>
      if s.groupId first = none then .error .deadState
      else if success then .ok (update [] [state] (mergeInto first g (pool.states.erase state) s))
      else .ok (setGroupId state 0 (mergeInto first g (pool.states.erase state) s))

end MergingSearcher

/-- The new states of an update come with their groups. -/
inductive SearcherEvent where
  | update (added : List (Nat × Nat)) (removed : List Nat)
  | selectState (choice : Nat)
  | mergeStart (state : Nat)
  | mergeEnd (state : Nat) (success : Bool)

namespace MergingSearcher
def knows (added : List (Nat × Nat)) (removed : List Nat) (s : MergingSearcher) : Bool :=
  decide (added.map Prod.fst).Nodup &&
    added.all (fun a => s.groupId a.1 == none && decide (a.2 < s.nextMergeGroupId)) &&
    removed.all fun state => (s.groupId state).isSome

def handle (s : MergingSearcher) : SearcherEvent → Except SearcherFault MergingSearcher
  | .update added removed =>
    if s.knows added removed then .ok (s.update added removed) else .error .unknownState
  | .selectState choice => s.selectState choice
  | .mergeStart state =>
    if state ∈ s.activeStates ∧ s.groupId state ≠ none then .ok (s.mergeStart state)
    else .error .notRunning
  | .mergeEnd state success =>
    if state ∈ s.activeStates ∧ s.groupId state ≠ none then s.mergeEnd state success
    else .error .notRunning

def start (states : Finset Nat) : MergingSearcher where
  mergePools _ := none
  activeStates := states
  currentState := none
  nextMergeGroupId := 1
  groupId state := if state ∈ states then some 0 else none

def machine : Machine MergingSearcher SearcherEvent where
  init s := ∃ states, s = start states
  step s event s' := s.handle event = .ok s'

end MergingSearcher
end Chef
