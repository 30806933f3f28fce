import Chef.HighLevelStrategy

namespace Chef
open Foundations
namespace HighLevelExecutor
def initial (S : HighLevelStrategy σ) : HighLevelExecutor σ where
  nodes := .empty
  paths := .empty
  segments := .empty
  hlStates := .empty
  llStates := .empty
  highLevelStates := []
  stateMap := []
  selectedState := none
  hlStrategy := S.init

section
variable (x : HighLevelExecutor σ)
def cutParent (segment : Nat) : HighLevelExecutor σ :=
  { x with segments := x.segments.modify segment fun s => { s with parent := none } }

def stepTo (h c : Nat) : HighLevelExecutor σ :=
  { x with hlStates := x.hlStates.modify h fun s => { s with segment := c } }.cutParent c

def stepHighLevelState (h : Nat) (hlpc : UInt64) : Except Fault (HighLevelExecutor σ) :=
  x.getNextSegment (x.segmentOf h) hlpc >>= fun r => .ok (r.2.stepTo h r.1)

def forkTo (h c : Nat) : HighLevelExecutor σ :=
  { x with hlStates := x.hlStates.alloc ⟨c, (x.hlStates.get h).cursor⟩ }.cutParent c

def forkHighLevelState (h : Nat) (hlpc : UInt64) : Except Fault (Nat × HighLevelExecutor σ) :=
  x.getNextSegment (x.segmentOf h) hlpc >>= fun r =>
    if r.2.pathOf r.1 = r.2.id h then .error .forkOnOwnPath
    else .ok (r.2.hlStates.size, r.2.forkTo h r.1)

def addHighLevelState (h : Nat) : HighLevelExecutor σ :=
  { x with highLevelStates := x.highLevelStates ++ [h] }

end

def forkChildren (h : Nat) (segment : Nat) :
    List (UInt64 × Nat) → UInt64 → List Nat → HighLevelExecutor σ →
    Except Fault (UInt64 × List Nat × HighLevelExecutor σ)
  | [], steppingHlpc, addList, x => .ok (steppingHlpc, addList, x)
  | (hlpc, child) :: rest, steppingHlpc, addList, x =>
    if x.pathOf child = x.pathOf segment then
      if steppingHlpc ≠ 0 then .error .successorFoundTwice
      else forkChildren h segment rest hlpc addList x
    else
      x.forkHighLevelState h hlpc >>= fun r =>
        forkChildren h segment rest steppingHlpc (addList ++ [r.1]) (r.2.addHighLevelState r.1)

def withStrategy (x : HighLevelExecutor σ) : Except StrategyFault σ →
    Except Fault (HighLevelExecutor σ)
  | .ok strategy => .ok { x with hlStrategy := strategy }
  | .error fault => .error (.strategy fault)

variable (S : HighLevelStrategy σ) (order : List (UInt64 × Nat) → List (UInt64 × Nat))
section
variable (x : HighLevelExecutor σ)
def killSelected (h : Nat) : Except Fault (HighLevelExecutor σ) :=
  { x with highLevelStates := x.highLevelStates.erase h }.withStrategy (S.killState x.hlStrategy h)

def forkSelected (h : Nat) : Except Fault (HighLevelExecutor σ) :=
  forkChildren h (x.segmentOf h) (order (x.segments.get (x.segmentOf h)).children) 0 [] x
    >>= fun r =>
      if r.1 = 0 then .error .successorNotFound
      else r.2.2.stepHighLevelState h r.1 >>= fun y =>
        y.withStrategy (S.addStates y.hlStrategy (some h) r.2.1)

def stepSelected (h : Nat) (hlpc : UInt64) : Except Fault (HighLevelExecutor σ) :=
  x.stepHighLevelState h hlpc >>= fun y => y.withStrategy (S.updateState y.hlStrategy h)

def selectNext : HighLevelExecutor σ := { x with
    selectedState := (S.selectState x.hlStrategy).1
    hlStrategy := (S.selectState x.hlStrategy).2 }

def advanceSelected (h : Nat) : Except Fault (HighLevelExecutor σ) :=
  match (x.segments.get (x.segmentOf h)).children with
  | [] => x.killSelected S h
  | [child] => x.stepSelected S h child.1
  | _ => x.forkSelected S order h

/-- The result is `none` where the source returns false. -/
def doUpdateSelectedState (h : Nat) : Except Fault (Option (HighLevelExecutor σ)) :=
  if (x.segments.get (x.segmentOf h)).lowLevelStates ≠ [] then .ok none
  else if (x.segments.get (x.segmentOf h)).parent.isSome then .error .parentNotExpired
  else x.advanceSelected S order h >>= fun y => .ok (some (y.selectNext S))

end

def tryUpdateSelectedState : Nat → HighLevelExecutor σ → Except Fault (HighLevelExecutor σ)
  | 0, _ => .error .outOfFuel
  | fuel + 1, x =>
    match x.selectedState with
    | none => .ok x
    | some h =>
      x.doUpdateSelectedState S order h >>= fun r =>
        match r with
        | none => .ok x
        | some y => tryUpdateSelectedState fuel y

variable (x : HighLevelExecutor σ)
/-- A low-level state is added to a node as to a `SetVector`. -/
def enterNode (l : Nat) (index : TopologicIndex) : HighLevelExecutor σ :=
  match index.getLast? with
  | none => x
  | some slot =>
    { x with
      llStates := x.llStates.modify l fun s => { s with topoIndex := index }
      nodes := x.nodes.modify slot fun n =>
        { n with states := if l ∈ n.states then n.states else n.states ++ [l] } }

def leaveNode (l : Nat) : HighLevelExecutor σ :=
  match (x.llStates.get l).topoIndex.getLast? with
  | none => x
  | some slot =>
    { x with nodes := x.nodes.modify slot fun n => { n with states := n.states.erase l } }

def withLowLevelState (s : Nat) (apicEnabled : Bool) : HighLevelExecutor σ := { x with
    llStates := x.llStates.alloc ⟨s, apicEnabled, []⟩
    stateMap := x.stateMap ++ [x.llStates.size] }

def withRootState : HighLevelExecutor σ := { x.createRootSegment.2 with
    nodes := x.nodes.alloc ⟨none, -1, 0, true, none, none, []⟩
    hlStates := x.hlStates.alloc ⟨x.segments.size, [x.nodes.size]⟩
    highLevelStates := x.highLevelStates ++ [x.hlStates.size] }

def createRootStates (apicEnabled : Bool) : HighLevelExecutor σ :=
  ((x.withRootState.withLowLevelState x.segments.size apicEnabled).joinState
    x.segments.size x.llStates.size).enterNode x.llStates.size [x.nodes.size]

def createState (apicEnabled : Bool) : Except Fault (HighLevelExecutor σ) :=
  let y := x.createRootStates apicEnabled
  y.withStrategy (S.addStates y.hlStrategy none [x.hlStates.size]) >>= fun z => .ok (z.selectNext S)

/-- A clone starts with the flag of the original. -/
def cloneLowLevelState (l : Nat) : HighLevelExecutor σ :=
  ((x.withLowLevelState (x.positionOf l) (x.llStates.get l).apicEnabled).joinState
    (x.positionOf l) x.llStates.size).enterNode x.llStates.size (x.llStates.get l).topoIndex

/-- Termination up to the update of the selected state. -/
def removeLowLevelState (l : Nat) : HighLevelExecutor σ :=
  let y := (x.leaveState (x.positionOf l) l).leaveNode l
  { y with stateMap := y.stateMap.erase l }

def moveLowLevelState (l : Nat) (hlpc : UInt64) : Except Fault (HighLevelExecutor σ) :=
  x.getNextSegment (x.positionOf l) hlpc >>= fun r =>
    .ok ((r.2.leaveState (x.positionOf l) l).joinState r.1 l)

end HighLevelExecutor

inductive StreamEvent where
  | create (apicEnabled : Bool)
  | clone (state : Nat)
  | step (state : Nat) (hlpc : UInt64)
  | terminate (state : Nat)
  deriving DecidableEq

namespace HighLevelExecutor
variable (S : HighLevelStrategy σ) (order : List (UInt64 × Nat) → List (UInt64 × Nat))
def beforeUpdate (x : HighLevelExecutor σ) : StreamEvent → Except Fault (HighLevelExecutor σ)
  | .create apicEnabled => x.createState S apicEnabled
  | .clone l => if l ∈ x.stateMap then .ok (x.cloneLowLevelState l) else .error .unknownState
  | .step l hlpc =>
    if l ∈ x.stateMap then x.moveLowLevelState l hlpc else .error .unknownState
  | .terminate l =>
    if l ∈ x.stateMap then .ok (x.removeLowLevelState l) else .error .unknownState

def updates : StreamEvent → Bool
  | .create _ | .clone _ => false
  | .step _ _ | .terminate _ => true

def handle (fuel : Nat) (x : HighLevelExecutor σ) (e : StreamEvent) :
    Except Fault (HighLevelExecutor σ) :=
  x.beforeUpdate S e >>= fun y =>
    if updates e then y.tryUpdateSelectedState S order fuel else .ok y

def machine : Machine (HighLevelExecutor σ) StreamEvent where
  init x := x = initial S
  step x e y := ∃ fuel, x.handle S order fuel e = .ok y

end HighLevelExecutor
end Chef
