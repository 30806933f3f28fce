import Chef.Foundations.Store

namespace Chef
open Foundations
/-- The nodes on the way down to a position. -/
abbrev TopologicIndex := List Nat

inductive StrategyFault where
  | currentNotInSelector
  | stateAlreadyAdded
  | stateKilledTwice
  deriving DecidableEq

inductive Fault where
  | reservedKey
  | parentNotExpired
  | successorFoundTwice
  | successorNotFound
  | forkOnOwnPath
  | strategy (fault : StrategyFault)
  | unknownState
  | outOfFuel
  deriving DecidableEq

structure HighLevelPath where
  lowLevelStates : List Nat
  deriving DecidableEq, Inhabited

structure HighLevelPathSegment where
  hlpc : UInt64
  path : Nat
  parent : Option Nat
  children : List (UInt64 × Nat)
  lowLevelStates : List Nat
  deriving DecidableEq, Inhabited

structure HighLevelState where
  segment : Nat
  cursor : TopologicIndex
  deriving DecidableEq, Inhabited

structure LowLevelState where
  segment : Nat
  apicEnabled : Bool
  topoIndex : TopologicIndex
  deriving DecidableEq, Inhabited

/-- A place in the traces. Only `parent` owns the node it names. -/
structure TopologicNode where
  parent : Option Nat
  basicBlock : Int
  callIndex : Int
  isCallBase : Bool
  next : Option Nat
  down : Option Nat
  states : List Nat
  deriving DecidableEq, Inhabited

/-- The high-level executor. A path is named by its id. -/
structure HighLevelExecutor (σ : Type) where
  nodes : Store TopologicNode
  paths : Store HighLevelPath
  segments : Store HighLevelPathSegment
  hlStates : Store HighLevelState
  llStates : Store LowLevelState
  highLevelStates : List Nat
  stateMap : List Nat
  selectedState : Option Nat
  hlStrategy : σ
  deriving DecidableEq

namespace HighLevelExecutor
variable (x : HighLevelExecutor σ)
def segmentOf (h : Nat) : Nat := (x.hlStates.get h).segment

def pathOf (s : Nat) : Nat := (x.segments.get s).path

def id (h : Nat) : Nat := x.pathOf (x.segmentOf h)

def positionOf (l : Nat) : Nat := (x.llStates.get l).segment

/-- The keys that `llvm::DenseMap` keeps for its own buckets. -/
def reservedKey (k : UInt64) : Bool := k == 0xffffffffffffffff || k == 0xfffffffffffffffe

def createRootSegment : Nat × HighLevelExecutor σ := (x.segments.size, { x with
      paths := x.paths.alloc ⟨[]⟩
      segments := x.segments.alloc ⟨0, x.paths.size, none, [], []⟩ })

variable (segment : Nat)
/-- The first child continues the path, every other one starts one. -/
def addChild (nextHlpc : UInt64) : HighLevelExecutor σ :=
  let first := (x.segments.get segment).children.isEmpty
  let path := if first then x.pathOf segment else x.paths.size
  { x with
    paths := if first then x.paths else x.paths.alloc ⟨[]⟩
    segments := (x.segments.alloc ⟨nextHlpc, path, some segment, [], []⟩).modify segment
      fun s => { s with children := s.children ++ [(nextHlpc, x.segments.size)] } }

def getNextSegment (nextHlpc : UInt64) : Except Fault (Nat × HighLevelExecutor σ) :=
  if reservedKey nextHlpc then .error .reservedKey
  else
    match (x.segments.get segment).children.lookup nextHlpc with
    | some child => .ok (child, x)
    | none => .ok (x.segments.size, x.addChild segment nextHlpc)

variable (l : Nat)
def setAPICState (enabled : Bool) : HighLevelExecutor σ :=
  { x with llStates := x.llStates.modify l fun s => { s with apicEnabled := enabled } }

def statesOnPath (p : Nat) : List Nat := (x.paths.get p).lowLevelStates

def enterSegment : HighLevelExecutor σ := { x with
    llStates := x.llStates.modify l fun s => { s with segment := segment }
    segments := x.segments.modify segment
      fun s => { s with lowLevelStates := s.lowLevelStates.insert l }
    paths := x.paths.modify (x.pathOf segment)
      fun p => { p with lowLevelStates := p.lowLevelStates.insert l } }

/-- The first test of `joinState`: two states on a path stop interrupts. -/
def disableBoth : HighLevelExecutor σ :=
  match x.statesOnPath (x.pathOf segment) with
  | [other] => (x.setAPICState other false).setAPICState l false
  | _ => x

def joinState : HighLevelExecutor σ :=
  let y := (x.disableBoth segment l).enterSegment segment l
  if (y.statesOnPath (y.pathOf segment)).length = 1 then y.setAPICState l true else y

def exitSegment : HighLevelExecutor σ := { x with
    segments := x.segments.modify segment
      fun s => { s with lowLevelStates := s.lowLevelStates.erase l }
    paths := x.paths.modify (x.pathOf segment)
      fun p => { p with lowLevelStates := p.lowLevelStates.erase l } }

/-- The reference to the segment is not cleared here. -/
def leaveState : HighLevelExecutor σ :=
  let y := x.exitSegment segment l
  match y.statesOnPath (y.pathOf segment) with
  | [other] => y.setAPICState other true
  | _ => y

end HighLevelExecutor
end Chef
