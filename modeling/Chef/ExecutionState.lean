import Chef.Constraints

namespace Chef
open Foundations
structure KFunction where
  id : Nat
  numRegisters : Nat
  deriving DecidableEq

structure StackFrame where
  caller : Option Nat
  kf : KFunction
  locals : List (Option Expr)
  cells : locals.length = kf.numRegisters

structure AddressSpace where
  cowKey : Nat
  objects : List (MemoryObject × Nat)

structure ExecutionState where
  active : Bool
  pc : Nat
  symbolics : List (Nat × Nat)
  stack : List StackFrame
  constraints : ConstraintManager
  addressSpace : AddressSpace
  cpuSystemObject : Nat
  memcache : Nat → Option (MemoryObject × Nat)

instance : Inhabited ObjectState :=
  ⟨⟨⟨0, 0, 0, false, false, false⟩, 0, none, fun _ => 0, none, none, ⟨none, .null⟩, 0, false⟩⟩

/-- What all states share. -/
structure Heap where
  objectStates : Store ObjectState
  host : Nat → UInt8
  nextArray : Nat
  conditions : Store ConditionNode

structure CpuObjects where
  cpuRegistersState : MemoryObject
  cpuSystemState : MemoryObject
  dirtyMask : MemoryObject
  commonStart : Nat
  commonEnd : Nat

namespace Heap
def view (h : Heap) (r : Nat) : ObjectView := ⟨h.objectStates.get r, h.host, h.nextArray⟩

def setView (h : Heap) (r : Nat) (v : ObjectView) : Heap := { h with
    objectStates := h.objectStates.modify r fun _ => v.state
    host := v.host
    nextArray := v.nextArray }

end Heap

namespace AddressSpace
def findObject (a : AddressSpace) (address : Nat) : Option (MemoryObject × Nat) :=
  a.objects.find? fun e => e.1.address == address

def replaceBinding (objects : List (MemoryObject × Nat)) (mo : MemoryObject) (r : Nat) :
    List (MemoryObject × Nat) :=
  match objects with
  | [] => [(mo, r)]
  | e :: rest =>
    if e.1.address = mo.address then (mo, r) :: rest
    else if mo.address < e.1.address then (mo, r) :: e :: rest
    else e :: replaceBinding rest mo r

end AddressSpace

def ramObjectSize : Nat := 128

namespace ExecutionState
variable (cpu : CpuObjects) (s : ExecutionState)
def memcacheGet (address : Nat) : Option (MemoryObject × Nat) :=
  s.memcache (address / ramObjectSize)

def memcachePut (address : Nat) (op : MemoryObject × Nat) : ExecutionState :=
  { s with memcache := setAt s.memcache (address / ramObjectSize) (some op) }

def addressSpaceChange (mo : MemoryObject) (newState : Nat) : ExecutionState :=
  if mo = cpu.cpuRegistersState then s
  else if mo = cpu.cpuSystemState then { s with cpuSystemObject := newState }
  else
    match s.memcacheGet mo.address with
    | some op => s.memcachePut mo.address (op.1, newState)
    | none => s

def rebind (mo : MemoryObject) (r : Nat) : ExecutionState := { s with
    addressSpace := ⟨s.addressSpace.cowKey,
      AddressSpace.replaceBinding s.addressSpace.objects mo r⟩ }

/-- Another owner's object state is copied. -/
def getWriteable (h : Heap) (s : ExecutionState) (mo : MemoryObject) (r : Nat) :
    Except MemoryFault (Nat × Heap × ExecutionState) :=
  let os := h.objectStates.get r
  if os.readOnly then .error .readOnly
  else if s.addressSpace.cowKey = os.copyOnWriteOwner then .ok (r, h, s)
  else
    let n := h.objectStates.size
    .ok (n, { h with objectStates :=
          h.objectStates.alloc { os with copyOnWriteOwner := s.addressSpace.cowKey } },
      (s.addressSpaceChange cpu mo n).rebind mo n)

end ExecutionState
end Chef
