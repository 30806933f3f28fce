import Chef.ConcolicForks

namespace Chef
namespace MemoryObject
variable (pointerWidth : Nat) (mo : MemoryObject)
def getBaseExpr : Expr := .constant pointerWidth mo.address

def getSizeExpr : Expr := .constant pointerWidth mo.size

def getOffsetExpr (pointer : Expr) : Expr := SubExpr.create pointer (mo.getBaseExpr pointerWidth)

def rangeCondition (address : Expr) : Expr :=
  AndExpr.create (UgeExpr.create address (mo.getBaseExpr pointerWidth)) (UltExpr.create address
      (AddExpr.create (mo.getBaseExpr pointerWidth) (mo.getSizeExpr pointerWidth)))

end MemoryObject

structure BoundObject where
  memoryObject : MemoryObject
  readOnly : Bool

def getMinBytesForWidth (width : Nat) : Nat := (width + 7) / 8

def lookupPrevious (objects : List BoundObject) (address : Nat) : Option BoundObject :=
  (objects.filter fun o => o.memoryObject.address ≤ address).getLast?

def resolveOne (objects : List BoundObject) (address : Nat) : Option BoundObject :=
  (lookupPrevious objects address).filter fun o =>
    (o.memoryObject.size = 0 ∧ address = o.memoryObject.address) ∨
      address - o.memoryObject.address < o.memoryObject.size

/-- The object at a base, if the offset is known to be a byte. -/
def resolveByteOffset (objects : List BoundObject) (base : Nat) (bits : Option BitsInfo) :
    Option (BoundObject × Bool) :=
  match bits with
  | some bits =>
    if bits.knownZeroBits &&& ~~~0xff#64 = ~~~0xff#64 then
      ((resolveOne objects base).filter fun o => o.memoryObject.address = base).map fun o =>
        (o, decide (o.memoryObject.size ≤ 1 <<< 8))
    else none
  | none => none

inductive MemoryOperation where
  | load (width : Nat)
  | store (value : Expr)

def MemoryOperation.width : MemoryOperation → Nat
  | .load width => width
  | .store value => value.width

structure ObjectAccess where
  object : BoundObject
  offset : Expr

namespace Executor
variable (A : APInt) (depth : Nat) (enableSpeculativeForking : Bool) (pointerWidth : Nat)
variable (x : Executor)
def resolveOneFast (objects : List BoundObject) (address : Expr) (width : Nat) :
    Except ExecutorFault (Option (BoundObject × Bool) × Executor) :=
  match address with
  | .constant _ value =>
    .ok ((resolveOne objects value).map fun o =>
      (o, decide (value - o.memoryObject.address + getMinBytesForWidth width ≤
        o.memoryObject.size)), x)
  | .arithmetic .add (.constant _ base) offset =>
    match x.exprSimplifier.simplify A depth offset with
    | some (r, exprSimplifier, calls) =>
      .ok (resolveByteOffset objects base r.2, ⟨exprSimplifier, x.states, x.bitsCalls ++ calls⟩)
    | none => .error .depthExceeded
  | _ => .ok (none, x)

def resolveConcretely (i : Nat) (objects : List BoundObject) (address : Expr)
    (width : Nat) (solver : Solver) (limits : ForkLimits) :
    Except ExecutorFault (BoundObject × Executor) := do
  let s ← x.state i
  match s.concolics with
  | none => .error .notConcrete
  | some ρ =>
    let (found, x) ← x.resolveOneFast A depth objects
      (.constant address.width (address.evaluate A ρ)) width
    match found with
    | some (o, true) => do
      let (branches, x) ← x.concolicFork A depth enableSpeculativeForking i
        (o.memoryObject.rangeCondition pointerWidth address) solver limits
      if branches.1 = some i then .ok (o, x) else .error .wrongBranch
    | _ => .error .unresolvedAddress

def concretizeFor (i : Nat) (mo : MemoryObject) (e : Expr) :
    Except ExecutorFault (Expr × Executor) :=
  if mo.isValueIgnored then x.toConstantSilent A depth i e else x.toConstant A depth i e

def access (i : Nat) (o : BoundObject) (operation : MemoryOperation)
    (offset : Expr) : Except ExecutorFault (Option ObjectAccess × Executor) :=
  match operation with
  | .load _ =>
    if o.memoryObject.isSharedConcrete && !offset.isConstant then do
      let (offset, x) ← x.concretizeFor A depth i o.memoryObject offset
      .ok (some ⟨o, offset⟩, x)
    else .ok (some ⟨o, offset⟩, x)
  | .store value =>
    if o.readOnly then .ok (none, x.terminate i)
    else if o.memoryObject.isSharedConcrete && !(offset.isConstant && value.isConstant) then do
      let (offset, x) ← x.concretizeFor A depth i o.memoryObject offset
      let (_, x) ← x.concretizeFor A depth i o.memoryObject value
      .ok (some ⟨o, offset⟩, x)
    else .ok (some ⟨o, offset⟩, x)

def locate (i : Nat) (objects : List BoundObject) (address : Expr) (width : Nat)
    (solver : Solver) (limits : ForkLimits) : Except ExecutorFault (BoundObject × Executor) := do
  let (found, x) ← x.resolveOneFast A depth objects address width
  match found with
  | some (o, true) => .ok (o, x)
  | _ =>
    x.resolveConcretely A depth enableSpeculativeForking pointerWidth i objects address width solver
      limits

/-- In concolic mode, up to the access itself. -/
def executeMemoryOperation (i : Nat) (objects : List BoundObject)
    (operation : MemoryOperation) (address : Expr) (solver : Solver) (limits : ForkLimits) :
    Except ExecutorFault (Option ObjectAccess × Executor) := do
  let (o, x) ← x.locate A depth enableSpeculativeForking pointerWidth i objects address
    operation.width solver limits
  x.access A depth i o operation (o.memoryObject.getOffsetExpr pointerWidth address)

end Executor
end Chef
