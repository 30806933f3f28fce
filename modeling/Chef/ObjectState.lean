import Chef.Expr
import Chef.Foundations.Transition

namespace Chef
open Foundations List
structure MemoryObject where
  id : Nat
  address : Nat
  size : Nat
  isUserSpecified : Bool
  isSharedConcrete : Bool
  isValueIgnored : Bool
  deriving DecidableEq

/-- The assertions of object states, address spaces and accesses. -/
inductive MemoryFault where
  | unflushedByte
  | invalidFlushMask
  | invalidUpdateWidth
  | sharedConcrete
  | constantOffset
  | valueOutOfRange
  | invalidWriteSize
  | nullExpr
  | readOnly
  | notRam
  | invalidWidth
  | typeMismatch
  | outOfBounds
  | activeState
  | inactiveState
  | nullNode
  | falseConstraint
  | unboundObject
  | ownedObject
  deriving DecidableEq

structure UpdateList where
  root : Option KArray
  head : UpdateNode

/-- An absent mask is all ones; a one in the flush mask is not flushed. -/
structure ObjectState where
  object : MemoryObject
  copyOnWriteOwner : Nat
  concreteMask : Option (Nat → Bool)
  concreteStore : Nat → UInt8
  flushMask : Option (Nat → Bool)
  knownSymbolics : Option (Nat → Option Expr)
  updates : UpdateList
  size : Nat
  readOnly : Bool

def setAt (f : Nat → α) (i : Nat) (x : α) : Nat → α := fun j => if j = i then x else f j

namespace ObjectState
variable (os : ObjectState) (offset : Nat)
def isByteConcrete : Bool :=
  match os.concreteMask with
  | none => true
  | some mask => mask offset

def isByteFlushed : Bool :=
  match os.flushMask with
  | none => false
  | some mask => !mask offset

def knownSymbolic : Option Expr :=
  match os.knownSymbolics with
  | none => none
  | some known => known offset

def markByteConcrete : ObjectState :=
  { os with concreteMask := os.concreteMask.map fun mask => setAt mask offset true }

def markByteSymbolic : ObjectState :=
  { os with concreteMask := some (setAt (os.concreteMask.getD fun _ => true) offset false) }

def markByteUnflushed : ObjectState :=
  { os with flushMask := os.flushMask.map fun mask => setAt mask offset true }

def setKnownSymbolic (value : Option Expr) : ObjectState := { os with
    knownSymbolics :=
      match os.knownSymbolics, value with
      | some known, _ => some (setAt known offset value)
      | none, some _ => some (setAt (fun _ => none) offset value)
      | none, none => none }

def extend (index value : Expr) : Except MemoryFault ObjectState :=
  if value.width = 8 then
    .ok { os with updates := ⟨os.updates.root, .node index value os.updates.head⟩ }
  else .error .invalidUpdateWidth

def unsetFlushMask : ObjectState :=
  { os with flushMask := os.flushMask.map fun mask => setAt mask offset false }

def storeConcrete (value : UInt8) : ObjectState :=
  let os := { os with concreteStore := setAt os.concreteStore offset value }
  ((os.setKnownSymbolic offset none).markByteConcrete offset).markByteUnflushed offset

def storeSymbolic (value : Expr) : ObjectState :=
  ((os.setKnownSymbolic offset (some value)).markByteSymbolic offset).markByteUnflushed offset

def flushByteForRead : Except MemoryFault ObjectState :=
  if os.isByteFlushed offset then .ok os
  else if os.isByteConcrete offset then
    (os.extend (.constant 32 offset) (.constant 8 (os.concreteStore offset).toNat)).map
      fun os => os.unsetFlushMask offset
  else
    match os.knownSymbolic offset with
    | none => .error .invalidFlushMask
    | some value => (os.extend (.constant 32 offset) value).map fun os => os.unsetFlushMask offset

def withFlushMask : ObjectState := { os with flushMask := some (os.flushMask.getD fun _ => true) }

def flushRangeForRead (rangeBase rangeSize : Nat) : Except MemoryFault ObjectState :=
  (range' rangeBase rangeSize).foldlM flushByteForRead os.withFlushMask

def flushByteForWrite : Except MemoryFault ObjectState :=
  if os.isByteFlushed offset then
    if os.isByteConcrete offset then .ok (os.markByteSymbolic offset)
    else if (os.knownSymbolic offset).isSome then .ok (os.setKnownSymbolic offset none)
    else .ok os
  else if os.isByteConcrete offset then
    (os.extend (.constant 32 offset) (.constant 8 (os.concreteStore offset).toNat)).map
      fun os => (os.markByteSymbolic offset).unsetFlushMask offset
  else
    match os.knownSymbolic offset with
    | none => .error .invalidFlushMask
    | some value =>
      (os.extend (.constant 32 offset) value).map
        fun os => (os.setKnownSymbolic offset none).unsetFlushMask offset

def flushRangeForWrite (rangeBase rangeSize : Nat) : Except MemoryFault ObjectState :=
  (range' rangeBase rangeSize).foldlM flushByteForWrite os.withFlushMask

end ObjectState

namespace UpdateNode
def writes : UpdateNode → List (Expr × Expr)
  | .null => []
  | .node index value next => next.writes ++ [(index, value)]

def extendAll (head : UpdateNode) (writes : List (Expr × Expr)) : UpdateNode :=
  writes.foldl (fun head w => .node w.1 w.2 head) head

end UpdateNode

/-- The oldest constant writes become contents. -/
def pullConstantWrites : List (Expr × Expr) → List UInt8 → List UInt8 × List (Expr × Expr)
  | (.constant w i, .constant w' v) :: writes, contents =>
    pullConstantWrites writes (contents.set (i % 2 ^ w) (UInt8.ofNat (v % 2 ^ w')))
  | writes, contents => (contents, writes)

/-- An object state, shared memory, and the number of the next array. -/
structure ObjectView where
  state : ObjectState
  host : Nat → UInt8
  nextArray : Nat

namespace ObjectView
variable (v : ObjectView)
def getUpdates : (KArray × UpdateNode) × ObjectView :=
  match v.state.updates.root with
  | some root => ((root, v.state.updates.head), v)
  | none =>
    let pulled := pullConstantWrites v.state.updates.head.writes (replicate v.state.size 0)
    let array := ⟨v.nextArray, v.state.size, pulled.1⟩
    let head := UpdateNode.null.extendAll pulled.2
    ((array, head), { v with
      state := { v.state with updates := ⟨some array, head⟩ }, nextArray := v.nextArray + 1 })

def isShared : Bool := v.state.object.isSharedConcrete

def read8 (b : ExprBuilder) (v : ObjectView) (offset : Nat) :
    Except MemoryFault (Expr × ObjectView) :=
  if v.isShared then
    .ok (.constant 8 (v.host (v.state.object.address + offset)).toNat, v)
  else if v.state.isByteConcrete offset then
    .ok (.constant 8 (v.state.concreteStore offset).toNat, v)
  else
    match v.state.knownSymbolic offset with
    | some value => .ok (value, v)
    | none =>
      if v.state.isByteFlushed offset then
        let (updates, v') := v.getUpdates
        .ok (b.read updates.1 updates.2 (.constant 32 offset), v')
      else .error .unflushedByte

def read8At (b : ExprBuilder) (v : ObjectView) (offset : Expr) :
    Except MemoryFault (Expr × ObjectView) :=
  if offset.isConstant then .error .constantOffset
  else if v.isShared then .error .sharedConcrete
  else
    (v.state.flushRangeForRead 0 v.state.size).map fun os =>
      let (updates, v') := { v with state := os }.getUpdates
      (b.read updates.1 updates.2 (b.zext offset 32), v')

def write8 (offset : Nat) (value : UInt8) : ObjectView :=
  if v.isShared then
    { v with host := setAt v.host (v.state.object.address + offset) value }
  else
    { v with state := v.state.storeConcrete offset value }

def write8Expr (offset : Nat) (value : Expr) : Except MemoryFault ObjectView :=
  match value with
  | .constant w c =>
    if w ≤ 8 then .ok (v.write8 offset (UInt8.ofNat (c % 2 ^ w))) else .error .valueOutOfRange
  | value =>
    if v.isShared then .error .sharedConcrete
    else .ok { v with state := v.state.storeSymbolic offset value }

def write8At (b : ExprBuilder) (v : ObjectView) (offset value : Expr) :
    Except MemoryFault ObjectView :=
  if offset.isConstant then .error .constantOffset
  else if v.isShared then .error .sharedConcrete
  else
    v.state.flushRangeForWrite 0 v.state.size >>= fun os =>
      (os.extend (b.zext offset 32) value).map fun os => { v with state := os }

end ObjectView

def byteIndex (littleEndian : Bool) (numBytes i : Nat) : Nat :=
  if littleEndian then i else numBytes - i - 1

namespace ObjectView
variable (b : ExprBuilder) (littleEndian : Bool)
def addByte (byte : Expr) (idx : Nat) (res : Option Expr) : Except MemoryFault (Option Expr) :=
  if idx = 0 then .ok (some byte)
  else
    match res with
    | none => .error .nullExpr
    | some res => .ok (some (b.concat byte res))

def readBytes (readByte : ObjectView → Nat → Except MemoryFault (Expr × ObjectView))
    (numBytes : Nat) (v : ObjectView) : Except MemoryFault (Option Expr × ObjectView) :=
  (range numBytes).foldlM (fun (res, v) i =>
    readByte v (byteIndex littleEndian numBytes i) >>= fun (byte, v') =>
      (addByte b byte (byteIndex littleEndian numBytes i) res).map fun res => (res, v'))
    (none, v)

variable (v : ObjectView)
def read (offset width : Nat) : Except MemoryFault (Option Expr × ObjectView) :=
  if width = 1 then
    (v.read8 b offset).map fun (byte, v') => (some (b.extract byte 0 1), v')
  else if width % 8 = 0 then
    readBytes b littleEndian (fun v idx => v.read8 b (offset + idx)) (width / 8) v
  else .error .invalidWidth

def readAt (offset : Expr) (width : Nat) : Except MemoryFault (Option Expr × ObjectView) :=
  match b.zext offset 32 with
  | .constant w c => if w ≤ 32 then v.read b littleEndian (c % 2 ^ w) width
    else .error .valueOutOfRange
  | offset =>
    if width = 1 then
      (v.read8At b offset).map fun (byte, v') => (some (b.extract byte 0 1), v')
    else if width % 8 = 0 then
      readBytes b littleEndian (fun v idx => v.read8At b (b.add offset (.constant 32 idx)))
        (width / 8) v
    else .error .invalidWidth

def writeConcrete (offset numBytes value : Nat) : ObjectView := (range numBytes).foldl (fun v i =>
    v.write8 (offset + byteIndex littleEndian numBytes i) (UInt8.ofNat (value / 2 ^ (8 * i)))) v

def writeBytes (offset : Nat) (value : Expr) : Except MemoryFault ObjectView :=
  if value.width = 1 then v.write8Expr offset (b.zext value 8)
  else if value.width % 8 = 0 then
    (range (value.width / 8)).foldlM (fun v i =>
      v.write8Expr (offset + byteIndex littleEndian (value.width / 8) i)
        (b.extract value (8 * i) 8)) v
  else .error .invalidWriteSize

def write (offset : Nat) (value : Expr) : Except MemoryFault ObjectView :=
  match value with
  | .constant w c =>
    if w ≤ 64 then
      if w = 1 ∨ w = 8 then .ok (v.write8 offset (UInt8.ofNat (c % 2 ^ w)))
      else if w = 16 ∨ w = 32 ∨ w = 64 then
        .ok (v.writeConcrete littleEndian offset (w / 8) (c % 2 ^ w))
      else .error .invalidWriteSize
    else v.writeBytes b littleEndian offset (.constant w c)
  | value => v.writeBytes b littleEndian offset value

def writeAt (offset value : Expr) : Except MemoryFault ObjectView :=
  match b.zext offset 32 with
  | .constant w c => if w ≤ 32 then v.write b littleEndian (c % 2 ^ w) value
    else .error .valueOutOfRange
  | offset =>
    if value.width = 1 then v.write8At b offset (b.zext value 8)
    else if value.width % 8 = 0 then
      (range (value.width / 8)).foldlM (fun v i =>
        v.write8At b (b.add offset (.constant 32 (byteIndex littleEndian (value.width / 8) i)))
          (b.extract value (8 * i) 8)) v
    else .error .invalidWriteSize

end ObjectView
end Chef
