import Chef.Foundations.KeyedGroups
import Chef.Foundations.Transition

namespace Chef
open Foundations
/-- `frame` names the call frame of the access. -/
structure MemoryOp where
  seqNo : Nat
  pc : Nat
  frame : Nat
  address : Nat
  value : Nat
  size : Nat
  isWrite : Bool
  deriving DecidableEq, Inhabited

/-- The accesses of each key, in the order of the keys. -/
abbrev MemSeqVectorMap := List (Nat × List MemoryOp)

inductive AnalyzerFault where
  | outOfRange
  | emptyVector
  | undeterminedCandidate
  deriving DecidableEq

structure Instrumentation where
  function : Nat
  hlpcUpdate : Nat
  opcodeRead : Nat
  deriving DecidableEq

structure MemoryOpAnalyzer where
  memOps : List MemoryOp
  minOpcodes : Int
  memopRange : Nat × Nat
  pointerSize : Nat
  functionOf : Nat → Nat

namespace MemoryOpAnalyzer
/-- The minimum as an unsigned number of 64 bits. -/
def sizeLimit (a : MemoryOpAnalyzer) : Nat := (a.minOpcodes % 2 ^ 64).toNat

/-- A signed product of 32 bits, compared as an unsigned number of 64. -/
def spanLimit (a : MemoryOpAnalyzer) : Nat := ((a.minOpcodes * 1024).bmod (2 ^ 32) % 2 ^ 64).toNat

def InRange (a : MemoryOpAnalyzer) : Prop :=
  a.memopRange.1 < a.memopRange.2 → a.memopRange.2 ≤ a.memOps.length

instance (a : MemoryOpAnalyzer) : Decidable a.InRange := inferInstanceAs (Decidable (_ → _))

section
variable (a : MemoryOpAnalyzer)
def rangeOps : List MemoryOp :=
  (a.memOps.drop a.memopRange.1).take (a.memopRange.2 - a.memopRange.1)

def loop (body : β → MemoryOp → β) (init : β) : Except AnalyzerFault β :=
  if a.InRange then .ok (a.rangeOps.foldl body init) else .error .outOfRange

def Updates (back op : MemoryOp) : Prop := ¬(op.value ≤ back.value ∨ op.frame ≠ back.frame)

instance : DecidableRel Updates := fun _ _ => inferInstanceAs (Decidable (¬_))

def addUpdate (g : Grouping Nat MemoryOp) (op : MemoryOp) : Grouping Nat MemoryOp :=
  if op.isWrite && op.size == a.pointerSize then g.add MemoryOp.address Updates op else g

/-- Enough updates, by no more than a kilobyte for each opcode. -/
def isHLPCPattern (items : List MemoryOp) : Bool :=
  match items.head?, items.getLast? with
  | some front, some back =>
    !(items.length < a.sizeLimit) && !(a.spanLimit < back.value - front.value)
  | _, _ => !(items.length < a.sizeLimit)

def computeCandidateHLPCUpdates : Except AnalyzerFault (Bool × MemSeqVectorMap) :=
  a.loop a.addUpdate ⟨[], []⟩ >>= fun g =>
    if g.groups.isEmpty then .ok (false, [])
    else
      let candidateHlpcs := g.groups.filter fun e => a.isHLPCPattern e.2
      .ok (!candidateHlpcs.isEmpty, candidateHlpcs)

def Advances (back op : MemoryOp) : Prop := ¬(op.address ≤ back.address ∨ op.frame ≠ back.frame)

instance : DecidableRel Advances := fun _ _ => inferInstanceAs (Decidable (¬_))

def isRead (range : Nat × Nat) (csf : Nat) (op : MemoryOp) : Bool :=
  !op.isWrite && op.frame == csf && !(op.address < range.1 || range.2 < op.address)

def addRead (range : Nat × Nat) (csf : Nat) (g : Grouping Nat MemoryOp) (op : MemoryOp) :
    Grouping Nat MemoryOp :=
  if isRead range csf op then g.add MemoryOp.pc Advances op else g

def computeCandidateHLPCReads (range : Nat × Nat) (csf : Nat) :
    Except AnalyzerFault (Bool × MemSeqVectorMap) :=
  a.loop (addRead range csf) ⟨[], []⟩ >>= fun g =>
    if g.groups.isEmpty then .ok (false, [])
    else
      let candidatePcs := g.groups.filter fun e => !(e.2.length < a.sizeLimit)
      .ok (!candidatePcs.isEmpty, candidatePcs)

end

abbrev BufferSearch := Option (Option (Nat × List MemoryOp) × MemSeqVectorMap)

def valueRange (items : List MemoryOp) : Except AnalyzerFault ((Nat × Nat) × Nat) :=
  match items.head?, items.getLast? with
  | some front, some back => .ok ((front.value, back.value), front.frame)
  | _, _ => .error .emptyVector

def findBuffers (a : MemoryOpAnalyzer) : MemSeqVectorMap → Option (Nat × List MemoryOp) →
    MemSeqVectorMap → Except AnalyzerFault BufferSearch
  | [], hlpc, instrumentationPcs => .ok (some (hlpc, instrumentationPcs))
  | e :: rest, hlpc, instrumentationPcs =>
    valueRange e.2 >>= fun r =>
      a.computeCandidateHLPCReads r.1 r.2 >>= fun reads =>
        if reads.2.isEmpty then a.findBuffers rest hlpc instrumentationPcs
        else if instrumentationPcs.isEmpty then a.findBuffers rest (some e) reads.2
        else .ok none

def instrument (hlpc frame : Nat) (instrumentationPcs : MemSeqVectorMap) (i : Instrumentation)
    (op : MemoryOp) : Instrumentation :=
  if op.frame ≠ frame then i
  else
    let i :=
      if i.hlpcUpdate = 0 && op.isWrite && op.address == hlpc then { i with hlpcUpdate := op.pc }
      else i
    if i.opcodeRead = 0 && !op.isWrite && (instrumentationPcs.lookup op.pc).isSome then
      { i with opcodeRead := op.pc }
    else i

def detect (a : MemoryOpAnalyzer) (hlpc : Option (Nat × List MemoryOp))
    (instrumentationPcs : MemSeqVectorMap) : Except AnalyzerFault (Bool × Instrumentation) :=
  match hlpc with
  | none => .error .undeterminedCandidate
  | some e =>
    match e.2.head? with
    | none => .error .emptyVector
    | some front =>
      let i := a.memOps.foldl (instrument e.1 front.frame instrumentationPcs)
        ⟨a.functionOf front.frame, 0, 0⟩
      .ok (i.hlpcUpdate ≠ 0 && i.opcodeRead ≠ 0, i)

def analyze (a : MemoryOpAnalyzer) : Except AnalyzerFault (Bool × Instrumentation) :=
  a.computeCandidateHLPCUpdates >>= fun updates =>
    if updates.1 then
      a.findBuffers updates.2 none [] >>= fun found =>
        match found with
        | none => .ok (false, ⟨0, 0, 0⟩)
        | some r => a.detect r.1 r.2
    else .ok (false, ⟨0, 0, 0⟩)

end MemoryOpAnalyzer
end Chef
