import Chef.Foundations.ForkLog
import Chef.Foundations.Transition

namespace Chef
open Foundations
/-- What a writer of tree streams must not do. -/
inductive StreamFault where
  | bufferOverflow
  | endOfFile
  | unknownParent
  | unknownStream
  | outOfFuel
  deriving DecidableEq

/-- Of `buffer`, the first `bufferCount` bytes are in use. -/
structure TreeStreamWriter where
  buffer : List UInt8
  lastID : Nat
  bufferCount : Nat
  output : List UInt8
  ids : Nat
  deriving DecidableEq

namespace TreeStreamWriter
def bufferSize : Nat := 4 * 4096

/-- The bytes of a number of 32 bits in memory. -/
def word (n : Nat) : List UInt8 :=
  [UInt8.ofNat n, UInt8.ofNat (n / 2 ^ 8), UInt8.ofNat (n / 2 ^ 16), UInt8.ofNat (n / 2 ^ 24)]

def readWord : List UInt8 → Option (Nat × List UInt8)
  | a :: b :: c :: d :: rest =>
    some (a.toNat + b.toNat * 2 ^ 8 + c.toNat * 2 ^ 16 + d.toNat * 2 ^ 24, rest)
  | _ => none

def create (memory : List UInt8) : TreeStreamWriter := ⟨memory, 0, 0, [], 1⟩

variable (w : TreeStreamWriter)
def flushBuffer : TreeStreamWriter :=
  if w.bufferCount ≠ 0 then
    { w with
      output := w.output ++ word w.lastID ++ word w.bufferCount ++ w.buffer.take w.bufferCount
      bufferCount := 0 }
  else w

def openFrom (parent : Nat) : Nat × TreeStreamWriter :=
  let v := w.flushBuffer
  (v.ids, { v with
      output := v.output ++ word parent ++ word (v.ids ||| 2 ^ 31)
      ids := (v.ids + 1) % 2 ^ 32 })

def copyTo (buffer : List UInt8) (offset : Nat) (s : List UInt8) : List UInt8 :=
  buffer.take offset ++ s ++ buffer.drop (offset + s.length)

def writeThrough (id : Nat) (s : List UInt8) (size : Nat) : Except StreamFault TreeStreamWriter :=
  if w.bufferCount ≠ 0 then
    if w.bufferCount + size ≤ bufferSize then
      .ok { w with
        buffer := copyTo w.buffer w.bufferCount (s.take size)
        bufferCount := w.bufferCount + size }
    else .error .bufferOverflow
  else if size < bufferSize then
    .ok { w with lastID := id, buffer := copyTo w.buffer 0 (s.take size), bufferCount := size }
  else if size ≤ bufferSize then
    .ok { w with output := w.output ++ word id ++ word size ++ w.buffer.take size }
  else .error .bufferOverflow

def write (id : Nat) (s : List UInt8) : Except StreamFault TreeStreamWriter :=
  let size := s.length % 2 ^ 32
  let v :=
    if w.bufferCount ≠ 0 ∧ (id ≠ w.lastID ∨ bufferSize < (size + w.bufferCount) % 2 ^ 32) then
      w.flushBuffer
    else w
  v.writeThrough id s size

def followParents (parents : List (Nat × Nat)) :
    Nat → Nat → List Nat → Except StreamFault (List Nat)
  | 0, _, _ => .error .outOfFuel
  | fuel + 1, id, roots =>
    if id = 0 then .ok roots
    else
      match parents.lookup id with
      | none => .error .unknownParent
      | some parent => followParents parents fuel parent (id :: roots)

/-- The first pass of `readStream`: the streams on the path, in order. -/
def findRoots (streamID : Nat) : Nat → List UInt8 → List (Nat × Nat) → Except StreamFault (List Nat)
  | 0, _, _ => .error .outOfFuel
  | fuel + 1, file, parents =>
    match readWord file with
    | none => .error .endOfFile
    | some (id, file) =>
      match readWord file with
      | none => .error .endOfFile
      | some (tag, file) =>
        if tag.testBit 31 then
          let child := tag ^^^ 2 ^ 31
          if child = streamID then followParents parents (parents.length + 2) id [child]
          else
            let parents :=
              if (parents.lookup child).isSome then parents else (child, id) :: parents
            findRoots streamID fuel file parents
        else if tag ≤ file.length then findRoots streamID fuel (file.drop tag) parents
        else .error .endOfFile

def popRoot (roots : List Nat) (id child : Nat) : List Nat :=
  match roots with
  | root :: next :: rest => if id = root ∧ child = next then next :: rest else roots
  | _ => roots

/-- The second pass of `readStream`. Behind the end, `get` gives ones. -/
def replay : Nat → List UInt8 → List Nat → List UInt8 → Except StreamFault (List UInt8)
  | 0, _, _, _ => .error .outOfFuel
  | fuel + 1, file, roots, out =>
    match readWord file with
    | none => .ok out
    | some (id, file) =>
      match readWord file with
      | none => .ok out
      | some (tag, file) =>
        if tag.testBit 31 then replay fuel file (popRoot roots id (tag ^^^ 2 ^ 31)) out
        else
          let out :=
            if roots.head? = some id then
              out ++ file.take tag ++ List.replicate (tag - file.length) 0xff
            else out
          replay fuel (file.drop tag) roots out

def readStream (streamID : Nat) : Except StreamFault (List UInt8 × TreeStreamWriter) :=
  if 0 < streamID ∧ streamID < w.ids then
    let v := w.flushBuffer
    findRoots streamID (v.output.length + 1) v.output [] >>= fun roots =>
      replay (v.output.length + 1) v.output roots [] >>= fun out => .ok (out, v)
  else .error .unknownStream

end TreeStreamWriter

inductive TreeEvent where
  | openFrom (parent : Nat)
  | write (id : Nat) (s : List UInt8)
  | flush

namespace TreeStreamWriter
/-- Only opened streams are used. -/
def handle (w : TreeStreamWriter) : TreeEvent → Except StreamFault TreeStreamWriter
  | .openFrom parent => if parent < w.ids then .ok (w.openFrom parent).2 else .error .unknownStream
  | .write id s => if 0 < id ∧ id < w.ids then w.write id s else .error .unknownStream
  | .flush => .ok w.flushBuffer

structure Logged where
  writer : TreeStreamWriter
  history : List TreeEvent

def logged (s : Logged) (e : TreeEvent) : Except StreamFault Logged :=
  (s.writer.handle e).map fun w => ⟨w, e :: s.history⟩

def machine : Machine Logged TreeEvent where
  init s := ∃ memory, memory.length = bufferSize ∧ s = ⟨create memory, []⟩
  step s e s' := logged s e = .ok s'

end TreeStreamWriter
end Chef
