import Chef.Foundations.SearchTree

namespace Chef
open Foundations
structure MemoryRange where
  start : BitVec 64
  size : BitVec 64
  deriving DecidableEq

def MemoryRange.lt (a b : MemoryRange) : Bool := decide (a.start + a.size ≤ b.start)

structure MemoryRegion where
  range : MemoryRange
  perms : BitVec 32
  type : String
  id : BitVec 64
  permanent : Bool
  deriving DecidableEq

abbrev MemoryMap := SearchTree MemoryRegion

namespace MemoryChecker
def any : BitVec 32 := BitVec.allOnes 32

/-- The size and the identifier that stand for any. -/
def unspecified : BitVec 64 := BitVec.allOnes 64

inductive AccessError where
  | negativeSize
  | notMapped
  | closest (region : MemoryRegion)
  | insufficientPermissions (region : MemoryRegion)
  deriving DecidableEq

inductive RevokeError where
  | negativeSize
  | notAllocated
  | overlapping (region : MemoryRegion)
  | wrongSize (region : MemoryRegion)
  | wrongPermissions (region : MemoryRegion)
  | wrongType (region : MemoryRegion)
  | wrongID (region : MemoryRegion)
  deriving DecidableEq

def lookupPrevious (range : MemoryRange) (m : MemoryMap) : Option MemoryRegion :=
  m.lookupPrevious MemoryRange.lt MemoryRegion.range range none

/-- A star at the end of a pattern stands for any characters. -/
def matchRegionType (pattern type : String) : Bool :=
  let p := pattern.toList
  let t := type.toList
  if p.isEmpty then true
  else if t.isEmpty then p.head? == some '*' && (p.tail.headD (Char.ofNat 0)) == Char.ofNat 0
  else if p.getLast? ≠ some '*' then p == t
  else t.take (p.length - 1) == p.take (p.length - 1)

/-- A region is not empty, does not wrap, and overlaps no other one. -/
def grantMemory (region : MemoryRegion) (m : MemoryMap) : MemoryMap :=
  let start := region.range.start
  let size := region.range.size
  if size = 0 ∨ start + size < start then m
  else
    match lookupPrevious region.range m with
    | some res =>
      if start < res.range.start + res.range.size then m
      else m.replace MemoryRange.lt MemoryRegion.range region
    | none => m.replace MemoryRange.lt MemoryRegion.range region

def revokeMismatches (range : MemoryRange) (perms : BitVec 32) (pattern : String) (id : BitVec 64)
    (res : MemoryRegion) : List RevokeError :=
  (if range.size ≠ unspecified ∧ res.range.size ≠ range.size then [.wrongSize res] else []) ++
  (if perms ≠ any ∧ res.perms ≠ perms then [.wrongPermissions res] else []) ++
  (if 0 < pattern.length ∧ ¬matchRegionType pattern res.type then [.wrongType res] else []) ++
  (if id ≠ unspecified ∧ res.id ≠ id then [.wrongID res] else [])

/-- The errors, none if the call returns true, and the map that is left. -/
def revokeMemory (range : MemoryRange) (perms : BitVec 32) (pattern : String) (id : BitVec 64)
    (m : MemoryMap) : List RevokeError × MemoryMap :=
  if range.size ≠ unspecified ∧ range.start + range.size < range.start then ([.negativeSize], m)
  else
    match lookupPrevious range m with
    | none => ([.notAllocated], m)
    | some res =>
      if res.range.start + res.range.size ≤ range.start then ([.notAllocated], m)
      else if res.range.start ≠ range.start then ([.overlapping res], m)
      else
        (revokeMismatches range perms pattern id res,
          m.remove MemoryRange.lt MemoryRegion.range range)

def matchesRegion (pattern : String) (id : BitVec 64) (region : MemoryRegion) : Bool :=
  decide (0 < region.type.length) && matchRegionType pattern region.type &&
    (id == unspecified || region.id == id)

/-- Matching regions are revoked one after the other. -/
def revokeMatching (pattern : String) (id : BitVec 64) : Nat → MemoryMap → MemoryMap
  | 0, m => m
  | n + 1, m =>
    match m.toList.find? (matchesRegion pattern id) with
    | none => m
    | some region =>
      revokeMatching pattern id n (revokeMemory region.range region.perms region.type region.id m).2

def findMemoryRegion (address : BitVec 64) (m : MemoryMap) : Option MemoryRange :=
  (lookupPrevious ⟨address, 1⟩ m).map MemoryRegion.range

/-- Only a pointer to the start of a region changes something. -/
def revokeMemoryByPointer (pointer : BitVec 64) (pattern : String) (m : MemoryMap) : MemoryMap :=
  match findMemoryRegion pointer m with
  | none => m
  | some range =>
    if range.start ≠ pointer then m
    else (revokeMemory range any pattern unspecified m).2

def accessError (start size : BitVec 64) (perms : BitVec 8) (m : MemoryMap) : Option AccessError :=
  if size ≠ unspecified ∧ start + size < start then some .negativeSize
  else
    match lookupPrevious ⟨start, size⟩ m with
    | none => some .notMapped
    | some res =>
      if res.range.start + res.range.size < start + size then some (.closest res)
      else if perms.setWidth 32 &&& res.perms ≠ perms.setWidth 32 then
        some (.insufficientPermissions res)
      else none

def checkMemoryAccess (checkMemoryErrors : Bool) (start size : BitVec 64) (perms : BitVec 8)
    (m : MemoryMap) : Bool :=
  !checkMemoryErrors || (accessError start size perms m).isNone

inductive CheckerOp where
  | grant (region : MemoryRegion)
  | revoke (range : MemoryRange) (perms : BitVec 32) (pattern : String) (id : BitVec 64)
  | revokeMatching (pattern : String) (id : BitVec 64)
  | revokeByPointer (pointer : BitVec 64) (pattern : String)

def perform (m : MemoryMap) : CheckerOp → MemoryMap
  | .grant region => grantMemory region m
  | .revoke range perms pattern id => (revokeMemory range perms pattern id m).2
  | .revokeMatching pattern id => MemoryChecker.revokeMatching pattern id m.toList.length m
  | .revokeByPointer pointer pattern => revokeMemoryByPointer pointer pattern m

def run (ops : List CheckerOp) : MemoryMap := ops.foldl perform .nil

end MemoryChecker
end Chef
