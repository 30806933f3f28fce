import Chef.ExprEvaluate
import Chef.Foundations.SmtTerms

namespace Chef
open Foundations
/-- Conditionals, stores, or assertions about constants. -/
inductive ArrayMode where
  | ite | stores | asserts
  deriving DecidableEq

structure ArrayNames where
  name : KArray → String
  pointer : Nat → String
  pointer_injective : ∀ i j, pointer i = pointer j → i = j
  pointer_plain : ∀ i, '_' ∉ (pointer i).toList

namespace Z3Builder
/-- What `snprintf` leaves of a text in 256 characters. -/
def printed (text : String) : String := String.ofList (text.toList.take 255)

section
variable (N : ArrayNames) (root : KArray)
def arrayText : String := N.name root ++ "_" ++ N.pointer root.id

def byteText (i : Nat) : String := arrayText N root ++ "_" ++ i.repr

def constantValue (i : Nat) : SmtTerm := .bitVecVal 8 (root.constantValues.getD i 0).toNat

def getArrayValues : List SmtTerm := (List.range root.size).map fun i =>
    if root.isSymbolicArray then .const (printed (byteText N root i)) (.bitVec 8)
    else constantValue root i

def getReadForInitialArray (index : SmtTerm) (root : KArray) : SmtTerm :=
  (List.range root.size).foldl (fun tree i =>
      .ite (.eq index (.bitVecVal 32 i)) ((getArrayValues N root).getD i (.bitVecVal 8 0)) tree)
    (.bitVecVal 8 0)

/-- Constant values over an unknown array. -/
def storeValues (array : SmtTerm) : SmtTerm := (List.range root.size).foldl
    (fun result i => .store result (.bitVecVal 32 i) (constantValue root i)) array

def getArrayAssertion (array : SmtTerm) : SmtTerm := (List.range root.size).foldl (fun result i =>
      .connective .and result (.eq (.select array (.bitVecVal 32 i)) (constantValue root i)))
    (.boolVal true)

def arrayConst : SmtTerm := .const (printed (arrayText N root)) (.array 32 8)

end

def initializeArray (mode : ArrayMode) (root : KArray) (array : SmtTerm) : SmtTerm :=
  match mode with
  | .stores => storeValues root array
  | _ => array

variable (N : ArrayNames) (mode : ArrayMode)
def getInitialArray (root : KArray) : SmtTerm :=
  if root.isSymbolicArray then arrayConst N root
  else initializeArray mode root (arrayConst N root)

def makeArithmetic (kind : ArithmeticKind) (left right : SmtTerm) : SmtTerm :=
  match kind with
  | .add => .bvop .add left right
  | .sub => .bvop .sub left right
  | .mul => .bvop .mul left right
  | .udiv => .bvop .udiv left right
  | .sdiv => .bvop .sdiv left right
  | .urem => .bvop .urem left right
  | .srem => .bvop .srem left right
  | .and => if left.isBool then .connective .and left right else .bvop .and left right
  | .or => if left.isBool then .connective .or left right else .bvop .or left right
  | .xor => if left.isBool then .connective .xor left right else .bvop .xor left right
  | .shl => .bvop .shl left right
  | .lshr => .bvop .lshr left right
  | .ashr => .bvop .ashr left right

/-- Comparisons not in canonical form are not handled. -/
def makeCompare (kind : CmpKind) (left right : SmtTerm) : Option SmtTerm :=
  match kind with
  | .eq => some (.eq left right)
  | .ult => some (.bvrel .ult left right)
  | .ule => some (.bvrel .ule left right)
  | .slt => some (.bvrel .slt left right)
  | .sle => some (.bvrel .sle left right)
  | .ne | .ugt | .uge | .sgt | .sge => none

def makeBit (src : SmtTerm) (w : Nat) : SmtTerm := .ite src (.bitVecVal w 1) (.bitVecVal w 0)

mutual
/-- The term of an expression; a sort error leaves one without a value. -/
@[simp]
def makeExpr : Expr → Option SmtTerm
  | .constant w v => some (if w = 1 then .boolVal (v % 2 == 1) else .bitVecVal w v)
  | .notOptimized src => makeExpr src
  | .read root head index => do
    let index ← makeExpr index
    match mode with
    | .ite => getReadForArray index root head
    | _ => return .select (← getArrayForUpdate root head) index
  | .select c t f => do
    return .ite (← makeExpr c) (← makeExpr t) (← makeExpr f)
  | .concat l r => do
    return .concat (← makeExpr l) (← makeExpr r)
  | .extract e offset w => do
    let src ← makeExpr e
    if w = 1 then return .eq (.extract offset offset src) (.bitVecVal 1 1)
    else return .extract (offset + w - 1) offset src
  | .zext e w => do
    let src ← makeExpr e
    if src.isBool then return makeBit src w
    else return .zeroExtend (w - src.bvSize) src
  | .sext e w => do
    let src ← makeExpr e
    if src.isBool then return makeBit src w
    else return .signExtend (w - src.bvSize) src
  | .not e => do
    let src ← makeExpr e
    if src.isBool then return .not src
    else return .bvnot src
  | .arithmetic kind l r => do
    return makeArithmetic kind (← makeExpr l) (← makeExpr r)
  | .compare kind l r => do
    makeCompare kind (← makeExpr l) (← makeExpr r)

def getReadForArray (index : SmtTerm) (root : KArray) : UpdateNode → Option SmtTerm
  | .null => some (getReadForInitialArray N index root)
  | .node i v next => do
    return .ite (.eq index (← makeExpr i)) (← makeExpr v) (← getReadForArray index root next)

def getArrayForUpdate (root : KArray) : UpdateNode → Option SmtTerm
  | .null => some (getInitialArray N mode root)
  | .node i v next => do
    return .store (← getArrayForUpdate root next) (← makeExpr i) (← makeExpr v)

end

def getInitialRead (root : KArray) (index : Nat) : Option SmtTerm :=
  match mode with
  | .ite => (getArrayValues N root)[index]?
  | _ => some (.select (getInitialArray N mode root) (.bitVecVal 32 index))

end Z3Builder
end Chef
