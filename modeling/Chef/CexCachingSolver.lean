import Chef.AssignmentEvaluator
import Chef.SolverQuery
import Chef.Foundations.SetTrie

namespace Chef
open Foundations
/-- The comparison of expressions, which depends on hash values. -/
structure ExprOrder where
  compare : Expr → Expr → Ordering
  eq_of_compare : ∀ a b, compare a b = .eq → a = b

mutual
def Expr.symbolicObjects : Expr → List KArray
  | .constant _ _ => []
  | .notOptimized src => src.symbolicObjects
  | .read root head index =>
    head.symbolicObjects ++ ((if root.isSymbolicArray then [root] else []) ++ index.symbolicObjects)
  | .select c t f => c.symbolicObjects ++ (t.symbolicObjects ++ f.symbolicObjects)
  | .concat l r => l.symbolicObjects ++ r.symbolicObjects
  | .extract e _ _ => e.symbolicObjects
  | .zext src _ => src.symbolicObjects
  | .sext src _ => src.symbolicObjects
  | .not e => e.symbolicObjects
  | .arithmetic _ l r => l.symbolicObjects ++ r.symbolicObjects
  | .compare _ l r => l.symbolicObjects ++ r.symbolicObjects

def UpdateNode.symbolicObjects : UpdateNode → List KArray
  | .null => []
  | .node index value next =>
    index.symbolicObjects ++ (value.symbolicObjects ++ next.symbolicObjects)

end

def findSymbolicObjects (key : List Expr) : List KArray :=
  (key.flatMap Expr.symbolicObjects).eraseDups

/-- It fails, finds no counterexample, or gives the bytes of one. -/
structure CexSolverImpl where
  computeInitialValues : Query → List KArray → Option (Option (List (List UInt8)))

inductive CexFault where
  | mustHaveAssignment
  | notConstant
  deriving DecidableEq

structure CexCachingSolver where
  cache : SetTrie Expr (Option Bindings)
  assignmentsTable : List Bindings

def Query.withFalse (q : Query) : Query := { q with expr := .constant 1 0 }

def Query.conditions (nodes : Store ConditionNode) (q : Query) : List Expr :=
  (((q.constraints.path nodes).getD []).map (ConditionNode.exprOf nodes)).reverse

def Bindings.satisfies (A : APInt) (a : Bindings) (key : List Expr) : Bool :=
  key.all fun e => (e.assign A a).isTrue

namespace CexCachingSolver
structure Setup where
  A : APInt
  order : ExprOrder
  nodes : Store ConditionNode
  cexCacheTryAll : Bool

def insertKey (order : ExprOrder) (e : Expr) : List Expr → List Expr
  | [] => [e]
  | k :: key =>
    match order.compare e k with
    | .lt => e :: k :: key
    | .eq => k :: key
    | .gt => k :: insertKey order e key

def keyOf (order : ExprOrder) (es : List Expr) : List Expr :=
  es.foldl (fun key e => insertKey order e key) []

variable (S : Setup)
def searchForAssignment (key : List Expr) (s : CexCachingSolver) : Option (Option Bindings) :=
  (s.cache.lookup S.order.compare key).or
    ((s.cache.findSuperset S.order.compare Option.isSome key).or (if S.cexCacheTryAll then
        (s.cache.findSubset S.order.compare Option.isNone key).or
          ((s.assignmentsTable.find? fun a => a.satisfies S.A key).map some)
      else
        s.cache.findSubset S.order.compare (fun a => a.all fun a => a.satisfies S.A key) key))

def lookupAssignment (q : Query) (s : CexCachingSolver) : List Expr × Option (Option Bindings) :=
  let key := keyOf S.order (q.conditions S.nodes)
  match createIsZero q.expr with
  | .constant w v =>
    if v % 2 ^ w = 0 then (key, some none) else (key, searchForAssignment S key s)
  | neg =>
    let key := insertKey S.order neg key
    (key, searchForAssignment S key s)

variable (solver : CexSolverImpl) (q : Query) (s : CexCachingSolver)
/-- An assignment that refutes the query, or that there is none. -/
def getAssignment : Option (Option Bindings) × CexCachingSolver :=
  match lookupAssignment S q s with
  | (_, some result) => (some result, s)
  | (key, none) =>
    let objects := findSymbolicObjects key
    match solver.computeInitialValues q objects with
    | none => (none, s)
    | some (some values) =>
      let binding := objects.zip values
      (some (some binding),
        { cache := s.cache.insert S.order.compare (some binding) key
          assignmentsTable :=
            if binding ∈ s.assignmentsTable then s.assignmentsTable
            else s.assignmentsTable ++ [binding] })
    | some none => (some none, { s with cache := s.cache.insert S.order.compare none key })

def decideBy (known : Validity) (s : CexCachingSolver) : Option Validity × CexCachingSolver :=
  match getAssignment S solver q s with
  | (none, s) => (none, s)
  | (some a, s) => (some (if a.isNone then known else .unknown), s)

def evaluateSome : Except CexFault (Option Nat × CexCachingSolver) :=
  match getAssignment S solver q.withFalse s with
  | (none, s) => .ok (none, s)
  | (some none, _) => .error .mustHaveAssignment
  | (some (some a), s) =>
    match q.expr.assign S.A a with
    | .constant w v => .ok (some (v % 2 ^ w), s)
    | _ => .error .notConstant

def computeValidity : Except CexFault (Option Validity × CexCachingSolver) :=
  (evaluateSome S solver q s).map fun
    | (none, s) => (none, s)
    | (some v, s) =>
      if v = 1 then decideBy S solver q .isTrue s else decideBy S solver q.negateExpr .isFalse s

/-- The experimental option is off. -/
def computeTruth : Option Bool × CexCachingSolver :=
  match getAssignment S solver q s with
  | (none, s) => (none, s)
  | (some a, s) => (some a.isNone, s)

def computeValue : Except CexFault (Option Nat × CexCachingSolver) := evaluateSome S solver q s

/-- Arrays that the assignment does not bind are zero. -/
def computeInitialValues (objects : List KArray)
    (s : CexCachingSolver) : Option (Option (List (List UInt8))) × CexCachingSolver :=
  match getAssignment S solver q s with
  | (none, s) => (none, s)
  | (some none, s) => (some none, s)
  | (some (some a), s) =>
    (some (some (objects.map fun array => (a.lookup array).getD (List.replicate array.size 0))), s)

end CexCachingSolver
end Chef
