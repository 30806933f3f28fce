import Chef.SolverQuery
import Chef.Foundations.StackSearch

namespace Chef
open Foundations
structure ReadExpr where
  root : KArray
  head : UpdateNode
  index : Expr

def UpdateNode.exprs : UpdateNode → List Expr
  | .null => []
  | .node index value next => index :: value :: next.exprs

mutual
def Expr.subs : Expr → List Expr
  | .constant w v => [.constant w v]
  | .notOptimized src => .notOptimized src :: src.subs
  | .read root head index => .read root head index :: (index.subs ++ head.subs)
  | .select c t f => .select c t f :: (c.subs ++ (t.subs ++ f.subs))
  | .concat l r => .concat l r :: (l.subs ++ r.subs)
  | .extract e offset w => .extract e offset w :: e.subs
  | .zext src w => .zext src w :: src.subs
  | .sext src w => .sext src w :: src.subs
  | .not e => .not e :: e.subs
  | .arithmetic kind l r => .arithmetic kind l r :: (l.subs ++ r.subs)
  | .compare kind l r => .compare kind l r :: (l.subs ++ r.subs)

def UpdateNode.subs : UpdateNode → List Expr
  | .null => []
  | .node index value next => index.subs ++ (value.subs ++ next.subs)

end

structure FoundReads where
  results : List ReadExpr
  updates : List UpdateNode

def expandReads (visitUpdates : Bool) (top : Expr) (t : FoundReads) : List Expr × FoundReads :=
  match top with
  | .read root head index =>
    let t := { t with results := t.results ++ [⟨root, head, index⟩] }
    if visitUpdates && !decide (head ∈ t.updates) then
      (index :: head.exprs, { t with updates := head :: t.updates })
    else ([index], t)
  | e => (e.operands, t)

/-- Each expression is on the stack at most once. -/
def findReads (e : Expr) (visitUpdates : Bool) : Option (List ReadExpr) :=
  (Search.run Expr.isConstant (expandReads visitUpdates) (e.subs.length + 1)
    (Search.visit Expr.isConstant ⟨[], [], ⟨[], []⟩⟩ e)).map fun s => s.extra.results

namespace DenseSet
def add (s b : List Nat) : Bool × List Nat :=
  b.foldl (fun r x => if r.1 || !r.2.contains x then (true, r.2.insert x) else r) (false, s)

def intersects (s b : List Nat) : Bool := s.any fun x => b.contains x

end DenseSet

/-- The cells that an expression reads: elements, or whole arrays. -/
structure IndependentElementSet where
  elements : List (KArray × List Nat)
  wholeObjects : List KArray

namespace IndependentElementSet
variable (s : IndependentElementSet)
def setElements (array : KArray) (dis : List Nat) : IndependentElementSet :=
  { s with elements := s.elements.map fun e => if e.1 = array then (e.1, dis) else e }

def addWhole (array : KArray) : IndependentElementSet where
  elements := s.elements.filter fun e => e.1 ≠ array
  wholeObjects := s.wholeObjects.insert array

/-- Reads of a constant array without updates do not alias. -/
def addRead (re : ReadExpr) : IndependentElementSet :=
  if !re.root.isSymbolicArray && decide (re.head = .null) then s
  else if re.root ∈ s.wholeObjects then s
  else
    match re.index with
    | .constant w v =>
      match s.elements.lookup re.root with
      | none => { s with elements := s.elements ++ [(re.root, [v % 2 ^ w % 2 ^ 32])] }
      | some dis => s.setElements re.root (dis.insert (v % 2 ^ w % 2 ^ 32))
    | _ => s.addWhole re.root

def ofExpr (e : Expr) : Option IndependentElementSet :=
  (findReads e true).map fun reads => reads.foldl addRead ⟨[], []⟩

def intersects (s b : IndependentElementSet) : Bool := s.wholeObjects.any (fun array =>
    b.wholeObjects.contains array || (b.elements.lookup array).isSome) ||
  s.elements.any fun e =>
    b.wholeObjects.contains e.1 ||
      match b.elements.lookup e.1 with
      | none => false
      | some dis => DenseSet.intersects e.2 dis

def includeWhole (r : Bool × IndependentElementSet) (array : KArray) :
    Bool × IndependentElementSet :=
  if (r.2.elements.lookup array).isSome then (true, r.2.addWhole array)
  else if array ∈ r.2.wholeObjects then r
  else (true, { r.2 with wholeObjects := r.2.wholeObjects.insert array })

def includeElements (r : Bool × IndependentElementSet) (e : KArray × List Nat) :
    Bool × IndependentElementSet :=
  if e.1 ∈ r.2.wholeObjects then r
  else
    match r.2.elements.lookup e.1 with
    | none => (true, { r.2 with elements := r.2.elements ++ [e] })
    | some dis =>
      if (DenseSet.add dis e.2).1 then (true, r.2.setElements e.1 (DenseSet.add dis e.2).2)
      else r

def add (s b : IndependentElementSet) : Bool × IndependentElementSet :=
  b.elements.foldl includeElements (b.wholeObjects.foldl includeWhole (false, s))

end IndependentElementSet

structure Sweep where
  eltsClosure : IndependentElementSet
  done : Bool
  result : List Expr
  newWorklist : List (Expr × IndependentElementSet)

def Sweep.step (r : Sweep) (it : Expr × IndependentElementSet) : Sweep :=
  if it.2.intersects r.eltsClosure then
    { r with
      eltsClosure := (r.eltsClosure.add it.2).2
      done := r.done && !(r.eltsClosure.add it.2).1
      result := r.result ++ [it.1] }
  else { r with newWorklist := r.newWorklist ++ [it] }

/-- The loop ends with a sweep that does not change the closure. -/
def closeConstraints : Nat → IndependentElementSet → List (Expr × IndependentElementSet) →
    List Expr → Option (IndependentElementSet × List Expr)
  | 0, _, _, _ => none
  | fuel + 1, eltsClosure, worklist, result =>
    let r := worklist.foldl Sweep.step ⟨eltsClosure, true, result, []⟩
    if r.done then some (r.eltsClosure, r.result)
    else closeConstraints fuel r.eltsClosure r.newWorklist r.result

def getIndependentConstraints (constraints : List Expr) (expr : Expr) :
    Option (IndependentElementSet × List Expr) :=
  IndependentElementSet.ofExpr expr >>= fun eltsClosure =>
    constraints.mapM (fun c => (IndependentElementSet.ofExpr c).map fun s => (c, s)) >>=
      fun worklist => closeConstraints (worklist.length + 1) eltsClosure worklist []

namespace ConstraintManager
def constraints (nodes : Store ConditionNode) (cm : ConstraintManager) : Option (List Expr) :=
  (cm.path nodes).map fun l => l.reverse.map (ConditionNode.exprOf nodes)

def ofConstraints (alive : Nat → Bool) (nodes : Store ConditionNode) (cs : List Expr) :
    Except MemoryFault (ConstraintManager × Store ConditionNode) :=
  (cs.foldlM (fun r c => addConstraint alive c r.1 r.2) (nodes.size, nodes.alloc default)).map
    fun r => (⟨nodes.size, r.1⟩, r.2)

end ConstraintManager

namespace IndependentSolver
variable (alive : Nat → Bool) (nodes : Store ConditionNode)
def independentQuery (query : Query) : Option (Except MemoryFault (Query × Store ConditionNode)) :=
  query.constraints.constraints nodes >>= fun constraints =>
    (getIndependentConstraints constraints query.expr).map fun r =>
      (ConstraintManager.ofConstraints alive nodes r.2).map fun tmp => (⟨tmp.1, query.expr⟩, tmp.2)

def compute (solver : Store ConditionNode → Query → Option α) (query : Query) :
    Option (Except MemoryFault (Option α)) :=
  (independentQuery alive nodes query).map fun q => q.map fun r => solver r.2 r.1

def computeValidity (solver : Store ConditionNode → Query → Option Validity) (query : Query) :
    Option (Except MemoryFault (Option Validity)) :=
  compute alive nodes solver query

def computeTruth (solver : Store ConditionNode → Query → Option Bool) (query : Query) :
    Option (Except MemoryFault (Option Bool)) :=
  compute alive nodes solver query

def computeValue (solver : Store ConditionNode → Query → Option Expr) (query : Query) :
    Option (Except MemoryFault (Option Expr)) :=
  compute alive nodes solver query

end IndependentSolver
end Chef
