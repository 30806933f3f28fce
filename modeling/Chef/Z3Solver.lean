import Chef.SolverQuery
import Chef.Z3Builder
import Chef.Foundations.SmtProblems

namespace Chef
open Foundations ConditionNode
structure CacheFrame where
  exprs : List (Expr × SmtTerm)
  arrays : List (KArray × SmtTerm)
  updates : List ((KArray × UpdateNode) × SmtTerm)
  arrayVariables : List (KArray × List SmtTerm)
  reads : List ((SmtTerm × KArray × UpdateNode) × SmtTerm)

def CacheFrame.empty : CacheFrame := ⟨[], [], [], [], []⟩

/-- The scopes of the solver and frames of the cache, innermost first. -/
structure Z3Session where
  scope : List SmtTerm
  outer : List (List SmtTerm)
  incremental : Bool
  frame : CacheFrame
  saved : List CacheFrame

def unwind : Nat → α → List α → Option (α × List α)
  | 0, top, below => some (top, below)
  | _ + 1, _, [] => none
  | n + 1, _, top :: below => unwind n top below

/-- Code that translates, and fails on a kind that is not handled. -/
abbrev Z3Action (α : Type) := StateT Z3Session Option α

namespace Z3Session
def initial (incremental : Bool) : Z3Session := ⟨[], [], incremental, .empty, []⟩

def assertions (s : Z3Session) : List SmtTerm := s.scope ++ s.outer.flatten

def add (t : SmtTerm) (s : Z3Session) : Z3Session := { s with scope := t :: s.scope }

def push (s : Z3Session) : Z3Session := { s with
    scope := []
    outer := s.scope :: s.outer
    saved := if s.incremental then s.frame :: s.saved else s.saved }

def pop (n : Nat) (s : Z3Session) : Option Z3Session := do
  let (scope, outer) ← unwind n s.scope s.outer
  let (frame, saved) ← if s.incremental then unwind n s.frame s.saved else some (.empty, s.saved)
  return { s with scope, outer, frame, saved }

def reset (s : Z3Session) : Z3Session := initial s.incremental

/-- Terms are looked up in the caches, and kept there. -/
def findOrMake (find : CacheFrame → Option α) (insert : α → CacheFrame → CacheFrame)
    (make : Z3Action α) : Z3Action α := do
  match find (← get).frame with
  | some result => return result
  | none =>
    let result ← make
    modify fun s => { s with frame := insert result s.frame }
    return result

def findOrMakeExpr (e : Expr) (make : Z3Action SmtTerm) : Z3Action SmtTerm :=
  findOrMake (fun f => f.exprs.lookup e) (fun t f => { f with exprs := (e, t) :: f.exprs }) make

def findOrMakeArray (root : KArray) (make : Z3Action SmtTerm) : Z3Action SmtTerm :=
  findOrMake (fun f => f.arrays.lookup root) (fun t f => { f with arrays := (root, t) :: f.arrays })
    make

def findOrMakeUpdate (root : KArray) (un : UpdateNode) (make : Z3Action SmtTerm) :
    Z3Action SmtTerm :=
  findOrMake (fun f => f.updates.lookup (root, un))
    (fun t f => { f with updates := ((root, un), t) :: f.updates }) make

def findOrMakeVariables (root : KArray) (make : Z3Action (List SmtTerm)) :
    Z3Action (List SmtTerm) :=
  findOrMake (fun f => f.arrayVariables.lookup root)
    (fun t f => { f with arrayVariables := (root, t) :: f.arrayVariables }) make

def findOrMakeRead (index : SmtTerm) (root : KArray) (un : UpdateNode)
    (make : Z3Action SmtTerm) : Z3Action SmtTerm :=
  findOrMake (fun f => f.reads.lookup (index, root, un))
    (fun t f => { f with reads := ((index, root, un), t) :: f.reads }) make

/-- Constant values are stored, or asserted in the innermost scope. -/
def initializeArray (mode : ArrayMode) (root : KArray) (array : SmtTerm) : Z3Action SmtTerm :=
  match mode with
  | .stores => return Z3Builder.storeValues root array
  | .asserts => do
    modify (add (Z3Builder.getArrayAssertion root array))
    return array
  | .ite => return array

variable (N : ArrayNames) (mode : ArrayMode)
def getInitialArray (root : KArray) : Z3Action SmtTerm := findOrMakeArray root
    (if root.isSymbolicArray then return Z3Builder.arrayConst N root
    else initializeArray mode root (Z3Builder.arrayConst N root))

def getArrayValues (root : KArray) : Z3Action (List SmtTerm) :=
  findOrMakeVariables root (return Z3Builder.getArrayValues N root)

def getReadForInitialArray (index : SmtTerm) (root : KArray) : Z3Action SmtTerm := do
  let values ← getArrayValues N root
  return (List.range root.size).foldl
    (fun tree i => .ite (.eq index (.bitVecVal 32 i)) (values.getD i (.bitVecVal 8 0)) tree)
    (.bitVecVal 8 0)

mutual
def getOrMakeExpr : Expr → Z3Action SmtTerm
  | .constant w v => return if w = 1 then .boolVal (v % 2 == 1) else .bitVecVal w v
  | .notOptimized src => findOrMakeExpr (.notOptimized src) (getOrMakeExpr src)
  | .read root head index => findOrMakeExpr (.read root head index) (match mode with
    | .ite => do
      let index ← getOrMakeExpr index
      getReadForArray index root head
    | _ => do
      let array ← getArrayForUpdate root head
      let index ← getOrMakeExpr index
      return .select array index)
  | .select c t f => findOrMakeExpr (.select c t f) do
    let cond ← getOrMakeExpr c
    let trueExpr ← getOrMakeExpr t
    let falseExpr ← getOrMakeExpr f
    return .ite cond trueExpr falseExpr
  | .concat l r => findOrMakeExpr (.concat l r) do
    let right ← getOrMakeExpr r
    let left ← getOrMakeExpr l
    return .concat left right
  | .extract e offset w => findOrMakeExpr (.extract e offset w) do
    let src ← getOrMakeExpr e
    return if w = 1 then .eq (.extract offset offset src) (.bitVecVal 1 1)
      else .extract (offset + w - 1) offset src
  | .zext e w => findOrMakeExpr (.zext e w) do
    let src ← getOrMakeExpr e
    return if src.isBool then Z3Builder.makeBit src w else .zeroExtend (w - src.bvSize) src
  | .sext e w => findOrMakeExpr (.sext e w) do
    let src ← getOrMakeExpr e
    return if src.isBool then Z3Builder.makeBit src w else .signExtend (w - src.bvSize) src
  | .not e => findOrMakeExpr (.not e) do
    let src ← getOrMakeExpr e
    return if src.isBool then .not src else .bvnot src
  | .arithmetic kind l r => findOrMakeExpr (.arithmetic kind l r) do
    let left ← getOrMakeExpr l
    let right ← getOrMakeExpr r
    return Z3Builder.makeArithmetic kind left right
  | .compare kind l r => findOrMakeExpr (.compare kind l r) do
    let left ← getOrMakeExpr l
    let right ← getOrMakeExpr r
    StateT.lift (Z3Builder.makeCompare kind left right)

def getReadForArray (index : SmtTerm) (root : KArray) : UpdateNode → Z3Action SmtTerm
  | .null => findOrMakeRead index root .null (getReadForInitialArray N index root)
  | .node i v next => findOrMakeRead index root (.node i v next) do
    let updateIndex ← getOrMakeExpr i
    let value ← getOrMakeExpr v
    let tree ← getReadForArray index root next
    return .ite (.eq index updateIndex) value tree

def getArrayForUpdate (root : KArray) : UpdateNode → Z3Action SmtTerm
  | .null => getInitialArray N mode root
  | .node i v next => findOrMakeUpdate root (.node i v next) do
    let array ← getArrayForUpdate root next
    let index ← getOrMakeExpr i
    let value ← getOrMakeExpr v
    return .store array index value

end

def construct (e : Expr) : Z3Action SmtTerm := getOrMakeExpr N mode e

def getInitialRead (root : KArray) (index : Nat) : Z3Action SmtTerm := do
  match mode with
  | .ite =>
    let values ← getArrayValues N root
    StateT.lift values[index]?
  | _ =>
    let array ← getInitialArray N mode root
    return .select array (.bitVecVal 32 index)

/-- The bytes are read back; the values of the model are left out. -/
def extractModel (objects : List KArray) : Z3Action Unit :=
  objects.forM fun array => (List.range array.size).forM fun offset => do
    let _ ← getInitialRead N mode array offset

end Z3Session

open Z3Session
def ConditionNode.depthFrom (nodes : Store ConditionNode) : Nat → Nat → Nat
  | 0, _ => 0
  | fuel + 1, n =>
    match (nodes.get n).parent with
    | none => 0
    | some p => depthFrom nodes fuel p + 1

def ConditionNode.depth (nodes : Store ConditionNode) (n : Nat) : Nat := depthFrom nodes (n + 1) n

inductive CheckResult where
  | unknown | unsat | sat
  deriving DecidableEq

/-- A query, the wanted objects, and the answer of the solver. -/
structure SolverRequest where
  query : Query
  objects : List KArray
  result : CheckResult

/-- The strategies' own parts. A check leaves the posed problem. -/
structure Z3BaseSolver (σ : Type) where
  start : σ
  check : Query → σ → Option (List SmtTerm × σ)
  extractModel : List KArray → σ → Option σ
  postCheck : σ → Option σ

namespace Z3BaseSolver
def computeInitialValues (impl : Z3BaseSolver σ) (s : σ) (r : SolverRequest) : Option σ := do
  let (_, s) ← impl.check r.query s
  match r.result with
  | .unknown => impl.postCheck s
  | .unsat => impl.postCheck s
  | .sat => impl.postCheck (← impl.extractModel r.objects s)

def poses (impl : Z3BaseSolver σ) (requests : List SolverRequest) (q : Query) :
    Option (List SmtTerm) := do
  let s ← requests.foldlM impl.computeInitialValues impl.start
  let (problem, _) ← impl.check q s
  return problem

end Z3BaseSolver

variable (N : ArrayNames) (mode : ArrayMode) (nodes : Store ConditionNode)
structure Z3StackSolver where
  session : Z3Session
  lastConstraints : List Nat

namespace Z3StackSolver
def skipCommon : List Nat → List Nat → List Nat × List Nat
  | n :: cur, m :: last => if n = m then skipCommon cur last else (n :: cur, m :: last)
  | cur, last => (cur, last)

def createBuilderCache (mode : ArrayMode) : Z3Session :=
  match mode with
  | .ite => .initial false
  | .stores => .initial true
  | .asserts => .initial true

def addConstraint (s : Z3Session) (n : Nat) : Option Z3Session := do
  let (t, s) ← (construct N mode (exprOf nodes n)).run s.push
  return s.add t

/-- The scopes of constraints that are left over are popped. -/
def popUnused (s : Z3StackSolver) : List Nat → Option Z3Session
  | [] => some s.session
  | n :: _ => s.session.pop (1 + depth nodes (s.lastConstraints.getLastD 0) - depth nodes n)

def check (q : Query) (s : Z3StackSolver) : Option (List SmtTerm × Z3StackSolver) := do
  let curConstraints ← q.constraints.path nodes
  let (cur, last) := skipCommon curConstraints s.lastConstraints
  let session ← popUnused nodes s last
  let session ← cur.foldlM (addConstraint N mode nodes) session
  let (t, session) ← (construct N mode q.expr).run session.push
  let session := session.add (.not t)
  return (session.assertions, ⟨session, curConstraints⟩)

def extractModel (objects : List KArray) (s : Z3StackSolver) : Option Z3StackSolver := do
  let (_, session) ← (Z3Session.extractModel N mode objects).run s.session
  return { s with session }

def postCheck (s : Z3StackSolver) : Option Z3StackSolver := do
  return { s with session := ← s.session.pop 1 }

def solver : Z3BaseSolver Z3StackSolver where
  start := ⟨createBuilderCache mode, []⟩
  check := check N mode nodes
  extractModel := extractModel N mode
  postCheck := postCheck

end Z3StackSolver

namespace Z3ResetSolver
def addConstraint (s : Z3Session) (n : Nat) : Option Z3Session := do
  let (t, s) ← (construct N mode (exprOf nodes n)).run s
  return s.add t

def check (q : Query) (s : Z3Session) : Option (List SmtTerm × Z3Session) := do
  let curConstraints ← q.constraints.path nodes
  let s ← curConstraints.foldlM (addConstraint N mode nodes) s
  let (t, s) ← (construct N mode q.expr).run s
  let s := s.add (.not t)
  return (s.assertions, s)

def solver : Z3BaseSolver Z3Session where
  start := .initial false
  check := check N mode nodes
  extractModel objects s := do
    let (_, s) ← (extractModel N mode objects).run s
    return s
  postCheck s := some s.reset

end Z3ResetSolver

structure Z3AssumptionSolver where
  session : Z3Session
  guards : List (Expr × SmtTerm)
  guardCounter : Nat

namespace Z3AssumptionSolver
/-- What `snprintf` leaves of a name in 16 characters. -/
def guardName (n : Nat) : String := String.ofList (("g" ++ n.repr).toList.take 15)

def getAssumption (assertion : Expr) (s : Z3AssumptionSolver) :
    Option (SmtTerm × Z3AssumptionSolver) :=
  match s.guards.lookup assertion with
  | some guard => some (guard, s)
  | none => do
    let result : SmtTerm := .const (guardName s.guardCounter) .bool
    let (t, session) ← (construct N mode assertion).run s.session
    return (result,
      { session := session.add (.implies result t)
        guards := (assertion, result) :: s.guards
        guardCounter := (s.guardCounter + 1) % 2 ^ 64 })

def getAssumptions (p : List SmtTerm × Z3AssumptionSolver)
    (e : Expr) : Option (List SmtTerm × Z3AssumptionSolver) := do
  let (guard, s) ← getAssumption N mode e p.2
  return (guard :: p.1, s)

def check (q : Query) (s : Z3AssumptionSolver) : Option (List SmtTerm × Z3AssumptionSolver) := do
  let curConstraints ← q.constraints.path nodes
  let exprs := curConstraints.map (exprOf nodes) ++ [createIsZero q.expr]
  let (assumptions, s) ← exprs.foldlM (getAssumptions N mode) ([], s)
  return (assumptions ++ s.session.assertions, s)

def extractModel (objects : List KArray) (s : Z3AssumptionSolver) : Option Z3AssumptionSolver := do
  let (_, session) ← (Z3Session.extractModel N mode objects).run s.session
  return { s with session }

def postCheck (threshold : Nat) (s : Z3AssumptionSolver) : Option Z3AssumptionSolver :=
  some (if threshold < s.guards.length then { s with session := s.session.reset, guards := [] }
    else s)

def solver (threshold : Nat) : Z3BaseSolver Z3AssumptionSolver where
  start := ⟨.initial false, [], 0⟩
  check := check N mode nodes
  extractModel := extractModel N mode
  postCheck := postCheck threshold

end Z3AssumptionSolver
end Chef
