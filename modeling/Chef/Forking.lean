import Chef.BitfieldSimplifier
import Chef.ExprEvaluate
import Chef.Foundations.Transition

namespace Chef
/-- Failed assertions, and a recursion that is deeper than allowed. -/
inductive ExecutorFault where
  | depthExceeded
  | invalidConstraint
  | speculative
  | notSpeculative
  | notConcrete
  | invalidReplay
  | unresolvedAddress
  | wrongBranch
  | noState
  deriving DecidableEq

structure ForkingState where
  constraints : List Expr
  concolics : Option Assignment
  speculative : Bool
  speculativeCondition : Option Expr
  forkDisabled : Bool
  depth : Nat
  terminated : Bool

inductive Validity where
  | isTrue
  | isFalse
  | unknown
  deriving DecidableEq

/-- The answers, and whether there is one in time. -/
structure Solver where
  responds : Bool
  evaluate : List Expr → Expr → Validity
  mustBeTrue : List Expr → Expr → Bool
  getValue : List Expr → Expr → Nat
  getInitialValues : List Expr → Option Assignment

/-- Constants are evaluated without the solver. -/
def Solver.validity (solver : Solver) (constraints : List Expr) : Expr → Option Validity
  | .constant w v => some (if v % 2 ^ w = 1 then .isTrue else .isFalse)
  | e => if solver.responds then some (solver.evaluate constraints e) else none

structure ForkLimits where
  staticLimit : Bool
  replayPath : Option Bool
  inhibitForking : Bool
  maxDepth : Nat
  coin : Bool
  randomizeFork : Bool

/-- A conjunction is added part by part, a true constant not. -/
def ForkingState.addConstraint : Expr → List Expr → Except ExecutorFault (List Expr)
  | .constant w v, constraints =>
    if w = 1 ∧ v % 2 ^ w = 1 then .ok constraints else .error .invalidConstraint
  | .arithmetic .and left right, constraints =>
    ForkingState.addConstraint left constraints >>= fun cs => ForkingState.addConstraint right cs
  | e, constraints => .ok (constraints ++ [e])

/-- All states share the simplifier, whose calls are recorded. -/
structure Executor where
  exprSimplifier : BitfieldSimplifier
  states : List ForkingState
  bitsCalls : List BitsCall

abbrev StatePair := Option Nat × Option Nat

def StatePair.single (i : Nat) (branch : Bool) : StatePair :=
  if branch then (some i, none) else (none, some i)

namespace Executor
def state (x : Executor) (i : Nat) : Except ExecutorFault ForkingState :=
  match x.states[i]? with
  | some s => .ok s
  | none => .error .noState

def setState (x : Executor) (i : Nat) (s : ForkingState) : Executor :=
  { x with states := x.states.set i s }

def terminate (x : Executor) (i : Nat) : Executor :=
  { x with states := x.states.modify i fun s => { s with terminated := true } }

def branch (x : Executor) (i : Nat) (s : ForkingState) : Executor :=
  { x with states := x.states.set i { s with depth := s.depth + 1 } ++
      [{ s with depth := s.depth + 1 }] }

variable (A : APInt) (depth : Nat) (x : Executor)
def simplifyExpr (e : Expr) : Except ExecutorFault (Expr × Executor) :=
  match x.exprSimplifier.simplify A depth e with
  | some (r, exprSimplifier, calls) => .ok (r.1, ⟨exprSimplifier, x.states, x.bitsCalls ++ calls⟩)
  | none => .error .depthExceeded

def addConstraint (x : Executor) (i : Nat) (condition : Expr) : Except ExecutorFault Executor := do
  let (condition, x) ← x.simplifyExpr A depth condition
  let s ← x.state i
  let constraints ← ForkingState.addConstraint condition s.constraints
  .ok (x.setState i { s with constraints := constraints })

def branchCondition (branch : Bool) (condition : Expr) : Expr :=
  if branch then condition else createIsZero condition

def takeBranch (i : Nat) (condition : Expr) (branch : Bool) :
    Except ExecutorFault (StatePair × Executor) :=
  (x.addConstraint A depth i (branchCondition branch condition)).map
    fun x => (StatePair.single i branch, x)

def forkBoth (i : Nat) (condition : Expr) (limits : ForkLimits) :
    Except ExecutorFault (StatePair × Executor) := do
  let s ← x.state i
  let n := x.states.length
  let (trueState, falseState) := if limits.randomizeFork then (n, i) else (i, n)
  let x ← (x.branch i s).addConstraint A depth trueState condition
  let x ← x.addConstraint A depth falseState (createIsZero condition)
  if limits.maxDepth ≠ 0 ∧ limits.maxDepth ≤ s.depth + 1 then
    .ok ((none, none), (x.terminate trueState).terminate falseState)
  else .ok ((some trueState, some falseState), x)

def forkOn (i : Nat) (condition : Expr) (limits : ForkLimits) (res : Validity) :
    Except ExecutorFault (StatePair × Executor) :=
  match res, limits.replayPath with
  | .isTrue, some false | .isFalse, some true => .error .invalidReplay
  | .isTrue, _ => .ok (StatePair.single i true, x)
  | .isFalse, _ => .ok (StatePair.single i false, x)
  | .unknown, some branch => x.takeBranch A depth i condition branch
  | .unknown, none => do
    let s ← x.state i
    if s.forkDisabled || limits.inhibitForking then x.takeBranch A depth i condition limits.coin
    else x.forkBoth A depth i condition limits

def limitStatically (i : Nat) (condition : Expr) (solver : Solver)
    (limits : ForkLimits) : Except ExecutorFault (Expr × Executor) :=
  if limits.staticLimit && !condition.isConstant then do
    let s ← x.state i
    let value := Expr.constant condition.width (solver.getValue s.constraints condition)
    let x ← x.addConstraint A depth i (EqExpr.create value condition)
    .ok (value, x)
  else .ok (condition, x)

/-- Outside of concolic mode, a query that times out ends the state. -/
def fork (i : Nat) (condition : Expr) (solver : Solver) (limits : ForkLimits) :
    Except ExecutorFault (StatePair × Executor) := do
  let (condition, x) ← x.simplifyExpr A depth condition
  let (condition, x) ← x.limitStatically A depth i condition solver limits
  let s ← x.state i
  match solver.validity s.constraints condition with
  | none => .ok ((none, none), x.terminate i)
  | some res => x.forkOn A depth i condition limits res

end Executor

/-- A failed query counts as an infeasible state. -/
def Solver.checkSpeculativeState (solver : Solver) (constraints : List Expr)
    (speculativeCondition : Expr) : Bool :=
  solver.responds && !solver.mustBeTrue constraints (createIsZero speculativeCondition)

namespace Executor
variable (A : APInt) (depth : Nat) (x : Executor)
/-- The clone is left speculative on the other branch. -/
def forkSpeculatively (i : Nat) (s : ForkingState) (condition : Expr)
    (branch : Bool) : Except ExecutorFault (StatePair × Executor) := do
  let n := x.states.length
  let x := (x.branch i s).setState n { s with
      depth := s.depth + 1
      speculative := true
      concolics := none
      speculativeCondition := some (branchCondition (!branch) condition) }
  let x ← x.addConstraint A depth i (branchCondition branch condition)
  .ok (if branch then (some i, some n) else (some n, some i), x)

def concolicFork (enableSpeculativeForking : Bool) (x : Executor) (i : Nat) (condition : Expr)
    (solver : Solver) (limits : ForkLimits) : Except ExecutorFault (StatePair × Executor) := do
  let (condition, x) ← x.simplifyExpr A depth condition
  if condition.isConstant then x.fork A depth i condition solver limits
  else
    let s ← x.state i
    if s.speculative then .error .speculative
    else
      match s.concolics with
      | none => .error .notConcrete
      | some ρ =>
        let branch := decide (condition.evaluate A ρ = 1)
        if s.forkDisabled then x.takeBranch A depth i condition branch
        else if enableSpeculativeForking then x.forkSpeculatively A depth i s condition branch
        else
          let s := { s with speculativeCondition := none }
          let x := x.setState i s
          if solver.checkSpeculativeState s.constraints (branchCondition (!branch) condition) then
            x.forkSpeculatively A depth i s condition branch
          else .ok (StatePair.single i branch, x)

/-- Values that the state already has are not replaced. -/
def resolveSpeculativeState (i : Nat) (solver : Solver) :
    Except ExecutorFault (Bool × Executor) := do
  let s ← x.state i
  match s.speculative, s.speculativeCondition with
  | true, some speculativeCondition =>
    if solver.checkSpeculativeState s.constraints speculativeCondition then do
      let constraints ← ForkingState.addConstraint speculativeCondition s.constraints
      match solver.getInitialValues constraints with
      | none => .ok (false, x.setState i { s with constraints := constraints })
      | some ρ =>
        .ok (true, x.setState i { s with
          constraints := constraints
          concolics := s.concolics.or (some ρ)
          speculative := false })
    else .ok (false, x)
  | _, _ => .error .notSpeculative

def evaluateSimplified (i : Nat) (e : Expr) : Except ExecutorFault ((Expr × Expr) × Executor) := do
  let (e, x) ← x.simplifyExpr A depth e
  if e.isConstant then .ok ((e, e), x)
  else
    let s ← x.state i
    match s.concolics with
    | none => .error .notConcrete
    | some ρ => .ok ((e, .constant e.width (e.evaluate A ρ)), x)

def toConstantSilent (i : Nat) (e : Expr) : Except ExecutorFault (Expr × Executor) :=
  (x.evaluateSimplified A depth i e).map fun r => (r.1.2, r.2)

def toConstant (i : Nat) (e : Expr) : Except ExecutorFault (Expr × Executor) := do
  let ((e, value), x) ← x.evaluateSimplified A depth i e
  if e.isConstant then .ok (value, x)
  else (x.addConstraint A depth i (EqExpr.create e value)).map fun x => (value, x)

end Executor
end Chef
