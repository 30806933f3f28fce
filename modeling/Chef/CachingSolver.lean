import Chef.SolverQuery

namespace Chef
open Foundations
inductive PartialValidity where
  | mustBeTrue
  | mustBeFalse
  | mayBeTrue
  | mayBeFalse
  | trueOrFalse
  | none
  deriving DecidableEq

inductive CachingFault where
  | invalidPartialValidity
  | unreachable
  deriving DecidableEq

/-- The solver below the cache: it fails, or it answers. -/
structure SolverImpl where
  computeValidity : Query → Option Validity
  computeTruth : Query → Option Bool

structure CacheEntry where
  constraints : ConstraintManager
  query : Expr
  deriving DecidableEq

structure CachingSolver where
  cache : List (CacheEntry × PartialValidity)

def IncompleteSolver.negatePartialValidity : PartialValidity → Except CachingFault PartialValidity
  | .mustBeTrue => .ok .mustBeFalse
  | .mustBeFalse => .ok .mustBeTrue
  | .mayBeTrue => .ok .mayBeFalse
  | .mayBeFalse => .ok .mayBeTrue
  | .trueOrFalse => .ok .trueOrFalse
  | .none => .error .invalidPartialValidity

namespace CachingSolver
def canonicalizeQuery (compare : Expr → Expr → Int) (originalQuery : Expr) : Expr × Bool :=
  if compare originalQuery (createIsZero originalQuery) < 0 then (originalQuery, false)
  else (createIsZero originalQuery, true)

def orient (negationUsed : Bool) (result : PartialValidity) : Except CachingFault PartialValidity :=
  if negationUsed then IncompleteSolver.negatePartialValidity result else .ok result

variable (compare : Expr → Expr → Int)
def cacheLookup (q : Query) (s : CachingSolver) : Except CachingFault (Option PartialValidity) :=
  let (canonicalQuery, negationUsed) := canonicalizeQuery compare q.expr
  match s.cache.lookup ⟨q.constraints, canonicalQuery⟩ with
  | some result => (orient negationUsed result).map some
  | none => .ok none

def cacheInsert (q : Query) (result : PartialValidity) (s : CachingSolver) :
    Except CachingFault CachingSolver :=
  let (canonicalQuery, negationUsed) := canonicalizeQuery compare q.expr
  (orient negationUsed result).map fun cachedResult =>
    match s.cache.lookup ⟨q.constraints, canonicalQuery⟩ with
    | some _ => s
    | none => ⟨(⟨q.constraints, canonicalQuery⟩, cachedResult) :: s.cache⟩

/-- The answer of the solver below is stored unless it fails. -/
def store (q : Query) (answer : Option α) (result : α → PartialValidity) (s : CachingSolver) :
    Except CachingFault (Option α × CachingSolver) :=
  match answer with
  | none => .ok (none, s)
  | some a => (cacheInsert compare q (result a) s).map fun s => (some a, s)

def refined (onTrue : Validity) (stored : PartialValidity) (tmp : Bool) :
    Validity × PartialValidity :=
  if tmp then (onTrue, stored) else (.unknown, .trueOrFalse)

def refine (q : Query) (answer : Option Bool) (onTrue : Validity) (stored : PartialValidity)
    (s : CachingSolver) : Except CachingFault (Option Validity × CachingSolver) :=
  (store compare q (answer.map (refined onTrue stored)) Prod.snd s).map fun r =>
    (r.1.map Prod.fst, r.2)

def ofValidity : Validity → PartialValidity
  | .isTrue => .mustBeTrue
  | .isFalse => .mustBeFalse
  | .unknown => .trueOrFalse

def computeValidity (solver : SolverImpl) (q : Query) (s : CachingSolver) :
    Except CachingFault (Option Validity × CachingSolver) :=
  cacheLookup compare q s >>= fun
    | some .mustBeTrue => .ok (some .isTrue, s)
    | some .mustBeFalse => .ok (some .isFalse, s)
    | some .trueOrFalse => .ok (some .unknown, s)
    | some .mayBeTrue => refine compare q (solver.computeTruth q) .isTrue .mustBeTrue s
    | some .mayBeFalse =>
      refine compare q (solver.computeTruth q.negateExpr) .isFalse .mustBeFalse s
    | some .none => .error .unreachable
    | none => store compare q (solver.computeValidity q) ofValidity s

def ofTruth (cacheHit isValid : Bool) : PartialValidity :=
  if isValid then .mustBeTrue else if cacheHit then .trueOrFalse else .mayBeFalse

def computeTruth (solver : SolverImpl) (q : Query) (s : CachingSolver) :
    Except CachingFault (Option Bool × CachingSolver) :=
  cacheLookup compare q s >>= fun
    | some .mayBeTrue => store compare q (solver.computeTruth q) (ofTruth true) s
    | some cachedResult => .ok (some (decide (cachedResult = .mustBeTrue)), s)
    | none => store compare q (solver.computeTruth q) (ofTruth false) s

end CachingSolver
end Chef
