import Mathlib.Algebra.Group.Nat.Defs

namespace Chef
/-- An array without constant values is symbolic. -/
structure KArray where
  id : Nat
  size : Nat
  constantValues : List UInt8
  deriving DecidableEq

namespace KArray
def isSymbolicArray (array : KArray) : Bool := array.constantValues.isEmpty

end KArray

inductive ArithmeticKind where
  | add | sub | mul | udiv | sdiv | urem | srem
  | and | or | xor | shl | lshr | ashr
  deriving DecidableEq

inductive CmpKind where
  | eq | ne | ult | ule | ugt | uge | slt | sle | sgt | sge
  deriving DecidableEq

mutual
/-- A read carries the update list of its array, latest update first. -/
inductive Expr where
  | constant (width value : Nat)
  | notOptimized (src : Expr)
  | read (root : KArray) (head : UpdateNode) (index : Expr)
  | select (cond trueExpr falseExpr : Expr)
  | concat (left right : Expr)
  | extract (expr : Expr) (offset width : Nat)
  | zext (src : Expr) (width : Nat)
  | sext (src : Expr) (width : Nat)
  | not (expr : Expr)
  | arithmetic (kind : ArithmeticKind) (left right : Expr)
  | compare (kind : CmpKind) (left right : Expr)

inductive UpdateNode where
  | null
  | node (index value : Expr) (next : UpdateNode)

end

deriving instance DecidableEq for Expr, UpdateNode

abbrev Assignment := KArray → Nat → UInt8

def ArithmeticKind.apply (kind : ArithmeticKind) {w : Nat} (x y : BitVec w) : BitVec w :=
  match kind with
  | .add => x + y
  | .sub => x - y
  | .mul => x * y
  | .udiv => x / y
  | .sdiv => x.sdiv y
  | .urem => x % y
  | .srem => x.srem y
  | .and => x &&& y
  | .or => x ||| y
  | .xor => x ^^^ y
  | .shl => x <<< y
  | .lshr => x >>> y
  | .ashr => x.sshiftRight' y

def CmpKind.apply (kind : CmpKind) {w : Nat} (x y : BitVec w) : Bool :=
  match kind with
  | .eq => x == y
  | .ne => x != y
  | .ult => x.ult y
  | .ule => x.ule y
  | .ugt => y.ult x
  | .uge => y.ule x
  | .slt => x.slt y
  | .sle => x.sle y
  | .sgt => y.slt x
  | .sge => y.sle x

def ArithmeticKind.isDivision : ArithmeticKind → Bool
  | .udiv | .sdiv | .urem | .srem => true
  | _ => false

def KArray.initialValue (array : KArray) (ρ : Assignment) (i : Nat) : UInt8 :=
  if array.isSymbolicArray then ρ array i else array.constantValues.getD i 0

namespace Expr
def width : Expr → Nat
  | .constant w _ => w
  | .notOptimized src => src.width
  | .read _ _ _ => 8
  | .select _ t _ => t.width
  | .concat l r => l.width + r.width
  | .extract _ _ w => w
  | .zext _ w => w
  | .sext _ w => w
  | .not e => e.width
  | .arithmetic _ l _ => l.width
  | .compare _ _ _ => 1

def isConstant : Expr → Bool
  | .constant _ _ => true
  | _ => false

def operands : Expr → List Expr
  | .constant _ _ => []
  | .notOptimized src => [src]
  | .read _ _ index => [index]
  | .select c t f => [c, t, f]
  | .concat l r => [l, r]
  | .extract e _ _ => [e]
  | .zext src _ => [src]
  | .sext src _ => [src]
  | .not e => [e]
  | .arithmetic _ l r => [l, r]
  | .compare _ l r => [l, r]

end Expr

mutual
/-- The value of an expression, below two to its width if well typed. -/
def Expr.eval (ρ : Assignment) : Expr → Nat
  | .constant w v => v % 2 ^ w
  | .notOptimized src => src.eval ρ
  | .read root head index => (head.valueAt ρ root (index.eval ρ)).toNat
  | .select c t f => if c.eval ρ = 1 then t.eval ρ else f.eval ρ
  | .concat l r => l.eval ρ * 2 ^ r.width + r.eval ρ
  | .extract e offset w => e.eval ρ / 2 ^ offset % 2 ^ w
  | .zext src w => src.eval ρ % 2 ^ w
  | .sext src w => ((BitVec.ofNat src.width (src.eval ρ)).signExtend w).toNat
  | .not e => (~~~BitVec.ofNat e.width (e.eval ρ)).toNat
  | .arithmetic kind l r =>
    (kind.apply (BitVec.ofNat l.width (l.eval ρ)) (BitVec.ofNat l.width (r.eval ρ))).toNat
  | .compare kind l r =>
    (kind.apply (BitVec.ofNat l.width (l.eval ρ)) (BitVec.ofNat l.width (r.eval ρ))).toNat

def UpdateNode.valueAt (ρ : Assignment) (root : KArray) (i : Nat) : UpdateNode → UInt8
  | .null => root.initialValue ρ i
  | .node index value next =>
    if index.eval ρ = i then UInt8.ofNat (value.eval ρ) else next.valueAt ρ root i

end

mutual
/-- Reads that matter are in range, and no divisor is zero. -/
def Expr.Defined (ρ : Assignment) : Expr → Prop
  | .constant _ _ => True
  | .notOptimized src => src.Defined ρ
  | .read root head index => index.Defined ρ ∧ head.Defined ρ ∧ index.eval ρ < root.size
  | .select c t f => c.Defined ρ ∧ if c.eval ρ = 1 then t.Defined ρ else f.Defined ρ
  | .concat l r => l.Defined ρ ∧ r.Defined ρ
  | .extract e _ _ => e.Defined ρ
  | .zext src _ => src.Defined ρ
  | .sext src _ => src.Defined ρ
  | .not e => e.Defined ρ
  | .arithmetic kind l r =>
    l.Defined ρ ∧ r.Defined ρ ∧ (kind.isDivision = true → r.eval ρ % 2 ^ l.width ≠ 0)
  | .compare _ l r => l.Defined ρ ∧ r.Defined ρ

def UpdateNode.Defined (ρ : Assignment) : UpdateNode → Prop
  | .null => True
  | .node index value next => index.Defined ρ ∧ value.Defined ρ ∧ next.Defined ρ

end

mutual
def Expr.WellTyped : Expr → Prop
  | .constant w v => v < 2 ^ w
  | .notOptimized src => src.WellTyped
  | .read _ head index => head.WellTyped ∧ index.WellTyped ∧ index.width = 32
  | .select c t f => c.WellTyped ∧ t.WellTyped ∧ f.WellTyped ∧ c.width = 1 ∧ t.width = f.width
  | .concat l r => l.WellTyped ∧ r.WellTyped
  | .extract e offset w => e.WellTyped ∧ offset + w ≤ e.width
  | .zext src w => src.WellTyped ∧ src.width ≤ w
  | .sext src w => src.WellTyped ∧ src.width ≤ w
  | .not e => e.WellTyped
  | .arithmetic _ l r => l.WellTyped ∧ r.WellTyped ∧ l.width = r.width
  | .compare _ l r => l.WellTyped ∧ r.WellTyped ∧ l.width = r.width

def UpdateNode.WellTyped : UpdateNode → Prop
  | .null => True
  | .node index value next =>
    index.WellTyped ∧ index.width = 32 ∧ value.WellTyped ∧ value.width = 8 ∧ next.WellTyped

end

mutual
def Expr.decidableWellTyped : (e : Expr) → Decidable e.WellTyped
  | .constant w v => inferInstanceAs (Decidable (v < 2 ^ w))
  | .notOptimized src => src.decidableWellTyped
  | .read _ head index =>
    have := head.decidableWellTyped
    have := index.decidableWellTyped
    inferInstanceAs (Decidable (head.WellTyped ∧ index.WellTyped ∧ index.width = 32))
  | .select c t f =>
    have := c.decidableWellTyped
    have := t.decidableWellTyped
    have := f.decidableWellTyped
    inferInstanceAs (Decidable
      (c.WellTyped ∧ t.WellTyped ∧ f.WellTyped ∧ c.width = 1 ∧ t.width = f.width))
  | .concat l r =>
    have := l.decidableWellTyped
    have := r.decidableWellTyped
    inferInstanceAs (Decidable (l.WellTyped ∧ r.WellTyped))
  | .extract e offset w =>
    have := e.decidableWellTyped
    inferInstanceAs (Decidable (e.WellTyped ∧ offset + w ≤ e.width))
  | .zext src w | .sext src w =>
    have := src.decidableWellTyped
    inferInstanceAs (Decidable (src.WellTyped ∧ src.width ≤ w))
  | .not e => e.decidableWellTyped
  | .arithmetic _ l r | .compare _ l r =>
    have := l.decidableWellTyped
    have := r.decidableWellTyped
    inferInstanceAs (Decidable (l.WellTyped ∧ r.WellTyped ∧ l.width = r.width))

def UpdateNode.decidableWellTyped : (un : UpdateNode) → Decidable un.WellTyped
  | .null => inferInstanceAs (Decidable True)
  | .node index value next =>
    have := index.decidableWellTyped
    have := value.decidableWellTyped
    have := next.decidableWellTyped
    inferInstanceAs (Decidable (index.WellTyped ∧ index.width = 32 ∧ value.WellTyped ∧
      value.width = 8 ∧ next.WellTyped))

end

instance (e : Expr) : Decidable e.WellTyped := e.decidableWellTyped

instance (un : UpdateNode) : Decidable un.WellTyped := un.decidableWellTyped

theorem concat_lt (hx : x < 2 ^ m) (hy : y < 2 ^ n) : x * 2 ^ n + y < 2 ^ (m + n) := by
  rw [Nat.pow_add]
  calc x * 2 ^ n + y < x * 2 ^ n + 2 ^ n := by omega
    _ = (x + 1) * 2 ^ n := by rw [Nat.add_mul, Nat.one_mul]
    _ ≤ 2 ^ m * 2 ^ n := Nat.mul_le_mul_right _ hx

theorem Expr.eval_lt (ρ : Assignment) : (e : Expr) → e.WellTyped → e.eval ρ < 2 ^ e.width
  | .constant w v, _ | .extract e offset w, _ | .zext src w, _ => by
    exact Nat.mod_lt _ (Nat.two_pow_pos w)
  | .notOptimized src, h => by
    exact eval_lt ρ src h
  | .read root head index, _ => by
    exact UInt8.toNat_lt _
  | .select c t f, h => by
    obtain ⟨_, ht, hf, _, hw⟩ := h
    rw [eval, width]
    split
    · exact eval_lt ρ t ht
    · rw [hw]
      exact eval_lt ρ f hf
  | .concat l r, h => by
    exact concat_lt (eval_lt ρ l h.1) (eval_lt ρ r h.2)
  | .sext src w, _ | .not e, _ | .arithmetic kind l r, _ => by
    exact BitVec.isLt _
  | .compare kind l r, _ => by
    rw [eval, width]
    exact Bool.toNat_lt _

mutual
def Expr.arrays : Expr → List KArray
  | .constant _ _ => []
  | .notOptimized src => src.arrays
  | .read root head index => root :: (head.arrays ++ index.arrays)
  | .select c t f => c.arrays ++ (t.arrays ++ f.arrays)
  | .concat l r => l.arrays ++ r.arrays
  | .extract e _ _ => e.arrays
  | .zext src _ => src.arrays
  | .sext src _ => src.arrays
  | .not e => e.arrays
  | .arithmetic _ l r => l.arrays ++ r.arrays
  | .compare _ l r => l.arrays ++ r.arrays

def UpdateNode.arrays : UpdateNode → List KArray
  | .null => []
  | .node index value next => index.arrays ++ (value.arrays ++ next.arrays)

end

/-- The constructors fold and simplify what they build. -/
structure ExprBuilder where
  read : KArray → UpdateNode → Expr → Expr
  select : Expr → Expr → Expr → Expr
  concat : Expr → Expr → Expr
  extract : Expr → Nat → Nat → Expr
  zext : Expr → Nat → Expr
  add : Expr → Expr → Expr
  and : Expr → Expr → Expr
  or : Expr → Expr → Expr
  eq : Expr → Expr → Expr

structure Expr.Equivalent (e e' : Expr) : Prop where
  wellTyped : e.WellTyped
  width_eq : e.width = e'.width
  eval_eq : ∀ ρ, e.eval ρ = e'.eval ρ

/-- It is the second one in another form. -/
structure Expr.Preserves (e e' : Expr) : Prop extends Expr.Equivalent e e' where
  defined : e'.Defined ρ → e.Defined ρ

/-- It may stand for the second one, which may be undefined. -/
structure Expr.Refines (e e' : Expr) : Prop where
  wellTyped : e.WellTyped
  width_eq : e.width = e'.width
  defined : e'.Defined ρ → e.Defined ρ
  eval_eq : e'.Defined ρ → e.eval ρ = e'.eval ρ

end Chef
