import Chef.SteadyRecreate

namespace Chef
open APInt UpdateNode Chef.Expr
/-- A number that is not negative is shifted to zero. -/
structure APInt.Signed (A : APInt) : Prop extends A.Lawful where
  nonnegative : ∀ {w : Nat} (x y : BitVec w), x.msb = false → w ≤ y.toNat → A.ashr x y = 0#w

theorem APInt.Signed.arithmetic_eq {A : APInt} (hA : A.Signed) {x y : BitVec w}
    (h : kind.Folds x y) : A.arithmetic kind x y = kind.apply x y := by
  by_cases hk : kind = .ashr
  · subst hk
    rw [arithmetic, ArithmeticKind.apply]
    by_cases hy : y.toNat < w
    · exact hA.shifted x y hy
    have hle := not_lt.1 hy
    have hm : x.msb = false := by
      rw [← Bool.not_eq_true]
      exact fun hm => hy (h.2 rfl hm)
    rw [hA.nonnegative x y hm hle, sshiftRight'_overshift x y hle, hm, if_neg Bool.false_ne_true]
  · rw [arithmetic]
    exact hk

theorem APInt.Signed.foldsBy {A : APInt} (hA : A.Signed) {e : Expr} (hs : e.Steady ρ) :
    e.FoldsBy A ρ := by
  cases e with
  | arithmetic kind l r => exact hA.arithmetic_eq hs.2.2
  | _ => trivial

theorem APInt.llvm_signed : llvm.Signed := by
  refine ⟨llvm_lawful, fun {w} x y hm hle => ?_⟩
  rw [llvm]
  simp only
  split
  · rfl
  · rw [sshiftRight'_overshift x y hle, hm, if_neg Bool.false_ne_true]

mutual
/-- The value when every symbolic byte has one. -/
def Expr.evaluate (A : APInt) (ρ : Assignment) : Expr → Nat
  | .constant w v => v % 2 ^ w
  | .notOptimized src => src.evaluate A ρ
  | .read root head index => (head.evalRead A ρ root (index.evaluate A ρ)).toNat
  | .select c t f => if c.evaluate A ρ = 1 then t.evaluate A ρ else f.evaluate A ρ
  | .concat l r => l.evaluate A ρ * 2 ^ r.width + r.evaluate A ρ
  | .extract e offset w => e.evaluate A ρ / 2 ^ offset % 2 ^ w
  | .zext src w => src.evaluate A ρ % 2 ^ w
  | .sext src w => ((BitVec.ofNat src.width (src.evaluate A ρ)).signExtend w).toNat
  | .not e => (~~~BitVec.ofNat e.width (e.evaluate A ρ)).toNat
  | .arithmetic kind l r =>
    (A.arithmetic kind (BitVec.ofNat l.width (l.evaluate A ρ))
      (BitVec.ofNat l.width (r.evaluate A ρ))).toNat
  | .compare kind l r =>
    (kind.apply (BitVec.ofNat l.width (l.evaluate A ρ))
      (BitVec.ofNat l.width (r.evaluate A ρ))).toNat

def UpdateNode.evalRead (A : APInt) (ρ : Assignment) (root : KArray) (i : Nat) : UpdateNode → UInt8
  | .null => root.initialValue ρ i
  | .node index value next =>
    if index.evaluate A ρ = i then UInt8.ofNat (value.evaluate A ρ)
    else next.evalRead A ρ root i

end

mutual
theorem Expr.evaluate_eq_eval {A : APInt} (hA : A.Signed) (ρ : Assignment) :
    (e : Expr) → e.Steady ρ → e.evaluate A ρ = e.eval ρ
  | .constant w v, _ => by rw [evaluate, eval]
  | .notOptimized src, h | .zext src _, h | .sext src _, h | .extract src _ _, h | .not src, h => by
    rw [evaluate, eval, src.evaluate_eq_eval hA ρ h]
  | .read root head index, h => by
    rw [evaluate, eval, index.evaluate_eq_eval hA ρ h.1,
      UpdateNode.evalRead_eq_valueAt hA ρ root _ head h.2.1]
  | .select c t f, h => by
    rw [evaluate, eval, c.evaluate_eq_eval hA ρ h.1,
      t.evaluate_eq_eval hA ρ h.2.1, f.evaluate_eq_eval hA ρ h.2.2]
  | .concat l r, h | .compare kind l r, h => by
    rw [evaluate, eval, l.evaluate_eq_eval hA ρ h.1, r.evaluate_eq_eval hA ρ h.2]
  | .arithmetic kind l r, h => by
    rw [evaluate, eval, l.evaluate_eq_eval hA ρ h.1, r.evaluate_eq_eval hA ρ h.2.1,
      hA.arithmetic_eq h.2.2]

theorem UpdateNode.evalRead_eq_valueAt (hA : A.Signed) (ρ : Assignment) (root : KArray)
    (i : Nat) : (un : UpdateNode) → un.Steady ρ → un.evalRead A ρ root i = un.valueAt ρ root i
  | .null, _ => by rw [evalRead, valueAt]
  | .node index value next, h => by
    rw [evalRead, valueAt, index.evaluate_eq_eval hA ρ h.1,
      value.evaluate_eq_eval hA ρ h.2.1, next.evalRead_eq_valueAt hA ρ root i h.2.2]

end
end Chef
