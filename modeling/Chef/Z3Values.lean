import Chef.Z3Builder

namespace Chef
open Foundations BitVec
theorem Expr.evaluate_lt (A : APInt) (ρ : Assignment) :
    (e : Expr) → e.WellTyped → e.evaluate A ρ < 2 ^ e.width
  | .constant w v, _ | .extract e offset w, _ | .zext src w, _ => by
    exact Nat.mod_lt _ (Nat.two_pow_pos w)
  | .notOptimized src, h => by
    exact evaluate_lt A ρ src h
  | .read root head index, _ => by
    exact UInt8.toNat_lt _
  | .select c t f, h => by
    obtain ⟨_, ht, hf, _, hw⟩ := h
    rw [evaluate, width]
    split
    · exact evaluate_lt A ρ t ht
    · rw [hw]
      exact evaluate_lt A ρ f hf
  | .concat l r, h => by
    exact concat_lt (evaluate_lt A ρ l h.1) (evaluate_lt A ρ r h.2)
  | .sext src w, _ | .not e, _ | .arithmetic kind l r, _ => by
    exact isLt _
  | .compare kind l r, _ => by
    rw [evaluate, width]
    exact Bool.toNat_lt _

/-- The solver's value of a number; one bit is a boolean. -/
def smtValue (w n : Nat) : SmtValue :=
  if w = 1 then .bool (decide (n = 1)) else .bits w (BitVec.ofNat w n)

theorem smtValue_bool (hw : w = 1) (n : Nat) : smtValue w n = .bool (decide (n = 1)) := if_pos hw

theorem smtValue_bits (hw : w ≠ 1) (n : Nat) : smtValue w n = .bits w (BitVec.ofNat w n) :=
  if_neg hw

theorem smtValue_toNat (hw : w ≠ 1) (x : BitVec w) : smtValue w x.toNat = .bits w x := by
  rw [smtValue_bits hw, ofNat_toNat, setWidth_eq]

theorem smtValue_sort (w n m : Nat) : (smtValue w n).sort = (smtValue w m).sort := by
  by_cases hw : w = 1
  · rw [smtValue_bool hw, smtValue_bool hw]
    rfl
  · rw [smtValue_bits hw, smtValue_bits hw]
    rfl

theorem bits_injective (h : SmtValue.bits w x = .bits w y) : x = y := by
  cases h
  rfl

/-- The solver's operator of a kind. -/
def ArithmeticKind.op : ArithmeticKind → BitVecOp
  | .add => .add
  | .sub => .sub
  | .mul => .mul
  | .udiv => .udiv
  | .sdiv => .sdiv
  | .urem => .urem
  | .srem => .srem
  | .and => .and
  | .or => .or
  | .xor => .xor
  | .shl => .shl
  | .lshr => .lshr
  | .ashr => .ashr

theorem smtUDiv_of_ne {x y : BitVec w} (hy : y ≠ 0#w) : x.smtUDiv y = x.udiv y := by
  rw [smtUDiv_eq, if_neg hy]
  rfl

theorem smtSDiv_of_ne {x y : BitVec w} (hy : y ≠ 0#w) : x.smtSDiv y = x.sdiv y := by
  have hn : -y ≠ 0#w := fun h => hy (neg_eq_zero_iff.1 h)
  rw [smtSDiv_eq, sdiv_eq, smtUDiv_of_ne hy, smtUDiv_of_ne hy, smtUDiv_of_ne hn, smtUDiv_of_ne hn]

theorem ArithmeticKind.op_apply {kind : ArithmeticKind} {x y : BitVec w}
    (h : kind.isDivision = true → y ≠ 0#w) : kind.op.apply x y = kind.apply x y := by
  cases kind with
  | udiv => exact smtUDiv_of_ne (h rfl)
  | sdiv => exact smtSDiv_of_ne (h rfl)
  | _ => rfl

/-- Short shifts by the width give zero, wider ones fill in the sign. -/
structure APInt.Shifts (A : APInt) : Prop extends A.Lawful where
  wide : ∀ {w : Nat} (x y : BitVec w), 64 < w → A.ashr x y = x.sshiftRight' y

theorem APInt.llvm_shifts : APInt.llvm.Shifts := by
  refine ⟨APInt.llvm_lawful, fun {w} x y hw => if_neg ?_⟩
  rintro ⟨hle, _⟩
  omega

/-- A short negative number is not shifted by its width or more. -/
def ShiftKept (x y : BitVec w) : Prop := w ≤ 64 → x.msb = true → y.toNat < w

theorem APInt.Shifts.ashr_eq_iff {A : APInt} (hA : A.Shifts) {x y : BitVec w} :
    x.sshiftRight' y = A.ashr x y ↔ ShiftKept x y := by
  by_cases hw : w ≤ 64
  · by_cases hy : y.toNat < w
    · rw [hA.shifted x y hy]
      exact ⟨fun _ _ _ => hy, fun _ => rfl⟩
    have hle := Nat.not_lt.1 hy
    rw [hA.overshifted x y hw hle, sshiftRight'_overshift x y hle]
    cases hm : x.msb with
    | false => exact ⟨fun _ _ h => absurd (hm ▸ h) Bool.false_ne_true, fun _ => rfl⟩
    | true =>
      have hp : 0 < w := by
        rcases Nat.eq_zero_or_pos w with rfl | hp
        · rw [eq_nil x] at hm
          cases hm
        · exact hp
      have ho : ¬allOnes w = 0#w := by
        intro h
        have hb := congrArg (fun x => x.getLsbD 0) h
        rw [getLsbD_allOnes, getLsbD_zero, decide_eq_false_iff_not] at hb
        exact hb hp
      exact ⟨fun h => absurd h ho, fun h => absurd (h hw hm) hy⟩
  · rw [hA.wide x y (by omega)]
    exact ⟨fun _ h => absurd h hw, fun _ => rfl⟩

/-- The solver's operator folds like constants but for shifts. -/
theorem APInt.Shifts.op_eq_iff {A : APInt} (hA : A.Shifts) {kind : ArithmeticKind} {x y : BitVec w}
    (h : kind.isDivision = true → y ≠ 0#w) :
    kind.op.apply x y = A.arithmetic kind x y ↔ (kind = .ashr → ShiftKept x y) := by
  rw [ArithmeticKind.op_apply h]
  by_cases hk : kind = .ashr
  · subst hk
    rw [APInt.arithmetic, ArithmeticKind.apply, hA.ashr_eq_iff]
    exact ⟨fun h _ => h, fun h => h rfl⟩
  · rw [APInt.arithmetic]
    · exact ⟨fun _ h => absurd h hk, fun _ => rfl⟩
    · exact hk

end Chef
