import Mathlib.Data.Nat.Bitwise

namespace Chef
open BitVec
def withoutRightmostBit (x : BitVec 64) : BitVec 64 := x &&& (x - 1)

def isPowerOfTwo (x : BitVec 64) : Bool := if x = 0 then false else withoutRightmostBit x = 0

/-- A range is empty if its bounds cross. -/
structure ValueRange where
  min : BitVec 64
  max : BitVec 64

namespace ValueRange
def isFixed (r : ValueRange) : Bool := r.min = r.max

def Contains (r : ValueRange) (x : BitVec 64) : Prop := r.min ≤ x ∧ x ≤ r.max

/-- The loop that clears bits, with a limit on its rounds. -/
def leftmostBit : Nat → BitVec 64 → Option (BitVec 64)
  | 0, _ => none
  | fuel + 1, t => if isPowerOfTwo t then some t else leftmostBit fuel (withoutRightmostBit t)

def binaryXor (fuel : Nat) (a b : ValueRange) : Option ValueRange :=
  if a.isFixed && b.isFixed then some ⟨a.min ^^^ b.min, a.min ^^^ b.min⟩
  else (leftmostBit fuel (a.max ||| b.max)).map fun t : BitVec 64 => ⟨0, t <<< 1 - 1⟩

theorem leftmostBit_zero (fuel : Nat) : leftmostBit fuel 0 = none := by
  induction fuel with
  | zero => rfl
  | succ fuel ih => exact ih

theorem toNat_withoutRightmostBit (h : t ≠ 0) :
    (withoutRightmostBit t).toNat = t.toNat &&& (t.toNat - 1) := by
  have hle : 1 ≤ t := by bv_omega
  rw [withoutRightmostBit, toNat_and, toNat_sub_of_le hle]
  rfl

/-- The loop ends with the highest bit of a number that is not zero. -/
theorem leftmostBit_spec (h : t ≠ 0) :
    ∃ fuel k, leftmostBit fuel t = some (twoPow 64 k) ∧ t.toNat < 2 ^ (k + 1) ∧ k < 64 := by
  induction ht : t.toNat using Nat.strongRecOn generalizing t with
  | _ m ih =>
    subst ht
    have hz : t.toNat ≠ 0 := fun hz => h (eq_of_toNat_eq hz)
    have hw := toNat_withoutRightmostBit h
    by_cases hp : t.toNat.isPowerOfTwo
    · have hc := (Nat.and_sub_one_eq_zero_iff_isPowerOfTwo hz).2 hp
      obtain ⟨k, hk⟩ := hp
      have hlt : k < 64 := (Nat.pow_lt_pow_iff_right (by decide)).1 (hk ▸ t.isLt)
      have htw : t = twoPow 64 k := by
        apply eq_of_toNat_eq
        rw [hk, toNat_twoPow, Nat.mod_eq_of_lt (hk ▸ t.isLt)]
      refine ⟨1, k, ?_, ?_, hlt⟩
      · rw [leftmostBit, isPowerOfTwo, if_neg h, ← htw]
        exact if_pos (decide_eq_true (eq_of_toNat_eq (y := 0) (hw.trans hc)))
      · rw [hk]
        exact Nat.pow_lt_pow_right (by decide) k.lt_succ_self
    · have hb := Nat.ge_two_pow_of_testBit (Nat.and_sub_one_testBit_log2 hz hp)
      rw [← hw] at hb
      have hne : withoutRightmostBit t ≠ 0 := by
        intro he
        rw [he] at hb
        exact absurd (Nat.two_pow_pos t.toNat.log2) (Nat.not_lt.2 hb)
      have hle : t.toNat &&& (t.toNat - 1) ≤ t.toNat - 1 := Nat.and_le_right
      obtain ⟨fuel, k, hf, hlt, hk⟩ := ih _ (by omega) hne rfl
      refine ⟨fuel + 1, k, ?_, ?_, hk⟩
      · rw [leftmostBit, isPowerOfTwo, if_neg h, if_neg (by simpa using hne), hf]
      have hl : t.toNat.log2 < k + 1 :=
        (Nat.pow_lt_pow_iff_right (by decide)).1 (Nat.lt_of_le_of_lt hb hlt)
      exact (Nat.log2_lt hz).1 hl

theorem le_below_twoPow (hk : k < 64) (hz : z.toNat < 2 ^ (k + 1)) : z ≤ twoPow 64 k <<< 1 - 1 := by
  have hp : 2 ^ k ≤ 2 ^ 63 := Nat.pow_le_pow_right (by decide) (by omega)
  have hlt := z.isLt
  have ho : (1 : BitVec 64).toNat = 1 := rfl
  rw [BitVec.le_def, toNat_sub, toNat_shiftLeft, toNat_twoPow, Nat.shiftLeft_eq, ho]
  omega

/-- The loop ends, with a range that is large enough, unless both upper bounds are zero. -/
theorem binaryXor_right_iff (a b : ValueRange) : (∃ fuel r, binaryXor fuel a b = some r ∧
      ∀ x y, a.Contains x → b.Contains y → r.Contains (x ^^^ y)) ↔
      (a.isFixed && b.isFixed) = true ∨ a.max ||| b.max ≠ 0 := by
  by_cases hx : (a.isFixed && b.isFixed) = true
  · refine iff_of_true ⟨0, _, if_pos hx, ?_⟩ (.inl hx)
    rw [Bool.and_eq_true, isFixed, isFixed, decide_eq_true_eq, decide_eq_true_eq] at hx
    intro x y hax hby
    have hxa : x = a.min := eq_of_toNat_eq (Nat.le_antisymm (hx.1 ▸ hax.2) hax.1)
    have hyb : y = b.min := eq_of_toNat_eq (Nat.le_antisymm (hx.2 ▸ hby.2) hby.1)
    rw [hxa, hyb]
    exact ⟨Nat.le_refl _, Nat.le_refl _⟩
  rw [or_iff_right hx]
  constructor
  · rintro ⟨fuel, r, hr, -⟩ hz
    rw [binaryXor, if_neg hx, hz, leftmostBit_zero] at hr
    cases hr
  intro hz
  obtain ⟨fuel, k, hf, hlt, hk⟩ := leftmostBit_spec hz
  refine ⟨fuel, ⟨0, twoPow 64 k <<< 1 - 1⟩, ?_, fun x y hax hby => ⟨Nat.zero_le _, ?_⟩⟩
  · rw [binaryXor, if_neg hx, hf]
    rfl
  apply le_below_twoPow hk
  exact Nat.xor_lt_two_pow (Nat.lt_of_le_of_lt (Nat.le_trans hax.2 Nat.left_le_or) hlt)
    (Nat.lt_of_le_of_lt (Nat.le_trans hby.2 Nat.right_le_or) hlt)

theorem emptyAndZero_diverges : (binaryXor · ⟨1, 0⟩ ⟨0, 0⟩) = fun _ => none := by
  funext fuel
  rw [binaryXor, if_neg (by decide)]
  exact congrArg _ (leftmostBit_zero fuel)

end ValueRange
end Chef
