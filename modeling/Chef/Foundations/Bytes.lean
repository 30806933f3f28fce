import Mathlib.Data.Nat.Digits.Lemmas

namespace Foundations
open List Nat
def setBytes (m : Nat → UInt8) (a n : Nat) (x : Nat → UInt8) : Nat → UInt8 :=
  fun j => if a ≤ j ∧ j < a + n then x (j - a) else m j

theorem setBytes_zero (m : Nat → UInt8) (a : Nat) (x : Nat → UInt8) : setBytes m a 0 x = m := by
  funext j
  exact if_neg (by omega)

theorem setBytes_succ (m : Nat → UInt8) (a n : Nat) (x : Nat → UInt8) (j : Nat) :
    setBytes m a (n + 1) x j = if j = a + n then x n else setBytes m a n x j := by
  rw [setBytes, setBytes]
  by_cases hj : j = a + n
  · rw [if_pos hj, if_pos (by omega), hj, Nat.add_sub_cancel_left]
  rw [if_neg hj]
  by_cases hin : a ≤ j ∧ j < a + n
  · rw [if_pos hin, if_pos (by omega)]
  · rw [if_neg hin, if_neg (by omega)]

theorem setBytes_congr (h : ∀ k < n, x k = y k) : setBytes m a n x = setBytes m a n y := by
  funext j
  simp only [setBytes]
  split
  · exact h _ (by omega)
  · rfl

section
variable (f : Nat → UInt8)
def leValue (n : Nat) : Nat := ofDigits 256 ((range n).map fun k => (f k).toNat)

theorem leValue_zero : leValue f 0 = 0 := rfl

theorem leValue_succ (n : Nat) : leValue f (n + 1) = leValue f n + 256 ^ n * (f n).toNat := by
  rw [leValue, range_succ, map_append, ofDigits_append, length_map,
    length_range, map_singleton, ofDigits_singleton]
  rfl

theorem leValue_one : leValue f 1 = (f 0).toNat := by
  rw [leValue_succ, leValue_zero, Nat.pow_zero, Nat.one_mul, Nat.zero_add]

theorem leValue_lt (n : Nat) : leValue f n < 256 ^ n := by
  induction n with
  | zero => exact Nat.one_pos
  | succ n ih =>
    have hb : (f n).toNat ≤ 255 := le_of_lt_succ (UInt8.toNat_lt _)
    rw [leValue_succ]
    calc leValue f n + 256 ^ n * (f n).toNat < 256 ^ n + 256 ^ n * 255 :=
          Nat.add_lt_add_of_lt_of_le ih (Nat.mul_le_mul_left _ hb)
      _ = 256 ^ (n + 1) := by ring

end

theorem leValue_congr (h : ∀ k < n, f k = g k) : leValue f n = leValue g n := by
  induction n with
  | zero => rfl
  | succ n ih => rw [leValue_succ, leValue_succ, ih fun k hk => h k (by omega), h n (by omega)]

theorem leValue_bytes (v n : Nat) :
    leValue (fun k => UInt8.ofNat (v / 256 ^ k)) n = v % 256 ^ n := by
  induction n with
  | zero => rw [leValue_zero, Nat.pow_zero, mod_one]
  | succ n ih =>
    rw [leValue_succ, ih, UInt8.toNat_ofNat']
    exact (mod_pow_succ).symm

end Foundations
