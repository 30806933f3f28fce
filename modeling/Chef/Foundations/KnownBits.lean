import Mathlib.Data.Nat.Bitwise

namespace Foundations
open BitVec
def Known (ones zeros : BitVec m) (x : Nat) : Prop :=
  ∀ i, (ones.getLsbD i = true → x.testBit i = true) ∧ (zeros.getLsbD i = true → x.testBit i = false)

/-- The bits that are not masked are the same. -/
def AgreeOutside (mask : BitVec m) (x y : Nat) : Prop :=
  ∀ i, i < m → mask.getLsbD i = false → x.testBit i = y.testBit i

def highBits (m w : Nat) : BitVec m := allOnes m <<< w

@[simp, grind =] theorem getLsbD_highBits (m w i : Nat) :
    (highBits m w).getLsbD i = (decide (i < m) && decide (w ≤ i)) := by
  rw [highBits, getLsbD_shiftLeft, getLsbD_allOnes, Bool.eq_iff_iff]
  simp only [Bool.and_eq_true, Bool.not_eq_true', decide_eq_true_eq, decide_eq_false_iff_not]
  omega

theorem testBit_of_lt (h : x < 2 ^ w) (hi : w ≤ i) : x.testBit i = false :=
  Nat.testBit_lt_two_pow (Nat.lt_of_lt_of_le h (Nat.pow_le_pow_right (by decide) hi))

theorem lt_of_testBit (h : x < 2 ^ w) (hi : x.testBit i = true) : i < w := by
  by_contra hle
  rw [testBit_of_lt h (Nat.not_lt.1 hle)] at hi
  cases hi

section
variable {mask mask' : BitVec m}
theorem AgreeOutside.refl (mask : BitVec m) (x : Nat) : AgreeOutside mask x x := fun _ _ _ => rfl

theorem AgreeOutside.of_eq (h : x = y) : AgreeOutside mask x y := h ▸ AgreeOutside.refl mask x

theorem AgreeOutside.eq (h : AgreeOutside mask x y) (hx : x < 2 ^ w) (hy : y < 2 ^ w) (hw : w ≤ m)
    (hm : ∀ i, i < w → mask.getLsbD i = false) : x = y := by
  apply Nat.eq_of_testBit_eq
  intro i
  by_cases hi : i < w
  · exact h i (by omega) (hm i hi)
  · rw [testBit_of_lt hx (by omega), testBit_of_lt hy (by omega)]

theorem agreeOutside_ones
    (ho : ∀ i, mask.getLsbD i = false → ones.getLsbD i = true → x.testBit i = true)
    (hzs : ∀ i, mask.getLsbD i = false → zeros.getLsbD i = true → x.testBit i = false)
    (hc : ~~~(ones ||| zeros ||| mask) = 0#m)
    (hy : ∀ i, i < m → mask.getLsbD i = false → y.testBit i = ones.getLsbD i) :
    AgreeOutside mask y x := by
  intro i hi hm
  have hb := congrArg (getLsbD · i) hc
  simp only [getLsbD_not, getLsbD_or, getLsbD_zero, hi, hm] at hb
  rw [hy i hi hm]
  cases hn : ones.getLsbD i with
  | true => exact (ho i hm hn).symm
  | false =>
    rw [hn] at hb
    cases hz : zeros.getLsbD i with
    | true => exact (hzs i hm hz).symm
    | false => simp [hz] at hb

end

section
variable {o z o' z' ignored : BitVec m}
theorem known_highBits (m : Nat) (hx : x < 2 ^ w) : Known 0#m (highBits m w) x := by
  intro i
  refine ⟨fun ho => ?_, fun hz => ?_⟩
  · simp at ho
  · simp only [getLsbD_highBits, Bool.and_eq_true, decide_eq_true_eq] at hz
    exact testBit_of_lt hx hz.2

section
variable (hx : Known o z x) (hy : Known o' z' y)
include hx hy
theorem Known.and (hr : ∀ i, r.testBit i = (x.testBit i && y.testBit i)) :
    Known (o &&& o') (z ||| z') r := by
  intro i
  have hx := hx i
  have hy := hy i
  grind

theorem Known.or (hr : ∀ i, r.testBit i = (x.testBit i || y.testBit i)) :
    Known (o ||| o') (z &&& z') r := by
  intro i
  have hx := hx i
  have hy := hy i
  grind

theorem Known.xor (hr : ∀ i, r.testBit i = (x.testBit i ^^ y.testBit i)) :
    Known ((z &&& o') ||| (o &&& z')) ((o &&& o') ||| (z &&& z')) r := by
  intro i
  have hx := hx i
  have hy := hy i
  grind

theorem Known.agree_and (ha : AgreeOutside (ignored ||| z') x' x)
    (hb : AgreeOutside (ignored ||| (z &&& ~~~z')) y' y)
    (hr : ∀ i, r.testBit i = (x.testBit i && y.testBit i))
    (hr' : ∀ i, r'.testBit i = (x'.testBit i && y'.testBit i)) : AgreeOutside ignored r' r := by
  intro i hi hm
  have ha := ha i hi
  have hb := hb i hi
  have hx := hx i
  have hy := hy i
  rw [hr i, hr' i]
  grind

theorem Known.agree_or (ha : AgreeOutside (ignored ||| o') x' x)
    (hb : AgreeOutside (ignored ||| (o &&& ~~~o')) y' y)
    (hr : ∀ i, r.testBit i = (x.testBit i || y.testBit i))
    (hr' : ∀ i, r'.testBit i = (x'.testBit i || y'.testBit i)) : AgreeOutside ignored r' r := by
  intro i hi hm
  have ha := ha i hi
  have hb := hb i hi
  have hx := hx i
  have hy := hy i
  rw [hr i, hr' i]
  grind

end

theorem Known.not (hx : Known o z x) (hr : ∀ i, r.testBit i = (decide (i < w) && !x.testBit i)) :
    Known (z &&& ~~~highBits m w) (o ||| highBits m w) r := by
  intro i
  have hx := hx i
  grind

theorem Known.shiftLeft (hx : Known o z x)
    (hr : ∀ i, r.testBit i = (decide (i < w) && (decide (s ≤ i) && x.testBit (i - s)))) :
    Known ((o <<< s) &&& ~~~highBits m w) ((z <<< s) ||| highBits m w ||| ~~~highBits m s) r := by
  intro i
  have hx := hx (i - s)
  grind

theorem AgreeOutside.shiftLeft
    (hx : AgreeOutside (((ignored &&& ~~~highBits m w) >>> s) ||| highBits m (w - s)) x' x)
    (hr : ∀ i, r.testBit i = (decide (i < w) && (decide (s ≤ i) && x.testBit (i - s))))
    (hr' : ∀ i, r'.testBit i = (decide (i < w) && (decide (s ≤ i) && x'.testBit (i - s)))) :
    AgreeOutside ignored r' r := by
  intro i hi hm
  have hx := hx (i - s) (by omega)
  simp only [getLsbD_or, getLsbD_and, getLsbD_not, getLsbD_highBits, getLsbD_ushiftRight] at hx
  grind

theorem Known.shiftRight (hx : Known o z x) (hlt : x < 2 ^ w)
    (hr : ∀ i, r.testBit i = x.testBit (s + i)) :
    Known (o >>> s) ((z >>> s) ||| highBits m (w - s)) r := by
  intro i
  have hx := hx (s + i)
  have hlt := fun h => testBit_of_lt (i := s + i) hlt h
  grind

theorem AgreeOutside.shiftRight
    (hx : AgreeOutside ((ignored <<< s) ||| ~~~highBits m s ||| highBits m w) x' x)
    (hlt : x < 2 ^ w) (hlt' : x' < 2 ^ w) (hw : w ≤ m)
    (hr : ∀ i, r.testBit i = x.testBit (s + i)) (hr' : ∀ i, r'.testBit i = x'.testBit (s + i)) :
    AgreeOutside ignored r' r := by
  intro i hi hm
  rw [hr i, hr' i]
  by_cases hin : s + i < w
  · apply hx (s + i) (by omega)
    grind
  · rw [testBit_of_lt hlt (by omega), testBit_of_lt hlt' (by omega)]

theorem Known.extract (hx : Known o z x)
    (hr : ∀ i, r.testBit i = (decide (i < w) && x.testBit (s + i))) :
    Known ((o >>> s) &&& ~~~highBits m w) ((z >>> s) ||| highBits m w) r := by
  intro i
  have hx := hx (s + i)
  grind

theorem AgreeOutside.extract
    (hx : AgreeOutside ((ignored <<< s) ||| ~~~((~~~highBits m w) <<< s)) x' x) (hw : s + w ≤ m)
    (hr : ∀ i, r.testBit i = (decide (i < w) && x.testBit (s + i)))
    (hr' : ∀ i, r'.testBit i = (decide (i < w) && x'.testBit (s + i))) :
    AgreeOutside ignored r' r := by
  intro i hi hm
  rw [hr i, hr' i]
  by_cases hin : i < w
  · rw [hx (s + i) (by omega)]
    simp only [getLsbD_or, getLsbD_not, getLsbD_highBits, getLsbD_shiftLeft]
    grind
  · simp [hin]

theorem Known.concat (hx : Known o z x) (hy : Known o' z' y) (hlt : y < 2 ^ s)
    (hr : ∀ i, r.testBit i = if i < s then y.testBit i else x.testBit (i - s)) :
    Known ((o <<< s) ||| o') ((z <<< s) ||| (z' &&& ~~~highBits m s)) r := by
  intro i
  have hx := hx (i - s)
  have hy := hy i
  have hlt := fun h => testBit_of_lt (i := i) hlt h
  grind

theorem AgreeOutside.concat (hx : AgreeOutside ((ignored >>> s) ||| highBits m w) x' x)
    (hy : AgreeOutside (ignored ||| highBits m s) y' y) (hlt : x < 2 ^ w) (hlt' : x' < 2 ^ w)
    (hr : ∀ i, r.testBit i = if i < s then y.testBit i else x.testBit (i - s))
    (hr' : ∀ i, r'.testBit i = if i < s then y'.testBit i else x'.testBit (i - s)) :
    AgreeOutside ignored r' r := by
  intro i hi hm
  rw [hr i, hr' i]
  split
  next hin =>
    apply hy i hi
    grind
  next hin =>
    by_cases hw : i - s < w
    · apply hx (i - s) (by omega)
      grind
    · rw [testBit_of_lt hlt (by omega), testBit_of_lt hlt' (by omega)]

theorem Known.either (hx : Known o z x) (hy : Known o' z' y) (hr : r = x ∨ r = y)
    (hlt : r < 2 ^ w) : Known (o &&& o') ((z &&& z') ||| highBits m w) r := by
  intro i
  have hx := hx i
  have hy := hy i
  have hlt := fun h => testBit_of_lt (i := i) hlt h
  grind

end

variable {o z ignored : BitVec m}
def signBits (m u w : Nat) : BitVec m := highBits m u &&& ~~~highBits m w

@[grind =] theorem getLsbD_signBits (m u w i : Nat) :
    (signBits m u w).getLsbD i = (decide (i < m) && decide (u ≤ i) && decide (i < w)) := by
  simp only [signBits, getLsbD_and, getLsbD_not, getLsbD_highBits]
  grind

theorem Known.signExtend (hx : Known o z x) (hlt : x < 2 ^ u) (hr : ∀ i, r.testBit i =
      if i < u then x.testBit i else decide (i < w) && x.testBit (u - 1)) :
    Known o (z &&& ~~~signBits m u w) r ∧
      (o.getLsbD (u - 1) = true → Known (o ||| signBits m u w) (z &&& ~~~signBits m u w) r) ∧
      (z.getLsbD (u - 1) = true → Known o (z ||| signBits m u w) r) := by
  have hlt := fun i => testBit_of_lt (i := i) hlt
  have hs := hx (u - 1)
  refine ⟨fun i => ?_, fun ho i => ?_, fun hz i => ?_⟩
  · have hx := hx i
    grind
  · have hx := hx i
    grind
  · have hx := hx i
    grind

theorem and_bit_ne_zero (o : BitVec m) (i : Nat) : o &&& (1#m <<< i) ≠ 0#m ↔ o.getLsbD i =
    true := by
  have hb (j : Nat) : (o &&& (1#m <<< i)).getLsbD j = (o.getLsbD j && decide (j = i)) := by
    grind
  refine ⟨fun hne => ?_, fun hi hz => ?_⟩
  · by_contra hi
    apply hne
    apply eq_of_getLsbD_eq
    intro j _
    grind
  · have hz := hb i
    rw [‹o &&& _ = _›, getLsbD_zero, hi] at hz
    simp at hz

theorem AgreeOutside.signExtend {kept : BitVec m} (hx : AgreeOutside kept x' x) (hw : u ≤ m)
    (hkp : ∀ i, ignored.getLsbD i = false → kept.getLsbD i = false)
    (hs : signBits m u w &&& ~~~ignored ≠ 0#m → kept.getLsbD (u - 1) = false)
    (hlt : x < 2 ^ u) (hlt' : x' < 2 ^ u) (hr : ∀ i, r.testBit i =
      if i < u then x.testBit i else decide (i < w) && x.testBit (u - 1)) (hr' : ∀ i, r'.testBit i =
      if i < u then x'.testBit i else decide (i < w) && x'.testBit (u - 1)) :
    AgreeOutside ignored r' r := by
  intro i hi hm
  rw [hr i, hr' i]
  split
  · exact hx i hi (hkp i hm)
  next hiu =>
    by_cases hp : u = 0
    · subst hp
      rw [testBit_of_lt hlt (Nat.zero_le _), testBit_of_lt hlt' (Nat.zero_le _)]
    by_cases hiw : i < w
    · have hne : signBits m u w &&& ~~~ignored ≠ 0#m := by
        intro hz
        have hb := congrArg (getLsbD · i) hz
        grind
      rw [hx (u - 1) (by omega) (hs hne)]
    · simp [hiw]

end Foundations
