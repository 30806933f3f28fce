import Chef.BitfieldSimplifier
import Chef.SteadyRecreate
import Chef.Foundations.KnownBits
import Mathlib.Data.List.Forall2

namespace Chef
open Foundations List BitVec Chef.Expr ArithmeticKind BitsInfo
section
variable {e l r : Expr}
theorem Expr.ofNat_eval_toNat (h : e.WellTyped) (hw : e.width = w) :
    (BitVec.ofNat w (e.eval ρ)).toNat = e.eval ρ := by
  have hlt := e.eval_lt ρ h
  rw [hw] at hlt
  rw [toNat_ofNat, Nat.mod_eq_of_lt hlt]

theorem eval_and (h : (arithmetic .and l r).WellTyped) (i : Nat) :
    ((arithmetic .and l r).eval ρ).testBit i = ((l.eval ρ).testBit i && (r.eval ρ).testBit i) := by
  rw [eval, apply, toNat_and, ofNat_eval_toNat h.1 rfl,
    ofNat_eval_toNat h.2.1 h.2.2.symm, Nat.testBit_and]

theorem eval_or (h : (arithmetic .or l r).WellTyped) (i : Nat) :
    ((arithmetic .or l r).eval ρ).testBit i = ((l.eval ρ).testBit i || (r.eval ρ).testBit i) := by
  rw [eval, apply, toNat_or, ofNat_eval_toNat h.1 rfl,
    ofNat_eval_toNat h.2.1 h.2.2.symm, Nat.testBit_or]

theorem eval_xor (h : (arithmetic .xor l r).WellTyped) (i : Nat) :
    ((arithmetic .xor l r).eval ρ).testBit i = ((l.eval ρ).testBit i ^^ (r.eval ρ).testBit i) := by
  rw [eval, apply, toNat_xor, ofNat_eval_toNat h.1 rfl,
    ofNat_eval_toNat h.2.1 h.2.2.symm, Nat.testBit_xor]

theorem eval_shl (h : (arithmetic .shl l r).WellTyped) (i : Nat) :
    ((arithmetic .shl l r).eval ρ).testBit i =
      (decide (i < l.width) && (decide (r.eval ρ ≤ i) && (l.eval ρ).testBit (i - r.eval ρ))) := by
  rw [eval, apply, shiftLeft_eq', toNat_shiftLeft, ofNat_eval_toNat h.1 rfl,
    ofNat_eval_toNat h.2.1 h.2.2.symm, Nat.testBit_mod_two_pow, Nat.testBit_shiftLeft]

theorem eval_lshr (h : (arithmetic .lshr l r).WellTyped) (i : Nat) :
    ((arithmetic .lshr l r).eval ρ).testBit i = (l.eval ρ).testBit (r.eval ρ + i) := by
  rw [eval, apply, ushiftRight_eq', toNat_ushiftRight,
    ofNat_eval_toNat h.1 rfl, ofNat_eval_toNat h.2.1 h.2.2.symm, Nat.testBit_shiftRight]

theorem eval_not (h : e.WellTyped) (i : Nat) :
    ((not e).eval ρ).testBit i = (decide (i < e.width) && !(e.eval ρ).testBit i) := by
  rw [eval, toNat_not, ofNat_eval_toNat h rfl, Nat.sub_sub, Nat.add_comm 1,
    Nat.testBit_two_pow_sub_succ (e.eval_lt ρ h)]

theorem eval_extract (offset w i : Nat) : ((extract e offset w).eval ρ).testBit i =
      (decide (i < w) && (e.eval ρ).testBit (offset + i)) := by
  rw [eval, Nat.testBit_mod_two_pow, Nat.testBit_div_two_pow, Nat.add_comm]

theorem eval_concat (hr : r.WellTyped) (i : Nat) : ((concat l r).eval ρ).testBit i =
      if i < r.width then (r.eval ρ).testBit i else (l.eval ρ).testBit (i - r.width) := by
  rw [eval, Nat.mul_comm, Nat.testBit_two_pow_mul_add _ (r.eval_lt ρ hr)]

theorem eval_zext (h : (zext e w).WellTyped) : (zext e w).eval ρ = e.eval ρ := by
  have hlt := e.eval_lt ρ h.1
  rw [eval, Nat.mod_eq_of_lt (Nat.lt_of_lt_of_le hlt (Nat.pow_le_pow_right (by decide) h.2))]

theorem eval_sext (h : (sext e w).WellTyped) (i : Nat) : ((sext e w).eval ρ).testBit i =
      if i < e.width then (e.eval ρ).testBit i
      else decide (i < w) && (e.eval ρ).testBit (e.width - 1) := by
  have hb (j : Nat) : (BitVec.ofNat e.width (e.eval ρ)).getLsbD j = (e.eval ρ).testBit j := by
    rw [getLsbD, ofNat_eval_toNat h.1 rfl]
  have hle := h.2
  rw [eval]
  change getLsbD _ i = _
  rw [getLsbD_signExtend, msb_eq_getLsbD_last, hb, hb]
  by_cases hi : i < e.width
  · have hiw : i < w := by omega
    simp [hi, hiw]
  · simp [hi]

end

@[simp] theorem zeroMask_eq (w : Nat) : zeroMask w = highBits 64 w := by
  rw [zeroMask, highBits]
  split
  · rfl
  next hw => rw [shiftLeft_eq_zero (not_lt.1 hw)]

namespace BitsInfo
variable (bits : BitsInfo)
def Holds (x : Nat) : Prop := Known bits.knownOneBits bits.knownZeroBits x

def HoldsUpTo (x : Nat) : Prop := ∀ i, bits.ignoredBits.getLsbD i = false →
    (bits.knownOneBits.getLsbD i = true → x.testBit i = true) ∧
      (bits.knownZeroBits.getLsbD i = true → x.testBit i = false)

theorem Holds.ignoring {bits : BitsInfo} (h : bits.Holds x) (ignoredBits : BitVec 64) :
    (bits.ignoring ignoredBits).HoldsUpTo x := fun i _ => h i

theorem HoldsUpTo.orOnes (h : bits.HoldsUpTo x) : bits.orOnes.HoldsUpTo x := by
  rw [BitsInfo.orOnes]
  split
  next ho =>
    intro i hi
    refine ⟨fun hn => ?_, fun hz => ?_⟩
    · have hlt := lt_of_getLsbD hn
      have hb := congrArg (getLsbD · i) ho
      apply (h i hi).1
      grind
    · rw [getLsbD_zero] at hz
      cases hz
  · exact h

theorem HoldsUpTo.orZeros (h : bits.HoldsUpTo x) : bits.orZeros.HoldsUpTo x := by
  rw [BitsInfo.orZeros]
  split
  next hzs =>
    intro i hi
    refine ⟨fun ho => ?_, fun hz => ?_⟩
    · rw [getLsbD_zero] at ho
      cases ho
    have hlt := lt_of_getLsbD hz
    have hb := congrArg (getLsbD · i) hzs
    apply (h i hi).2
    grind
  · exact h

@[simp] theorem ignoredBits_orOnes : bits.orOnes.ignoredBits = bits.ignoredBits := by
  rw [BitsInfo.orOnes]
  split <;> rfl

@[simp] theorem ignoredBits_orZeros : bits.orZeros.ignoredBits = bits.ignoredBits := by
  rw [BitsInfo.orZeros]
  split <;> rfl

end BitsInfo

section
variable (ρ : Assignment)
structure KidFound (kid : Expr) (found : ExprBitsInfo) : Prop where
  wellTyped : found.1.WellTyped
  width_eq : found.1.width = kid.width
  narrow : kid.width ≤ 64
  steady : found.1.Steady ρ
  selectFree : kid.selectFree = true → found.1.selectFree = true
  eval_eq : found.1.eval ρ = kid.eval ρ
  holds : found.2.Holds (kid.eval ρ)
  ignored : found.2.ignoredBits = 0#64 ∨ found.2.isCovered = false

/-- An operand that takes the place of `kid`. -/
structure KidLeft (kid : Expr) (kept : ExprBitsInfo × BitsInfo) (left : Expr) : Prop where
  wellTyped : left.WellTyped
  width_eq : left.width = kid.width
  steady : left.Steady ρ
  selectFree : kid.selectFree = true → left.selectFree = true
  agree : AgreeOutside kept.2.ignoredBits (left.eval ρ) (kid.eval ρ)
  exact : left.eval ρ = kid.eval ρ ∨ left.isConstant = true
  same : kept.2 = kept.1.2 → left.eval ρ = kid.eval ρ

abbrev KidsLeft (kids : List Expr) (found : List ExprBitsInfo)
    (bits : List BitsInfo) (left : List Expr) : Prop :=
  Forall₂ (fun kid l => KidLeft ρ kid.1 kid.2 l) (kids.zip (found.zip bits)) left

structure SameOperand (kid left : Expr) : Prop where
  width_eq : left.width = kid.width
  eval_eq : left.eval ρ = kid.eval ρ

structure KindRight (e : Expr) (ignoredBits : BitVec 64)
    (found : List ExprBitsInfo) (r : BitVec 64 × BitVec 64 × List BitsInfo) : Prop where
  holds : Known r.1 r.2.1 (e.eval ρ)
  bits : Forall₂ (fun f now => now = f.2 ∨ now.HoldsUpTo (f.1.eval ρ)) found r.2.2
  agree : ∀ {left}, (e.withOperands left).WellTyped → KidsLeft ρ e.operands found r.2.2 left →
    AgreeOutside ignoredBits ((e.withOperands left).eval ρ) (e.eval ρ)

open KindRight
def Considered (e : Expr) (ignoredBits : BitVec 64) (found : List ExprBitsInfo) : Prop :=
  KindRight ρ e ignoredBits found (considerKind e ignoredBits found)

end

variable {e : Expr}
theorem withOperands_eval (h : Forall₂ (SameOperand ρ) e.operands left) :
    (e.withOperands left).eval ρ = e.eval ρ := by
  cases e with
  | constant w v => rfl
  | select c t f =>
    obtain _ | ⟨hc, _ | ⟨ht, _ | ⟨hf, ⟨⟩⟩⟩⟩ := h
    rw [withOperands, eval, eval, hc.eval_eq, ht.eval_eq, hf.eval_eq]
  | concat l r =>
    obtain _ | ⟨hl, _ | ⟨hr, ⟨⟩⟩⟩ := h
    rw [withOperands, eval, eval, hl.eval_eq, hr.eval_eq, hr.width_eq]
  | arithmetic kind l r | compare kind l r =>
    obtain _ | ⟨hl, _ | ⟨hr, ⟨⟩⟩⟩ := h
    rw [withOperands, eval, eval, hl.eval_eq, hr.eval_eq, hl.width_eq]
  | notOptimized src | read root head index | extract e offset w | zext src w =>
    obtain _ | ⟨hk, ⟨⟩⟩ := h
    rw [withOperands, eval, eval, hk.eval_eq]
  | sext src w | not e =>
    obtain _ | ⟨hk, ⟨⟩⟩ := h
    rw [withOperands, eval, eval, hk.eval_eq, hk.width_eq]

theorem KidsLeft.unchanged (hf : Forall₂ (KidFound ρ) kids found)
    (h : KidsLeft ρ kids found (found.map Prod.snd) left) : Forall₂ (SameOperand ρ) kids left := by
  induction hf generalizing left with
  | nil =>
    cases h
    exact .nil
  | cons _ _ ih =>
    rw [KidsLeft, map_cons, zip_cons_cons, zip_cons_cons] at h
    cases h with
    | cons hk hr => exact .cons ⟨hk.width_eq, hk.same rfl⟩ (ih hr)

variable {ignoredBits : BitVec 64}
theorem KindRight.default (hlt : e.eval ρ < 2 ^ e.width)
    (hf : Forall₂ (KidFound ρ) e.operands found) :
    KindRight ρ e ignoredBits found (0#64, zeroMask e.width, found.map Prod.snd) := by
  refine ⟨?_, ?_, fun _ hl => .of_eq (withOperands_eval (hl.unchanged hf))⟩
  · rw [zeroMask_eq]
    exact known_highBits 64 hlt
  · rw [forall₂_map_right_iff, forall₂_same]
    exact fun _ _ => .inl rfl

theorem KidFound.ignoring (h : KidFound ρ kid f) (ignoredBits : BitVec 64) :
    (f.2.ignoring ignoredBits).HoldsUpTo (f.1.eval ρ) := by
  rw [h.eval_eq]
  exact h.holds.ignoring ignoredBits

theorem KindRight.and (h : (arithmetic .and l r).WellTyped) (h0 : KidFound ρ l f0)
    (h1 : KidFound ρ r f1) : Considered ρ (.arithmetic .and l r) ignoredBits [f0, f1] := by
  refine ⟨h0.holds.and h1.holds (eval_and h), ?_, fun hty hl => ?_⟩
  · exact .cons (.inr (h0.ignoring _).orOnes) (.cons (.inr (h1.ignoring _).orOnes) .nil)
  obtain _ | ⟨hk0, _ | ⟨hk1, ⟨⟩⟩⟩ := hl
  have ha := hk0.agree
  have ha' := hk1.agree
  rw [ignoredBits_orOnes] at ha ha'
  exact h0.holds.agree_and h1.holds ha ha' (eval_and h) (eval_and hty)

theorem KindRight.or (h : (arithmetic .or l r).WellTyped) (h0 : KidFound ρ l f0)
    (h1 : KidFound ρ r f1) : Considered ρ (.arithmetic .or l r) ignoredBits [f0, f1] := by
  refine ⟨h0.holds.or h1.holds (eval_or h), ?_, fun hty hl => ?_⟩
  · exact .cons (.inr (h0.ignoring _).orZeros) (.cons (.inr (h1.ignoring _).orZeros) .nil)
  obtain _ | ⟨hk0, _ | ⟨hk1, ⟨⟩⟩⟩ := hl
  have ha := hk0.agree
  have ha' := hk1.agree
  rw [ignoredBits_orZeros] at ha ha'
  exact h0.holds.agree_or h1.holds ha ha' (eval_or h) (eval_or hty)

theorem KindRight.xor (h : (arithmetic .xor l r).WellTyped) (h0 : KidFound ρ l f0)
    (h1 : KidFound ρ r f1) : Considered ρ (.arithmetic .xor l r) ignoredBits [f0, f1] := by
  refine ⟨h0.holds.xor h1.holds (eval_xor h), ?_, fun hty hl => ?_⟩
  · exact .cons (.inr (h0.ignoring _)) (.cons (.inr (h1.ignoring _)) .nil)
  obtain _ | ⟨hk0, _ | ⟨hk1, ⟨⟩⟩⟩ := hl
  intro i hi hm
  rw [eval_xor h i]
  refine (eval_xor hty i).trans ?_
  rw [hk0.agree i hi hm, hk1.agree i hi hm]

theorem KindRight.not (h : (not e).WellTyped) (h0 : KidFound ρ e f0) :
    Considered ρ (.not e) ignoredBits [f0] := by
  have hb := eval_not (ρ := ρ) (e := e) h
  rw [Considered, considerKind, zeroMask_eq, width]
  refine ⟨h0.holds.not hb, .cons (.inr (h0.ignoring _)) .nil, fun _ hl => ?_⟩
  obtain _ | ⟨hk0, ⟨⟩⟩ := hl
  intro i hi hm
  rw [hb i]
  refine (eval_not hk0.wellTyped i).trans ?_
  rw [hk0.agree i hi hm, hk0.width_eq]

theorem KindRight.extract (h : (extract e offset w).WellTyped) (h0 : KidFound ρ e f0) :
    Considered ρ (.extract e offset w) ignoredBits [f0] := by
  rw [Considered, considerKind, zeroMask_eq]
  refine ⟨h0.holds.extract (eval_extract offset w), .cons (.inr (h0.ignoring _)) .nil,
    fun _ hl => ?_⟩
  obtain _ | ⟨hk0, ⟨⟩⟩ := hl
  exact hk0.agree.extract (le_trans h.2 h0.narrow) (eval_extract offset w) (eval_extract offset w)

theorem KindRight.zext (h : (zext e w).WellTyped) (h0 : KidFound ρ e f0) :
    Considered ρ (.zext e w) ignoredBits [f0] := by
  refine ⟨?_, .cons (.inr (h0.ignoring _)) .nil, fun hty hl => ?_⟩
  · rw [eval_zext h]
    exact h0.holds
  obtain _ | ⟨hk0, ⟨⟩⟩ := hl
  rw [eval_zext h]
  intro i hi hm
  rw [← hk0.agree i hi hm]
  exact congrArg (Nat.testBit · i) (eval_zext hty)

theorem KindRight.concat (h : (concat l r).WellTyped) (h0 : KidFound ρ l f0)
    (h1 : KidFound ρ r f1) : Considered ρ (.concat l r) ignoredBits [f0, f1] := by
  rw [Considered, considerKind, zeroMask_eq, zeroMask_eq, h0.width_eq, h1.width_eq]
  refine ⟨h0.holds.concat h1.holds (r.eval_lt ρ h.2) (eval_concat h.2), ?_, fun hty hl => ?_⟩
  · exact .cons (.inr (h0.ignoring _)) (.cons (.inr (h1.ignoring _)) .nil)
  obtain _ | ⟨hk0, _ | ⟨hk1, ⟨⟩⟩⟩ := hl
  have hlt := eval_lt ρ _ hk0.wellTyped
  rw [hk0.width_eq] at hlt
  apply hk0.agree.concat hk1.agree (l.eval_lt ρ h.1) hlt (eval_concat h.2)
  intro i
  rw [← hk1.width_eq]
  exact eval_concat hk1.wellTyped i

theorem KindRight.select (h : (Expr.select c t f).WellTyped) (h1 : KidFound ρ t f1)
    (h2 : KidFound ρ f f2) : Considered ρ (.select c t f) ignoredBits [f0, f1, f2] := by
  have hlt := (Expr.select c t f).eval_lt ρ h
  rw [Considered, considerKind, zeroMask_eq]
  refine ⟨h1.holds.either h2.holds ?_ hlt, ?_, fun hty hl => ?_⟩
  · rw [Expr.eval]
    split
    · exact .inl rfl
    · exact .inr rfl
  · exact .cons (.inl rfl) (.cons (.inr (h1.ignoring _)) (.cons (.inr (h2.ignoring _)) .nil))
  · obtain _ | ⟨hk0, _ | ⟨hk1, _ | ⟨hk2, ⟨⟩⟩⟩⟩ := hl
    rw [Expr.withOperands, Expr.eval, Expr.eval, hk0.same rfl]
    split
    · exact hk1.agree
    · exact hk2.agree

theorem considerKind_sext (e : Expr) (w : Nat) (ignoredBits : BitVec 64) (f0 : ExprBitsInfo)
    (hw : f0.1.width = e.width) : considerKind (.sext e w) ignoredBits [f0] =
      let mask := signBits 64 e.width w
      let kept := if mask &&& ~~~ignoredBits ≠ 0#64 then
        ignoredBits &&& ~~~(1#64 <<< (e.width - 1)) else ignoredBits
      if f0.2.knownOneBits.getLsbD (e.width - 1) = true then
        (f0.2.knownOneBits ||| mask, f0.2.knownZeroBits &&& ~~~mask, [f0.2.ignoring kept])
      else if f0.2.knownZeroBits.getLsbD (e.width - 1) = true then
        (f0.2.knownOneBits, f0.2.knownZeroBits ||| mask, [f0.2.ignoring kept])
      else (f0.2.knownOneBits, f0.2.knownZeroBits &&& ~~~mask, [f0.2.ignoring kept]) := by
  simp only [considerKind, zeroMask_eq, hw, width, and_bit_ne_zero, signBits]
  congr

theorem KindRight.sext (h : (Expr.sext e w).WellTyped) (h0 : KidFound ρ e f0) :
    Considered ρ (.sext e w) ignoredBits [f0] := by
  have hlt := e.eval_lt ρ h.1
  obtain ⟨hkn, ho, hz⟩ := h0.holds.signExtend hlt (eval_sext h)
  have ha (left : List Expr) (kept : BitVec 64)
      (hkp : kept = if signBits 64 e.width w &&& ~~~ignoredBits ≠ 0#64 then
        ignoredBits &&& ~~~(1#64 <<< (e.width - 1)) else ignoredBits)
      (hty : ((Expr.sext e w).withOperands left).WellTyped)
      (hl : KidsLeft ρ (Expr.sext e w).operands [f0] [f0.2.ignoring kept] left) :
      AgreeOutside ignoredBits (((Expr.sext e w).withOperands left).eval ρ)
        ((Expr.sext e w).eval ρ) := by
    obtain _ | ⟨hk0, ⟨⟩⟩ := hl
    have hlt' := Expr.eval_lt ρ _ hk0.wellTyped
    rw [hk0.width_eq] at hlt'
    apply hk0.agree.signExtend h0.narrow _ _ hlt hlt' (eval_sext h)
    · intro i
      rw [← hk0.width_eq]
      exact eval_sext hty i
    · intro i hi
      change kept.getLsbD i = false
      rw [hkp]
      split
      · rw [getLsbD_and, hi, Bool.false_and]
      · exact hi
    · intro hne
      change kept.getLsbD (e.width - 1) = false
      grind
  have hbi (kept : BitVec 64) : List.Forall₂
      (fun (f : ExprBitsInfo) now => now = f.2 ∨ now.HoldsUpTo (f.1.eval ρ)) [f0]
        [f0.2.ignoring kept] := .cons (.inr (h0.ignoring _)) .nil
  rw [Considered, considerKind_sext e w ignoredBits f0 h0.width_eq]
  split
  next hs => exact ⟨ho hs, hbi _, ha _ _ rfl⟩
  · split
    next hs => exact ⟨hz hs, hbi _, ha _ _ rfl⟩
    · exact ⟨hkn, hbi _, ha _ _ rfl⟩

theorem KidFound.constant_eval (h : KidFound ρ kid (.constant u v, bits)) : kid.eval ρ = v := by
  have hv : v < 2 ^ u := h.wellTyped
  rw [← h.eval_eq, eval, Nat.mod_eq_of_lt hv]

theorem KindRight.shiftedOut (h0 : KidFound ρ l f0)
    (hbi : ∀ i, ((arithmetic kind l r).eval ρ).testBit i = false)
    (hl : ∀ {k0 k1 : Expr}, (arithmetic kind k0 k1).WellTyped → k0.width = l.width →
      k1.eval ρ = r.eval ρ → ∀ i, ((arithmetic kind k0 k1).eval ρ).testBit i = false) :
    KindRight ρ (.arithmetic kind l r) ignoredBits [f0, f1]
      (0#64, allOnes 64, [f0.2.ignoring (allOnes 64), f1.2]) := by
  refine ⟨fun i => ⟨fun ho => ?_, fun _ => hbi i⟩, ?_, fun hty hks => ?_⟩
  · rw [getLsbD_zero] at ho
    cases ho
  · exact .cons (.inr (h0.ignoring _)) (.cons (.inl rfl) .nil)
  obtain _ | ⟨hk0, _ | ⟨hk1, ⟨⟩⟩⟩ := hks
  intro i _ _
  rw [hbi i]
  exact hl hty hk0.width_eq (hk1.same rfl) i

theorem KindRight.shl (h : (arithmetic .shl l r).WellTyped) (h0 : KidFound ρ l f0)
    (h1 : KidFound ρ r (.constant u shift, b1)) :
    Considered ρ (.arithmetic .shl l r) ignoredBits [f0, (.constant u shift, b1)] := by
  have hsh := h1.constant_eval
  have hb := eval_shl (ρ := ρ) h
  rw [hsh] at hb
  rw [Considered, considerKind, width]
  split
  · simp only [zeroMask_eq]
    refine ⟨h0.holds.shiftLeft hb, ?_, fun hty hl => ?_⟩
    · exact .cons (.inr (h0.ignoring _)) (.cons (.inl rfl) .nil)
    obtain _ | ⟨hk0, _ | ⟨hk1, ⟨⟩⟩⟩ := hl
    apply hk0.agree.shiftLeft hb
    intro i
    refine (eval_shl hty i).trans ?_
    rw [hk1.same rfl, hk0.width_eq, hsh]
  next hle =>
    apply shiftedOut h0
    · intro i
      grind
    · intro k0 k1 hty hk0 hk1 i
      rw [eval_shl hty i, hk1, hk0, hsh]
      grind

theorem KindRight.lshr (h : (arithmetic .lshr l r).WellTyped) (h0 : KidFound ρ l f0)
    (h1 : KidFound ρ r (.constant u shift, b1)) :
    Considered ρ (.arithmetic .lshr l r) ignoredBits [f0, (.constant u shift, b1)] := by
  have hsh := h1.constant_eval
  have hb := eval_lshr (ρ := ρ) h
  have hlt := l.eval_lt ρ h.1
  rw [hsh] at hb
  rw [Considered, considerKind, width]
  split
  · simp only [zeroMask_eq]
    refine ⟨h0.holds.shiftRight hlt hb, ?_, fun hty hl => ?_⟩
    · exact .cons (.inr (h0.ignoring _)) (.cons (.inl rfl) .nil)
    obtain _ | ⟨hk0, _ | ⟨hk1, ⟨⟩⟩⟩ := hl
    have hlt' := eval_lt ρ _ hk0.wellTyped
    rw [hk0.width_eq] at hlt'
    apply hk0.agree.shiftRight hlt hlt' h0.narrow hb
    intro i
    refine (eval_lshr hty i).trans ?_
    rw [hk1.same rfl, hsh]
  next hle =>
    apply shiftedOut h0
    · intro i
      rw [hb i, testBit_of_lt hlt (by omega)]
    intro k0 k1 hty hk0 hk1 i
    have hlt' := eval_lt ρ _ hty.1
    rw [hk0] at hlt'
    rw [eval_lshr hty i, hk1, hsh, testBit_of_lt hlt' (by omega)]

theorem KindRight.constant (w : Nat) (hv : v < 2 ^ w) (hw : w ≤ 64) :
    Considered ρ (.constant w v) ignoredBits [] := by
  rw [Considered, considerKind]
  refine ⟨?_, .nil, fun _ _ => .refl _ _⟩
  intro i
  have hv64 : v < 2 ^ 64 := lt_of_lt_of_le hv (Nat.pow_le_pow_right (by decide) hw)
  have hb : (BitVec.ofNat 64 v).getLsbD i = v.testBit i := by
    rw [getLsbD, toNat_ofNat, Nat.mod_eq_of_lt hv64]
  rw [eval, Nat.mod_eq_of_lt hv, getLsbD_not, hb]
  refine ⟨id, fun h => ?_⟩
  rw [Bool.and_eq_true_iff, Bool.not_eq_true'] at h
  exact h.2

theorem KindRight.arithmetic (h : (Expr.arithmetic kind l r).WellTyped) (h0 : KidFound ρ l f0)
    (h1 : KidFound ρ r f1) : Considered ρ (.arithmetic kind l r) ignoredBits [f0, f1] := by
  have hd : KindRight ρ (.arithmetic kind l r) ignoredBits [f0, f1]
      (0#64, zeroMask (Expr.arithmetic kind l r).width, [f0.2, f1.2]) :=
    default (Expr.eval_lt ρ _ h) (.cons h0 (.cons h1 .nil))
  cases kind with
  | and => exact and h h0 h1
  | or => exact or h h0 h1
  | xor => exact xor h h0 h1
  | shl =>
    obtain ⟨k1, b1⟩ := f1
    cases k1 with
    | constant u v => exact shl h h0 h1
    | _ => exact hd
  | lshr =>
    obtain ⟨k1, b1⟩ := f1
    cases k1 with
    | constant u v => exact lshr h h0 h1
    | _ => exact hd
  | _ => exact hd

/-- The known bits are right, and only ignored bits change. -/
theorem considerKind_right (h : e.WellTyped) (hw : e.width ≤ 64)
    (hf : Forall₂ (KidFound ρ) e.operands found) : Considered ρ e ignoredBits found := by
  have hlt := e.eval_lt ρ h
  cases e with
  | constant w v =>
    cases hf
    exact KindRight.constant w h hw
  | notOptimized src | read root head index =>
    obtain _ | ⟨h0, ⟨⟩⟩ := hf
    exact KindRight.default hlt (.cons h0 .nil)
  | select c t f =>
    obtain _ | ⟨h0, _ | ⟨h1, _ | ⟨h2, ⟨⟩⟩⟩⟩ := hf
    exact KindRight.select h h1 h2
  | concat l r =>
    obtain _ | ⟨h0, _ | ⟨h1, ⟨⟩⟩⟩ := hf
    exact KindRight.concat h h0 h1
  | extract e offset w =>
    obtain _ | ⟨h0, ⟨⟩⟩ := hf
    exact KindRight.extract h h0
  | zext src w =>
    obtain _ | ⟨h0, ⟨⟩⟩ := hf
    exact KindRight.zext h h0
  | sext src w =>
    obtain _ | ⟨h0, ⟨⟩⟩ := hf
    exact KindRight.sext h h0
  | not e =>
    obtain _ | ⟨h0, ⟨⟩⟩ := hf
    exact KindRight.not h h0
  | arithmetic kind l r =>
    obtain _ | ⟨h0, _ | ⟨h1, ⟨⟩⟩⟩ := hf
    exact KindRight.arithmetic h h0 h1
  | compare kind l r =>
    obtain _ | ⟨h0, _ | ⟨h1, ⟨⟩⟩⟩ := hf
    exact KindRight.default hlt (.cons h0 (.cons h1 .nil))

end Chef
