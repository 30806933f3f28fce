import Chef.Z3Values

namespace Chef
open Foundations Z3Builder BitVec Option Chef.Expr SmtTerm Bool Nat
def Translated (N : ArrayNames) (mode : ArrayMode) (μ : SmtModel) (A : APInt) (ρ : Assignment)
    (e : Expr) : Prop :=
  ∃ t, makeExpr N mode e = some t ∧ t.eval μ = some (smtValue e.width (e.evaluate A ρ))

theorem translated_iff_value (hm : makeExpr N mode e = some t) (he : t.eval μ = some v) :
    Translated N mode μ A ρ e ↔ v = smtValue e.width (e.evaluate A ρ) := by
  constructor
  · rintro ⟨t', hma, hea⟩
    rw [hm, some.injEq] at hma
    rw [← hma, he, some.injEq] at hea
    exact hea
  · intro hv
    exact ⟨t, hm, hv ▸ he⟩

theorem Translated.bool (h : Translated N mode μ A ρ e) (hw : e.width = 1) :
    ∃ t, makeExpr N mode e = some t ∧ t.eval μ = some (.bool (decide (e.evaluate A ρ = 1))) := by
  obtain ⟨t, hm, he⟩ := h
  rw [smtValue_bool hw] at he
  exact ⟨t, hm, he⟩

theorem Translated.bits (h : Translated N mode μ A ρ e) (hw : e.width ≠ 1) :
    ∃ t, makeExpr N mode e = some t ∧
      t.eval μ = some (.bits e.width (BitVec.ofNat e.width (e.evaluate A ρ))) := by
  obtain ⟨t, hm, he⟩ := h
  rw [smtValue_bits hw] at he
  exact ⟨t, hm, he⟩

theorem translated_constant (hv : v < 2 ^ w) : Translated N mode μ A ρ (.constant w v) := by
  rw [Translated, makeExpr, width, evaluate, mod_eq_of_lt hv]
  by_cases hw : w = 1
  · subst hw
    refine ⟨_, rfl, ?_⟩
    have hm : v % 2 = v := mod_eq_of_lt hv
    rw [if_pos rfl, SmtTerm.eval, smtValue_bool rfl, hm]
    rfl
  · refine ⟨_, rfl, ?_⟩
    rw [if_neg hw, SmtTerm.eval, smtValue_bits hw]

theorem translated_notOptimized (h : Translated N mode μ A ρ src) :
    Translated N mode μ A ρ (.notOptimized src) := by
  rw [Translated, makeExpr, width, evaluate]
  exact h

theorem translated_select (hc : Translated N mode μ A ρ c) (ht : Translated N mode μ A ρ t)
    (hf : Translated N mode μ A ρ f) (hcw : c.width = 1) (hw : t.width = f.width) :
    Translated N mode μ A ρ (.select c t f) := by
  obtain ⟨tc, hmc, hec⟩ := hc.bool hcw
  obtain ⟨tt, hmt, het⟩ := ht
  obtain ⟨tf, hmf, hef⟩ := hf
  have hm : makeExpr N mode (.select c t f) = some (.ite tc tt tf) := by
    rw [makeExpr, hmc, hmt, hmf]
    rfl
  rw [← hw] at hef
  apply (translated_iff_value hm (eval_ite hec het hef (smtValue_sort _ _ _))).2
  rw [width, evaluate]
  by_cases h : c.evaluate A ρ = 1
  · rw [decide_eq_true h, if_pos h]
    rfl
  · rw [decide_eq_false h, if_neg h]
    rfl

theorem translated_concat (hl : Translated N mode μ A ρ l) (hr : Translated N mode μ A ρ r)
    (htl : l.WellTyped) (htr : r.WellTyped) (hlw : 1 < l.width) (hrw : 1 < r.width) :
    Translated N mode μ A ρ (.concat l r) := by
  obtain ⟨tl, hml, hel⟩ := hl.bits (by omega)
  obtain ⟨tr, hmr, her⟩ := hr.bits (by omega)
  have hm : makeExpr N mode (.concat l r) = some (.concat tl tr) := by
    rw [makeExpr, hml, hmr]
    rfl
  apply (translated_iff_value hm (SmtTerm.eval_concat hel her)).2
  have hlt := evaluate_lt A ρ l htl
  have ht := evaluate_lt A ρ r htr
  have hct := evaluate_lt A ρ (.concat l r) ⟨htl, htr⟩
  rw [width, evaluate] at hct ⊢
  rw [smtValue_bits (by omega)]
  congr 1
  apply eq_of_toNat_eq
  rw [toNat_append, toNat_ofNat, toNat_ofNat, toNat_ofNat, Nat.mod_eq_of_lt hlt,
    Nat.mod_eq_of_lt ht, Nat.mod_eq_of_lt hct, ← Nat.shiftLeft_add_eq_or_of_lt ht, Nat.shiftLeft_eq]

theorem extractLsb'_ofNat (h : n < 2 ^ u) :
    ((BitVec.ofNat u n).extractLsb' offset w) = BitVec.ofNat w (n / 2 ^ offset % 2 ^ w) := by
  apply eq_of_toNat_eq
  rw [extractLsb'_toNat, toNat_ofNat, toNat_ofNat, mod_eq_of_lt h, shiftRight_eq_div_pow, mod_mod]

theorem translated_extract (he : Translated N mode μ A ρ e) (ht : e.WellTyped)
    (hew : e.width ≠ 1) (hw : 0 < w) (hin : offset + w ≤ e.width) :
    Translated N mode μ A ρ (.extract e offset w) := by
  obtain ⟨t, hm, hv⟩ := he.bits hew
  have hlt := evaluate_lt A ρ e ht
  by_cases ho : w = 1
  · subst ho
    have hk : makeExpr N mode (.extract e offset 1) =
        some (.eq (.extract offset offset t) (.bitVecVal 1 1)) := by
      rw [makeExpr, hm]
      rfl
    have hex : (extract offset offset t).eval μ = some (.bits 1 _) :=
      SmtTerm.eval_extract hv (by omega) rfl hw
    have hb : (bitVecVal 1 1).eval μ = some (.bits 1 1#1) := rfl
    apply (translated_iff_value hk (eval_eq_bits hex hb)).2
    rw [width, evaluate, smtValue_bool rfl, extractLsb'_ofNat hlt]
    have hd : e.evaluate A ρ / 2 ^ offset % 2 ^ 1 < 2 := mod_lt _ (by decide)
    generalize e.evaluate A ρ / 2 ^ offset % 2 ^ 1 = n at hd
    obtain rfl | rfl : n = 0 ∨ n = 1 := by omega
    · rfl
    · rfl
  · have hk : makeExpr N mode (.extract e offset w) =
        some (.extract (offset + w - 1) offset t) := by
      rw [makeExpr, hm]
      exact if_neg ho
    have hex := SmtTerm.eval_extract hv (by omega : offset + w - 1 < e.width)
      (by omega : offset + w = offset + w - 1 + 1) hw
    apply (translated_iff_value hk hex).2
    rw [width, evaluate, smtValue_bits ho, extractLsb'_ofNat hlt]

theorem eval_makeBit (h : t.eval μ = some (.bool b)) :
    (makeBit t w).eval μ = some (.bits w (BitVec.ofNat w b.toNat)) := by
  have ho : (bitVecVal w 1).eval μ = some (.bits w (BitVec.ofNat w 1)) := rfl
  have hz : (bitVecVal w 0).eval μ = some (.bits w (BitVec.ofNat w 0)) := rfl
  rw [makeBit, eval_ite h ho hz rfl]
  cases b <;> rfl

theorem toNat_decide_eq_one (h : n < 2) : (decide (n = 1)).toNat = n := by
  obtain rfl | rfl : n = 0 ∨ n = 1 := by omega
  · rfl
  · rfl

theorem translated_zext (h : Translated N mode μ A ρ src) (ht : src.WellTyped)
    (hp : 0 < src.width) (hw : src.width < w) : Translated N mode μ A ρ (.zext src w) := by
  have hlt := evaluate_lt A ρ src ht
  have hd : src.evaluate A ρ % 2 ^ w = src.evaluate A ρ :=
    mod_eq_of_lt (lt_of_lt_of_le hlt (Nat.pow_le_pow_right (by decide) (by omega)))
  by_cases ho : src.width = 1
  · obtain ⟨t, hm, he⟩ := h.bool ho
    have hk : makeExpr N mode (.zext src w) = some (makeBit t w) := by
      rw [makeExpr, hm]
      exact if_pos (isBool_of_eval he)
    apply (translated_iff_value hk (eval_makeBit he)).2
    rw [ho] at hlt
    rw [width, evaluate, smtValue_bits (by omega), toNat_decide_eq_one hlt, hd]
  · obtain ⟨t, hm, he⟩ := h.bits ho
    have hk : makeExpr N mode (.zext src w) = some (.zeroExtend (w - src.width) t) := by
      rw [makeExpr, hm, ← bvSize_of_bits he]
      exact if_neg (not_isBool_of_bits he)
    apply (translated_iff_value hk (eval_zeroExtend he (le_of_lt hw))).2
    rw [width, evaluate, smtValue_bits (by omega), hd]
    congr 1
    apply eq_of_toNat_eq
    rw [toNat_setWidth, toNat_ofNat, toNat_ofNat, mod_eq_of_lt hlt]

theorem ofNat_eq_signExtend_iff (hn : n < 2) (hw : 1 < w) :
    BitVec.ofNat w n = (BitVec.ofNat 1 n).signExtend w ↔ n ≠ 1 := by
  obtain rfl | rfl : n = 0 ∨ n = 1 := by omega
  · refine ⟨fun _ => by decide, fun _ => ?_⟩
    apply eq_of_getLsbD_eq
    intro i hi
    rw [getLsbD_signExtend, getLsbD_ofNat, getLsbD_ofNat, zero_testBit]
    simp
  · refine ⟨fun h => ?_, fun h => absurd rfl h⟩
    have hb := congrArg (fun x => x.getLsbD 1) h
    simp only [getLsbD_signExtend, getLsbD_ofNat] at hb
    simp only [hw] at hb
    exact absurd hb (by decide)

theorem translated_sext_iff (h : Translated N mode μ A ρ src) (ht : src.WellTyped)
    (hp : 0 < src.width) (hw : src.width < w) :
    Translated N mode μ A ρ (.sext src w) ↔ (src.width = 1 → src.evaluate A ρ ≠ 1) := by
  have hlt := evaluate_lt A ρ src ht
  by_cases ho : src.width = 1
  · obtain ⟨t, hm, he⟩ := h.bool ho
    have hk : makeExpr N mode (.sext src w) = some (makeBit t w) := by
      rw [makeExpr, hm]
      exact if_pos (isBool_of_eval he)
    rw [translated_iff_value hk (eval_makeBit he)]
    rw [ho] at hlt
    rw [width, evaluate, smtValue_toNat (by omega), toNat_decide_eq_one hlt, ho,
      SmtValue.bits.injEq]
    have hi := ofNat_eq_signExtend_iff (w := w) hlt (by omega)
    exact ⟨fun h _ => hi.1 (eq_of_heq h.2), fun h => ⟨rfl, heq_of_eq (hi.2 (h rfl))⟩⟩
  · obtain ⟨t, hm, he⟩ := h.bits ho
    have hk : makeExpr N mode (.sext src w) = some (.signExtend (w - src.width) t) := by
      rw [makeExpr, hm, ← bvSize_of_bits he]
      exact if_neg (not_isBool_of_bits he)
    refine ⟨fun _ h => absurd h ho, fun _ => ?_⟩
    apply (translated_iff_value hk (eval_signExtend he (le_of_lt hw))).2
    rw [width, evaluate, smtValue_toNat (by omega)]

theorem translated_not (h : Translated N mode μ A ρ e) (ht : e.WellTyped) :
    Translated N mode μ A ρ (.not e) := by
  have hlt := evaluate_lt A ρ e ht
  by_cases ho : e.width = 1
  · obtain ⟨t, hm, he⟩ := h.bool ho
    have hk : makeExpr N mode (.not e) = some (.not t) := by
      rw [makeExpr, hm]
      exact if_pos (isBool_of_eval he)
    apply (translated_iff_value hk (SmtTerm.eval_not he)).2
    rw [width, evaluate, smtValue_bool ho, ho]
    rw [ho] at hlt
    obtain h0 | h1 : e.evaluate A ρ = 0 ∨ e.evaluate A ρ = 1 := by omega
    · rw [h0]
      rfl
    · rw [h1]
      rfl
  · obtain ⟨t, hm, he⟩ := h.bits ho
    have hk : makeExpr N mode (.not e) = some (.bvnot t) := by
      rw [makeExpr, hm]
      exact if_neg (not_isBool_of_bits he)
    apply (translated_iff_value hk (eval_bvnot he)).2
    rw [width, evaluate, smtValue_toNat ho]

theorem eval_makeArithmetic_bits (hl : l.eval μ = some (.bits w x))
    (hr : r.eval μ = some (.bits w y)) :
    (makeArithmetic kind l r).eval μ = some (.bits w (kind.op.apply x y)) := by
  have hbo := not_isBool_of_bits hl
  cases kind with
  | and | or | xor =>
    rw [makeArithmetic, if_neg hbo]
    exact eval_bvop hl hr
  | _ => exact eval_bvop hl hr

/-- The connectives, which are also defined on booleans. -/
def ArithmeticKind.connective : ArithmeticKind → Option Connective
  | .and => some .and
  | .or => some .or
  | .xor => some .xor
  | _ => none

theorem eval_makeArithmetic_bool (hk : ArithmeticKind.connective kind = some op)
    (hl : l.eval μ = some (.bool b)) (hr : r.eval μ = some (.bool c)) :
    (makeArithmetic kind l r).eval μ = some (.bool (op.apply b c)) := by
  have hbo := isBool_of_eval hl
  cases kind with
  | and | or | xor =>
    cases hk
    rw [makeArithmetic, if_pos hbo]
    exact eval_connective hl hr
  | _ => cases hk

theorem connective_apply (A : APInt) (hk : ArithmeticKind.connective kind = some op)
    (hn : n < 2) (hm : m < 2) : op.apply (decide (n = 1)) (decide (m = 1)) =
      decide ((A.arithmetic kind (BitVec.ofNat 1 n) (BitVec.ofNat 1 m)).toNat = 1) := by
  obtain rfl | rfl : n = 0 ∨ n = 1 := by omega
  all_goals obtain rfl | rfl : m = 0 ∨ m = 1 := by omega
  all_goals
    cases kind with
    | and | or | xor =>
      cases hk
      rfl
    | _ => cases hk

theorem translated_arithmetic_iff (hA : A.Shifts) (hl : Translated N mode μ A ρ l)
    (hr : Translated N mode μ A ρ r) (htl : l.WellTyped) (htr : r.WellTyped)
    (hw : l.width = r.width) (hbo : l.width = 1 → kind.connective.isSome = true)
    (hd : kind.isDivision = true → r.evaluate A ρ ≠ 0) :
    Translated N mode μ A ρ (.arithmetic kind l r) ↔
      (kind = .ashr → ShiftKept (BitVec.ofNat l.width (l.evaluate A ρ))
        (BitVec.ofNat l.width (r.evaluate A ρ))) := by
  have hlt := evaluate_lt A ρ l htl
  have ht := evaluate_lt A ρ r htr
  rw [← hw] at ht
  by_cases ho : l.width = 1
  · obtain ⟨op, hop⟩ := isSome_iff_exists.1 (hbo ho)
    obtain ⟨tl, hml, hel⟩ := hl.bool ho
    obtain ⟨tr, hmr, her⟩ := hr.bool (hw ▸ ho)
    have hm : makeExpr N mode (.arithmetic kind l r) = some (makeArithmetic kind tl tr) := by
      rw [makeExpr, hml, hmr]
      rfl
    have hk : kind ≠ .ashr := by
      rintro rfl
      cases hop
    refine ⟨fun _ h => absurd h hk, fun _ => ?_⟩
    apply (translated_iff_value hm (eval_makeArithmetic_bool hop hel her)).2
    rw [ho] at hlt ht
    rw [width, evaluate, smtValue_bool ho, connective_apply A hop hlt ht, ho]
  · obtain ⟨tl, hml, hel⟩ := hl.bits ho
    obtain ⟨tr, hmr, her⟩ := hr.bits (hw ▸ ho)
    have hm : makeExpr N mode (.arithmetic kind l r) = some (makeArithmetic kind tl tr) := by
      rw [makeExpr, hml, hmr]
      rfl
    rw [← hw] at her
    rw [translated_iff_value hm (eval_makeArithmetic_bits hel her), width, evaluate,
      smtValue_toNat ho]
    have hne : kind.isDivision = true → BitVec.ofNat l.width (r.evaluate A ρ) ≠ 0#l.width := by
      intro h heq
      apply hd h
      have hn := congrArg BitVec.toNat heq
      rw [toNat_ofNat, toNat_ofNat, zero_mod, mod_eq_of_lt ht] at hn
      exact hn
    rw [← hA.op_eq_iff hne]
    exact ⟨bits_injective, congrArg _⟩

def CmpKind.isCanonical : CmpKind → Bool
  | .eq | .ult | .ule | .slt | .sle => true
  | .ne | .ugt | .uge | .sgt | .sge => false

theorem makeCompare_bits (hk : CmpKind.isCanonical kind = true) {x y : BitVec w}
    (hl : l.eval μ = some (.bits w x)) (hr : r.eval μ = some (.bits w y)) :
    ∃ t, makeCompare kind l r = some t ∧ t.eval μ = some (.bool (kind.apply x y)) := by
  cases kind with
  | eq => exact ⟨_, rfl, eval_eq_bits hl hr⟩
  | ult | ule | slt | sle => exact ⟨_, rfl, eval_bvrel hl hr⟩
  | _ => cases hk

theorem decide_toNat_eq_one (b : Bool) : decide (b.toNat = 1) = b := by
  cases b <;> rfl

theorem translated_compare (hl : Translated N mode μ A ρ l) (hr : Translated N mode μ A ρ r)
    (htl : l.WellTyped) (htr : r.WellTyped) (hw : l.width = r.width)
    (hk : kind.isCanonical = true) (hbo : l.width = 1 → kind = .eq) :
    Translated N mode μ A ρ (.compare kind l r) := by
  by_cases ho : l.width = 1
  · obtain ⟨tl, hml, hel⟩ := hl.bool ho
    obtain ⟨tr, hmr, her⟩ := hr.bool (hw ▸ ho)
    have hm : makeExpr N mode (.compare kind l r) = some (.eq tl tr) := by
      rw [makeExpr, hml, hmr, hbo ho]
      rfl
    apply (translated_iff_value hm (eval_eq_bool hel her)).2
    have hlt := evaluate_lt A ρ l htl
    have ht := evaluate_lt A ρ r htr
    rw [ho] at hlt
    rw [← hw, ho] at ht
    rw [width, evaluate, smtValue_bool rfl, decide_toNat_eq_one, hbo ho, ho]
    generalize l.evaluate A ρ = n at hlt
    generalize r.evaluate A ρ = m at ht
    obtain rfl | rfl : n = 0 ∨ n = 1 := by omega
    all_goals obtain rfl | rfl : m = 0 ∨ m = 1 := by omega
    all_goals rfl
  · obtain ⟨tl, hml, hel⟩ := hl.bits ho
    obtain ⟨tr, hmr, her⟩ := hr.bits (hw ▸ ho)
    rw [← hw] at her
    obtain ⟨t, hc, he⟩ := makeCompare_bits hk hel her
    have hm : makeExpr N mode (.compare kind l r) = some t := by
      rw [makeExpr, hml, hmr]
      exact hc
    apply (translated_iff_value hm he).2
    rw [width, evaluate, smtValue_bool rfl, decide_toNat_eq_one]

end Chef
