import Chef.ExprCreate
import Chef.ExprMeaning

namespace Chef
open BitVec hiding and_zero not_not not_or or_zero zero_or
open Chef.Expr Nat
variable {P : Expr → Prop} {V D : Prop} {ρ : Assignment} [Inherits ρ P] {e l r : Expr}
variable (P V D ρ) in
theorem ofBits_means (x : BitVec w) : (ofBits x).MeansIn P V D ρ x := means_constant P V D ρ x

theorem Expr.MeansIn.constant {x : BitVec u} (f : BitVec u → BitVec w) (h :
    (constant u' v).MeansIn P V D ρ x) (hy : V → y = f x) :
    (ofBits (f (BitVec.ofNat u v))).MeansIn P V D ρ y := by
  apply (ofBits_means P V D ρ _).congr
  intro hv
  rw [hy hv, ← (h.constant_eq hv).2]

theorem setWidth_widen (x : BitVec u) (h : u ≤ v) : (x.setWidth v).setWidth w = x.setWidth w := by
  apply eq_of_toNat_eq
  have hlt : x.toNat < 2 ^ v := lt_of_lt_of_le x.isLt (Nat.pow_le_pow_right (by decide) h)
  rw [toNat_setWidth, toNat_setWidth, toNat_setWidth, mod_eq_of_lt hlt]

theorem Expr.MeansIn.folded (f : BitVec w → BitVec w' → BitVec k)
    (hl : (Expr.constant u v).MeansIn P V D ρ x) (hr : (Expr.constant u' v').MeansIn P V D ρ y) :
    (ofBits (f (BitVec.ofNat w v) (BitVec.ofNat w' v'))).MeansIn P V D ρ (f x y) := by
  apply (ofBits_means P V D ρ _).congr
  intro hv
  rw [(hl.constant_eq hv).2, (hr.constant_eq hv).2]

theorem Expr.MeansIn.zext_inv {z : BitVec w} (h : (Expr.zext e u).MeansIn P V D ρ z) :
    u = w ∧ e.width ≤ w ∧ ∃ x : BitVec e.width, e.MeansIn P V D ρ x ∧ (V → z = x.setWidth w) := by
  obtain ⟨ht, hle⟩ := h.wellTyped
  obtain rfl := h.width_eq
  have hx := means_self V ρ ht fun hd => (Inherits.zext ρ).1 (h.defined hd)
  exact ⟨rfl, hle, _, hx, fun hv => h.unique (hx.zext hle) hv⟩

theorem Expr.MeansIn.sext_inv {z : BitVec w} (h : (Expr.sext e u).MeansIn P V D ρ z) :
    u = w ∧ e.width ≤ w ∧ ∃ x : BitVec e.width, e.MeansIn P V D ρ x ∧ (V → z = x.signExtend w) := by
  obtain ⟨ht, hle⟩ := h.wellTyped
  obtain rfl := h.width_eq
  have hx := means_self V ρ ht fun hd => (Inherits.sext ρ).1 (h.defined hd)
  exact ⟨rfl, hle, _, hx, fun hv => h.unique (hx.sext hle) hv⟩

theorem Expr.MeansIn.extract_inv {z : BitVec w} (h : (Expr.extract e offset u).MeansIn P V D ρ z) :
    u = w ∧ offset + w ≤ e.width ∧
      ∃ x : BitVec e.width, e.MeansIn P V D ρ x ∧ (V → z = x.extractLsb' offset w) := by
  obtain ⟨ht, hle⟩ := h.wellTyped
  obtain rfl := h.width_eq
  have hx := means_self V ρ ht fun hd => (Inherits.extract ρ).1 (h.defined hd)
  exact ⟨rfl, hle, _, hx, fun hv => h.unique (hx.extract hle) hv⟩

theorem ZExtExpr.widen_means {x : BitVec u} (h : e.MeansIn P V D ρ x) (hw : u ≤ w) :
    (ZExtExpr.widen e w).MeansIn P V D ρ (x.setWidth w) := by
  have hu := h.width_eq
  rw [ZExtExpr.widen.eq_def]
  split
  next hs =>
    obtain rfl : u = w := hu.symm.trans hs.symm
    rw [setWidth_eq]
    exact h
  · split
    next u' v _ =>
      obtain rfl : u' = u := hu
      exact h.constant (fun x => x.setWidth w) fun _ => rfl
    next src u' _ =>
      obtain ⟨hu', hle, y, hy, hx⟩ := h.zext_inv
      split
      · apply (hy.zext (le_trans hle hw)).congr
        intro hv
        rw [hx hv, setWidth_widen y hle]
      · exact h.zext hw
    · exact h.zext hw

theorem extractLsb'_zero (x : BitVec u) (w : Nat) : x.extractLsb' 0 w = x.setWidth w := by
  apply eq_of_toNat_eq
  rw [extractLsb'_toNat, toNat_setWidth, shiftRight_zero]

theorem zero_append (u : Nat) (x : BitVec w) : 0#u ++ x = x.setWidth (u + w) := by
  apply eq_of_toNat_eq
  have hlt : x.toNat < 2 ^ (u + w) :=
    lt_of_lt_of_le x.isLt (Nat.pow_le_pow_right (by decide) (Nat.le_add_left w u))
  rw [toNat_append, toNat_setWidth, mod_eq_of_lt hlt]
  simp

theorem extractLsb'_straddle (x : BitVec u) (y : BitVec v) (ho : offset < v) (hw : offset +
    w - v + (v - offset) = w) : ((x.extractLsb' 0 (offset + w - v)) ++
    (y.extractLsb' offset (v - offset))).toNat = ((x ++ y).extractLsb' offset w).toNat := by
  rw [← toNat_cast hw]
  congr 1
  apply eq_of_getLsbD_eq
  intro i hi
  simp only [getLsbD_cast, getLsbD_append, getLsbD_extractLsb']
  by_cases hlow : i < v - offset
  · have hlow' : offset + i < v := by omega
    simp [hlow, hlow', hi]
  have hlow' : ¬offset + i < v := by omega
  have ha : offset + i - v = i - (v - offset) := by omega
  have hlt : i - (v - offset) < offset + w - v := by omega
  simp [hlow, hlow', hi, ha, hlt]

theorem extractLsb'_contiguous (x : BitVec u) (offset w w' : Nat) :
    x.extractLsb' (offset + w) w' ++ x.extractLsb' offset w = x.extractLsb' offset (w' + w) := by
  apply eq_of_getLsbD_eq
  intro i hi
  simp only [getLsbD_append, getLsbD_extractLsb']
  by_cases hw : i < w
  · simp [hw, hi]
  have ha : offset + w + (i - w) = offset + i := by omega
  have hlt : i - w < w' := by omega
  simp [hw, hi, ha, hlt]

def ExtractRight (P : Expr → Prop) (V D : Prop) (ρ : Assignment)
    (make : Expr → Nat → Nat → Expr) : Prop :=
  ∀ ⦃e : Expr⦄ ⦃u offset w : Nat⦄ ⦃x : BitVec u⦄, e.MeansIn P V D ρ x → offset + w ≤ u →
    (make e offset w).MeansIn P V D ρ (x.extractLsb' offset w)

omit [Inherits ρ P] in
theorem ExtractRight.bits {x : BitVec u} (h : ExtractRight P V D ρ make) (offset w : Nat)
    (he : e.MeansIn P V D ρ x) (hin : offset + w ≤ u) :
    (make e offset w).MeansIn P V D ρ (x.extractLsb' offset w) := h he hin

variable {x : BitVec u}
theorem ConcatExpr.createWith_means {y : BitVec w}
    (hex : ExtractRight P V D ρ make) (hl : l.MeansIn P V D ρ x) (hr : r.MeansIn P V D ρ y) :
    (ConcatExpr.createWith make l r).MeansIn P V D ρ (x ++ y) := by
  rw [ConcatExpr.createWith.eq_def]
  split
  next u1 v1 u2 v2 =>
    have hu : u1 = u := hl.width_eq
    have hw : u2 = w := hr.width_eq
    subst hu hw
    exact hl.folded (· ++ ·) hr
  next u1 v1 _ =>
    obtain rfl : u1 = u := hl.width_eq
    split
    next hz =>
      have hd := ZExtExpr.widen_means hr (Nat.le_add_left w u1)
      rw [hr.width_eq]
      apply hd.congr
      intro hv
      rw [hl.zero hv hz, zero_append]
    · exact hl.concat hr
  next e1 o1 w1 e2 o2 w2 =>
    split
    next hs =>
      obtain ⟨rfl, rfl⟩ := hs
      obtain ⟨rfl, hi1, x1, hx1, hx⟩ := hl.extract_inv
      obtain ⟨rfl, hi2, x2, hx2, hy⟩ := hr.extract_inv
      have hm := hex.bits o2 (w1 + w2) hx1 (by omega)
      apply hm.congr
      intro hv
      rw [hx hv, hy hv, ← hx1.unique hx2 hv, extractLsb'_contiguous]
    · exact hl.concat hr
  · exact hl.concat hr

/-- It is right for every budget. -/
theorem ExtractExpr.createFrom_means (fuel : Nat) :
    ExtractRight P V D ρ (ExtractExpr.createFrom fuel) := by
  induction fuel with
  | zero =>
    intro e u offset w x h hin
    exact h.extract hin
  | succ fuel ih =>
    intro e u offset w x h hin
    have hu := h.width_eq
    rw [ExtractExpr.createFrom.eq_def]
    simp only
    split
    next hw =>
      have hwu : w = u := hw.trans hu
      have ho : offset = 0 := by omega
      subst hwu ho
      apply h.congr
      intro _
      rw [extractLsb'_eq_self]
    · split
      next u' v _ =>
        obtain rfl : u' = u := hu
        apply h.constant fun x => (x.sshiftRight offset).setWidth w
        intro _
        apply eq_of_getLsbD_eq
        intro i hi
        have hlt : offset + i < u' := by omega
        have hi' : ¬u' ≤ i := by omega
        simp [getLsbD_sshiftRight, hi, hlt, hi']
      next src u' _ =>
        obtain ⟨rfl, hle, y, hy, hx⟩ := h.zext_inv
        split
        next hs =>
          obtain ⟨hsw, rfl⟩ := hs
          subst hsw
          apply hy.congr
          intro hv
          rw [hx hv, extractLsb'_zero, setWidth_widen y hle, setWidth_eq]
        · split
          next _ hcd =>
            obtain ⟨_, hsw, rfl⟩ := hcd
            apply (ZExtExpr.widen_means hy hsw).congr
            intro hv
            rw [hx hv, extractLsb'_zero, setWidth_widen y hle]
          · exact h.extract hin
      next l r _ =>
        obtain ⟨y, z, hy, hz, hm, hx⟩ := h.concat_inv
        subst hm
        have hxv : V → x = y ++ z := fun hv => eq_of_toNat_eq (hx hv)
        split
        next ht =>
          apply (ih.bits (offset - r.width) w hy (by omega)).congr
          intro hv
          rw [hxv hv, extractLsb'_append_eq_of_le ht]
        · split
          next hf =>
            apply (ih hz hf).congr
            intro hv
            rw [hxv hv, extractLsb'_append_eq_of_add_le hf]
          · have hw : offset + w - r.width + (r.width - offset) = w := by omega
            have hc := ConcatExpr.createWith_means ih
              (ih.bits 0 (offset + w - r.width) hy (by omega))
              (ih.bits offset (r.width - offset) hz (by omega))
            apply hc.cast hw
            intro hv
            rw [hxv hv, extractLsb'_straddle y z (by omega) hw]
      next src u' _ =>
        obtain ⟨rfl, hle, y, hy, hx⟩ := h.sext_inv
        split
        next hcd =>
          obtain ⟨rfl, rfl, hsw⟩ := hcd
          apply hy.cast hsw
          intro hv
          rw [hx hv, extractLsb'_zero, ← toNat_cast hsw]
          congr 1
          apply eq_of_getLsbD_eq
          intro i hi
          have hi' : i < src.width := by omega
          have hi'' : i < u' := by omega
          simp [getElem_signExtend, hi, hi', hi'']
        · exact h.extract hin
      · exact h.extract hin

theorem ExtractExpr.create_means : ExtractRight P V D ρ ExtractExpr.create := by
  intro e u offset w x h hin
  exact ExtractExpr.createFrom_means (e.size + 1) h hin

theorem ConcatExpr.create_means {y : BitVec w} (hl : l.MeansIn P V D ρ x)
    (hr : r.MeansIn P V D ρ y) : (ConcatExpr.create l r).MeansIn P V D ρ (x ++ y) :=
  ConcatExpr.createWith_means ExtractExpr.create_means hl hr

theorem ZExtExpr.create_means (h : e.MeansIn P V D ρ x) (w : Nat) :
    (ZExtExpr.create e w).MeansIn P V D ρ (x.setWidth w) := by
  have hu := h.width_eq
  rw [ZExtExpr.create]
  split
  · apply (ExtractExpr.create_means.bits 0 w h (by omega)).congr
    intro _
    rw [extractLsb'_zero]
  · exact ZExtExpr.widen_means h (by omega)

theorem SExtExpr.create_means (h : e.MeansIn P V D ρ x) (w : Nat) :
    (SExtExpr.create e w).MeansIn P V D ρ (x.signExtend w) := by
  have hu := h.width_eq
  rw [SExtExpr.create.eq_def]
  split
  next hs =>
    obtain rfl : u = w := hu.symm.trans hs.symm
    rw [signExtend_eq]
    exact h
  · split
    · apply (ExtractExpr.create_means.bits 0 w h (by omega)).congr
      intro _
      rw [extractLsb'_zero, signExtend_eq_setWidth_of_le _ (by omega)]
    split
    next u' v _ _ =>
      obtain rfl : u' = u := hu
      exact h.constant (fun x => x.signExtend w) fun _ => rfl
    · exact h.sext (by omega)

theorem NotExpr.create_means {x : BitVec w} (h : e.MeansIn P V D ρ x) :
    (NotExpr.create e).MeansIn P V D ρ (~~~x) := by
  rw [NotExpr.create.eq_def]
  split
  next u v =>
    obtain rfl : u = w := h.width_eq
    exact h.constant (fun x => ~~~x) fun _ => rfl
  · exact h.not

variable {a b : Expr} {w : Nat} {x y z : BitVec w}

omit [Inherits ρ P] in
theorem Expr.MeansIn.isZero (h : e.MeansIn P V D ρ x) (hv : V) (hz : e.isZero = true) : x =
    0#w := by
  rw [isZero.eq_def] at hz
  split at hz
  · exact h.zero hv (beq_iff_eq.1 hz)
  · cases hz

theorem ofBool_zero_beq (y : BitVec 1) : ofBool (0#1 == y) = ~~~y := by
  revert y
  decide

theorem ofBool_one_beq (y : BitVec 1) : y = ofBool (BitVec.allOnes 1 == y) := by
  revert y
  decide

section
variable (hl : l.MeansIn P V D ρ x)
include hl
section
variable (hr : r.MeansIn P V D ρ y)
include hr
theorem Expr.MeansIn.isIsZeroOf (h : l.isIsZeroOf r = true) : w = 1 ∧ (V → x = ~~~y) := by
  rw [isIsZeroOf.eq_def] at h
  split at h
  next a b =>
    obtain ⟨ha, hb⟩ := Bool.and_eq_true_iff.1 h
    have hb := beq_iff_eq.1 hb
    subst hb
    obtain rfl : 1 = w := hl.width_eq
    refine ⟨rfl, fun hv => ?_⟩
    obtain ⟨xa, xb, hxa, hxb, hx⟩ := hl.compare_inv
    have haw : a.width = 1 := hl.wellTyped.2.2.trans hr.width_eq
    have hb' := hxb.cast (y := y) haw fun hv => (hxb.eval_eq hv).symm.trans (hr.eval_eq hv)
    have hxb' : xb.toNat = y.toNat := (hxb.eval_eq hv).symm.trans (hr.eval_eq hv)
    have hxa' := hxa.isZero hv ha
    rw [hx hv, hxa', ← ofBool_zero_beq]
    congr 1
    rw [CmpKind.apply, Bool.eq_iff_iff, beq_iff_eq, beq_iff_eq, ← toNat_inj,
      ← toNat_inj, hxb', toNat_ofNat, toNat_ofNat, zero_mod, zero_mod]
  · cases h

theorem Expr.MeansIn.isNegationOf (h : l.isNegationOf r = true) : w = 1 ∧ (V → x = ~~~y) := by
  rw [Expr.isNegationOf, Bool.or_eq_true_iff] at h
  obtain h | h := h
  · exact hl.isIsZeroOf hr h
  obtain ⟨hw, hyx⟩ := hr.isIsZeroOf hl h
  refine ⟨hw, fun hv => ?_⟩
  rw [hyx hv, BitVec.not_not]

theorem Expr.MeansIn.withoutNegation (h : withoutNegation kind l r = some b)
    (hc : ∀ u v : BitVec w, kind.apply u v = kind.apply v u) :
    ∃ z : BitVec w, b.MeansIn P V D ρ z ∧ (V → x = kind.apply (~~~y) z) := by
  rw [withoutNegation.eq_def] at h
  split at h
  next kind' a' b' =>
    split at h
    next hk =>
      subst hk
      obtain ⟨xa, xb, ha, hb, hx⟩ := hl.arithmetic_inv
      split at h
      next hn =>
        cases h
        refine ⟨xb, hb, fun hv => ?_⟩
        rw [hx hv, (ha.isNegationOf hr hn).2 hv]
      · split at h
        next _ hn =>
          cases h
          refine ⟨xa, ha, fun hv => ?_⟩
          rw [hx hv, (hb.isNegationOf hr hn).2 hv, hc]
        · cases h
    · cases h
  · cases h

end

theorem AndExpr.createPartial_means (hc : (constant u v).MeansIn P V D ρ y) :
    (AndExpr.createPartial l u v).MeansIn P V D ρ (x &&& y) := by
  rw [AndExpr.createPartial]
  split
  next ho =>
    apply hl.congr
    intro hv
    rw [hc.allOnes hv ho, and_allOnes]
  · split
    next _ hz =>
      apply hc.congr
      intro hv
      rw [hc.zero hv hz, BitVec.and_zero]
    · exact hl.arithmetic .and hc nofun

theorem AndExpr.create_means (hr : r.MeansIn P V D ρ y) :
    (AndExpr.create l r).MeansIn P V D ρ (x &&& y) := by
  fun_induction AndExpr.create l r generalizing x y with
  | case1 u v u' v' =>
    obtain rfl : u = w := hl.width_eq
    exact hl.folded (· &&& ·) hr
  | case2 r u v _ =>
    rw [BitVec.and_comm]
    exact AndExpr.createPartial_means hr hl
  | case3 l u v _ => exact AndExpr.createPartial_means hl hr
  | case4 l r _ _ _ hn =>
    obtain ⟨rfl, hxy⟩ := hl.isNegationOf hr hn
    apply (ofBits_means P V D ρ 0#1).congr
    intro hv
    rw [hxy hv]
    exact (BitVec.not_and_self _).symm
  | case5 l r _ _ _ _ b hb ih =>
    obtain ⟨z, hz, hx⟩ := hl.withoutNegation hr hb BitVec.or_comm
    apply (ih hz hr).congr
    intro hv
    rw [hx hv]
    exact (by grind : z &&& y = (~~~y ||| z) &&& y)
  | case6 l r _ _ _ _ _ b hb ih =>
    obtain ⟨z, hz, hy⟩ := hr.withoutNegation hl hb BitVec.or_comm
    apply (ih hl hz).congr
    intro hv
    rw [hy hv]
    exact (by grind : x &&& z = x &&& (~~~x ||| z))
  | case7 l r => exact hl.arithmetic .and hr nofun

end

theorem EqExpr.createNot_means {x : BitVec 1} (h : e.MeansIn P V D ρ x) :
    (EqExpr.createNot e).MeansIn P V D ρ (~~~x) := by
  have hn : (compare .eq (.constant 1 0) e).MeansIn P V D ρ (~~~x) := by
    rw [← ofBool_zero_beq]
    exact (means_constant P V D ρ 0#1).compare .eq h
  fun_induction EqExpr.createNot e generalizing x with
  | case1 u v =>
    obtain rfl : u = 1 := h.width_eq
    apply h.constant (fun x => ofBool (x == 0#1))
    intro _
    rw [Bool.beq_comm, ofBool_zero_beq]
  | case2 u v r hz =>
    obtain ⟨rfl, hz⟩ := hz
    obtain ⟨_, y, _, hr, _⟩ := h.compare_inv
    have hze : (compare .eq (.constant 1 v) r).isIsZeroOf r = true := by
      simp [isIsZeroOf, isZero, hz]
    apply hr.congr
    intro hv
    rw [(h.isIsZeroOf hr hze).2 hv]
    exact BitVec.not_not.symm
  | case3 => exact hn
  | case4 a b iha ihb =>
    obtain ⟨xa, xb, ha, hb, hx⟩ := h.arithmetic_inv
    have ht := fun {c : Expr} {z : BitVec 1} (hc : c.MeansIn P V D ρ z) =>
      ofBool_zero_beq z ▸ (means_constant P V D ρ 0#1).compare .eq hc
    apply (AndExpr.create_means (iha ha (ht ha)) (ihb hb (ht hb))).congr
    intro hv
    rw [hx hv]
    exact BitVec.not_or.symm
  | case5 => exact hn

section
variable (hl : l.MeansIn P V D ρ x)
include hl
theorem OrExpr.createPartial_means (hc : (constant u v).MeansIn P V D ρ y) :
    (OrExpr.createPartial l u v).MeansIn P V D ρ (x ||| y) := by
  rw [OrExpr.createPartial]
  split
  next ho =>
    apply hc.congr
    intro hv
    rw [hc.allOnes hv ho, or_allOnes]
  · split
    next _ hz =>
      apply hl.congr
      intro hv
      rw [hc.zero hv hz, BitVec.or_zero]
    · exact hl.arithmetic .or hc nofun

variable (hr : r.MeansIn P V D ρ y)
include hr
theorem Expr.MeansIn.negated (h : OrExpr.negated l r = some (a, b)) :
    w = 1 ∧ ∃ x' y' : BitVec w, a.MeansIn P V D ρ x' ∧ b.MeansIn P V D ρ y' ∧
      (V → x = ~~~x') ∧ (V → y = ~~~y') := by
  rw [OrExpr.negated.eq_def] at h
  split at h
  next a' b' c' d' =>
    split at h
    next hz =>
      obtain ⟨hza, hzc, hb, hd⟩ := hz
      cases h
      obtain rfl : 1 = w := hl.width_eq
      have ha := means_self (e := a) (D := D) V ρ hl.wellTyped.2.1 fun h =>
        ((Inherits.compare ρ).1 (hl.defined h)).2
      have hb' := means_self (e := b) (D := D) V ρ hr.wellTyped.2.1 fun h =>
        ((Inherits.compare ρ).1 (hr.defined h)).2
      rw [hb] at ha
      rw [hd] at hb'
      refine ⟨rfl, _, _, ha, hb', (hl.isIsZeroOf ha ?_).2, (hr.isIsZeroOf hb' ?_).2⟩
      · rw [Expr.isIsZeroOf, hza]
        exact beq_self_eq_true a
      · rw [Expr.isIsZeroOf, hzc]
        exact beq_self_eq_true b
    · cases h
  · cases h

theorem Expr.MeansIn.complements (h : OrExpr.complements l r = true) : w = 1 ∧ (V → x ||| y =
    BitVec.allOnes w) := by
  rw [OrExpr.complements.eq_def] at h
  split at h
  next a b c d =>
    obtain ⟨xa, xb, ha, hb, hx⟩ := hl.arithmetic_inv
    obtain ⟨xc, xd, hc, hd, hy⟩ := hr.arithmetic_inv
    rw [Bool.or_eq_true_iff, Bool.and_eq_true_iff, Bool.and_eq_true_iff] at h
    obtain ⟨hca, hdb⟩ | ⟨hcb, hda⟩ := h
    · refine ⟨(hc.isNegationOf ha hca).1, fun hv => ?_⟩
      rw [hx hv, hy hv, (hc.isNegationOf ha hca).2 hv, (hd.isNegationOf hb hdb).2 hv]
      simp only [ArithmeticKind.apply]
      rw [← BitVec.not_or]
      exact or_not_self _
    · refine ⟨(hc.isNegationOf hb hcb).1, fun hv => ?_⟩
      rw [hx hv, hy hv, (hc.isNegationOf hb hcb).2 hv, (hd.isNegationOf ha hda).2 hv]
      simp only [ArithmeticKind.apply]
      rw [← BitVec.not_or, BitVec.or_comm xb]
      exact or_not_self _
  · cases h

theorem OrExpr.create_means : (OrExpr.create l r).MeansIn P V D ρ (x ||| y) := by
  fun_induction OrExpr.create l r generalizing x y with
  | case1 u v u' v' =>
    obtain rfl : u = w := hl.width_eq
    exact hl.folded (· ||| ·) hr
  | case2 r u v _ =>
    rw [BitVec.or_comm]
    exact OrExpr.createPartial_means hr hl
  | case3 l u v _ => exact OrExpr.createPartial_means hl hr
  | case4 l r _ _ _ hn =>
    obtain ⟨rfl, hxy⟩ := hl.isNegationOf hr hn
    apply (ofBits_means P V D ρ 1#1).congr
    intro hv
    rw [hxy hv]
    exact (by grind : BitVec.allOnes 1 = ~~~y ||| y)
  | case5 l r _ _ _ _ b hb ih =>
    obtain ⟨z, hz, hx⟩ := hl.withoutNegation hr hb BitVec.and_comm
    apply (ih hz hr).congr
    intro hv
    rw [hx hv]
    exact (by grind : z ||| y = (~~~y &&& z) ||| y)
  | case6 l r _ _ _ _ _ b hb ih =>
    obtain ⟨z, hz, hy⟩ := hr.withoutNegation hl hb BitVec.and_comm
    apply (ih hl hz).congr
    intro hv
    rw [hy hv]
    exact (by grind : x ||| z = x ||| (~~~x &&& z))
  | case7 l r _ _ _ _ _ _ a b hab =>
    obtain ⟨rfl, x', y', ha, hb, hx, hy⟩ := hl.negated hr hab
    apply (EqExpr.createNot_means (AndExpr.create_means ha hb)).congr
    intro hv
    rw [hx hv, hy hv]
    exact BitVec.not_and
  | case8 l r _ _ _ _ _ _ _ hc =>
    rw [Bool.or_eq_true_iff] at hc
    obtain hc | hc := hc
    · obtain ⟨rfl, hxy⟩ := hl.complements hr hc
      exact (ofBits_means P V D ρ 1#1).congr fun hv => (hxy hv).symm
    · obtain ⟨rfl, hxy⟩ := hr.complements hl hc
      exact (ofBits_means P V D ρ 1#1).congr fun hv => (BitVec.or_comm x y).trans (hxy hv) |>.symm
  | case9 l r => exact hl.arithmetic .or hr nofun

end

theorem EqExpr.make_means (hl : l.MeansIn P V D ρ x) (hr : r.MeansIn P V D ρ y) :
    (EqExpr.make l r).MeansIn P V D ρ (ofBool (x == y)) := by
  rw [EqExpr.make]
  split
  next hlr =>
    subst hlr
    apply (ofBits_means P V D ρ 1#1).congr
    intro hv
    rw [hl.unique hr hv, beq_self_eq_true]
    rfl
  · exact hl.compare .eq hr

theorem foldl_or_means {indexEq : Nat → Expr}
    (heq : ∀ i, (indexEq i).MeansIn P V D ρ (ofBool (index == BitVec.ofNat w i)))
    (is : List Nat) (hc : e.MeansIn P V D ρ c) :
    (is.foldl (fun res i => OrExpr.create res (indexEq i)) e).MeansIn P V D ρ
      (c ||| ofBool (is.any fun i => index == BitVec.ofNat w i)) := by
  induction is generalizing e c with
  | nil =>
    apply hc.congr
    intro _
    exact BitVec.or_zero.symm
  | cons i is ih =>
    apply (ih (OrExpr.create_means hc (heq i))).congr
    intro _
    rw [List.any_cons, ← ofBool_or_ofBool, BitVec.or_assoc]

theorem KArray.any_matches (array : KArray) (hc : array.isSymbolicArray = false)
    (index : BitVec 32) (hin : index.toNat < array.size) :
    ((array.matches 8 v).any fun i => index == BitVec.ofNat 32 i) =
      (BitVec.ofNat 8 v == BitVec.ofNat 8 (array.initialValue ρ index.toNat).toNat) := by
  have hvalue : array.initialValue ρ index.toNat = array.constantValues.getD index.toNat 0 := by
    rw [KArray.initialValue, hc, if_neg Bool.false_ne_true]
  rw [Bool.eq_iff_iff, List.any_eq_true, beq_iff_eq, hvalue, ← toNat_inj, toNat_ofNat,
    toNat_ofNat, mod_eq_of_lt (UInt8.toNat_lt (array.constantValues.getD index.toNat 0))]
  refine ⟨?_, fun hv => ⟨index.toNat, ?_, ?_⟩⟩
  · rintro ⟨i, hi, heq⟩
    rw [KArray.matches, List.mem_filter, List.mem_range, decide_eq_true_iff] at hi
    have hn : index.toNat = i := by rw [beq_iff_eq.1 heq, toNat_ofNat, mod_eq_of_lt (by omega)]
    rw [hn]
    exact hi.2.2
  · rw [KArray.matches, List.mem_filter, List.mem_range, decide_eq_true_iff]
    exact ⟨lt_min hin index.isLt, rfl, hv⟩
  · rw [beq_iff_eq, ofNat_toNat, setWidth_eq]

theorem EqExpr.tryConstArrayOpt_means {x y : BitVec 8} (hc :
    (constant 8 v).MeansIn P V D ρ x) (hr : (read root head index).MeansIn P V D ρ y)
    (hVD : V → D) (hi : index.MeansIn P V D ρ index') (heq : ∀ i,
    (indexEq i).MeansIn P V D ρ (ofBool (index' == BitVec.ofNat 32 i))) :
    (EqExpr.tryConstArrayOpt 8 v root head index indexEq).MeansIn P V D ρ (ofBool (x == y)) := by
  rw [EqExpr.tryConstArrayOpt]
  split
  · exact EqExpr.make_means hc hr
  next ho =>
    rw [not_or, not_or, not_not] at ho
    obtain ⟨hs, rfl, _⟩ := ho
    apply (foldl_or_means heq _ (means_constant P V D ρ 0#1)).congr
    intro hv
    have hin : index'.toNat < root.size := by
      rw [← hi.eval_eq hv]
      exact Inherits.inRange (hr.defined (hVD hv)) (Bool.not_eq_true _ ▸ hs)
    rw [BitVec.zero_or, KArray.any_matches (ρ := ρ) root (Bool.not_eq_true _ ▸ hs) index' hin,
      (hc.constant_eq hv).2, ← hr.ofNat_eval hv, eval, hi.eval_eq hv, UpdateNode.valueAt]

theorem setWidth_signExtend (x : BitVec w) (hw : w ≤ u) : (x.signExtend u).setWidth w = x := by
  apply eq_of_getLsbD_eq
  intro i hi
  have hi' : i < u := by omega
  simp [getElem_signExtend, hi, hi']

theorem signExtend_eq_iff (x : BitVec u) (y : BitVec w) (hw : w ≤ u) :
    x = y.signExtend u ↔ x = (x.setWidth w).signExtend u ∧ x.setWidth w = y := by
  refine ⟨?_, fun ⟨hx, hy⟩ => hy ▸ hx⟩
  rintro rfl
  rw [setWidth_signExtend y hw]
  exact ⟨rfl, rfl⟩

theorem setWidth_eq_iff (x : BitVec u) (y : BitVec w) (hw : w ≤ u) :
    x = y.setWidth u ↔ x = (x.setWidth w).setWidth u ∧ x.setWidth w = y := by
  refine ⟨?_, fun ⟨hx, hy⟩ => hy ▸ hx⟩
  rintro rfl
  rw [setWidth_widen y hw, setWidth_eq]
  exact ⟨rfl, rfl⟩

theorem EqExpr.createWith_means (hc : (constant u v).MeansIn P V D ρ x) (hr :
    r.MeansIn P V D ρ y) (hmd : e.MeansIn P V D ρ (ofBool (x == y))) :
    (EqExpr.createWith u v r e).MeansIn P V D ρ (ofBool (x == y)) := by
  rw [EqExpr.createWith.eq_def]
  split
  next u' v' =>
    obtain rfl : u = w := hc.width_eq
    apply (ofBits_means P V D ρ _).congr
    intro hv
    rw [(hc.constant_eq hv).2, (hr.constant_eq hv).2]
  · exact hmd

theorem EqExpr.extension_means {x : BitVec u} {ext : BitVec w → BitVec u}
    (hc : (constant u v).MeansIn P V D ρ x) (hs : e.MeansIn P V D ρ (ofBool (x.setWidth w == src)))
    (hi : x = ext src ↔ x = ext (x.setWidth w) ∧ x.setWidth w = src) :
    (if BitVec.ofNat u v = ext (BitVec.ofNat w ((BitVec.ofNat u v).setWidth w).toNat) then e
      else .constant 1 0).MeansIn P V D ρ (ofBool (x == ext src)) := by
  have hx (hv : V) : BitVec.ofNat u v = x := (hc.constant_eq hv).2
  split
  next heq =>
    apply hs.congr
    intro hv
    rw [hx hv, ofNat_toNat, setWidth_eq] at heq
    congr 1
    rw [Bool.eq_iff_iff, beq_iff_eq, beq_iff_eq, hi]
    exact ⟨fun h => ⟨heq, h⟩, fun h => h.2⟩
  next hne =>
    apply (ofBits_means P V D ρ 0#1).congr
    intro hv
    rw [hx hv, ofNat_toNat, setWidth_eq] at hne
    rw [beq_eq_false_iff_ne.2 fun h => hne (hi.1 h).1]
    rfl

theorem truncated_means {x : BitVec u} (hc : (constant u v).MeansIn P V D ρ x) (w : Nat) :
    (constant w ((BitVec.ofNat u v).setWidth w).toNat).MeansIn P V D ρ (x.setWidth w) := by
  apply (means_constant P V D ρ _).congr
  intro hv
  rw [(hc.constant_eq hv).2]

theorem EqExpr.createPartialR_means {u v w : Nat} {x y : BitVec w} {r : Expr}
    (hc : (Expr.constant u v).MeansIn P V D ρ x) (hr : r.MeansIn P V D ρ y) (hVD : w ≠ 1 → V → D) :
    (EqExpr.createPartialR u v r).MeansIn P V D ρ (ofBool (x == y)) := by
  obtain rfl : u = w := hc.width_eq
  rw [EqExpr.createPartialR.eq_def]
  split
  next hu =>
    subst hu
    split
    next ho =>
      apply hr.congr
      intro hv
      rw [hc.allOnes hv ho]
      exact ofBool_one_beq y
    next ho =>
      apply (EqExpr.createNot_means hr).congr
      intro hv
      rw [hc.zero hv (by omega), ofBool_zero_beq]
  next hne =>
    replace hVD := hVD hne
    have hn {e : Expr} {d z : BitVec u} (h : e.MeansIn P V D ρ (ofBool (d == z)))
        (heq : V → (d = z ↔ x = y)) : e.MeansIn P V D ρ (ofBool (x == y)) := by
      apply h.congr
      intro hv
      congr 1
      rw [Bool.eq_iff_iff, beq_iff_eq, beq_iff_eq, heq hv]
    split
    next src _ =>
      obtain ⟨rfl, hle, z, hz, hy⟩ := hr.sext_inv
      have ht := truncated_means hc src.width
      have hmd := EqExpr.createPartialR_means ht hz fun _ => hVD
      have hs := EqExpr.createWith_means ht hz hmd
      apply (EqExpr.extension_means hc hs (signExtend_eq_iff x z hle)).congr
      intro hv
      rw [hy hv]
    next src _ =>
      obtain ⟨rfl, hle, z, hz, hy⟩ := hr.zext_inv
      have ht := truncated_means hc src.width
      have hmd := EqExpr.createPartialR_means ht hz fun _ => hVD
      have hs := EqExpr.createWith_means ht hz hmd
      apply (EqExpr.extension_means hc hs (setWidth_eq_iff x z hle)).congr
      intro hv
      rw [hy hv]
    next u' v' b =>
      obtain ⟨c, z, hc', hz, hy⟩ := hr.arithmetic_inv
      apply hn (EqExpr.createPartialR_means (hc.folded (· - ·) hc') hz fun _ => hVD)
      intro hv
      rw [hy hv]
      exact (by grind : x - c = z ↔ x = c + z)
    next u' v' b =>
      obtain ⟨c, z, hc', hz, hy⟩ := hr.arithmetic_inv
      apply hn (EqExpr.createPartialR_means (hc'.folded (· - ·) hc) hz fun _ => hVD)
      intro hv
      rw [hy hv]
      exact (by grind : c - x = z ↔ x = c - z)
    next root head index =>
      obtain rfl : 8 = u := hr.width_eq
      obtain ⟨_, hi, hw⟩ := hr.wellTyped
      have hi := means_self (D := D) V ρ hi fun hd => Inherits.index ρ (hr.defined hd)
      rw [hw] at hi
      apply EqExpr.tryConstArrayOpt_means hc hr hVD hi
      intro i
      have hpl : (Expr.constant index.width (i % 2 ^ index.width)).MeansIn P V D ρ
          (BitVec.ofNat 32 i) := by
        rw [hw, ← toNat_ofNat]
        exact means_constant P V D ρ _
      rw [Bool.beq_comm]
      apply EqExpr.createWith_means hpl hi
      exact EqExpr.createPartialR_means hpl hi fun _ => hVD
    · exact EqExpr.make_means hc hr
termination_by sizeOf r

/-- Equations keep their meaning, folded or not. -/
theorem EqExpr.create_means (hl : l.MeansIn P V D ρ x) (hr : r.MeansIn P V D ρ y)
    (hVD : w ≠ 1 → V → D) : (EqExpr.create l r).MeansIn P V D ρ (ofBool (x == y)) := by
  rw [EqExpr.create.eq_def]
  split
  · apply EqExpr.createWith_means hl hr
    exact EqExpr.createPartialR_means hl hr hVD
  · rw [Bool.beq_comm]
    exact EqExpr.createPartialR_means hr hl hVD
  · exact EqExpr.make_means hl hr

theorem createIsZero_means (h : e.MeansIn P V D ρ x) (hVD : w ≠ 1 → V → D) :
    (createIsZero e).MeansIn P V D ρ (ofBool (x == 0#w)) := by
  have hw := h.width_eq
  subst hw
  apply EqExpr.create_means h _ hVD
  apply (ofBits_means P V D ρ 0#e.width).congr
  intro _
  rfl

end Chef
