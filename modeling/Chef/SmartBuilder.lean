import Chef.ExprRecreate
import Chef.ObjectAccess
import Chef.MergedBytes

namespace Chef
open Chef.Expr
/-- KLEE's folding constructors. -/
def smartBuilder : ExprBuilder where
  read := ReadExpr.create
  select := SelectExpr.create
  concat := ConcatExpr.create
  extract := ExtractExpr.create
  zext := ZExtExpr.create
  add := AddExpr.create
  and := AndExpr.create
  or := OrExpr.create
  eq := EqExpr.create

variable {e e' l r : Expr}
theorem Expr.Means.equivalent (h : ∀ ρ, ∃ x : BitVec w,
    e.MeansIn (Steady ρ) True False ρ x ∧ e'.MeansIn (Steady ρ) True False ρ x) :
    e.Equivalent e' := by
  obtain ⟨x, hx, hx'⟩ := h fun _ _ => 0
  refine ⟨hx.wellTyped, hx.width_eq.trans hx'.width_eq.symm, fun ρ => ?_⟩
  obtain ⟨y, hy, hy'⟩ := h ρ
  rw [hy.eval_eq trivial, hy'.eval_eq trivial]

theorem Expr.Means.preserves (h : ∀ ρ, ∃ x : BitVec w, e.Means True (e'.Defined ρ) ρ x ∧
    e'.Means True (e'.Defined ρ) ρ x) : e.Preserves e' := by
  refine ⟨Expr.Means.equivalent (w := w) fun ρ => ?_, fun {ρ} hd => ?_⟩
  · obtain ⟨x, hx, hx'⟩ := h ρ
    exact ⟨x, hx.forget, hx'.forget⟩
  · obtain ⟨x, hx, _⟩ := h ρ
    exact hx.defined hd

theorem readLawful_smartBuilder : ObjectView.ReadLawful smartBuilder where
  wellTyped h := (ReadExpr.create_means (ρ := fun _ _ => 0) _ _ _ h.1 h.2.1 h.2.2).wellTyped
  width_eq h := (ReadExpr.create_means (ρ := fun _ _ => 0) _ _ _ h.1 h.2.1 h.2.2).width_eq
  eval_eq h hd := by
    rw [smartBuilder, (ReadExpr.create_means _ _ _ h.1 h.2.1 h.2.2).eval_eq hd, eval,
      UInt8.toNat_toBitVec]
  defined {root head w i ρ} h hd := by
    obtain ⟨hhd, hi, hw⟩ := h
    obtain rfl : w = 32 := hw
    have hi := means_self (P := Defined ρ) (D := (read root head (.constant 32 i)).Defined ρ)
      ((read root head (.constant 32 i)).Defined ρ) ρ hi fun _ => trivial
    have hmd := ReadExpr.createAt_means root hi id hhd id
    have hcr : ReadExpr.create root head (.constant 32 i) =
        (ReadExpr.rollback (.constant 32 i) head).getD (.read root head (.constant 32 i)) := by
      rw [ReadExpr.create]
      rintro _ _ _ ⟨⟩
    have hf := hmd.defined hd
    exact hf

theorem accessLawful_smartBuilder : AccessLawful smartBuilder where
  read := readLawful_smartBuilder
  concat {l r} h := by
    apply Expr.Means.preserves
    intro ρ
    have hl := means_self True ρ h.1 (And.left : (concat l r).Defined ρ → _)
    have hr := means_self True ρ h.2 (And.right : (concat l r).Defined ρ → _)
    exact ⟨_, ConcatExpr.create_means hl hr, hl.concat hr⟩
  extract {e offset w} h := by
    apply Expr.Means.preserves
    intro ρ
    have he := means_self True ρ h.1 (id : (extract e offset w).Defined ρ → _)
    exact ⟨_, ExtractExpr.create_means.bits offset w he h.2, he.extract h.2⟩
  zext {e w} h := by
    split
    next hw =>
      apply Expr.Means.preserves
      intro ρ
      have he := means_self True ρ h (id : (zext e w).Defined ρ → _)
      exact ⟨_, ZExtExpr.create_means he w, he.zext hw⟩
    next hw =>
      have hin : 0 + w ≤ e.width := by omega
      apply Expr.Means.preserves
      intro ρ
      have he := means_self True ρ h (id : (extract e 0 w).Defined ρ → _)
      refine ⟨_, ZExtExpr.create_means he w, (he.extract hin).congr fun _ => ?_⟩
      rw [extractLsb'_zero]
  add {l r} h := by
    obtain ⟨hl, hr, hlr⟩ := h
    apply Expr.Means.preserves
    intro ρ
    have hl := means_self True ρ hl (And.left : (arithmetic .add l r).Defined ρ → _)
    have hr := means_self True ρ hr fun hd : (arithmetic .add l r).Defined ρ => hd.2.1
    rw [← hlr] at hr
    exact ⟨_, AddExpr.create_means hl hr, hl.arithmetic .add hr nofun⟩
  eq {l r} h := by
    obtain ⟨hl, hr, hlr⟩ := h
    have hmd : ∀ ρ, ∃ x : BitVec 1,
        (EqExpr.create l r).Means ((compare .eq l r).Defined ρ) ((compare .eq l r).Defined ρ) ρ x ∧
        (compare .eq l r).Means ((compare .eq l r).Defined ρ)
          ((compare .eq l r).Defined ρ) ρ x := by
      intro ρ
      have hl := means_self ((compare .eq l r).Defined ρ) ρ hl
        (And.left : (compare .eq l r).Defined ρ → _)
      have hr := means_self ((compare .eq l r).Defined ρ) ρ hr
        (And.right : (compare .eq l r).Defined ρ → _)
      rw [← hlr] at hr
      exact ⟨_, EqExpr.create_means hl hr fun _ => id, hl.compare .eq hr⟩
    obtain ⟨x, hx, _⟩ := hmd fun _ _ => 0
    refine ⟨hx.wellTyped, hx.width_eq, fun {ρ} hd => ?_, fun {ρ} hd => ?_⟩
    · obtain ⟨y, hy, _⟩ := hmd ρ
      exact hy.defined hd
    · obtain ⟨y, hy, hy'⟩ := hmd ρ
      rw [smartBuilder, hy.eval_eq hd, hy'.eval_eq hd]

theorem ExtractExpr.create_full (e : Expr) : ExtractExpr.create e 0 e.width = e := by
  exact if_pos rfl

theorem mergeLawful_smartBuilder : MergeLawful smartBuilder where
  select {c t f} h := by
    obtain ⟨hc, ht, hf, hcw, htf⟩ := h
    apply Expr.Means.equivalent
    intro ρ
    have hm {e : Expr} (h : e.WellTyped) := means_self (P := Steady ρ) (D := False) True ρ h nofun
    have hc := hm hc
    have ht := hm ht
    have hf := hm hf
    rw [hcw] at hc
    rw [← htf] at hf
    exact ⟨_, SelectExpr.create_means hc ht hf, hc.selectNode ht hf⟩
  and {l r} h := by
    obtain ⟨hl, hr, hlr⟩ := h
    apply Expr.Means.equivalent
    intro ρ
    have hl := means_self (P := Steady ρ) (D := False) True ρ hl nofun
    have hr := means_self (P := Steady ρ) (D := False) True ρ hr nofun
    rw [← hlr] at hr
    exact ⟨_, AndExpr.create_means hl hr, hl.arithmetic .and hr nofun⟩
  or {l r} h := by
    obtain ⟨hl, hr, hlr⟩ := h
    apply Expr.Means.equivalent
    intro ρ
    have hl := means_self (P := Steady ρ) (D := False) True ρ hl nofun
    have hr := means_self (P := Steady ρ) (D := False) True ρ hr nofun
    rw [← hlr] at hr
    exact ⟨_, OrExpr.create_means hl hr, hl.arithmetic .or hr nofun⟩
  read := readLawful_smartBuilder
  extract := ExtractExpr.create_full _

end Chef
