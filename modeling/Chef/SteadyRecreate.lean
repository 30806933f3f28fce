import Chef.ExprRecreate

namespace Chef
open Chef.Expr BitVec
variable {A : APInt} {e e' : Expr}
theorem ReadExpr.create_plain (root : KArray) (head : UpdateNode) (index : Expr)
    (h : SelectExpr.hasConstantCases index = false) : ReadExpr.create root head index =
      (ReadExpr.rollback index head).getD (.read root head index) := by
  rw [ReadExpr.create.eq_def]
  split
  · rw [h, if_neg Bool.false_ne_true]
  · rfl

theorem ReadExpr.createPlain_meansIn [Inherits ρ P] (root : KArray)
    (h : (read root head index).WellTyped) (hP : P (.read root head index)) :
    ((ReadExpr.rollback index head).getD (.read root head index)).MeansIn P True True ρ
      (head.valueAt ρ root (index.eval ρ)).toBitVec := by
  obtain ⟨hhd, hi, hw⟩ := h
  have hie := means_self (D := True) True ρ hi fun _ => Inherits.index ρ hP
  rw [hw] at hie
  apply (ReadExpr.createAt_means root hie id hhd fun _ => hP).congr
  intro _
  rw [← hie.eval_eq trivial]

theorem ReadExpr.create_meansIn [InheritsStrictly ρ P] (root : KArray) (head : UpdateNode)
    (index : Expr) (h : (read root head index).WellTyped) (hP : P (.read root head index)) :
    (ReadExpr.create root head index).MeansIn P True True ρ
      (head.valueAt ρ root (index.eval ρ)).toBitVec := by
  fun_induction ReadExpr.create root head index with
  | case1 c t f _ iht ihf =>
    obtain ⟨hhd, ⟨hc, ht, hf, hcw, htf⟩, hw⟩ := h
    have htw : t.width = 32 := by rw [← hw, width]
    obtain ⟨hPt, hPf⟩ := InheritsStrictly.cases ρ hP
    have hPc := ((InheritsStrictly.select ρ).1 (Inherits.index ρ hP)).1
    have hc' := means_self (D := True) True ρ hc fun _ => hPc
    rw [hcw] at hc'
    apply (SelectExpr.create_means hc' (iht ⟨hhd, ht, htw⟩ hPt)
      (ihf ⟨hhd, hf, htf.symm.trans htw⟩ hPf)).congr
    intro _
    have ho : BitVec.ofNat 1 (c.eval ρ) = 1#1 ↔ c.eval ρ = 1 := by
      rw [← toNat_inj, ← hc'.eval_eq trivial]
      rfl
    rw [eval]
    by_cases hcd : c.eval ρ = 1
    · rw [if_pos (ho.2 hcd), if_pos hcd]
    · rw [if_neg (mt ho.1 hcd), if_neg hcd]
  | case2 c t f _ | case3 index _ => exact ReadExpr.createPlain_meansIn root h hP

theorem APInt.Lawful.folds (hA : A.Lawful) {x y : BitVec w} (hw : w ≤ 64) (h : kind.Folds x y) :
    A.arithmetic kind x y = kind.apply x y := by
  rw [hA.arithmetic_iff kind x y hw]
  rintro ⟨hk, hm, hle⟩
  exact absurd (h.2 hk hm) (Nat.not_lt.2 hle)

/-- The library folds the operands to the value. -/
def Expr.FoldsBy (A : APInt) (ρ : Assignment) : Expr → Prop
  | .arithmetic kind l r =>
    A.arithmetic kind (BitVec.ofNat l.width (l.eval ρ)) (BitVec.ofNat l.width (r.eval ρ)) =
      kind.apply (BitVec.ofNat l.width (l.eval ρ)) (BitVec.ofNat l.width (r.eval ρ))
  | _ => True

theorem APInt.Lawful.foldsBy (hA : A.Lawful) (hw : ∀ o ∈ e.operands, o.width ≤ 64)
    (hs : e.Steady ρ) : e.FoldsBy A ρ := by
  cases e with
  | arithmetic kind l r => exact hA.folds (hw l List.mem_cons_self) hs.2.2
  | _ => trivial

def Expr.selects : Expr → Bool
  | .select _ _ _ => true
  | .read _ _ index => SelectExpr.hasConstantCases index
  | _ => false

/-- It has the width and value of the second one, and the property. -/
structure Expr.StandsFor (P : Expr → Prop) (ρ : Assignment) (e' e : Expr) : Prop where
  wellTyped : e'.WellTyped
  width_eq : e'.width = e.width
  eval_eq : e'.eval ρ = e.eval ρ
  inherits : P e'

theorem Expr.MeansIn.standsFor {x : BitVec w} (h : e'.MeansIn P True True ρ x) (hw : e.width = w)
    (he : e.eval ρ = x.toNat) : e'.StandsFor P ρ e :=
  ⟨h.wellTyped, h.width_eq.trans hw.symm, (h.eval_eq trivial).trans he.symm, h.defined trivial⟩

theorem recreate_arithmetic_standsFor [Inherits ρ P] (h : (arithmetic kind l r).WellTyped)
    (hfo : (arithmetic kind l r).FoldsBy A ρ)
    (hs : (arithmetic kind l r).Steady ρ) (hP : P (.arithmetic kind l r)) :
    (ArithmeticExpr.create A kind l r).StandsFor P ρ (.arithmetic kind l r) := by
  obtain ⟨hl, hr, hlr⟩ := h
  obtain ⟨hPl, hPr⟩ := Inherits.arithmetic ρ hP
  have hl' := means_self (D := True) True ρ hl fun _ => hPl
  have hr' := means_self (D := True) True ρ hr fun _ => hPr
  rw [← hlr] at hr'
  refine (ArithmeticExpr.create_means A kind hl' hr' ?_ (fun _ _ => hP) ?_).standsFor rfl ?_
  · intro hd _ hz
    apply hs.2.2.1 hd
    rw [hz]
  · intro _ _ _
    exact hfo
  · rw [eval]

theorem recreate_compare_standsFor [Inherits ρ P] (h : (compare kind l r).WellTyped)
    (hP : P (.compare kind l r)) :
    (CompareExpr.create kind l r).StandsFor P ρ (.compare kind l r) := by
  obtain ⟨hl, hr, hlr⟩ := h
  obtain ⟨hPl, hPr⟩ := (Inherits.compare ρ).1 hP
  have hl' := means_self (D := True) True ρ hl fun _ => hPl
  have hr' := means_self (D := True) True ρ hr fun _ => hPr
  rw [← hlr] at hr'
  apply (CompareExpr.create_means kind hl' hr' fun _ => id).standsFor rfl
  rw [eval, toNat_ofBool]

theorem recreate_read_standsFor [Inherits ρ P] (h : (read root head index).WellTyped)
    (hP : P (.read root head index))
    (hs : SelectExpr.hasConstantCases index = true → InheritsStrictly ρ P) :
    (ReadExpr.create root head index).StandsFor P ρ (.read root head index) := by
  have hcr : (ReadExpr.create root head index).MeansIn P True True ρ
      (head.valueAt ρ root (index.eval ρ)).toBitVec := by
    cases hca : SelectExpr.hasConstantCases index with
    | true =>
      have := hs hca
      exact ReadExpr.create_meansIn root head index h hP
    | false =>
      rw [ReadExpr.create_plain root head index hca]
      exact ReadExpr.createPlain_meansIn root h hP
  apply hcr.standsFor rfl
  rw [eval, UInt8.toNat_toBitVec]

theorem recreate_standsFor [Inherits ρ P] (h : e.WellTyped) (hfo : e.FoldsBy A ρ)
    (hs : e.Steady ρ) (hP : P e)
    (ht : e.selects = true → InheritsStrictly ρ P) : (e.recreate A).StandsFor P ρ e := by
  cases hk : e.isStructural with
  | true =>
    have hty : e.OperandsTyped := by
      rw [Expr.OperandsTyped.eq_def]
      split
      · exact h.1
      · exact h.1
      · exact h
    obtain ⟨x, hx, he⟩ := recreate_structural (ρ := ρ) (D := True) A hty hk fun _ => hP
    exact hx.standsFor rfl he
  | false =>
    cases e with
    | read root head index => exact recreate_read_standsFor h hP ht
    | select c t f =>
      have := ht rfl
      obtain ⟨x, hx, he⟩ := recreate_select (ρ := ρ) (D := True) h fun _ => hP
      exact hx.standsFor rfl he
    | arithmetic kind l r => exact recreate_arithmetic_standsFor h hfo hs hP
    | compare kind l r => exact recreate_compare_standsFor h hP
    | _ => cases hk

end Chef
