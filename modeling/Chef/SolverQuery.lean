import Chef.ForkingSound

namespace Chef
open Foundations
/-- A question under the constraints of a state. -/
structure Query where
  constraints : ConstraintManager
  expr : Expr
  deriving DecidableEq

def Query.negateExpr (q : Query) : Query := { q with expr := createIsZero q.expr }

/-- An expression that is true or false. -/
structure Expr.IsBool (e : Expr) : Prop where
  wellTyped : e.WellTyped
  width_eq : e.width = 1

section
variable {e : Expr} (h : e.IsBool)
include h
theorem Expr.IsBool.eval_cases (ρ : Assignment) : e.eval ρ = 0 ∨ e.eval ρ = 1 := by
  have hlt := e.eval_lt ρ h.wellTyped
  rw [h.width_eq] at hlt
  omega

theorem Expr.IsBool.createIsZero_means (ρ : Assignment) :
    (createIsZero e).MeansIn (Expr.Steady ρ) True False ρ (~~~BitVec.ofNat 1 (e.eval ρ)) := by
  have hme := Expr.means_self (D := False) (P := Expr.Steady ρ) True ρ h.wellTyped False.elim
  rw [h.width_eq] at hme
  exact createIsZero_bool hme

theorem Expr.IsBool.createIsZero : (createIsZero e).IsBool :=
  ⟨(h.createIsZero_means default).wellTyped, (h.createIsZero_means default).width_eq⟩

theorem Expr.IsBool.createIsZero_eval (ρ : Assignment) :
    (Chef.createIsZero e).eval ρ = 1 ↔ e.eval ρ ≠ 1 := by
  rw [(h.createIsZero_means ρ).eval_eq trivial]
  obtain he | he := h.eval_cases ρ
  · rw [he]
    decide
  · rw [he]
    decide

end

def Validity.Right (T : Set Assignment) (e : Expr) : Validity → Prop
  | .isTrue => ∀ ρ ∈ T, e.eval ρ = 1
  | .isFalse => ∀ ρ ∈ T, e.eval ρ ≠ 1
  | .unknown => (∃ ρ ∈ T, e.eval ρ = 1) ∧ ∃ ρ ∈ T, e.eval ρ ≠ 1

def Expr.ValidIn (T : Set Assignment) (e : Expr) : Prop := ∀ ρ ∈ T, e.eval ρ = 1

def Query.models (nodes : Store ConditionNode) (q : Query) : Set Assignment :=
  {ρ | ConstraintManager.Satisfied nodes q.constraints ρ}

end Chef
