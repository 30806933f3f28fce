import Chef.ConditionTree
import Chef.Forking
import Chef.SimplifierRuns
import Mathlib.Data.Set.Basic

namespace Chef
open ForkingState hiding constraints depth
open Foundations Chef.Expr List Executor
def HoldAt (ρ : Assignment) (constraints : List Expr) : Prop := ∀ k ∈ constraints, k.eval ρ = 1

structure Expr.SteadyIn (T : Set Assignment) (e : Expr) : Prop where
  wellTyped : e.WellTyped
  steady : ∀ ρ ∈ T, e.Steady ρ

structure Expr.IsCondition (ρ : Assignment) (k : Expr) : Prop where
  wellTyped : k.WellTyped
  width_eq : k.width = 1
  steady : k.Steady ρ

structure Solver.Sound (solver : Solver) : Prop where
  isTrue : solver.evaluate constraints e = .isTrue → HoldAt ρ constraints → e.eval ρ = 1
  isFalse : solver.evaluate constraints e = .isFalse → HoldAt ρ constraints → e.eval ρ ≠ 1
  mustBeTrue : solver.mustBeTrue constraints e = true → HoldAt ρ constraints → e.eval ρ = 1
  getInitialValues : solver.getInitialValues constraints = some ρ → HoldAt ρ constraints

section
variable {k e : Expr}
theorem holdAt_append : HoldAt ρ (cs ++ cs') ↔ HoldAt ρ cs ∧ HoldAt ρ cs' := forall_mem_append

theorem holdAt_singleton : HoldAt ρ [k] ↔ k.eval ρ = 1 := forall_mem_singleton

theorem Expr.IsCondition.eval_cases (h : k.IsCondition ρ) : k.eval ρ = 0 ∨ k.eval ρ = 1 := by
  have hlt := k.eval_lt ρ h.wellTyped
  rw [h.width_eq] at hlt
  omega

theorem Expr.IsCondition.means (h : k.IsCondition ρ) :
    k.MeansIn (Steady ρ) True True ρ (BitVec.ofNat 1 (k.eval ρ)) := by
  have hme := means_self (D := True) True ρ h.wellTyped fun _ => h.steady
  rw [h.width_eq] at hme
  exact hme

theorem Expr.MeansIn.isCondition {x : BitVec 1} (h : k.MeansIn (Steady ρ) True True ρ x) :
    k.IsCondition ρ := ⟨h.wellTyped, h.width_eq, h.defined trivial⟩

theorem createIsZero_isCondition (h : k.IsCondition ρ) : (createIsZero k).IsCondition ρ :=
  (createIsZero_bool h.means).isCondition

theorem createIsZero_eval (h : k.IsCondition ρ) : (createIsZero k).eval ρ = 1 ↔ k.eval ρ ≠ 1 := by
  rw [(createIsZero_bool h.means).eval_eq trivial]
  obtain hk | hk := h.eval_cases
  · rw [hk]
    decide
  · rw [hk]
    decide

theorem branchCondition_isCondition (branch : Bool) (h : k.IsCondition ρ) :
    (branchCondition branch k).IsCondition ρ := by
  rw [branchCondition]
  split
  · exact h
  · exact createIsZero_isCondition h

theorem branchCondition_eval (branch : Bool) (h : k.IsCondition ρ) :
    (branchCondition branch k).eval ρ = 1 ↔ (k.eval ρ = 1 ↔ branch = true) := by
  rw [branchCondition]
  cases branch with
  | true => simp
  | false => simp [createIsZero_eval h]

theorem eqConstant_means (ht : e.WellTyped) (hs : e.Steady ρ) (v : Nat) (hv : v < 2 ^ e.width) :
    (EqExpr.create e (.constant e.width v)).MeansIn (Steady ρ) True True ρ
      (BitVec.ofBool (BitVec.ofNat e.width (e.eval ρ) == BitVec.ofNat e.width v)) := by
  have hme := means_self (D := True) True ρ ht fun _ => hs
  apply EqExpr.create_means hme _ fun _ => id
  have hc : (constant e.width v).WellTyped := hv
  apply (means_self (D := True) (P := Steady ρ) True ρ hc fun _ => trivial).congr
  intro _
  change BitVec.ofNat e.width (v % 2 ^ e.width) = BitVec.ofNat e.width v
  rw [Nat.mod_eq_of_lt hv]

theorem eqConstant_eval (ht : e.WellTyped) (hs : e.Steady ρ) :
    (EqExpr.create e (.constant e.width (e.eval ρ))).eval ρ = 1 := by
  rw [(eqConstant_means ht hs _ (e.eval_lt ρ ht)).eval_eq trivial, beq_self_eq_true]
  rfl

structure Added (ρ : Assignment) (condition : Expr) (constraints constraints' : List Expr) :
    Prop where
  holds : HoldAt ρ constraints' ↔ HoldAt ρ constraints ∧ condition.eval ρ = 1
  conditions : (∀ k ∈ constraints, k.IsCondition ρ) → ∀ k ∈ constraints', k.IsCondition ρ

theorem ForkingState.addConstraint_added (hk : k.IsCondition ρ)
    (h : addConstraint k cs = .ok cs') : Added ρ k cs cs' := by
  fun_induction addConstraint k cs generalizing cs' with
  | case1 w v cs hv =>
    cases h
    refine ⟨?_, id⟩
    exact ⟨fun h => ⟨h, hv.2⟩, And.left⟩
  | case2 w v cs hv => cases h
  | case3 left right cs ihl ihr =>
    obtain ⟨⟨hl, hr, hw⟩, hw', hsl, hsr, _⟩ := hk
    obtain ⟨cs1, h1, h2⟩ := bind_ok_iff.1 h
    have hrw := hw.symm.trans hw'
    have had := ihl ⟨hl, hw', hsl⟩ h1
    have hae := ihr _ ⟨hr, hrw, hsr⟩ h2
    refine ⟨?_, fun hcs => hae.conditions (had.conditions hcs)⟩
    rw [hae.holds, had.holds, ConstraintManager.eval_and_iff hl hr hw' hrw, and_assoc]
  | case4 e cs hc ha =>
    cases h
    refine ⟨?_, fun hcs => forall_mem_append.2 ⟨hcs, forall_mem_singleton.2 hk⟩⟩
    rw [holdAt_append, holdAt_singleton]

theorem ForkingState.addConstraint_subset (h : addConstraint k cs = .ok cs') : cs ⊆ cs' := by
  fun_induction addConstraint k cs generalizing cs' with
  | case1 w v cs hv =>
    cases h
    exact List.Subset.refl cs
  | case2 w v cs hv => cases h
  | case3 left right cs ihl ihr =>
    obtain ⟨cs1, h1, h2⟩ := bind_ok_iff.1 h
    exact List.Subset.trans (ihl h1) (ihr _ h2)
  | case4 e cs hc ha =>
    cases h
    exact subset_append_left cs [e]

end

namespace Executor
def IsClean (x : Executor) : Prop := ∀ call ∈ x.bitsCalls, call.IsClean

instance (x : Executor) : Decidable x.IsClean :=
  inferInstanceAs (Decidable (∀ call ∈ x.bitsCalls, call.IsClean))

structure Simplifies (ρ : Assignment) (e e' : Expr) : Prop where
  wellTyped : e'.WellTyped
  width_eq : e'.width = e.width
  steady : e'.Steady ρ
  eval_eq : e'.eval ρ = e.eval ρ

variable {x x' : Executor}
theorem Simplifies.isCondition (h : Simplifies ρ e e') (hw : e.width = 1) : e'.IsCondition ρ :=
  ⟨h.wellTyped, h.width_eq.trans hw, h.steady⟩

theorem state_ok (h : x.state i = .ok s) : x.states[i]? = some s := by
  rw [state] at h
  split at h
  next s' hs' =>
    cases h
    exact hs'
  · cases h

theorem simplifyExpr_spec (hA : A.Lawful) (h : x.simplifyExpr A depth e = .ok (e', x')) :
    x'.states = x.states ∧ (x'.IsClean → x.IsClean) ∧
      ∀ ρ, x.exprSimplifier.Sound ρ → e.WellTyped → e.Steady ρ → x'.IsClean →
        Simplifies ρ e e' ∧ x'.exprSimplifier.Sound ρ := by
  rw [simplifyExpr] at h
  split at h
  next r exprSimplifier calls hr =>
    cases h
    refine ⟨rfl, fun hcl => (forall_mem_append.1 hcl).1, fun ρ hd ht hs hcl => ?_⟩
    obtain ⟨hrt, hso'⟩ := BitfieldSimplifier.simplify_right hA hr hd ht hs
      (forall_mem_append.1 hcl).2
    exact ⟨⟨hrt.wellTyped, hrt.width_eq, hrt.steady, hrt.eval_eq⟩, hso'⟩
  · cases h

theorem addConstraint_spec (hA : A.Lawful) (h : x.addConstraint A depth i c = .ok x') :
    ∃ s cs, x.states[i]? = some s ∧ x'.states = x.states.set i { s with constraints := cs } ∧
      s.constraints ⊆ cs ∧ (x'.IsClean → x.IsClean) ∧
      ∀ ρ, x.exprSimplifier.Sound ρ → c.IsCondition ρ → x'.IsClean →
        Added ρ c s.constraints cs ∧ x'.exprSimplifier.Sound ρ := by
  obtain ⟨⟨c', x1⟩, hsy, h⟩ := bind_ok_iff.1 h
  obtain ⟨s, hs, h⟩ := bind_ok_iff.1 h
  obtain ⟨cs, hcs, h⟩ := bind_ok_iff.1 h
  cases h
  obtain ⟨ht, hc1, hr⟩ := simplifyExpr_spec hA hsy
  have hs' := state_ok hs
  rw [ht] at hs'
  refine ⟨s, cs, hs', ?_, addConstraint_subset hcs, hc1, fun ρ hd hc hcl => ?_⟩
  · rw [setState, ht]
  obtain ⟨hm, hso'⟩ := hr ρ hd hc.wellTyped hc.steady hcl
  have had := addConstraint_added (hm.isCondition hc.width_eq) hcs
  exact ⟨⟨hm.eval_eq ▸ had.holds, had.conditions⟩, hso'⟩

end Executor
end Chef
