import Mathlib.Algebra.Group.Int.Defs
import Mathlib.Algebra.Group.Nat.Defs
import Mathlib.Logic.Relation

namespace Foundations
/-- It moves from state to state by labelled steps. -/
structure Machine (σ ε : Type) where
  init : σ → Prop
  step : σ → ε → σ → Prop

/-- The runs whose steps are taken where `allow` admits them. -/
inductive Machine.Reachable (M : Machine σ ε) (allow : σ → ε → Prop) : σ → Prop where
  | init : M.init s → Reachable M allow s
  | step : Reachable M allow s → allow s e → M.step s e s' → Reachable M allow s'

abbrev Machine.Reached (M : Machine σ ε) : σ → Prop := M.Reachable fun _ _ => True

/-- An invariant may rely on `allow` for every step. -/
theorem Machine.Reachable.invariant {M : Machine σ ε} {I : σ → Prop}
    (hi : ∀ s, M.init s → I s) (hs : ∀ s e s', I s → allow s e → M.step s e s' → I s')
    (h : M.Reachable allow s) : I s := by
  induction h with
  | init h => exact hi _ h
  | step _ hg hst ih => exact hs _ _ _ ih hg hst

/-- The state after events that are admitted where they happen. -/
def runWhile (allow : σ → ε → Prop) [∀ s e, Decidable (allow s e)]
    (handle : σ → ε → Except φ σ) : List ε → σ → Option σ
  | [], s => some s
  | e :: events, s =>
    if allow s e then
      match handle s e with
      | .ok s' => runWhile allow handle events s'
      | .error _ => none
    else none

theorem Machine.Reachable.runWhile {M : Machine σ ε}
    [∀ s e, Decidable (allow s e)] {handle : σ → ε → Except φ σ}
    (hs : ∀ s e s', handle s e = .ok s' → M.step s e s') (h : M.Reachable allow s)
    (hr : runWhile allow handle events s = some s') : M.Reachable allow s' := by
  induction events generalizing s with
  | nil =>
    cases hr
    exact h
  | cons e events ih =>
    rw [Foundations.runWhile] at hr
    split at hr
    next hal =>
      split at hr
      next s1 hs1 => exact ih (.step h hal (hs _ _ _ hs1)) hr
      · cases hr
    · cases hr

variable {x : Except φ α}
theorem bind_ok_iff : x >>= f = .ok r ↔ ∃ a, x = .ok a ∧ f a = .ok r := by
  cases x with
  | error e | ok a => simp [bind, Except.bind]

theorem bind_some_iff {x : Option α} : x >>= f = some r ↔ ∃ a, x = some a ∧ f a = some r :=
  Option.bind_eq_some_iff

theorem map_ok_iff : x.map f = .ok r ↔ ∃ a, x = .ok a ∧ f a = r := by
  cases x with
  | error e | ok _ => simp [Except.map]

theorem bind_error_iff : x >>= f = .error e ↔ x = .error e ∨ ∃ a, x = .ok a ∧ f a = .error e := by
  cases x with
  | error e | ok a => simp [bind, Except.bind]

theorem ok_of_toOption_map (h : x.toOption.map f = some b) : ∃ a, x = .ok a ∧ f a = b := by
  cases x with
  | error e => cases h
  | ok a => exact ⟨a, rfl, Option.some.inj h⟩

end Foundations
