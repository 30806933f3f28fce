import Mathlib.Data.List.Lex
import Mathlib.Data.Prod.Lex

namespace Foundations
open List
variable [LinearOrder α]
theorem cmp_cons (a b : α) (l m : List α) : cmp (a :: l) (b :: m) = (cmp a b).then (cmp l m) := by
  rcases lt_trichotomy a b with h | rfl | h
  · simp [cmp, cmpUsing, cons_lt_cons_iff, h]
  · simp [cmp, cmpUsing]
  · simp [cmp, cmpUsing, cons_lt_cons_iff, h, h.not_gt, h.ne']

/-- A comparison by keys that others may follow; `P` holds for equal values. -/
structure Compares (o : Ordering) (k k' : List α) (P : Prop) : Prop where
  cmp_append : ∀ l l', cmp (k ++ l) (k' ++ l') = o.then (cmp l l')
  eq : o = .eq → P

namespace Compares
theorem refl (k : List α) (h : P) : Compares .eq k k P := by
  refine ⟨fun l l' => ?_, fun _ => h⟩
  induction k with
  | nil => rfl
  | cons a k ih =>
    rw [cons_append, cons_append, cmp_cons, cmp_self_eq_eq, ih]
    rfl

theorem item (a b : α) : Compares (cmp a b) [a] [b] (a = b) :=
  ⟨fun l l' => cmp_cons a b l l', fun h => (cmp_eq_eq_iff ..).1 h⟩

theorem pair [LinearOrder β] (a a' : α) (b b' : β) :
    Compares ((cmp a a').then (cmp b b')) [toLex (a, b)] [toLex (a', b')] (a = a' ∧ b = b') := by
  have : cmp (toLex (a, b)) (toLex (a', b')) = (cmp a a').then (cmp b b') := by
    rcases lt_trichotomy a a' with h | rfl | h
    · simp [cmp, cmpUsing, Prod.Lex.toLex_lt_toLex, h]
    · simp [cmp, cmpUsing, Prod.Lex.toLex_lt_toLex]
    · simp [cmp, cmpUsing, Prod.Lex.toLex_lt_toLex, h, h.not_gt, h.ne']
  rw [← this]
  exact ⟨(item _ _).cmp_append, fun h => Prod.mk.inj (toLex.injective ((item _ _).eq h))⟩

theorem imp {k k' : List α} (h : Compares o k k' P) (hPQ : P → Q) : Compares o k k' Q :=
  ⟨h.cmp_append, fun ho => hPQ (h.eq ho)⟩

/-- The second keys matter only if the first are equal. -/
theorem append {k k' m m' : List α} (h : Compares o k k' P) (h' : P → Compares o' m m' Q) :
    Compares (o.then o') (k ++ m) (k' ++ m') (P ∧ Q) := by
  cases o with
  | eq =>
    have hP := h.eq rfl
    refine ⟨fun l l' => ?_, fun ho => ⟨hP, (h' hP).eq ho⟩⟩
    rw [append_assoc, append_assoc, h.cmp_append]
    exact (h' hP).cmp_append l l'
  | lt | gt =>
    refine ⟨fun l l' => ?_, nofun⟩
    rw [append_assoc, append_assoc, h.cmp_append]
    rfl

theorem order {k k' : List α} (h : Compares o k k' P) :
    (o = .lt ↔ k < k') ∧ (o = .gt ↔ k' < k) := by
  have ho : o = cmp k k' := by
    have := h.cmp_append [] []
    rw [append_nil, append_nil] at this
    cases o <;> exact this.symm
  rw [ho, cmp, cmpUsing]
  split
  next hlt => simp [hlt, lt_asymm hlt]
  next hlt =>
    split
    next hgt => simp [hlt, hgt]
    next hgt => simp [hlt, hgt]

theorem swap {k k' : List α} (h : Compares o k k' P) (h' : Compares o' k' k Q) : o' = o.swap := by
  have hlt := h'.order.1.trans h.order.2.symm
  have hgt := h'.order.2.trans h.order.1.symm
  revert hlt hgt
  cases o <;> cases o' <;> decide

theorem trans {k k' k'' : List α} (h : Compares .lt k k' P) (h' : Compares .lt k' k'' Q)
    (h'' : Compares o k k'' R) : o = .lt :=
  h''.order.1.2 (lt_trans (h.order.1.1 rfl) (h'.order.1.1 rfl))

end Compares
end Foundations
