import Mathlib.Data.List.Nodup

namespace Foundations
open Option
open List
theorem head?_eq_some_iff_first {l : List α} (hR : ∀ a ∈ l, ∀ b ∈ l, R a b → ¬R b a)
    (h : l.Pairwise R) : l.head? = some v ↔ v ∈ l ∧ ∀ w ∈ l, w = v ∨ R v w := by
  cases l with
  | nil => simp
  | cons a l =>
    have ha := (pairwise_cons.1 h).1
    rw [head?_cons, some.injEq]
    constructor
    · rintro rfl
      exact ⟨mem_cons_self, fun w hw => (mem_cons.1 hw).imp_right (ha w)⟩
    rintro ⟨hv, hl⟩
    obtain rfl | hv' := mem_cons.1 hv
    · rfl
    · exact (hl a mem_cons_self).resolve_right (hR a mem_cons_self v hv (ha v hv'))

variable [BEq α] [LawfulBEq α]
theorem lookup_cons_ite [DecidableEq α] (k : α) (v : β) (m : List (α × β)) (w : α) :
    ((k, v) :: m).lookup w = if w = k then some v else m.lookup w := by
  rw [lookup_cons]
  by_cases h : w = k
  · rw [if_pos h, beq_iff_eq.2 h]
  · rw [if_neg h, beq_false_of_ne h]

theorem lookup_filter_ne [DecidableEq α] (m : List (α × β)) (v w : α) :
    (m.filter fun e => e.1 ≠ v).lookup w = if w = v then none else m.lookup w := by
  induction m with
  | nil => simp
  | cons e m ih =>
    obtain ⟨k, n⟩ := e
    by_cases hk : k = v
    · rw [filter_cons_of_neg (by simpa using hk), ih, lookup_cons_ite, hk]
      split <;> rfl
    · rw [filter_cons_of_pos (by simpa using hk), lookup_cons_ite, lookup_cons_ite, ih]
      grind

theorem lookup_map_at [DecidableEq α] (m : List (α × β)) (v w : α) (f : β → β) :
    (m.map fun e => if e.1 = v then (e.1, f e.2) else e).lookup w =
      if w = v then (m.lookup v).map f else m.lookup w := by
  induction m with
  | nil => simp
  | cons e m ih =>
    obtain ⟨k, n⟩ := e
    rw [map_cons, lookup_cons_ite, lookup_cons_ite]
    split <;> rw [lookup_cons_ite, ih] <;> grind

variable {m : List (α × β)}
theorem lookup_of_mem (hn : (m.map Prod.fst).Nodup) (hm : (k, v) ∈ m) : m.lookup k = some v := by
  induction m with
  | nil => cases hm
  | cons e m ih =>
    obtain ⟨k', v'⟩ := e
    rw [map_cons, nodup_cons] at hn
    rcases mem_cons.1 hm with he | hm
    · cases he
      simp
    · have hne : k ≠ k' := fun he => hn.1 (mem_map.2 ⟨(k, v), hm, he⟩)
      rw [lookup_cons, beq_false_of_ne hne]
      exact ih hn.2 hm

theorem mem_of_lookup (h : m.lookup k = some v) : (k, v) ∈ m := by
  obtain ⟨l1, l2, rfl, _⟩ := lookup_eq_some_iff.1 h
  simp

theorem not_mem_keys_of_lookup (h : m.lookup k = none) : k ∉ m.map Prod.fst := by
  intro hk
  obtain ⟨e, he, rfl⟩ := mem_map.1 hk
  have hb := lookup_eq_none_iff.1 h e he
  simp at hb

/-- An entry is only made for a key that has none. -/
def insertNew (m : List (α × β)) (k : α) (v : β) : List (α × β) :=
  if (m.lookup k).isSome then m else (k, v) :: m

theorem lookup_insertNew [DecidableEq α] (m : List (α × β)) (k w : α) (v : β) :
    (insertNew m k v).lookup w = if w = k then some ((m.lookup k).getD v) else m.lookup w := by
  rw [insertNew]
  cases hk : m.lookup k with
  | none =>
    rw [isSome_none, if_neg Bool.false_ne_true, lookup_cons_ite, getD_none]
  | some v' =>
    rw [isSome_some, if_pos rfl, getD_some]
    split
    next hw => rw [hw, hk]
    · rfl

theorem lookup_foldl_insertNew [DecidableEq α] {key : γ → α} {value : γ → β} {l : List γ}
    (hx : x ∈ l) (hk : ∀ y ∈ l, key y = key x → y = x) (hm : m.lookup (key x) = none) :
    (l.foldl (fun m y => insertNew m (key y) (value y)) m).lookup (key x) = some (value x) := by
  have hlp : ∀ l : List γ, (∀ y ∈ l, key y = key x → y = x) → ∀ m : List (α × β),
      (m.lookup (key x) = some (value x) ∨ m.lookup (key x) = none ∧ x ∈ l) →
      (l.foldl (fun m y => insertNew m (key y) (value y)) m).lookup (key x) = some (value x) := by
    intro l
    induction l with
    | nil =>
      intro _ m h
      exact h.resolve_right fun h => absurd h.2 not_mem_nil
    | cons y l ih =>
      intro hk m h
      rw [forall_mem_cons] at hk
      apply ih hk.2
      rw [lookup_insertNew]
      by_cases hy : key x = key y
      · obtain rfl := hk.1 hy.symm
        refine Or.inl ?_
        rw [if_pos rfl]
        obtain h | h := h
        · rw [h, getD_some]
        · rw [h.1, getD_none]
      · rw [if_neg hy]
        refine h.imp_right fun h => ⟨h.1, (mem_cons.1 h.2).resolve_left ?_⟩
        intro hxy
        exact hy (congrArg key hxy)
  exact hlp l hk m (Or.inr ⟨hm, hx⟩)

theorem lookup_foldl_insertNew_ne [DecidableEq α] {key : γ → α} {value : γ → β} {l : List γ}
    (hk : ∀ y ∈ l, key y ≠ k) (m : List (α × β)) :
    (l.foldl (fun m y => insertNew m (key y) (value y)) m).lookup k = m.lookup k := by
  induction l generalizing m with
  | nil => rfl
  | cons y l ih =>
    rw [forall_mem_cons] at hk
    rw [foldl_cons, ih hk.2, lookup_insertNew, if_neg fun h => hk.1 h.symm]

end Foundations
