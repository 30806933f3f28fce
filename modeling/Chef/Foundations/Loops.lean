import Mathlib.Data.List.Basic

namespace Foundations
open List
theorem notMem_of_nodup (h : l.Nodup) (hl : l = done ++ a :: rest) : a ∉ done := by
  rw [hl, nodup_append] at h
  intro hm
  exact h.2.2 a hm a mem_cons_self rfl

section
variable (P : List α → β → Prop) (hi : P [] x)
include hi
/-- A loop whose rounds return, with an assertion about what is done. -/
theorem foldlM_pure [Monad m] [LawfulMonad m] {f : β → α → m β}
    (hs : ∀ done a rest x, l = done ++ a :: rest → P done x →
      ∃ y, f x a = pure y ∧ P (done ++ [a]) y) : ∃ y, l.foldlM f x = pure y ∧ P l y := by
  have hlp : ∀ rest done x, l = done ++ rest → P done x →
      ∃ y, rest.foldlM f x = pure y ∧ P l y := by
    intro rest
    induction rest with
    | nil =>
      intro done x hl hx
      rw [append_nil] at hl
      exact ⟨x, rfl, hl ▸ hx⟩
    | cons a rest ih =>
      intro done x hl hx
      obtain ⟨y, hy, hPy⟩ := hs done a rest x hl hx
      have hl' : l = done ++ [a] ++ rest := by
        rw [hl, append_assoc]
        rfl
      obtain ⟨z, hz, hPz⟩ := ih _ y hl' hPy
      refine ⟨z, ?_, hPz⟩
      rw [foldlM_cons, hy, pure_bind]
      exact hz
  exact hlp l [] x rfl hi

theorem foldlM_total {f : β → α → Except φ β} (hs : ∀ done a rest x, l = done ++ a :: rest →
    P done x → ∃ y, f x a = .ok y ∧ P (done ++ [a]) y) : ∃ y, l.foldlM f x = .ok y ∧ P l y :=
  foldlM_pure P hi hs

theorem foldlM_some {f : β → α → Option β} (hs : ∀ done a rest x, l = done ++ a :: rest →
    P done x → ∃ y, f x a = some y ∧ P (done ++ [a]) y) : ∃ y, l.foldlM f x = some y ∧ P l y :=
  foldlM_pure P hi hs

theorem foldlM_ok {f : β → α → Except φ β}
    (hs : ∀ done a rest x y, l = done ++ a :: rest → P done x → f x a = .ok y →
      P (done ++ [a]) y) (h : l.foldlM f x = .ok z) : P l z := by
  have hlp : ∀ rest done x, l = done ++ rest → P done x → rest.foldlM f x = .ok z → P l z := by
    intro rest
    induction rest with
    | nil =>
      intro done x hl hx hz
      rw [append_nil] at hl
      cases hz
      exact hl ▸ hx
    | cons a rest ih =>
      intro done x hl hx hz
      have hl' : l = done ++ [a] ++ rest := by
        rw [hl, append_assoc]
        rfl
      rw [foldlM_cons] at hz
      cases hy : f x a with
      | error e =>
        rw [hy] at hz
        cases hz
      | ok y =>
        rw [hy] at hz
        exact ih _ y hl' (hs done a rest x y hl hx hy) hz
  exact hlp l [] x rfl hi h

end

theorem foldlM_range_total {f : β → Nat → Except φ β} (P : List Nat → β → Prop) (hi : P [] x)
    (hs : ∀ done i x, i < n → i ∉ done → P done x → ∃ y, f x i = .ok y ∧ P (done ++ [i]) y) :
    ∃ y, (range n).foldlM f x = .ok y ∧ P (range n) y := by
  apply foldlM_total P hi
  intro done i rest x hl hx
  apply hs done i x _ (notMem_of_nodup nodup_range hl) hx
  apply mem_range.1
  rw [hl]
  exact mem_append_cons_self

/-- A round that notes whether it has changed anything. -/
structure Notes (f : Bool × σ → α → Bool × σ) (Le : σ → σ → Prop) (P : α → σ → Prop) : Prop where
  refl : ∀ s, Le s s
  trans : ∀ s s' s'', Le s s' → Le s' s'' → Le s s''
  keeps : ∀ a s s', Le s s' → P a s → P a s'
  grows : ∀ r a, Le r.2 (f r a).2
  adds : ∀ r a, P a (f r a).2
  unchanged : ∀ r a, (f r a).1 = false → f r a = r

theorem Notes.foldl {f : Bool × σ → α → Bool × σ} (h : Notes f Le P) (l : List α) (r : Bool × σ) :
    Le r.2 (l.foldl f r).2 ∧ (∀ a ∈ l, P a (l.foldl f r).2) ∧
      ((l.foldl f r).1 = false → l.foldl f r = r) := by
  induction l generalizing r with
  | nil => exact ⟨h.refl _, forall_mem_nil _, fun _ => rfl⟩
  | cons a l ih =>
    rw [foldl_cons]
    obtain ⟨hgr, ha, hs⟩ := ih (f r a)
    refine ⟨h.trans _ _ _ (h.grows r a) hgr, ?_, ?_⟩
    · exact forall_mem_cons.2 ⟨h.keeps a _ _ hgr (h.adds r a), ha⟩
    intro hf
    have heq := hs hf
    rw [heq] at hf ⊢
    exact h.unchanged r a hf

end Foundations
