import Mathlib.Data.List.Nodup
import Mathlib.Data.List.Perm.Subperm

namespace Foundations
open List Or
/-- A search through a graph with a stack. -/
structure Search (α τ : Type) where
  stack : List α
  visited : List α
  extra : τ

namespace Search
section
variable [DecidableEq α] (skip : α → Bool) (expand : α → τ → List α × τ)
/-- A node is put on the stack once, unless skipped. -/
def visit (s : Search α τ) (x : α) : Search α τ :=
  if skip x || decide (x ∈ s.visited) then s
  else { s with stack := x :: s.stack, visited := x :: s.visited }

def step (x : α) (s : Search α τ) : Search α τ :=
  (expand x s.extra).1.foldl (visit skip) { s with extra := (expand x s.extra).2 }

def run : Nat → Search α τ → Option (Search α τ)
  | 0, _ => none
  | fuel + 1, s =>
    match s.stack with
    | [] => some s
    | x :: rest => run fuel (step skip expand x { s with stack := rest })

end

def Seen (skip : α → Bool) (s : Search α τ) (x : α) : Prop := skip x = true ∨ x ∈ s.visited

/-- It lists the neighbours that are not known to be seen. -/
structure Expands (skip : α → Bool) (expand : α → τ → List α × τ) (kids : α → List α)
    (Done : α → τ → Prop) (Memo : τ → (α → Prop) → Prop) : Prop where
  done : ∀ x t, Done x (expand x t).2
  keeps : ∀ x y t, Done y t → Done y (expand x t).2
  covers : ∀ x t V, Memo t V → ∀ k ∈ kids x, k ∈ (expand x t).1 ∨ V k
  memo : ∀ x t V V', Memo t V → (∀ k, V k → V' k) → (∀ k ∈ (expand x t).1, V' k) →
    Memo (expand x t).2 V'

structure Visits (skip : α → Bool) (s : Search α τ) (ks : List α) (s' : Search α τ) : Prop where
  extra : s'.extra = s.extra
  seen : ∀ k ∈ ks, Seen skip s' k
  visited : ∀ x ∈ s.visited, x ∈ s'.visited
  stack : ∀ x ∈ s.stack, x ∈ s'.stack
  fresh : ∀ x ∈ s'.visited, x ∈ s.visited ∨ x ∈ s'.stack ∧ x ∈ ks
  onStack : (∀ x ∈ s.stack, x ∈ s.visited) → ∀ x ∈ s'.stack, x ∈ s'.visited
  nodup : s.visited.Nodup → s'.visited.Nodup
  length : s'.visited.length + s.stack.length = s.visited.length + s'.stack.length

section
variable {skip : α → Bool} {s s' : Search α τ}
theorem Seen.mono (h : Seen skip s x) (hv : ∀ x ∈ s.visited, x ∈ s'.visited) : Seen skip s' x :=
  h.imp_right (hv x)

theorem visits_nil (skip : α → Bool) (s : Search α τ) : Visits skip s [] s where
  extra := rfl
  seen := forall_mem_nil _
  visited _ hx := hx
  stack _ hx := hx
  fresh _ hx := inl hx
  onStack h := h
  nodup h := h
  length := rfl

theorem visits_one [DecidableEq α] (skip : α → Bool) (s : Search α τ) (x : α) :
    Visits skip s [x] (visit skip s x) := by
  rw [visit]
  split
  next hs =>
    rw [Bool.or_eq_true, decide_eq_true_iff] at hs
    have hn := visits_nil skip s
    exact { hn with
      seen := forall_mem_cons.2 ⟨hs, forall_mem_nil _⟩
      fresh := fun _ hy => inl hy }
  next hs =>
    rw [Bool.or_eq_true, decide_eq_true_iff, not_or] at hs
    refine ⟨rfl, ?_, ?_, ?_, ?_, ?_, ?_, ?_⟩
    · exact forall_mem_cons.2 ⟨inr mem_cons_self, forall_mem_nil _⟩
    · exact fun y hy => mem_cons_of_mem _ hy
    · exact fun y hy => mem_cons_of_mem _ hy
    · intro y hy
      obtain rfl | hy := mem_cons.1 hy
      · exact inr ⟨mem_cons_self, mem_cons_self⟩
      · exact inl hy
    · intro h y hy
      obtain rfl | hy := mem_cons.1 hy
      · exact mem_cons_self
      · exact mem_cons_of_mem _ (h y hy)
    · exact fun h => nodup_cons.2 ⟨hs.2, h⟩
    · simp only [length_cons]
      omega

theorem Visits.trans (h : Visits skip s ks s') (h' : Visits skip s' ls s'') :
    Visits skip s (ks ++ ls) s'' where
  extra := h'.extra.trans h.extra
  seen := forall_mem_append.2 ⟨fun k hk => (h.seen k hk).mono h'.visited, h'.seen⟩
  visited x hx := h'.visited x (h.visited x hx)
  stack x hx := h'.stack x (h.stack x hx)
  fresh x hx := by
    obtain hx | ⟨ht, hx⟩ := h'.fresh x hx
    · obtain hx | ⟨ht, hx⟩ := h.fresh x hx
      · exact inl hx
      · exact inr ⟨h'.stack x ht, mem_append_left _ hx⟩
    · exact inr ⟨ht, mem_append_right _ hx⟩
  onStack hs := h'.onStack (h.onStack hs)
  nodup hs := h'.nodup (h.nodup hs)
  length := by
    have h1 := h.length
    have h2 := h'.length
    omega

theorem visits_foldl [DecidableEq α] (skip : α → Bool) (ks : List α) (s : Search α τ) :
    Visits skip s ks (ks.foldl (visit skip) s) := by
  induction ks generalizing s with
  | nil => exact visits_nil skip s
  | cons k ks ih =>
    exact (visits_one skip s k).trans (ih _)

end

/-- A node that was seen waits, or its neighbours are seen. -/
structure Searching (skip : α → Bool) (kids : α → List α) (Done : α → τ → Prop)
    (Memo : τ → (α → Prop) → Prop) (all : List α) (s : Search α τ) : Prop where
  nodup : s.visited.Nodup
  onStack : ∀ x ∈ s.stack, x ∈ s.visited
  within : ∀ x ∈ s.visited, x ∈ all
  memo : Memo s.extra (Seen skip s)
  done : ∀ x ∈ s.visited, x ∈ s.stack ∨ Done x s.extra ∧ ∀ k ∈ kids x, Seen skip s k

variable [DecidableEq α] {skip : α → Bool} {expand : α → τ → List α × τ}
  {Done : α → τ → Prop} {Memo : τ → (α → Prop) → Prop} {s : Search α τ}

variable (skip expand s) in
theorem visits_step (x : α) (rest : List α) : Visits skip { s with stack := rest, extra :=
    (expand x s.extra).2 } (expand x s.extra).1 (Search.step skip expand x { s with stack := rest })
    :=
  visits_foldl skip _ _

variable (he : Expands skip expand kids Done Memo) {u : List α}
  (hu : ∀ x ∈ u, ∀ t, ∀ k ∈ (expand x t).1, k ∈ u) (h : Searching skip kids Done Memo u s)
include he hu h
theorem Searching.step (hs : s.stack = x :: rest) :
    Searching skip kids Done Memo u (Search.step skip expand x { s with stack := rest }) := by
  have hx : x ∈ s.visited := h.onStack x (by rw [hs]; exact mem_cons_self)
  have hv := visits_step skip expand s x rest
  have hn : ∀ k, Seen skip s k → Seen skip (Search.step skip expand x { s with stack := rest }) k :=
    fun k hk => hk.mono hv.visited
  refine ⟨hv.nodup h.nodup, hv.onStack ?_, ?_, ?_, ?_⟩
  · intro y hy
    exact h.onStack y (by rw [hs]; exact mem_cons_of_mem _ hy)
  · intro y hy
    obtain hy | ⟨-, hy⟩ := hv.fresh y hy
    · exact h.within y hy
    · exact hu x (h.within x hx) _ y hy
  · rw [hv.extra]
    exact he.memo x _ _ _ h.memo hn hv.seen
  · intro y hy
    rw [hv.extra]
    obtain hy | ⟨ht, -⟩ := hv.fresh y hy
    · obtain ht | ⟨hd, hks⟩ := h.done y hy
      · rw [hs] at ht
        obtain rfl | hr := mem_cons.1 ht
        · refine inr ⟨he.done y _, ?_⟩
          intro k hk
          obtain hk | hk := he.covers y _ _ h.memo k hk
          · exact hv.seen k hk
          · exact hn k hk
        · exact inl (hv.stack y hr)
      · exact inr ⟨he.keeps x y _ hd, fun k hk => hn k (hks k hk)⟩
    · exact inl ht

/-- A search ends, and the neighbours of what was seen are seen. -/
theorem run_spec (hfu : u.length + s.stack.length < s.visited.length + fuel) :
    ∃ s', run skip expand fuel s = some s' ∧ (∀ x ∈ s.visited, x ∈ s'.visited) ∧
      ∀ x ∈ s'.visited, Done x s'.extra ∧ ∀ k ∈ kids x, Seen skip s' k := by
  induction fuel generalizing s with
  | zero =>
    have hle := (subperm_of_subset h.nodup h.within).length_le
    omega
  | succ fuel ih =>
    rw [run]
    cases hs : s.stack with
    | nil =>
      refine ⟨s, rfl, fun _ hx => hx, ?_⟩
      intro x hx
      obtain ht | hd := h.done x hx
      · rw [hs] at ht
        exact absurd ht not_mem_nil
      · exact hd
    | cons x rest =>
      have hv := visits_step skip expand s x rest
      have hl := hv.length
      rw [hs, length_cons] at hfu
      obtain ⟨s', hr, hvis, hd⟩ := ih (h.step he hu hs) (by simp only at hl; omega)
      exact ⟨s', hr, fun y hy => hvis y (hv.visited y hy), hd⟩

end Search
end Foundations
