import Mathlib.Data.Set.Card

namespace Foundations
open Relation
/-- Edges lead from at most one parent and up in rank. -/
structure IsForest (child : α → α → Prop) (rank : α → Nat) : Prop where
  rank_lt : child a b → rank a < rank b
  parent_unique : child a c → child b c → a = b

abbrev Below (child : α → α → Prop) (a b : α) : Prop := ReflTransGen child a b

namespace IsForest
variable {rank : α → Nat} (hF : IsForest child rank)
include hF
theorem rank_le (h : Below child a b) : rank a ≤ rank b := by
  induction h with
  | refl => exact Nat.le_refl _
  | tail _ hc ih => exact Nat.le_trans ih (Nat.le_of_lt (hF.rank_lt hc))

theorem not_below_parent (h : child a b) : ¬Below child b a := by
  intro hb
  have h1 := hF.rank_lt h
  have h2 := hF.rank_le hb
  omega

theorem comparable (ha : Below child a c) (hb : Below child b c) :
    Below child a b ∨ Below child b a := by
  have hu : Relator.RightUnique (Function.swap child) := fun _ _ _ h h' => hF.parent_unique h h'
  rcases ReflTransGen.total_of_right_unique hu
    (reflTransGen_swap.2 ha) (reflTransGen_swap.2 hb) with h | h
  · exact .inr (reflTransGen_swap.1 h)
  · exact .inl (reflTransGen_swap.1 h)

theorem below_child (hc : child s c) (h : Below child a c) : a = c ∨ Below child a s := by
  rcases h.cases_tail with h | ⟨b, hb, hbc⟩
  · exact .inl h.symm
  · exact .inr (hF.parent_unique hbc hc ▸ hb)

theorem siblings (hc : child s c) (hc' : child s c') (h : Below child c c') : c = c' := by
  rcases hF.below_child hc' h with h | h
  · exact h
  · exact absurd h (hF.not_below_parent hc)

end IsForest

/-- `n` has become a child of `s`. -/
def AddLeaf (child : α → α → Prop) (s n : α) (a b : α) : Prop := child a b ∨ a = s ∧ b = n

section
variable {rank : α → Nat}
theorem Below.addLeaf (h : Below child a b) : Below (AddLeaf child s n) a b :=
  ReflTransGen.mono (fun _ _ hc => Or.inl hc) _ _ h

theorem below_addLeaf_iff (hn : ∀ b, ¬child n b) (hs : s ≠ n) (hb : b ≠ n) :
    Below (AddLeaf child s n) a b ↔ Below child a b := by
  refine ⟨fun h => ?_, Below.addLeaf⟩
  induction h using ReflTransGen.head_induction_on with
  | refl => exact .refl
  | head hc _ ih =>
    rcases hc with hc | ⟨rfl, rfl⟩
    · exact .head hc ih
    rcases ih.cases_head with he | ⟨c, hc, _⟩
    · exact absurd he.symm hb
    · exact absurd hc (hn c)

end

/-- Nodes, none below another, whose subtrees hold all of `P`. -/
structure Frontier (child : α → α → Prop) (I : Set ι) (pos : ι → α) (P : Set α) : Prop where
  separated : i ∈ I → j ∈ I → Below child (pos i) (pos j) → i = j
  covers : p ∈ P → ∃ i ∈ I, Below child (pos i) p

structure Advances (child : α → α → Prop) (I : Set ι) (pos : ι → α) (i : ι)
    (I' : Set ι) (pos' : ι → α) : Prop where
  mem : i ∈ I
  kept : j ∈ I → j ≠ i → j ∈ I' ∧ pos' j = pos j
  origin : j ∈ I' → j ∈ I ∧ j ≠ i ∨ child (pos i) (pos' j)
  successor : child (pos i) c → ∃ j ∈ I', pos' j = c
  injective : j ∈ I' → j' ∈ I' → child (pos i) (pos' j) → pos' j = pos' j' → j = j'

namespace Frontier
variable {rank : α → Nat} {pos pos' : ι → α}
section
variable (h : Frontier child I pos P)
include h
theorem unique (hF : IsForest child rank) (hp : p ∈ P) : ∃! i, i ∈ I ∧ Below child (pos i) p := by
  obtain ⟨i, hi, hb⟩ := h.covers hp
  refine ⟨i, ⟨hi, hb⟩, fun j hj => ?_⟩
  rcases hF.comparable hj.2 hb with hc | hc
  · exact h.separated hj.1 hi hc
  · exact (h.separated hi hj.1 hc).symm

theorem not_below_kept (hi : i ∈ I) (hj : j ∈ I) (hne : j ≠ i)
    (hc : child (pos i) c) : ¬Below child c (pos j) :=
  fun hb => hne (h.separated hi hj (.head hc hb)).symm

theorem not_kept_below (hF : IsForest child rank) (hi : i ∈ I)
    (hj : j ∈ I) (hne : j ≠ i) (hc : child (pos i) c) : ¬Below child (pos j) c := by
  intro hb
  rcases hF.below_child hc hb with he | hs
  · exact h.not_below_kept hi hj hne hc (he ▸ .refl)
  · exact hne (h.separated hj hi hs)

theorem advance (hF : IsForest child rank)
    (ha : Advances child I pos i I' pos') (hP : pos i ∉ P) : Frontier child I' pos' P where
  separated {j j'} hj hj' hb := by
    rcases ha.origin hj with ⟨hI, hne⟩ | hc <;> rcases ha.origin hj' with ⟨hI', hne'⟩ | hc'
    · rw [(ha.kept hI hne).2, (ha.kept hI' hne').2] at hb
      exact h.separated hI hI' hb
    · rw [(ha.kept hI hne).2] at hb
      exact absurd hb (h.not_kept_below hF ha.mem hI hne hc')
    · rw [(ha.kept hI' hne').2] at hb
      exact absurd hb (h.not_below_kept ha.mem hI' hne' hc)
    · exact ha.injective hj hj' hc (hF.siblings hc hc' hb)
  covers {p} hp := by
    obtain ⟨j, hj, hb⟩ := h.covers hp
    by_cases hne : j = i
    · subst hne
      rcases hb.cases_head with he | ⟨c, hc, hcp⟩
      · exact absurd (he ▸ hp) hP
      · obtain ⟨k, hk, rfl⟩ := ha.successor hc
        exact ⟨k, hk, hcp⟩
    · obtain ⟨hm, he⟩ := ha.kept hj hne
      exact ⟨j, hm, he ▸ hb⟩

end

def region (child : α → α → Prop) (I : Set ι) (pos : ι → α) : Set α :=
  { p | ∃ i ∈ I, Below child (pos i) p }

theorem region_subset (ha : Advances child I pos i I' pos') :
    region child I' pos' ⊆ region child I pos := by
  rintro p ⟨j, hj, hb⟩
  rcases ha.origin hj with ⟨hI, hne⟩ | hc
  · exact ⟨j, hI, (ha.kept hI hne).2 ▸ hb⟩
  · exact ⟨i, ha.mem, .head hc hb⟩

variable (h : Frontier child I pos P) (hF : IsForest child rank)
  (ha : Advances child I pos i I' pos')
include h hF ha
theorem not_mem_region : pos i ∉ region child I' pos' := by
  rintro ⟨j, hj, hb⟩
  rcases ha.origin hj with ⟨hI, hne⟩ | hc
  · rw [(ha.kept hI hne).2] at hb
    exact hne (h.separated hI ha.mem hb)
  · exact hF.not_below_parent hc hb

theorem ncard_region_lt (hf : (region child I pos).Finite) :
    (region child I' pos').ncard < (region child I pos).ncard := by
  apply Set.ncard_lt_ncard _ hf
  refine ⟨region_subset ha, fun hs => ?_⟩
  exact h.not_mem_region hF ha (hs ⟨i, ha.mem, .refl⟩)

end Frontier
end Foundations
