import Mathlib.Data.Finset.Card

namespace Chef
open Finset
/-- Any value of a bin may be selected from it. -/
structure GenerationalSelector (α : Type) where
  bins : Bool → Finset α
  binIndex : Bool

inductive GenerationalOp (α : Type) where
  | insert (value : α)
  | erase (value : α)
  | select

structure Generations (α : Type) where
  current : Finset α
  next : Finset α

variable {α : Type} [DecidableEq α]
namespace Generations
def apply (g : Generations α) : GenerationalOp α → Generations α
  | .insert v => ⟨g.current.erase v, insert v g.next⟩
  | .erase v => ⟨g.current.erase v, g.next.erase v⟩
  | .select => if g.current = ∅ then ⟨g.next, ∅⟩ else g

def after (h : List (GenerationalOp α)) : Generations α := h.foldr (fun op g => g.apply op) ⟨∅, ∅⟩

def contained (g : Generations α) : Finset α := g.current ∪ g.next

def Fresh : List (GenerationalOp α) → Prop
  | [] => True
  | op :: h => Fresh h ∧ ∀ v, op = .insert v → v ∉ (after h).current

end Generations

namespace GenerationalSelector
section
variable (x : GenerationalSelector α)
def setBin (i : Bool) (bin : Finset α) : GenerationalSelector α :=
  { x with bins := Function.update x.bins i bin }

def insert (v : α) : GenerationalSelector α :=
  x.setBin (!x.binIndex) (Insert.insert v (x.bins (!x.binIndex)))

def erase (v : α) : GenerationalSelector α :=
  if v ∈ x.bins x.binIndex then x.setBin x.binIndex ((x.bins x.binIndex).erase v)
  else x.setBin (!x.binIndex) ((x.bins (!x.binIndex)).erase v)

def size : Nat := (x.bins false).card + (x.bins true).card

def select : GenerationalSelector α :=
  if x.size ≠ 0 ∧ x.bins x.binIndex = ∅ then { x with binIndex := !x.binIndex } else x

def apply : GenerationalOp α → GenerationalSelector α
  | .insert v => x.insert v
  | .erase v => x.erase v
  | .select => x.select

def after (h : List (GenerationalOp α)) : GenerationalSelector α :=
  h.foldr (fun op x => x.apply op) ⟨fun _ => ∅, false⟩

/-- The size is right, and what may be selected is not erased and does not wait. -/
def Right (h : List (GenerationalOp α)) : Prop :=
  let g := Generations.after h
  let selected := (after h).select
  (after h).size = g.contained.card ∧
    ∀ v ∈ selected.bins selected.binIndex, v ∈ g.contained ∧ (v ∈ g.next → g.current = ∅)

structure Follows (g : Generations α) : Prop where
  current : x.bins x.binIndex = g.current
  next : x.bins (!x.binIndex) = g.next
  disjoint : Disjoint g.current g.next

end

section
variable {x : GenerationalSelector α} {g : Generations α}
omit [DecidableEq α] in
theorem size_eq (x : GenerationalSelector α) :
    x.size = (x.bins x.binIndex).card + (x.bins (!x.binIndex)).card := by
  rw [size]
  cases x.binIndex with
  | false => rfl
  | true => exact Nat.add_comm ..

variable (hx : x.Follows g)
include hx
theorem Follows.size : x.size = g.contained.card := by
  rw [size_eq, hx.current, hx.next, Generations.contained, card_union_of_disjoint hx.disjoint]

theorem Follows.select : x.select.Follows (g.apply .select) := by
  rw [GenerationalSelector.select, Generations.apply, hx.size, hx.current]
  by_cases hn : g.current = ∅
  · rw [if_pos hn]
    by_cases hnx : g.next = ∅
    · rw [if_neg (by simp [Generations.contained, hn, hnx])]
      exact ⟨hx.current.trans (hn.trans hnx.symm), hx.next.trans hnx, disjoint_empty_right _⟩
    rw [if_pos (by simp [Generations.contained, hn, hnx])]
    refine ⟨hx.next, ?_, disjoint_empty_right _⟩
    rw [Bool.not_not]
    exact hx.current.trans hn
  · rw [if_neg (mt And.right hn), if_neg hn]
    exact hx

theorem Follows.selected (hv : v ∈ x.select.bins x.select.binIndex) :
    v ∈ g.contained ∧ (v ∈ g.next → g.current = ∅) := by
  rw [hx.select.current, Generations.apply] at hv
  split at hv
  next hn => exact ⟨mem_union_right _ hv, fun _ => hn⟩
  · exact ⟨mem_union_left _ hv, fun hnx => absurd hnx (disjoint_left.1 hx.disjoint hv)⟩

theorem Follows.insert (hv : v ∉ g.current) : (x.insert v).Follows (g.apply (.insert v)) := by
  have her := erase_eq_of_notMem hv
  refine ⟨?_, ?_, ?_⟩
  · simp [GenerationalSelector.insert, setBin, hx.current, Generations.apply, her]
  · simp [GenerationalSelector.insert, setBin, hx.next, Generations.apply]
  · rw [Generations.apply, her]
    exact disjoint_insert_right.2 ⟨hv, hx.disjoint⟩

theorem Follows.erase (v : α) : (x.erase v).Follows (g.apply (.erase v)) := by
  have hd : Disjoint (g.current.erase v) (g.next.erase v) :=
    hx.disjoint.mono (erase_subset ..) (erase_subset ..)
  rw [GenerationalSelector.erase, hx.current, hx.next]
  split
  next hv =>
    have hn := disjoint_left.1 hx.disjoint hv
    refine ⟨?_, ?_, hd⟩
    · simp [setBin, Generations.apply]
    · simp [setBin, hx.next, Generations.apply, hn]
  next hv =>
    refine ⟨?_, ?_, hd⟩
    · simp [setBin, hx.current, Generations.apply, hv]
    · simp [setBin, Generations.apply]

theorem Follows.size_insert (hv : v ∈ g.current) :
    (g.apply (.insert v)).contained.card < (x.insert v).size := by
  have hs : (x.insert v).size = g.current.card + (g.apply (.insert v)).next.card := by
    rw [size_eq]
    simp [GenerationalSelector.insert, setBin, hx.current, hx.next, Generations.apply]
  rw [hs]
  exact Nat.lt_of_le_of_lt (card_union_le ..) (Nat.add_lt_add_right (card_erase_lt_of_mem hv) _)

end

theorem after_follows {h : List (GenerationalOp α)} (hn : Generations.Fresh h) :
    (after h).Follows (Generations.after h) := by
  induction h with
  | nil => exact ⟨rfl, rfl, disjoint_empty_right _⟩
  | cons op h ih =>
    have hx := ih hn.1
    cases op with
    | insert v => exact hx.insert (hn.2 v rfl)
    | erase v => exact hx.erase v
    | select => exact hx.select

theorem generations_right_iff (h : List (GenerationalOp α)) :
    (∀ l, l <:+ h → Right l) ↔ Generations.Fresh h := by
  constructor
  · intro hr
    induction h with
    | nil => trivial
    | cons op h ih =>
      have hn := ih fun l hl => hr l (hl.trans (List.suffix_cons op h))
      refine ⟨hn, ?_⟩
      rintro v rfl hv
      exact Nat.ne_of_gt ((after_follows hn).size_insert hv) (hr _ List.suffix_rfl).1
  · rintro hn l ⟨l', rfl⟩
    have hx : (after l).Follows (Generations.after l) := by
      apply after_follows
      induction l' with
      | nil => exact hn
      | cons op l' ih => exact ih hn.1
    exact ⟨hx.size, fun v => hx.selected⟩

/-- A value of the current generation is inserted, and survives its erasure. -/
theorem reinserted_not_erased :
    (after [.insert 1, .select, .insert 1] : GenerationalSelector Nat).size = 2 ∧
    1 ∈ (after [.select, .erase 1, .insert 1, .select, .insert 1] :
      GenerationalSelector Nat).bins false := by decide

end GenerationalSelector
end Chef
