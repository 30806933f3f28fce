import Mathlib.Data.List.Basic

namespace Foundations
open Option
open List
mutual
/-- A map from ordered lists that share their beginnings. -/
inductive SetTrie (κ β : Type) : Type where
  | node (value : Option β) (children : SetBranches κ β)

inductive SetBranches (κ β : Type) : Type where
  | nil
  | cons (key : κ) (child : SetTrie κ β) (rest : SetBranches κ β)

end

mutual
def SetTrie.Stores (v : β) : SetTrie κ β → List κ → Prop
  | .node value _, [] => value = some v
  | .node _ children, k :: key => children.StoresAt v k key

def SetBranches.StoresAt (v : β) : SetBranches κ β → κ → List κ → Prop
  | .nil, _, _ => False
  | .cons k' child rest, k, key => (k = k' ∧ child.Stores v key) ∨ rest.StoresAt v k key

end

namespace SetTrie
def empty : SetTrie κ β := .node none .nil

def single (v : β) : List κ → SetTrie κ β
  | [] => .node (some v) .nil
  | k :: key => .node none (.cons k (single v key) .nil)

end SetTrie

section
variable (compare : κ → κ → Ordering)
mutual
def SetTrie.insert (v : β) : SetTrie κ β → List κ → SetTrie κ β
  | .node _ children, [] => .node (some v) children
  | .node value children, k :: key => .node value (children.insertAt v k key)

def SetBranches.insertAt (v : β) : SetBranches κ β → κ → List κ → SetBranches κ β
  | .nil, k, key => .cons k (.single v key) .nil
  | .cons k' child rest, k, key =>
    match compare k k' with
    | .lt => .cons k (.single v key) (.cons k' child rest)
    | .eq => .cons k' (child.insert v key) rest
    | .gt => .cons k' child (rest.insertAt v k key)

end

mutual
def SetTrie.lookup : SetTrie κ β → List κ → Option β
  | .node value _, [] => value
  | .node _ children, k :: key => children.lookupAt k key

def SetBranches.lookupAt : SetBranches κ β → κ → List κ → Option β
  | .nil, _, _ => none
  | .cons k' child rest, k, key =>
    if compare k k' = .eq then child.lookup key else rest.lookupAt k key

end

mutual
/-- A value that is stored for a superset and admitted. -/
def SetTrie.findSuperset (p : β → Bool) : SetTrie κ β → List κ → Option β
  | .node value children, [] => (value.filter p).or (children.findSuperset p [])
  | .node _ children, k :: key =>
    (children.findSuperset p (k :: key)).or (children.findSupersetAt p k key)

def SetBranches.findSuperset (p : β → Bool) : SetBranches κ β → List κ → Option β
  | .nil, _ => none
  | .cons _ child rest, key => (child.findSuperset p key).or (rest.findSuperset p key)

def SetBranches.findSupersetAt (p : β → Bool) : SetBranches κ β → κ → List κ → Option β
  | .nil, _, _ => none
  | .cons k' child rest, k, key =>
    if compare k k' = .eq then child.findSuperset p key else rest.findSupersetAt p k key

end

mutual
def SetTrie.findSubset (p : β → Bool) : SetTrie κ β → List κ → Option β
  | .node value children, key => (value.filter p).or (children.findSubset p key)

def SetBranches.findSubset (p : β → Bool) : SetBranches κ β → List κ → Option β
  | .nil, _ => none
  | .cons k' child rest, key =>
    match key.dropWhile fun k => compare k k' = .lt with
    | [] => none
    | k :: key =>
      if compare k k' = .eq then (child.findSubset p key).or (rest.findSubset p key)
      else rest.findSubset p (k :: key)

end
end

theorem SetTrie.not_stores_empty (v : β) (key : List κ) : ¬(.empty : SetTrie κ β).Stores v key := by
  cases key with
  | nil => exact nofun
  | cons k key => exact id

theorem SetTrie.stores_single (h : (SetTrie.single v key).Stores v' key') : key' = key ∧ v' =
    v := by
  induction key generalizing key' with
  | nil =>
    cases key' with
    | nil => exact ⟨rfl, (some.inj h).symm⟩
    | cons k key' => exact h.elim
  | cons k key ih =>
    cases key' with
    | nil => cases h
    | cons k' key' =>
      rcases h with ⟨rfl, h⟩ | h
      · obtain ⟨rfl, rfl⟩ := ih h
        exact ⟨rfl, rfl⟩
      · exact h.elim

variable {compare : κ → κ → Ordering} (hcmp : ∀ a b, compare a b = .eq → a = b)
include hcmp
set_option linter.unusedSectionVars false
mutual
theorem SetTrie.stores_insert :
    (t : SetTrie κ β) → (key key' : List κ) → (t.insert compare v key).Stores v' key' →
      (key' = key ∧ v' = v) ∨ t.Stores v' key'
  | .node value children, [], [], h => .inl ⟨rfl, (some.inj h).symm⟩
  | .node value children, [], k' :: key', h => .inr h
  | .node value children, k :: key, [], h => .inr h
  | .node value children, k :: key, k' :: key', h => by
    rcases SetBranches.stores_insertAt children k key k' key' h with ⟨rfl, rfl, rfl⟩ | h
    · exact .inl ⟨rfl, rfl⟩
    · exact .inr h

theorem SetBranches.stores_insertAt :
    (b : SetBranches κ β) → (k : κ) → (key : List κ) → (k' : κ) → (key' : List κ) →
      (b.insertAt compare v k key).StoresAt v' k' key' →
      (k' = k ∧ key' = key ∧ v' = v) ∨ b.StoresAt v' k' key'
  | .nil, k, key, k', key', h => by
    rcases h with ⟨rfl, h⟩ | h
    · obtain ⟨rfl, rfl⟩ := SetTrie.stores_single h
      exact .inl ⟨rfl, rfl, rfl⟩
    · exact h.elim
  | .cons k0 child rest, k, key, k', key', h => by
    rw [SetBranches.insertAt] at h
    split at h
    · rcases h with ⟨rfl, h⟩ | h
      · obtain ⟨rfl, rfl⟩ := SetTrie.stores_single h
        exact .inl ⟨rfl, rfl, rfl⟩
      · exact .inr h
    next heq =>
      obtain rfl := hcmp _ _ heq
      rcases h with ⟨rfl, h⟩ | h
      · rcases SetTrie.stores_insert child key key' h with ⟨rfl, rfl⟩ | h
        · exact .inl ⟨rfl, rfl, rfl⟩
        · exact .inr (.inl ⟨rfl, h⟩)
      · exact .inr (.inr h)
    · rcases h with ⟨rfl, h⟩ | h
      · exact .inr (.inl ⟨rfl, h⟩)
      exact (SetBranches.stores_insertAt rest k key k' key' h).imp_right .inr

end

mutual
theorem SetTrie.stores_of_lookup :
    (t : SetTrie κ β) → (key : List κ) → t.lookup compare key = some v → t.Stores v key
  | .node _ _, [], h => h
  | .node _ children, k :: key, h => SetBranches.stores_of_lookupAt children k key h

theorem SetBranches.stores_of_lookupAt :
    (b : SetBranches κ β) → (k : κ) → (key : List κ) → b.lookupAt compare k key = some v →
      b.StoresAt v k key
  | .nil, _, _, h => nomatch h
  | .cons k' child rest, k, key, h => by
    rw [SetBranches.lookupAt] at h
    split at h
    next heq => exact .inl ⟨hcmp _ _ heq, SetTrie.stores_of_lookup child key h⟩
    · exact .inr (SetBranches.stores_of_lookupAt rest k key h)

end

mutual
theorem SetTrie.stores_of_findSuperset :
    (t : SetTrie κ β) → (key : List κ) → t.findSuperset compare p key = some v →
      ∃ key', t.Stores v key' ∧ key ⊆ key' ∧ p v = true
  | .node value children, [], h => by
    rcases or_eq_some_iff.1 h with h | ⟨_, h⟩
    · obtain ⟨hv, hp⟩ := filter_eq_some_iff.1 h
      exact ⟨[], hv, nil_subset _, hp⟩
    · obtain ⟨k', key', hs, hb, hp⟩ := SetBranches.stores_of_findSuperset children [] h
      exact ⟨k' :: key', hs, nil_subset _, hp⟩
  | .node value children, k :: key, h => by
    rcases or_eq_some_iff.1 h with h | ⟨_, h⟩
    · obtain ⟨k', key', hs, hb, hp⟩ := SetBranches.stores_of_findSuperset children _ h
      exact ⟨k' :: key', hs, hb, hp⟩
    · obtain ⟨key', hs, hb, hp⟩ := SetBranches.stores_of_findSupersetAt children k key h
      exact ⟨k :: key', hs, cons_subset_cons k hb, hp⟩

theorem SetBranches.stores_of_findSuperset :
    (b : SetBranches κ β) → (key : List κ) → b.findSuperset compare p key = some v →
      ∃ k' key', b.StoresAt v k' key' ∧ key ⊆ k' :: key' ∧ p v = true
  | .nil, _, h => nomatch h
  | .cons k0 child rest, key, h => by
    rcases or_eq_some_iff.1 h with h | ⟨_, h⟩
    · obtain ⟨key', hs, hb, hp⟩ := SetTrie.stores_of_findSuperset child key h
      exact ⟨k0, key', .inl ⟨rfl, hs⟩, subset_cons_of_subset k0 hb, hp⟩
    · obtain ⟨k', key', hs, hb, hp⟩ := SetBranches.stores_of_findSuperset rest key h
      exact ⟨k', key', .inr hs, hb, hp⟩

theorem SetBranches.stores_of_findSupersetAt : (b : SetBranches κ β) → (k : κ) → (key : List κ) →
      b.findSupersetAt compare p k key = some v →
      ∃ key', b.StoresAt v k key' ∧ key ⊆ key' ∧ p v = true
  | .nil, _, _, h => nomatch h
  | .cons k0 child rest, k, key, h => by
    rw [SetBranches.findSupersetAt] at h
    split at h
    next heq =>
      obtain ⟨key', hs, hb, hp⟩ := SetTrie.stores_of_findSuperset child key h
      exact ⟨key', .inl ⟨hcmp _ _ heq, hs⟩, hb, hp⟩
    · obtain ⟨key', hs, hb, hp⟩ := SetBranches.stores_of_findSupersetAt rest k key h
      exact ⟨key', .inr hs, hb, hp⟩

end

mutual
theorem SetTrie.stores_of_findSubset :
    (t : SetTrie κ β) → (key : List κ) → t.findSubset compare p key = some v →
      ∃ key', t.Stores v key' ∧ key' ⊆ key ∧ p v = true
  | .node value children, key, h => by
    rcases or_eq_some_iff.1 h with h | ⟨_, h⟩
    · obtain ⟨hv, hp⟩ := filter_eq_some_iff.1 h
      exact ⟨[], hv, nil_subset _, hp⟩
    · obtain ⟨k', key', hs, hb, hp⟩ := SetBranches.stores_of_findSubset children key h
      exact ⟨k' :: key', hs, hb, hp⟩

theorem SetBranches.stores_of_findSubset :
    (b : SetBranches κ β) → (key : List κ) → b.findSubset compare p key = some v →
      ∃ k' key', b.StoresAt v k' key' ∧ k' :: key' ⊆ key ∧ p v = true
  | .nil, _, h => nomatch h
  | .cons k0 child rest, key, h => by
    rw [SetBranches.findSubset] at h
    have hdr := dropWhile_subset (l := key) fun k => decide (compare k k0 = .lt)
    split at h
    · cases h
    next k key1 hk =>
      rw [hk] at hdr
      split at h
      next heq =>
        obtain rfl := hcmp _ _ heq
        rcases or_eq_some_iff.1 h with h | ⟨_, h⟩
        · obtain ⟨key', hs, hb, hp⟩ := SetTrie.stores_of_findSubset child key1 h
          exact ⟨k, key', .inl ⟨rfl, hs⟩, List.Subset.trans (cons_subset_cons k hb) hdr, hp⟩
        · obtain ⟨k', key', hs, hb, hp⟩ := SetBranches.stores_of_findSubset rest key1 h
          exact ⟨k', key', .inr hs, List.Subset.trans (subset_cons_of_subset k hb) hdr, hp⟩
      · obtain ⟨k', key', hs, hb, hp⟩ := SetBranches.stores_of_findSubset rest _ h
        exact ⟨k', key', .inr hs, List.Subset.trans hb hdr, hp⟩

end
end Foundations
