import Mathlib.Order.Lattice
import Mathlib.Data.List.Chain
import Chef.Foundations.AssocList

namespace Foundations
open List Prod
section
variable [LinearOrder κ]
/-- The entry of a key is replaced, or added in order. -/
def setKey (k : κ) (v : β) : List (κ × β) → List (κ × β)
  | [] => [(k, v)]
  | (k', v') :: rest =>
    if k = k' then (k, v) :: rest
    else if k < k' then (k, v) :: (k', v') :: rest
    else (k', v') :: setKey k v rest

theorem lookup_setKey (k : κ) (v : β) (m : List (κ × β)) (k' : κ) :
    (setKey k v m).lookup k' = if k' = k then some v else m.lookup k' := by
  induction m with
  | nil => rw [setKey, lookup_cons_ite]
  | cons e m ih =>
    obtain ⟨k1, v1⟩ := e
    rw [setKey, lookup_cons_ite]
    split
    next heq =>
      rw [lookup_cons_ite, heq]
      split <;> rfl
    next hne =>
      split
      · rw [lookup_cons_ite, lookup_cons_ite]
      rw [lookup_cons_ite, ih]
      by_cases h : k' = k1
      · rw [if_pos h, if_pos h, if_neg fun h' => hne (h'.symm.trans h)]
      · rw [if_neg h, if_neg h]

def SortedKeys (m : List (κ × β)) : Prop := (m.map fst).Pairwise (· < ·)

variable {m : List (κ × β)}
theorem SortedKeys.nodup (h : SortedKeys m) : (m.map fst).Nodup := h.imp ne_of_lt

theorem SortedKeys.filter (h : SortedKeys m) (p : κ × β → Bool) : SortedKeys (m.filter p) :=
  h.sublist (filter_sublist.map fst)

theorem mem_setKey (h : e ∈ setKey k v m) : e.1 = k ∨ e ∈ m := by
  induction m with
  | nil =>
    rw [setKey, mem_singleton] at h
    exact .inl (congrArg fst h)
  | cons e' m ih =>
    rw [setKey] at h
    split at h
    · rcases mem_cons.1 h with rfl | h
      · exact .inl rfl
      · exact .inr (mem_cons_of_mem _ h)
    split at h
    · rcases mem_cons.1 h with rfl | h
      · exact .inl rfl
      · exact .inr h
    · rcases mem_cons.1 h with rfl | h
      · exact .inr mem_cons_self
      · exact (ih h).imp_right (mem_cons_of_mem _)

theorem SortedKeys.setKey (h : SortedKeys m) (k : κ) (v : β) : SortedKeys (setKey k v m) := by
  induction m with
  | nil => exact pairwise_singleton _ _
  | cons e m ih =>
    rw [SortedKeys, map_cons, pairwise_cons] at h
    rw [Foundations.setKey]
    split
    next heq =>
      rw [SortedKeys, map_cons, pairwise_cons, heq]
      exact h
    next hne =>
      split
      next hlt =>
        rw [SortedKeys, map_cons, pairwise_cons, map_cons, pairwise_cons]
        refine ⟨fun k' hk' => ?_, h⟩
        rcases mem_cons.1 hk' with rfl | hk'
        · exact hlt
        · exact lt_trans hlt (h.1 k' hk')
      next hn =>
        have hgt := lt_of_le_of_ne (not_lt.1 hn) (Ne.symm hne)
        rw [SortedKeys, map_cons, pairwise_cons]
        refine ⟨fun k' hk' => ?_, ih h.2⟩
        obtain ⟨e', he', rfl⟩ := mem_map.1 hk'
        rcases mem_setKey he' with rfl | he'
        · exact hgt
        · exact h.1 _ (mem_map_of_mem he')

end

/-- The groups so far, and the keys that are given up. -/
structure Grouping (κ α : Type) where
  groups : List (κ × List α)
  discarded : List κ

namespace Grouping
variable [LinearOrder κ] (key : α → κ) (R : α → α → Prop)
/-- An item joins its group; a key that it does not continue is given up. -/
def add [DecidableRel R] (g : Grouping κ α) (a : α) : Grouping κ α :=
  if key a ∈ g.discarded then g
  else
    let items := (g.groups.lookup (key a)).getD []
    match items.getLast? with
    | some back =>
      if R back a then { g with groups := setKey (key a) (items ++ [a]) g.groups }
      else ⟨g.groups.filter fun e => e.1 ≠ key a, key a :: g.discarded⟩
    | none => { g with groups := setKey (key a) (items ++ [a]) g.groups }

def collect [DecidableRel R] (l : List α) : Grouping κ α := l.foldl (add key R) ⟨[], []⟩

def itemsOf (k : κ) (l : List α) : List α := l.filter fun a => key a = k

/-- The groups of the keys whose items continue each other. -/
structure Collects (l : List α) (g : Grouping κ α) : Prop where
  sorted : SortedKeys g.groups
  lookup_iff : ∀ k items, g.groups.lookup k = some items ↔
    items = itemsOf key k l ∧ items ≠ [] ∧ items.IsChain R
  discarded_iff : ∀ k, k ∈ g.discarded ↔ ¬(itemsOf key k l).IsChain R

variable {key R}
theorem itemsOf_append_self (l : List α) (a : α) :
    itemsOf key (key a) (l ++ [a]) = itemsOf key (key a) l ++ [a] := by
  rw [itemsOf, filter_append, filter_cons_of_pos (by simp), filter_nil, itemsOf]

theorem itemsOf_append_ne (l : List α) (h : key a ≠ k) :
    itemsOf key k (l ++ [a]) = itemsOf key k l := by
  rw [itemsOf, filter_append, filter_cons_of_neg (by simpa using h), filter_nil,
    append_nil, itemsOf]

section
variable {l : List α}
theorem isChain_concat : (l ++ [a]).IsChain R ↔ l.IsChain R ∧ ∀ back ∈ l.getLast?, R back a := by
  rw [isChain_append]
  constructor
  · rintro ⟨hl, _, hla⟩
    exact ⟨hl, fun back hbk => hla back hbk a rfl⟩
  rintro ⟨hl, hla⟩
  refine ⟨hl, .singleton a, fun back hbk b hb => ?_⟩
  cases hb
  exact hla back hbk

variable {g g' : Grouping κ α} (h : Collects key R l g)
include h
theorem Collects.isChain (hk : k ∉ g.discarded) : (itemsOf key k l).IsChain R := by
  by_contra hc
  exact hk ((h.discarded_iff k).2 hc)

theorem Collects.group (hk : k ∉ g.discarded) : (g.groups.lookup k).getD [] = itemsOf key k l := by
  cases hl : g.groups.lookup k with
  | some items => exact ((h.lookup_iff k items).1 hl).1
  | none =>
    by_contra hne
    have hs := (h.lookup_iff k _).2 ⟨rfl, fun he => hne (he ▸ rfl), h.isChain hk⟩
    rw [hl] at hs
    cases hs

theorem Collects.snoc (hs : SortedKeys g'.groups)
    (ho : ∀ k ≠ key a, g'.groups.lookup k = g.groups.lookup k ∧
      (k ∈ g'.discarded ↔ k ∈ g.discarded)) (hl : ∀ items, g'.groups.lookup (key a) = some items ↔
      items = itemsOf key (key a) l ++ [a] ∧ items.IsChain R)
    (hd : key a ∈ g'.discarded ↔ ¬(itemsOf key (key a) l ++ [a]).IsChain R) :
    Collects key R (l ++ [a]) g' := by
  refine ⟨hs, fun k items => ?_, fun k => ?_⟩ <;> by_cases heq : k = key a
  · subst heq
    rw [hl, itemsOf_append_self]
    exact and_congr_right fun hi => (and_iff_right (hi ▸ by simp)).symm
  · rw [(ho k heq).1, itemsOf_append_ne l (Ne.symm heq), h.lookup_iff]
  · subst heq
    rw [hd, itemsOf_append_self]
  · rw [(ho k heq).2, itemsOf_append_ne l (Ne.symm heq), h.discarded_iff]

theorem Collects.keep
    (hk : key a ∉ g.discarded) (hR : ∀ back ∈ (itemsOf key (key a) l).getLast?, R back a) :
    Collects key R (l ++ [a])
      { g with groups := setKey (key a) (itemsOf key (key a) l ++ [a]) g.groups } := by
  have hc := isChain_concat.2 ⟨h.isChain hk, hR⟩
  refine h.snoc (h.sorted.setKey _ _) (fun k hk => ⟨?_, Iff.rfl⟩) (fun items => ?_)
    (iff_of_false hk (not_not.2 hc))
  · rw [lookup_setKey, if_neg hk]
  · rw [lookup_setKey, if_pos rfl, Option.some.injEq]
    exact ⟨fun hi => ⟨hi.symm, hi ▸ hc⟩, fun hi => hi.1.symm⟩

theorem Collects.discard (hbk : back ∈ (itemsOf key (key a) l).getLast?) (hR : ¬R back a) :
    Collects key R (l ++ [a]) ⟨g.groups.filter fun e => e.1 ≠ key a, key a :: g.discarded⟩ := by
  have hb : ¬(itemsOf key (key a) l ++ [a]).IsChain R := fun hc =>
    hR ((isChain_concat.1 hc).2 back hbk)
  refine h.snoc (h.sorted.filter _) (fun k hk => ⟨?_, ?_⟩) (fun items => ?_)
    (iff_of_true mem_cons_self hb)
  · rw [lookup_filter_ne, if_neg hk]
  · rw [mem_cons, or_iff_right hk]
  · rw [lookup_filter_ne, if_pos rfl]
    exact iff_of_false nofun fun hi => hb (hi.1 ▸ hi.2)

theorem Collects.skip (hk : key a ∈ g.discarded) : Collects key R (l ++ [a]) g := by
  have hb := (h.discarded_iff _).1 hk
  have hr : ¬(itemsOf key (key a) l ++ [a]).IsChain R := fun hc =>
    hb (isChain_concat.1 hc).1
  refine h.snoc h.sorted (fun _ _ => ⟨rfl, Iff.rfl⟩) (fun items => ?_) (iff_of_true hk hr)
  rw [h.lookup_iff]
  exact iff_of_false (fun hi => hb (hi.1 ▸ hi.2.2)) fun hi => hr (hi.1 ▸ hi.2)

theorem Collects.mem_iff : e ∈ g.groups ↔ e.2 = itemsOf key e.1 l ∧ e.2 ≠ [] ∧ e.2.IsChain R := by
  rw [← h.lookup_iff]
  exact ⟨lookup_of_mem h.sorted.nodup, mem_of_lookup⟩

theorem Collects.mem_keys_filter (p : List α → Bool) : k ∈
    (g.groups.filter fun e => p e.2).map fst ↔ itemsOf key k l ≠ [] ∧
    (itemsOf key k l).IsChain R ∧ p (itemsOf key k l) = true := by
  rw [mem_map]
  constructor
  · rintro ⟨e, he, rfl⟩
    obtain ⟨hm, hp⟩ := mem_filter.1 he
    obtain ⟨hi, hne, hch⟩ := h.mem_iff.1 hm
    rw [← hi]
    exact ⟨hne, hch, hp⟩
  · rintro ⟨hne, hch, hp⟩
    exact ⟨(k, itemsOf key k l), mem_filter.2 ⟨h.mem_iff.2 ⟨rfl, hne, hch⟩, hp⟩, rfl⟩

variable [DecidableRel R]
theorem Collects.add (a : α) : Collects key R (l ++ [a]) (add key R g a) := by
  rw [Grouping.add]
  split
  next hk => exact h.skip hk
  next hk =>
    simp only [h.group hk]
    split
    next back hbk =>
      split
      next hR =>
        apply h.keep hk
        intro b hb
        rw [hbk] at hb
        cases hb
        exact hR
      next hR => exact h.discard hbk hR
    next hno =>
      apply h.keep hk
      intro b hb
      rw [hno] at hb
      cases hb

end

variable (key R) in
/-- One pass over the items finds all groups. -/
theorem collect_collects [DecidableRel R] (l : List α) : Collects key R l (collect key R l) := by
  induction l using reverseRecOn with
  | nil =>
    refine ⟨List.Pairwise.nil, fun k items => ?_, fun k => ?_⟩
    · constructor
      · rintro ⟨⟩
      · rintro ⟨rfl, hne, _⟩
        exact absurd rfl hne
    · exact ⟨fun h => absurd h not_mem_nil, fun h => absurd List.IsChain.nil h⟩
  | append_singleton l a ih =>
    rw [collect, foldl_append]
    exact ih.add a

end Grouping
end Foundations
