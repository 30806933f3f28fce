import Chef.ProcessTree

namespace Chef
open Finset List
namespace RandomPathSearcher
/-- The child that is entered, where a bit decides between two active ones. -/
def turn (x : PTree) (n : List Bool) (flip : Bool) : Bool :=
  if false :: n ∉ x.nodes then true
  else if true :: n ∉ x.nodes then false
  else if false :: n ∉ x.active then true
  else if true :: n ∉ x.active then false
  else !flip

/-- Only leaves have data; bits are drawn by depth. -/
def selectFrom (x : PTree) (flips : Nat → Bool) : Nat → List Bool → Option (List Bool)
  | 0, _ => none
  | fuel + 1, n =>
    if n ∉ x.active then none
    else if x.IsLeaf n then some n
    else selectFrom x flips fuel (turn x n (flips n.length) :: n)

def selectState (x : PTree) (flips : Nat → Bool) (fuel : Nat) : Option (List Bool) :=
  selectFrom x flips fuel []

variable {x : PTree} {n : List Bool}
theorem turn_active (h : x.Marked) (ha : n ∈ x.active) (hc : ∃ s, s :: n ∈ x.nodes) (flip : Bool) :
    turn x n flip :: n ∈ x.nodes ∧ turn x n flip :: n ∈ x.active := by
  obtain ⟨s, hs, hsa⟩ := (h.right n hc).1 ha
  rw [turn]
  cases s <;> cases flip <;> grind

theorem turn_eq (hs : s :: n ∈ x.nodes) (hsa : s :: n ∈ x.active) : turn x n (!s) = s := by
  rw [turn]
  cases s with
  | false => simp [hs, hsa]
  | true => simp [hs, hsa]

theorem selectFrom_selects (h : x.Marked) (flips : Nat → Bool) (hn : n ∈ x.nodes)
    (ha : n ∈ x.active) (hd : ∀ m ∈ x.nodes, m.length < n.length + fuel) :
    ∃ l, selectFrom x flips fuel n = some l ∧ x.IsLeaf l ∧ l ∈ x.active := by
  induction fuel generalizing n with
  | zero => exact absurd (hd n hn) (Nat.lt_irrefl _)
  | succ fuel ih =>
    rw [selectFrom, if_neg (not_not.2 ha)]
    split
    next hl => exact ⟨n, rfl, hl, ha⟩
    next hl =>
      have hc : ∃ s, s :: n ∈ x.nodes := by
        by_contra! hc
        exact hl ⟨hn, hc⟩
      obtain ⟨hm, hma⟩ := turn_active h ha hc (flips n.length)
      refine ih hm hma fun m h => ?_
      have hb := hd m h
      rw [length_cons]
      omega

theorem selectFrom_leaf (h : x.Marked) (hl : x.IsLeaf l) (ha : l ∈ x.active) (hn : n <:+ l)
    (hd : l.length < n.length + fuel) :
    selectFrom x (fun i => !l.reverse.getD i false) fuel n = some l := by
  induction fuel generalizing n with
  | zero => exact absurd hn.length_le (Nat.not_le.2 hd)
  | succ fuel ih =>
    rw [selectFrom, if_neg (not_not.2 ((h.ancestor hl.1 hn).2 ha))]
    obtain ⟨r, rfl⟩ := hn
    obtain rfl | ⟨r, s, rfl⟩ := r.eq_nil_or_concat'
    · exact if_pos hl
    rw [append_assoc, singleton_append] at *
    have hs : s :: n <:+ r ++ s :: n := suffix_append _ _
    obtain ⟨hm, hma⟩ := h.ancestor hl.1 hs
    have hf : (r ++ s :: n).reverse.getD n.length false = s := by simp
    rw [if_neg fun hv => hv.2 s hm, hf, turn_eq hm (hma ha)]
    refine ih hs ?_
    rw [length_cons]
    omega

/-- Some active leaf is selected, without a failed assertion, and each of them can be. -/
theorem selectState_selects (h : PTree.machine.Reached x) (ha : x.IsLeaf l ∧ l ∈ x.active) :
    (∀ flips, ∃ fuel l, selectState x flips fuel = some l ∧ x.IsLeaf l ∧ l ∈ x.active) ∧
      ∃ flips fuel, selectState x flips fuel = some l := by
  have hx : x.Marked := by
    apply h.invariant
    · rintro x rfl
      exact ⟨by simp [PTree.init], fun n => by simp [PTree.Right, PTree.init]⟩
    · intro x e y hx _ hy
      exact hx.handle hy
  obtain ⟨hr, hra⟩ := hx.ancestor ha.1.1 l.nil_suffix
  refine ⟨fun flips => ⟨x.nodes.sup length + 1, ?_⟩,
    fun i => !l.reverse.getD i false, l.length + 1, ?_⟩
  · refine selectFrom_selects hx flips hr (hra ha.2) fun m h => ?_
    rw [length_nil, Nat.zero_add]
    exact Nat.lt_succ_of_le (le_sup (f := length) h)
  · exact selectFrom_leaf hx ha.1 ha.2 l.nil_suffix (by rw [length_nil]; omega)

theorem selectState_selects_right :
    ∃ flips fuel, selectState PTree.splitRoot flips fuel = some [true] :=
  (selectState_selects (.step (.init rfl) (e := (PTreeOp.split, [])) trivial rfl)
    ⟨by decide, by decide⟩).2

end RandomPathSearcher
end Chef
