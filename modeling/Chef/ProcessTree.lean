import Mathlib.Data.Finset.Max
import Chef.Foundations.Transition

namespace Chef
open Foundations Finset List
/-- Nodes are named by the turns that lead to them, the last one first. -/
structure PTree where
  nodes : Finset (List Bool)
  active : Finset (List Bool)

inductive PTreeOp where
  | split | activate | deactivate | remove

namespace PTree
def init : PTree := ⟨{[]}, {[]}⟩

section
variable (x : PTree)
def IsLeaf (n : List Bool) : Prop := n ∈ x.nodes ∧ ∀ s, s :: n ∉ x.nodes

instance (n : List Bool) : Decidable (x.IsLeaf n) :=
  inferInstanceAs (Decidable (n ∈ x.nodes ∧ ∀ s, s :: n ∉ x.nodes))

def addNode (n : List Bool) : PTree := ⟨insert n x.nodes, insert n x.active⟩

def setActive (n : List Bool) : PTree := { x with active := insert n x.active }

def setInactive (n : List Bool) : PTree := { x with active := x.active.erase n }

def deleteNode (n : List Bool) : PTree := { x with nodes := x.nodes.erase n }

def split (n : List Bool) : Option PTree :=
  if n ∈ x.active ∧ n.tail ∈ x.active then some ((x.addNode (false :: n)).addNode (true :: n))
  else none

end

def activate (x : PTree) : List Bool → PTree
  | [] => x.setActive []
  | s :: p => (x.setActive (s :: p)).activate p

def deactivate (x : PTree) : List Bool → PTree
  | [] => x.setInactive []
  | s :: p =>
    if (∀ t, t :: p ∈ x.nodes) ∧ ∃ t, t :: p ∈ (x.setInactive (s :: p)).active then
      x.setInactive (s :: p)
    else (x.setInactive (s :: p)).deactivate p

def deleteFrom (x : PTree) : List Bool → PTree
  | [] => x.deleteNode []
  | s :: p =>
    if ∃ t, t :: p ∈ (x.deleteNode (s :: p)).nodes then x.deleteNode (s :: p)
    else (x.deleteNode (s :: p)).deleteFrom p

variable (x : PTree)
def remove (n : List Bool) : PTree := (x.deactivate n).deleteFrom n

/-- All operations assert that their node is a leaf. -/
def handle (e : PTreeOp × List Bool) : Option PTree :=
  if x.IsLeaf e.2 then
    match e.1 with
    | .split => x.split e.2
    | .activate => some (x.activate e.2)
    | .deactivate => some (x.deactivate e.2)
    | .remove => some (x.remove e.2)
  else none

def machine : Machine PTree (PTreeOp × List Bool) where
  init x := x = init
  step x e y := x.handle e = some y

def Right (n : List Bool) : Prop :=
  (∃ s, s :: n ∈ x.nodes) → (n ∈ x.active ↔ ∃ s, s :: n ∈ x.nodes ∧ s :: n ∈ x.active)

structure Marked : Prop where
  closed : ∀ s n, s :: n ∈ x.nodes → n ∈ x.nodes
  right : ∀ n, x.Right n

structure MarkedBut (n : List Bool) : Prop where
  closed : ∀ s m, s :: m ∈ x.nodes → m ∈ x.nodes
  right : ∀ m, m ≠ n → x.Right m
  mem : n ∈ x.nodes

section
variable {x}
theorem Marked.but (h : x.Marked) (hn : n ∈ x.nodes) : x.MarkedBut n :=
  ⟨h.closed, fun m _ => h.right m, hn⟩

theorem MarkedBut.marked (h : x.MarkedBut n) (hn : x.Right n) : x.Marked := by
  refine ⟨h.closed, fun m => ?_⟩
  by_cases hm : m = n
  · exact hm ▸ hn
  · exact h.right m hm

/-- A flag matters only to its node and the parent. -/
theorem MarkedBut.right_of (h : x.MarkedBut n) (hA : ∀ m, m ≠ n → (m ∈ A ↔ m ∈ x.active))
    (hn : PTree.Right ⟨x.nodes, A⟩ n) (hm : ∀ s, s :: m ≠ n) : PTree.Right ⟨x.nodes, A⟩ m := by
  by_cases hmn : m = n
  · exact hmn ▸ hn
  intro hex
  rw [hA m hmn, h.right m hmn hex]
  exact exists_congr fun s => and_congr_right fun _ => (hA _ (hm s)).symm

theorem MarkedBut.parent (h : x.MarkedBut (s :: n)) (hA : ∀ m, m ≠ s :: n → (m ∈ A ↔ m ∈ x.active))
    (hn : PTree.Right ⟨x.nodes, A⟩ (s :: n)) : PTree.MarkedBut ⟨x.nodes, A⟩ n :=
  ⟨h.closed, fun _ hm => h.right_of hA hn fun _ he => hm (cons.inj he).2, h.closed s n h.mem⟩

end

theorem deactivate_spec {x : PTree} (h : x.MarkedBut n)
    (hno : ∀ s, s :: n ∈ x.nodes → s :: n ∉ x.active) :
    (x.deactivate n).Marked ∧ (x.deactivate n).nodes = x.nodes ∧
      ∀ m ∈ (x.deactivate n).active, m ≠ n ∧ m ∈ x.active := by
  have hl : ∀ m ∈ (x.setInactive n).active, m ≠ n ∧ m ∈ x.active := fun m hm => mem_erase.1 hm
  have hA : ∀ m, m ≠ n → (m ∈ x.active.erase n ↔ m ∈ x.active) := fun m hm => by simp [hm]
  have hse : (x.setInactive n).Right n := fun _ => iff_of_false (notMem_erase n _)
    fun ⟨s, hs, ha⟩ => hno s hs (hl _ ha).2
  cases n with
  | nil => exact ⟨⟨h.closed, fun _ => h.right_of hA hse nofun⟩, rfl, hl⟩
  | cons s p =>
    have hr := h.parent hA hse
    rw [deactivate]
    split
    next hsp =>
      obtain ⟨hal, t, ht⟩ := hsp
      have hp : p ≠ s :: p := by simp
      have hc := (h.right p hp ⟨t, hal t⟩).2 ⟨t, hal t, (hl _ ht).2⟩
      exact ⟨hr.marked fun _ => iff_of_true ((hA p hp).2 hc) ⟨t, hal t, ht⟩, rfl, hl⟩
    next hgo =>
      obtain ⟨hk, hns, hmem⟩ := deactivate_spec hr (by
        intro t ht ha
        refine hgo ⟨fun u => ?_, t, ha⟩
        by_cases hu : u = t
        · exact hu ▸ ht
        have hts : t ≠ s := fun he => (hl _ ha).1 (he ▸ rfl)
        have hus : u = s := by
          revert hu hts
          cases u <;> cases t <;> cases s <;> simp
        exact hus ▸ h.mem)
      exact ⟨hk, hns, fun m hm => hl m (hmem m hm).2⟩

theorem activate_marked {x : PTree} (h : x.MarkedBut n)
    (hsm : (∃ s, s :: n ∈ x.nodes) → ∃ s, s :: n ∈ x.nodes ∧ s :: n ∈ x.active) :
    (x.activate n).Marked := by
  have hA : ∀ m, m ≠ n → (m ∈ insert n x.active ↔ m ∈ x.active) := fun m hm => by simp [hm]
  have hse : (x.setActive n).Right n := fun hex => iff_of_true (mem_insert_self n _)
    ((hsm hex).imp fun s hs => ⟨hs.1, mem_insert_of_mem hs.2⟩)
  cases n with
  | nil => exact ⟨h.closed, fun _ => h.right_of hA hse nofun⟩
  | cons s p =>
    exact activate_marked (x := x.setActive (s :: p)) (h.parent hA hse)
      fun _ => ⟨s, h.mem, mem_insert_self _ _⟩

/-- A leaf is deleted, and then each parent that became one. -/
theorem deleteFrom_spec {x : PTree} (hx : x.Marked) (hn : x.IsLeaf n) (hi : n ∉ x.active) :
    (x.deleteFrom n).Marked ∧ ∀ l, (x.deleteFrom n).IsLeaf l ↔ x.IsLeaf l ∧ l ≠ n := by
  have hk : ∀ s m, s :: m ∈ (x.deleteNode n).nodes ∧ s :: m ∈ x.active ↔
      s :: m ∈ x.nodes ∧ s :: m ∈ x.active := by
    intro s m
    rw [deleteNode, mem_erase]
    exact ⟨fun h => ⟨h.1.2, h.2⟩, fun h => ⟨⟨fun he => hi (he ▸ h.2), h.1⟩, h.2⟩⟩
  have hm : (x.deleteNode n).Marked := by
    constructor
    · intro s m hs
      have hs := mem_of_mem_erase hs
      exact mem_erase.2 ⟨fun he => hn.2 s (he ▸ hs), hx.closed s m hs⟩
    · rintro m ⟨s, hs⟩
      exact (hx.right m ⟨s, mem_of_mem_erase hs⟩).trans (exists_congr fun t => (hk t m).symm)
  have hf : ∀ l, (∀ s, s :: l ≠ n) → ((x.deleteNode n).IsLeaf l ↔ x.IsLeaf l ∧ l ≠ n) := by
    intro l hl
    simp [IsLeaf, deleteNode, hl]
    tauto
  cases n with
  | nil => exact ⟨hm, fun l => hf l nofun⟩
  | cons s p =>
    have hp : ¬x.IsLeaf p := fun h => h.2 s hn.1
    rw [deleteFrom]
    split
    next hsp =>
      obtain ⟨t, ht⟩ := hsp
      refine ⟨hm, fun l => ?_⟩
      by_cases hl : l = p
      · subst hl
        exact iff_of_false (fun h => h.2 t ht) fun h => hp h.1
      · exact hf l fun t he => hl (cons.inj he).2
    next hgo =>
      have hpi : p ∉ x.active := by
        intro ha
        obtain ⟨t, ht⟩ := (hx.right p ⟨s, hn.1⟩).1 ha
        exact hgo ⟨t, ((hk t p).2 ht).1⟩
      have hpe : (x.deleteNode (s :: p)).IsLeaf p :=
        ⟨mem_erase.2 ⟨by simp, hx.closed s p hn.1⟩, fun t ht => hgo ⟨t, ht⟩⟩
      obtain ⟨hm, hv⟩ := deleteFrom_spec hm hpe hpi
      refine ⟨hm, fun l => (hv l).trans ?_⟩
      by_cases hl : l = p
      · subst hl
        exact iff_of_false (fun h => h.2 rfl) fun h => hp h.1
      · rw [hf l fun t he => hl (cons.inj he).2]
        exact and_iff_left hl

variable {x}
/-- A property that some child always shares is one of a leaf below. -/
theorem exists_leaf (P : List Bool → Prop) (hP : ∀ m ∈ x.nodes, P m → (∃ s, s :: m ∈ x.nodes) →
      ∃ s, s :: m ∈ x.nodes ∧ P (s :: m)) (hn : n ∈ x.nodes) (hPn : P n) :
    ∃ l, x.IsLeaf l ∧ n <:+ l ∧ P l := by
  classical
  obtain ⟨l, hl, hm⟩ := exists_max_image (x.nodes.filter fun l => n <:+ l ∧ P l)
    length ⟨n, mem_filter.2 ⟨hn, suffix_rfl, hPn⟩⟩
  obtain ⟨hl, hf, hPl⟩ := mem_filter.1 hl
  refine ⟨l, ⟨hl, fun s hs => ?_⟩, hf, hPl⟩
  obtain ⟨t, ht, hPt⟩ := hP l hl hPl ⟨s, hs⟩
  exact Nat.not_succ_le_self _ (hm _ (mem_filter.2 ⟨ht, hf.trans (suffix_cons t l), hPt⟩))

section
variable (h : x.Marked)
include h
theorem Marked.ancestor (hl : l ∈ x.nodes) (hn : n <:+ l) :
    n ∈ x.nodes ∧ (l ∈ x.active → n ∈ x.active) := by
  obtain ⟨r, rfl⟩ := hn
  induction r with
  | nil => exact ⟨hl, id⟩
  | cons s r ih =>
    obtain ⟨hm, hc⟩ := ih (h.closed s _ hl)
    exact ⟨hm, fun ha => hc ((h.right _ ⟨s, hl⟩).2 ⟨s, hl, ha⟩)⟩

theorem Marked.active_iff (hn : n ∈ x.nodes) :
    n ∈ x.active ↔ ∃ l, x.IsLeaf l ∧ n <:+ l ∧ l ∈ x.active :=
  ⟨exists_leaf (· ∈ x.active) (fun m _ ha hex => (h.right m hex).1 ha) hn,
    fun ⟨_, hl, hs, ha⟩ => (h.ancestor hl.1 hs).2 ha⟩

theorem Marked.mem_nodes_iff : n ∈ x.nodes ↔ ∃ l, x.IsLeaf l ∧ n <:+ l :=
  ⟨fun hn => (exists_leaf (fun _ => True) (fun _ _ _ ⟨s, hs⟩ => ⟨s, hs, trivial⟩) hn trivial).imp
      fun _ hl => ⟨hl.1, hl.2.1⟩,
    fun ⟨_, hl, hf⟩ => (h.ancestor hl.1 hf).1⟩

theorem Marked.split (hn : x.IsLeaf n) (ha : n ∈ x.active) :
    ((x.addNode (false :: n)).addNode (true :: n)).Marked := by
  constructor
  · intro s m hs
    by_cases hm : m = n
    · simp [addNode, hm, hn.1]
    · simp only [addNode, mem_insert, cons.injEq, hm, and_false, false_or] at hs ⊢
      exact .inr (.inr (h.closed s m hs))
  · rintro m ⟨s, hs⟩
    by_cases hm : m = n
    · subst hm
      exact iff_of_true (by simp [addNode, ha]) ⟨true, by simp [addNode]⟩
    simp only [addNode, mem_insert, cons.injEq, hm, and_false, false_or] at hs ⊢
    have hw : ∀ t, m ≠ t :: n := fun t he => hn.2 t (he ▸ h.closed s m hs)
    simp only [hw, false_or]
    exact h.right m ⟨s, hs⟩

theorem Marked.remove (hn : x.IsLeaf n) :
    (x.remove n).Marked ∧ ∀ l, (x.remove n).IsLeaf l ↔ x.IsLeaf l ∧ l ≠ n := by
  obtain ⟨hm, hns, hw⟩ := deactivate_spec (h.but hn.1) fun s hs => absurd hs (hn.2 s)
  have hl : ∀ l, (x.deactivate n).IsLeaf l ↔ x.IsLeaf l := fun l => by rw [IsLeaf, hns, IsLeaf]
  have hsp := deleteFrom_spec hm ((hl n).2 hn) fun ha => (hw n ha).1 rfl
  simp only [hl] at hsp
  exact hsp

theorem Marked.handle (hy : x.handle e = some y) : y.Marked := by
  rw [PTree.handle] at hy
  split at hy
  next hn =>
    split at hy
    · rw [PTree.split] at hy
      split at hy
      next ha =>
        cases hy
        exact h.split hn ha.1
      · cases hy
    · cases hy
      exact activate_marked (h.but hn.1) fun ⟨s, hs⟩ => absurd hs (hn.2 s)
    · cases hy
      exact (deactivate_spec (h.but hn.1) fun s hs => absurd hs (hn.2 s)).1
    · cases hy
      exact (h.remove hn).1
  · cases hy

end

def splitRoot : PTree := (init.addNode [false]).addNode [true]

end PTree
end Chef
