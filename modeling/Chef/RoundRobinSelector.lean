import Mathlib.Data.List.Sort
import Chef.Foundations.Transition

namespace Chef
open Foundations List Function
/-- The ordered set, cut where the iterator is. -/
structure RoundRobinSelector (α : Type) where
  passed : List α
  coming : List α

inductive RoundRobinOp (α : Type) where
  | insert (value : α)
  | erase (value : α)
  | clear
  | select
  deriving DecidableEq

inductive RoundRobinEvent (α : Type) where
  | apply (i : Nat) (op : RoundRobinOp α)
  | copy (i other : Nat)

namespace RoundRobinSelector
variable {α : Type} (x : RoundRobinSelector α)
def container : List α := x.passed ++ x.coming

def size : Nat := x.container.length

def select : Option α × RoundRobinSelector α :=
  let x := if x.coming = [] then ⟨[], x.passed⟩ else x
  match x.coming with
  | [] => (none, x)
  | v :: coming => (some v, ⟨x.passed ++ [v], coming⟩)

def order : List α := x.coming ++ x.passed

theorem order_perm : x.order.Perm x.container := perm_append_comm

theorem select_of_order {x : RoundRobinSelector α} (h : x.order = v :: rest) :
    x.select.1 = some v ∧ x.select.2.order = rest ++ [v] := by
  obtain ⟨passed, coming⟩ := x
  cases coming with
  | nil =>
    subst h
    exact ⟨rfl, rfl⟩
  | cons c coming =>
    cases h
    exact ⟨rfl, (append_assoc _ _ _).symm⟩

theorem select_of_nil {x : RoundRobinSelector α} (h : x.order = []) :
    x.select = (none, ⟨[], []⟩) := by
  obtain ⟨passed, coming⟩ := x
  obtain ⟨hc, hp⟩ := append_eq_nil_iff.1 h
  subst hc hp
  rfl

theorem select_perm : x.select.2.order.Perm x.order := by
  cases ho : x.order with
  | nil =>
    rw [select_of_nil ho]
    exact .nil
  | cons v rest =>
    rw [(select_of_order ho).2]
    exact perm_append_singleton v rest

variable [LinearOrder α]
instance : LawfulBEq α := inferInstance

def insert (v : α) : Bool × RoundRobinSelector α :=
  if v ∈ x.container then (false, x)
  else if x.coming.head?.any (· ≤ v) then
    (true, { x with coming := x.coming.orderedInsert (· ≤ ·) v })
  else (true, { x with passed := x.passed.orderedInsert (· ≤ ·) v })

def erase (v : α) : Bool × RoundRobinSelector α :=
  (v ∈ x.container, ⟨x.passed.filter (· ≠ v), x.coming.filter (· ≠ v)⟩)

def apply : RoundRobinOp α → Option α × RoundRobinSelector α
  | .insert v => (none, (x.insert v).2)
  | .erase v => (none, (x.erase v).2)
  | .clear => (none, ⟨[], []⟩)
  | .select => x.select

def selected : RoundRobinSelector α → List (RoundRobinOp α) → List α
  | _, [] => []
  | x, op :: ops => (x.apply op).1.toList ++ (x.apply op).2.selected ops

def handle (s : Nat → RoundRobinSelector α) : RoundRobinEvent α → Nat → RoundRobinSelector α
  | .apply i op => update s i ((s i).apply op).2
  | .copy i other => update s i ⟨[], (s other).container⟩

def init : Nat → RoundRobinSelector α := fun _ => ⟨[], []⟩

def machine : Machine (Nat → RoundRobinSelector α) (RoundRobinEvent α) where
  init s := s = init
  step s e s' := s' = handle s e

theorem erase_order (v : α) :
    (x.erase v).2.order = x.order.filter (· ≠ v) := (filter_append ..).symm

theorem insert_perm (h : v ∉ x.container) : (x.insert v).2.container.Perm (v :: x.container) := by
  rw [insert, if_neg h]
  split
  · exact ((perm_orderedInsert _ v x.coming).append_left x.passed).trans perm_middle
  · exact (perm_orderedInsert _ v x.passed).append_right x.coming

variable {x : RoundRobinSelector α}
theorem apply_nodup (h : x.order.Nodup) (op : RoundRobinOp α) : (x.apply op).2.order.Nodup := by
  cases op with
  | insert v =>
    by_cases hv : v ∈ x.container
    · rw [apply, insert, if_pos hv]
      exact h
    · have hpm := (order_perm _).trans (x.insert_perm hv)
      refine hpm.nodup_iff.2 (nodup_cons.2 ⟨hv, x.order_perm.nodup_iff.1 h⟩)
  | erase v =>
    rw [apply, erase_order]
    exact h.filter _
  | clear => exact nodup_nil
  | select => exact x.select_perm.nodup_iff.2 h

theorem order_nodup {s : Nat → RoundRobinSelector α} (h : machine.Reached s) (i : Nat) :
    (s i).order.Nodup := by
  apply h.invariant (I := fun s => ∀ i, (s i).order.Nodup)
  · rintro s rfl i
    exact nodup_nil
  rintro s (⟨i, op⟩ | ⟨i, other⟩) s' hs - rfl
  · exact (forall_update_iff s fun _ x => x.order.Nodup).2 ⟨apply_nodup (hs i) op, fun j _ => hs j⟩
  · refine (forall_update_iff s fun _ x => x.order.Nodup).2 ⟨?_, fun j _ => hs j⟩
    rw [order, append_nil]
    exact (s other).order_perm.nodup_iff.1 (hs other)

theorem selected_block (h : x.order = l ++ rest) : x.selected (replicate l.length .select) = l := by
  induction l generalizing x rest with
  | nil => rfl
  | cons v l ih =>
    rw [cons_append] at h
    obtain ⟨hs, ho⟩ := select_of_order h
    rw [append_assoc] at ho
    rw [length_cons, replicate_succ, selected, apply, hs, ih ho]
    rfl

theorem selected_mem (h : x.order = before ++ v :: behind)
    (hp : ∀ op ∈ ops, op = .select ∨ ∃ w ≠ v, op = .erase w)
    (hc : before.length < ops.count .select) : v ∈ x.selected ops := by
  induction ops generalizing x before behind with
  | nil => cases hc
  | cons op ops ih =>
    obtain ⟨hop, hr⟩ := forall_mem_cons.1 hp
    rw [selected, mem_append]
    obtain rfl | ⟨w, hw, rfl⟩ := hop
    · rw [count_cons_self] at hc
      cases before with
      | nil =>
        left
        rw [apply, (select_of_order h).1]
        exact mem_singleton_self v
      | cons a before =>
        right
        rw [cons_append] at h
        have ho := (select_of_order h).2
        rw [append_assoc, cons_append] at ho
        exact ih ho hr (Nat.lt_of_succ_lt_succ hc)
    · right
      rw [count_cons_of_ne (by simp)] at hc
      have ho := x.erase_order w
      rw [h, filter_append, filter_cons_of_pos (by simpa using hw.symm)] at ho
      exact ih ho hr (Nat.lt_of_le_of_lt (length_filter_le ..) hc)

theorem selections_fair {s : Nat → RoundRobinSelector α} (h : machine.Reached s) (i : Nat) :
    (s i).container.Nodup ∧
    ((s i).selected (replicate (s i).size .select)).Perm (s i).container ∧
    ∀ v ∈ (s i).container, ∀ ops, (∀ op ∈ ops, op = .select ∨ ∃ w ≠ v, op = .erase w) →
      (s i).size ≤ ops.count .select → v ∈ (s i).selected ops := by
  have hpm := (s i).order_perm
  refine ⟨hpm.nodup_iff.1 (order_nodup h i), ?_, fun v hv ops hp hc => ?_⟩
  · rw [size, ← hpm.length_eq, selected_block (append_nil _).symm]
    exact hpm
  obtain ⟨before, behind, ho⟩ := append_of_mem (hpm.mem_iff.2 hv)
  apply selected_mem ho hp
  rw [size, ← hpm.length_eq, ho, length_append, length_cons] at hc
  omega

def twoValues : Nat → RoundRobinSelector Nat :=
  handle (handle init (.apply 0 (.insert 2))) (.apply 0 (.insert 1))

theorem selections_fair_twoValues : 2 ∈ (twoValues 0).selected [.select, .erase 1, .select] := by
  have h : machine.Reached twoValues := .step (.step (.init rfl) trivial rfl) trivial rfl
  exact (selections_fair h 0).2.2 2 (by decide) _ (by simp) (by decide)

end RoundRobinSelector
end Chef
