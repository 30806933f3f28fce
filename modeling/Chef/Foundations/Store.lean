import Mathlib.Data.List.Basic

namespace Foundations
open List
/-- Objects are named by the order of their allocation and never move. -/
structure Store (α : Type) where
  cells : List α
  deriving DecidableEq

namespace Store
def empty : Store α := ⟨[]⟩

def size (m : Store α) : Nat := m.cells.length

def get [Inhabited α] (m : Store α) (i : Nat) : α := m.cells.getD i default

def alloc (m : Store α) (x : α) : Store α := ⟨m.cells ++ [x]⟩

def modify (m : Store α) (i : Nat) (f : α → α) : Store α := ⟨m.cells.modify i f⟩

def map (m : Store α) (f : α → α) : Store α := ⟨m.cells.map f⟩

variable (m : Store α)
include m
@[simp] theorem size_alloc (x : α) : (m.alloc x).size = m.size + 1 := by simp [size, alloc]

@[simp] theorem size_modify (i : Nat) (f : α → α) :
    (m.modify i f).size = m.size := by simp [size, modify]

@[simp] theorem size_map (f : α → α) : (m.map f).size = m.size := by simp [size, map]

theorem get_of_le [Inhabited α] (h : m.size ≤ i) : m.get i = default := by
  simp only [get, size] at *
  rw [getD_eq_getElem?_getD, List.getElem?_eq_none h, Option.getD_none]

theorem get_map [Inhabited α] (f : α → α) (hf : f default = default) (i : Nat) :
    (m.map f).get i = f (m.get i) := by
  simp only [get, map, getD_eq_getElem?_getD, List.getElem?_map]
  cases m.cells[i]? with
  | none => exact hf.symm
  | some x => rfl

theorem get_alloc_of_lt [Inhabited α] (x : α) (h : i < m.size) : (m.alloc x).get i = m.get i := by
  simp only [get, alloc, size] at *
  rw [getD_eq_getElem?_getD, getD_eq_getElem?_getD, List.getElem?_append_left h]

@[simp] theorem get_alloc_size [Inhabited α] (x : α) :
    (m.alloc x).get m.size = x := by simp [get, alloc, size, getD_eq_getElem?_getD]

theorem get_alloc [Inhabited α] (x : α) (i : Nat) :
    (m.alloc x).get i = if i = m.size then x else m.get i := by
  obtain hlt | heq | hgt := Nat.lt_trichotomy i m.size
  · rw [get_alloc_of_lt _ _ hlt, if_neg (by omega)]
  · rw [heq, get_alloc_size, if_pos rfl]
  · rw [if_neg (by omega), get_of_le _ (by rw [size_alloc]; omega), get_of_le _ (by omega)]

theorem get_modify [Inhabited α] (i j : Nat) (f : α → α) :
    (m.modify i f).get j = if i = j ∧ j < m.size then f (m.get j) else m.get j := by
  simp only [get, modify, size, getD_eq_getElem?_getD, List.getElem?_modify]
  by_cases h : j < m.cells.length
  · simp only [List.getElem?_eq_getElem h]
    split <;> simp_all
  · simp [h]

theorem get_modify_self [Inhabited α] (f : α → α) (h : i < m.size) :
    (m.modify i f).get i = f (m.get i) := by rw [get_modify, if_pos ⟨rfl, h⟩]

theorem get_modify_ne [Inhabited α] (f : α → α) (h : i ≠ j) :
    (m.modify i f).get j = m.get j := by rw [get_modify, if_neg fun he => h he.1]

theorem modify_modify (i : Nat) (f g : α → α) : (m.modify i f).modify i g = m.modify i (g ∘ f) := by
  rw [modify, modify, modify, modify_modify_eq]

theorem get_modify_proj [Inhabited α] (f : α → α) (p : α → β)
    (hp : ∀ x, p (f x) = p x) (i j : Nat) : p ((m.modify i f).get j) = p (m.get j) := by
  rw [get_modify]
  split
  · exact hp _
  · rfl

theorem proj_modify [Inhabited α] (f : α → α) (p : α → β)
    (h : i < m.size ∨ p (f default) = p default) (j : Nat) :
    p ((m.modify i f).get j) = if j = i then p (f (m.get j)) else p (m.get j) := by
  rw [get_modify]
  by_cases he : j = i
  · rw [if_pos he]
    split
    · rfl
    next hn =>
      have hj : ¬j < m.size := fun hj => hn ⟨he.symm, hj⟩
      rw [m.get_of_le (Nat.le_of_not_lt hj), h.resolve_left (he ▸ hj)]
  · rw [if_neg fun hi => he hi.1.symm, if_neg he]

theorem proj_alloc [Inhabited α] (p : α → β) (h : p x = p default) (i : Nat) :
    p ((m.alloc x).get i) = p (m.get i) := by
  rw [get_alloc]
  split
  next hi => rw [h, m.get_of_le (Nat.le_of_eq hi.symm)]
  · rfl

end Store
end Foundations
