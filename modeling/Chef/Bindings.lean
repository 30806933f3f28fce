import Chef.ExecutionState
import Chef.ObjectContents

namespace Chef
open Foundations List
namespace Heap
variable {h : Heap}
@[simp] theorem size_setView : (h.setView r v).objectStates.size = h.objectStates.size :=
  Store.size_modify _ _ _

theorem view_setView (hr : r < h.objectStates.size) : (h.setView r v).view r = v := by
  have hst := Store.get_modify_self h.objectStates (fun _ => v.state) hr
  rw [view, setView, hst]

theorem get_setView_ne (hne : r ≠ r') :
    (h.setView r v).objectStates.get r' = h.objectStates.get r' :=
  Store.get_modify_ne _ _ hne

end Heap

namespace AddressSpace
def Sorted (es : List (MemoryObject × Nat)) : Prop :=
  es.Pairwise fun e e' => e.1.address < e'.1.address

variable {a : AddressSpace} {es : List (MemoryObject × Nat)}
theorem Sorted.findObject (hs : Sorted a.objects) (hm : (mo, r) ∈ a.objects) :
    a.findObject mo.address = some (mo, r) := by
  rw [AddressSpace.findObject]
  generalize a.objects = es at hs hm
  induction es with
  | nil => cases hm
  | cons e es ih =>
    rw [Sorted, pairwise_cons] at hs
    obtain he | hm := mem_cons.1 hm
    · subst he
      simp
    · have hlt : e.1.address < mo.address := hs.1 _ hm
      rw [List.find?_cons_of_neg (by simp; omega)]
      exact ih hs.2 hm

theorem Sorted.address_eq (hs : Sorted es) (hm : (mo, r) ∈ es) (hm' : (mo', r') ∈ es)
    (he : mo.address = mo'.address) : mo = mo' ∧ r = r' := by
  have h := hs.findObject (a := ⟨0, es⟩) hm
  have h' := hs.findObject (a := ⟨0, es⟩) hm'
  rw [he, h'] at h
  cases h
  exact ⟨rfl, rfl⟩

theorem Sorted.replaceBinding (hs : Sorted es) (hm : (mo, r) ∈ es) (w : Nat) :
    AddressSpace.replaceBinding es mo w = es.map fun e => if e.1 = mo then (mo, w) else e := by
  induction es with
  | nil => cases hm
  | cons e es ih =>
    rw [Sorted, pairwise_cons] at hs
    rw [AddressSpace.replaceBinding, map_cons]
    obtain he | hm := mem_cons.1 hm
    · subst he
      have hr : (es.map fun e => if e.1 = mo then (mo, w) else e) = es := by
        apply map_congr_left (g := id) _ |>.trans (map_id _)
        intro e' he'
        have hlt : mo.address < e'.1.address := hs.1 e' he'
        have hne : e'.1 ≠ mo := by
          intro heq
          rw [heq] at hlt
          exact Nat.lt_irrefl _ hlt
        exact if_neg hne
      rw [if_pos rfl, if_pos rfl, hr]
    · have hlt : e.1.address < mo.address := hs.1 _ hm
      have hne : e.1 ≠ mo := by
        intro heq
        rw [heq] at hlt
        exact Nat.lt_irrefl _ hlt
      rw [if_neg (by omega), if_neg (by omega), if_neg hne, ih hs.2 hm]

theorem Sorted.map_rebind (hs : Sorted es) (mo : MemoryObject) (w : Nat) :
    Sorted (es.map fun e => if e.1 = mo then (mo, w) else e) := by
  apply List.Pairwise.map _ _ hs
  intro e e' hlt
  have hf : ∀ e : MemoryObject × Nat, (if e.1 = mo then (mo, w) else e).1 = e.1 := by
    intro e
    split
    next he => exact he.symm
    · rfl
  rw [hf, hf]
  exact hlt

theorem mem_map_rebind : (mo', r') ∈ (es.map fun e => if e.1 = mo then (mo, w) else e) ↔
    (mo' = mo ∧ r' = w ∧ ∃ r, (mo, r) ∈ es) ∨ (mo' ≠ mo ∧ (mo', r') ∈ es) := by
  rw [mem_map]
  constructor
  · rintro ⟨⟨mo1, r1⟩, hm, he⟩
    split_ifs at he with hmo <;> cases he
    · exact .inl ⟨rfl, rfl, r1, hmo ▸ hm⟩
    · exact .inr ⟨hmo, hm⟩
  · intro h
    obtain ⟨rfl, rfl, r, hm⟩ | ⟨hmo, hm⟩ := h
    · exact ⟨_, hm, if_pos rfl⟩
    · exact ⟨_, hm, if_neg hmo⟩

end AddressSpace

namespace ExecutionState
open AddressSpace
structure Bound (h : Heap) (s : ExecutionState) : Prop where
  sorted : Sorted s.addressSpace.objects
  lt_size : (mo, r) ∈ s.addressSpace.objects → r < h.objectStates.size
  object : (mo, r) ∈ s.addressSpace.objects → (h.objectStates.get r).object = mo
  valid : (mo, r) ∈ s.addressSpace.objects → (h.objectStates.get r).Valid

/-- The object state itself, or a copy that the address space owns. -/
structure Writeable (h : Heap) (s : ExecutionState) (mo : MemoryObject) (r w : Nat) (h' : Heap)
    (s' : ExecutionState) : Prop where
  host : h'.host = h.host
  nextArray : h'.nextArray = h.nextArray
  conditions : h'.conditions = h.conditions
  size_le : h.objectStates.size ≤ h'.objectStates.size
  lt_size : w < h'.objectStates.size
  old : k < h.objectStates.size → h'.objectStates.get k = h.objectStates.get k
  state : h'.objectStates.get w =
    { h.objectStates.get r with copyOnWriteOwner := s.addressSpace.cowKey }
  fresh : w = r ∨ h.objectStates.size ≤ w
  objects : s'.addressSpace.objects =
    s.addressSpace.objects.map fun e => if e.1 = mo then (mo, w) else e
  cowKey : s'.addressSpace.cowKey = s.addressSpace.cowKey
  rest : s' = { s with
    addressSpace := s'.addressSpace
    cpuSystemObject := s'.cpuSystemObject
    memcache := s'.memcache }

variable {s s' : ExecutionState}
theorem Bound.congr (hB : Bound h s) (hh : h'.objectStates = h.objectStates)
    (ha : s'.addressSpace = s.addressSpace) : Bound h' s' := by
  constructor
  · rw [ha]
    exact hB.sorted
  · rw [ha, hh]
    exact hB.lt_size
  · rw [ha, hh]
    exact hB.object
  · rw [ha, hh]
    exact hB.valid

theorem addressSpaceChange_fields (cpu : CpuObjects) (s : ExecutionState) (mo : MemoryObject)
    (n : Nat) : s.addressSpaceChange cpu mo n = { s with
      cpuSystemObject := (s.addressSpaceChange cpu mo n).cpuSystemObject
      memcache := (s.addressSpaceChange cpu mo n).memcache } := by
  rw [addressSpaceChange]
  split
  · rfl
  split
  · rfl
  · split <;> rfl

theorem getWriteable_writable (hok : s.getWriteable cpu h mo r = .ok wos) :
    (h.objectStates.get r).readOnly = false := by
  apply Bool.eq_false_iff.2
  intro hr
  rw [getWriteable] at hok
  simp only [if_pos hr] at hok
  cases hok

theorem getWriteable_spec (cpu : CpuObjects) (hB : Bound h s) (hm : (mo, r) ∈
    s.addressSpace.objects) (hro : (h.objectStates.get r).readOnly = false) : ∃ w h' s',
    s.getWriteable cpu h mo r = .ok (w, h', s') ∧ Writeable h s mo r w h' s' := by
  have hr := hB.lt_size hm
  have hwr : ¬(h.objectStates.get r).readOnly = true := by simp [hro]
  rw [getWriteable]
  simp only [if_neg hwr]
  split
  next how =>
    refine ⟨r, h, s, rfl, rfl, rfl, rfl, Nat.le_refl _, hr, fun _ => rfl, ?_, .inl rfl, ?_, rfl,
      rfl⟩
    · rw [how]
    refine ((map_congr_left fun e he => ?_).trans (map_id _)).symm
    split
    next hmo =>
      obtain ⟨mo', r'⟩ := e
      obtain ⟨_, hr'⟩ := hB.sorted.address_eq hm he (congrArg MemoryObject.address hmo.symm)
      simp only at hmo
      rw [hmo, hr']
      rfl
    · rfl
  · have hfs := addressSpaceChange_fields cpu s mo h.objectStates.size
    refine ⟨_, _, _, rfl, rfl, rfl, rfl, ?_, ?_, ?_, h.objectStates.get_alloc_size _, .inr
      (Nat.le_refl _), ?_, ?_, ?_⟩
    · simp
    · simp
    · intro k hk
      exact h.objectStates.get_alloc_of_lt _ hk
    · rw [rebind, hfs]
      exact hB.sorted.replaceBinding hm _
    · rw [rebind, hfs]
    · rw [rebind, hfs]

end ExecutionState
end Chef
