import Mathlib.Data.List.Induction
import Chef.ExecutionState
import Chef.ObjectContents

namespace Chef
open Foundations List Option Nat Store
/-- What is written to an object state, or to host memory if the object is shared. -/
structure ObjectUpdate where
  apply : ObjectState → ObjectState
  applyHost : MemoryObject → (Nat → UInt8) → Nat → UInt8
  frame (os : ObjectState) (key : Nat) :
    apply { os with copyOnWriteOwner := key } = { apply os with copyOnWriteOwner := key }

namespace ObjectUpdate
theorem owner_eq (u : ObjectUpdate) (os : ObjectState) :
    (u.apply os).copyOnWriteOwner = os.copyOnWriteOwner := by
  have h := congrArg ObjectState.copyOnWriteOwner (u.frame os os.copyOnWriteOwner)
  exact h

def write8 (offset : Nat) (value : UInt8) : ObjectUpdate where
  apply os := os.storeConcrete offset value
  applyHost mo host := setAt host (mo.address + offset) value
  frame _ _ := rfl

end ObjectUpdate

namespace AddressSpace
def nextKey (key : Nat) : Nat := (key + 1) % 2 ^ 32

def removeBinding (objects : List (MemoryObject × Nat)) (mo : MemoryObject) :
    List (MemoryObject × Nat) :=
  objects.filter fun e => e.1.address != mo.address

def bindObject (states : Store ObjectState) (a : AddressSpace) (mo : MemoryObject)
    (os : ObjectState) : Except MemoryFault (Store ObjectState × AddressSpace) :=
  if os.copyOnWriteOwner = 0 then
    .ok (states.alloc { os with copyOnWriteOwner := a.cowKey },
      { a with objects := replaceBinding a.objects mo states.size })
  else .error .ownedObject

def unbindObject (a : AddressSpace) (mo : MemoryObject) : AddressSpace :=
  { a with objects := removeBinding a.objects mo }

def getWriteable (states : Store ObjectState) (a : AddressSpace) (mo : MemoryObject) (r : Nat) :
    Except MemoryFault (Nat × Store ObjectState × AddressSpace) :=
  let os := states.get r
  if os.readOnly then .error .readOnly
  else if a.cowKey = os.copyOnWriteOwner then .ok (r, states, a)
  else
    .ok (states.size, states.alloc { os with copyOnWriteOwner := a.cowKey },
      { a with objects := replaceBinding a.objects mo states.size })

end AddressSpace

/-- All address spaces, the object states that they share, and the memory of the host. -/
structure AddressSpaces where
  objectStates : Store ObjectState
  spaces : List AddressSpace
  host : Nat → UInt8

inductive SpaceOp where
  | bindObject (mo : MemoryObject) (os : ObjectState)
  | unbindObject (mo : MemoryObject)
  | write (mo : MemoryObject) (update : ObjectUpdate)

inductive SpacesOp where
  | onSpace (space : Nat) (op : SpaceOp)
  | copy (space : Nat)

namespace AddressSpaces
open AddressSpace
def initial : AddressSpaces := ⟨.empty, [⟨1, []⟩], fun _ => 0⟩

def getWriteable (s : AddressSpaces) (k : Nat) (mo : MemoryObject) :
    Except MemoryFault (Nat × AddressSpaces) :=
  match s.spaces[k]? with
  | none => .error .unboundObject
  | some a =>
    match a.findObject mo.address with
    | none => .error .unboundObject
    | some (_, r) =>
      (a.getWriteable s.objectStates mo r).map fun (r', states, a') =>
        (r', ⟨states, s.spaces.set k a', s.host⟩)

def step (s : AddressSpaces) : SpacesOp → Except MemoryFault AddressSpaces
  | .onSpace k (.bindObject mo os) =>
    match s.spaces[k]? with
    | none => .error .unboundObject
    | some a => (a.bindObject s.objectStates mo os).map fun (states, a') =>
      ⟨states, s.spaces.set k a', s.host⟩
  | .onSpace k (.unbindObject mo) =>
    match s.spaces[k]? with
    | none => .error .unboundObject
    | some a => .ok { s with spaces := s.spaces.set k (a.unbindObject mo) }
  | .onSpace k (.write mo update) =>
    (s.getWriteable k mo).map fun (r, s') =>
      if mo.isSharedConcrete then { s' with host := update.applyHost mo s'.host }
      else { s' with objectStates := s'.objectStates.modify r update.apply }
  | .copy k =>
    match s.spaces[k]? with
    | none => .error .unboundObject
    | some a =>
      .ok { s with
        spaces := s.spaces.set k { a with cowKey := nextKey a.cowKey } ++
          [⟨nextKey a.cowKey, a.objects⟩] }

def run (ops : List SpacesOp) (s : AddressSpaces) : Except MemoryFault AddressSpaces :=
  ops.foldlM step s

/-- A shared object has its bytes in host memory. -/
def contents (s : AddressSpaces) (mo : MemoryObject) (r : Nat) : ObjectState :=
  let os := { s.objectStates.get r with copyOnWriteOwner := 0 }
  if mo.isSharedConcrete then { os with concreteStore := fun i => s.host (mo.address + i) } else os

def observe (s : AddressSpaces) (k address : Nat) : Option (MemoryObject × ObjectState) :=
  s.spaces[k]?.bind fun a => (a.findObject address).map fun (mo, r) => (mo, s.contents mo r)

end AddressSpaces

abbrev PrivateBindings := Nat → Option (MemoryObject × ObjectState)

namespace PrivateBindings
def step (b : PrivateBindings) : SpaceOp → PrivateBindings
  | .bindObject mo os => setAt b mo.address (some (mo, os))
  | .unbindObject mo => setAt b mo.address none
  | .write mo update => setAt b mo.address ((b mo.address).map fun p => (mo, update.apply p.2))

def replay (ops : List SpaceOp) : PrivateBindings := ops.foldl step fun _ => none

end PrivateBindings

open PrivateBindings
namespace SpacesOp
def extend (hs : List (List SpaceOp)) : SpacesOp → List (List SpaceOp)
  | .onSpace k op => hs.modify k fun h => h ++ [op]
  | .copy k => hs ++ [hs.getD k []]

def histories (ops : List SpacesOp) : List (List SpaceOp) := ops.foldl extend [[]]

def isCopy : SpacesOp → Bool
  | .copy _ => true
  | .onSpace _ _ => false

/-- Bound objects are fresh and not shared, written ones are bound and not read-only. -/
def Allowed (hs : List (List SpaceOp)) : SpacesOp → Prop
  | .onSpace k op => k < hs.length ∧
    match op with
    | .bindObject mo os => os.copyOnWriteOwner = 0 ∧ mo.isSharedConcrete = false
    | .unbindObject _ => True
    | .write mo _ => ∃ os, replay (hs.getD k []) mo.address = some (mo, os) ∧ os.readOnly = false
  | .copy k => k < hs.length

def AllAllowed (ops : List SpacesOp) : Prop :=
  ∀ before op after, ops = before ++ op :: after → op.Allowed (histories before)

end SpacesOp

open SpacesOp
namespace AddressSpace
theorem find_cons (e : MemoryObject × Nat) (rest : List (MemoryObject × Nat)) (address : Nat) :
    (e :: rest).find? (fun e => e.1.address == address) =
      if address = e.1.address then some e else rest.find? fun e => e.1.address == address := by
  by_cases h : address = e.1.address
  · rw [if_pos h, List.find?_cons_of_pos (by simp [h])]
  · have h' : ¬e.1.address = address := fun he => h he.symm
    rw [if_neg h, List.find?_cons_of_neg (by simpa using h')]

variable (objects : List (MemoryObject × Nat)) (mo : MemoryObject)
include objects mo
theorem find_replaceBinding (r address : Nat) :
    (replaceBinding objects mo r).find? (fun e => e.1.address == address) =
      if address = mo.address then some (mo, r)
      else objects.find? fun e => e.1.address == address := by
  induction objects with
  | nil => rw [replaceBinding, find_cons]
  | cons e rest ih =>
    rw [replaceBinding]
    split
    next he =>
      rw [find_cons, find_cons, he]
      split <;> rfl
    · split
      · rw [find_cons]
      next hne _ =>
        rw [find_cons, find_cons, ih]
        split
        next h => rw [if_neg fun ha => hne (h.symm.trans ha)]
        · rfl

theorem find_removeBinding (address : Nat) :
    (removeBinding objects mo).find? (fun e => e.1.address == address) =
      if address = mo.address then none else objects.find? fun e => e.1.address == address := by
  induction objects with
  | nil =>
    exact (ite_self none).symm
  | cons e rest ih =>
    rw [removeBinding] at ih
    rw [removeBinding, filter_cons, find_cons]
    by_cases he : e.1.address = mo.address
    · rw [if_neg (by simp [he]), ih, he]
      split <;> rfl
    rw [if_pos (by simp [he]), find_cons, ih]
    split
    next h => rw [if_neg fun ha => he (h.symm.trans ha)]
    · rfl

end AddressSpace

namespace AddressSpaces
open AddressSpace
def fullKey (key : Nat) : Nat := if key = 0 then 2 ^ 32 else key

theorem fullKey_nextKey (key : Nat) (hk : fullKey key < 2 ^ 32) :
    nextKey key < 2 ^ 32 ∧ fullKey (nextKey key) = fullKey key + 1 := by
  rw [fullKey] at hk
  rw [nextKey, fullKey, fullKey]
  split at hk
  · omega
  next hne =>
    refine ⟨mod_lt _ (by decide), ?_⟩
    split <;> omega

section
variable (s : AddressSpaces)
def binding (k address : Nat) : Option (MemoryObject × Nat) :=
  s.spaces[k]?.bind fun a => a.findObject address

def key (k : Nat) : Nat := (s.spaces[k]?.map cowKey).getD 0

def owner (r : Nat) : Nat := (s.objectStates.get r).copyOnWriteOwner

/-- Shared object states are owned by no address space. -/
structure Separate : Prop where
  key_lt : k < s.spaces.length → s.key k < 2 ^ 32
  key_le : k < s.spaces.length → fullKey (s.key k) ≤ s.spaces.length
  bound : s.binding k address = some (mo, r) → r < s.objectStates.size
  owner_lt : s.binding k address = some (mo, r) → s.owner r < 2 ^ 32
  owner_le : s.binding k address = some (mo, r) → fullKey (s.owner r) ≤ fullKey (s.key k)
  shared : k ≠ j → s.binding k address = some (mo, r) → s.binding j address' = some (mo', r) →
    fullKey (s.owner r) < fullKey (s.key k)
  address_eq : s.binding k address = some (mo, r) → s.binding j address' = some (mo', r) →
    address = address'
  unshared : s.binding k address = some (mo, r) → mo.isSharedConcrete = false

/-- An address space shows what its own line of operations made. -/
structure Isolated (hs : List (List SpaceOp)) (s : AddressSpaces) : Prop where
  separate : Separate s
  length_eq : s.spaces.length = hs.length
  seen : k < hs.length → s.observe k address = replay (hs.getD k []) address

/-- `getWriteable` returns an object state of one address space. -/
structure Exclusive (k : Nat) (mo : MemoryObject) (r : Nat) : Prop where
  binding : s.binding k mo.address = some (mo, r)
  owned : s.owner r = s.key k
  alone : j ≠ k → s.binding j address ≠ some (mo', r)

end

section
variable {s : AddressSpaces} {k j address : Nat}
theorem binding_some (h : s.binding k address = some (mo, r)) : k < s.spaces.length := by
  rw [binding, bind_eq_some_iff] at h
  obtain ⟨a, ha, _⟩ := h
  exact (List.getElem?_eq_some_iff.1 ha).1

theorem observe_eq (s : AddressSpaces) (k address : Nat) :
    s.observe k address = (s.binding k address).map fun (mo, r) => (mo, s.contents mo r) := by
  rw [observe, binding]
  cases s.spaces[k]? <;> rfl

theorem Separate.observe_eq (h : Separate s) (k address : Nat) :
    s.observe k address = (s.binding k address).map fun (mo, r) =>
      (mo, { s.objectStates.get r with copyOnWriteOwner := 0 }) := by
  rw [AddressSpaces.observe_eq]
  cases hb : s.binding k address with
  | none => rfl
  | some p =>
    have hu := h.unshared hb
    simp only [map_some, contents, hu, Bool.false_eq_true, if_false]

section
variable (hk : s.spaces[k]? = some a)
include hk
theorem getElem_set (a' : AddressSpace) :
    (s.spaces.set k a')[j]? = if j = k then some a' else s.spaces[j]? := by
  obtain ⟨hlt, _⟩ := List.getElem?_eq_some_iff.1 hk
  rw [List.getElem?_set, if_pos hlt]
  exact if_congr eq_comm rfl rfl

theorem binding_set (states : Store ObjectState) (a' : AddressSpace) :
    binding ⟨states, s.spaces.set k a', s.host⟩ j address =
      if j = k then a'.findObject address else s.binding j address := by
  rw [binding, binding, getElem_set hk]
  split <;> rfl

theorem key_set (states : Store ObjectState) (a' : AddressSpace) :
    key ⟨states, s.spaces.set k a', s.host⟩ j = if j = k then a'.cowKey else s.key j := by
  rw [key, key, getElem_set hk]
  split <;> rfl

theorem key_of_getElem : s.key k = a.cowKey := by
  rw [key, hk]
  rfl

theorem key_set_of_eq (states : Store ObjectState) (ha : a'.cowKey = a.cowKey) :
    key ⟨states, s.spaces.set k a', s.host⟩ j = s.key j := by
  rw [key_set hk]
  split
  next hj => rw [hj, key_of_getElem hk, ha]
  · rfl

theorem binding_of_getElem : s.binding k address = a.findObject address := by
  rw [binding, hk]
  rfl

theorem binding_set_at (states : Store ObjectState) (ha : a'.findObject address =
      if address = address' then v else a.findObject address) :
    binding ⟨states, s.spaces.set k a', s.host⟩ j address =
      if j = k ∧ address = address' then v else s.binding j address := by
  rw [binding_set hk, ha]
  by_cases hj : j = k
  · subst hj
    rw [binding_of_getElem hk]
    simp
  · simp [hj]

def rebind (s : AddressSpaces) (k : Nat) (a : AddressSpace) (mo : MemoryObject)
    (os : ObjectState) : AddressSpaces :=
  ⟨s.objectStates.alloc { os with copyOnWriteOwner := a.cowKey },
    s.spaces.set k { a with objects := replaceBinding a.objects mo s.objectStates.size }, s.host⟩

theorem binding_rebind (mo : MemoryObject) (os : ObjectState) :
    (s.rebind k a mo os).binding j address =
      if j = k ∧ address = mo.address then some (mo, s.objectStates.size)
      else s.binding j address :=
  binding_set_at hk _ (find_replaceBinding _ _ _ _)

theorem key_rebind (mo : MemoryObject) (os : ObjectState) : (s.rebind k a mo os).key j = s.key j :=
  key_set_of_eq hk _ rfl

end

theorem owner_rebind (s : AddressSpaces) (k : Nat) (a : AddressSpace) (mo : MemoryObject)
    (os : ObjectState) (r : Nat) : (s.rebind k a mo os).owner r =
      if r = s.objectStates.size then a.cowKey else s.owner r := by
  rw [owner, rebind, get_alloc]
  split <;> rfl

section
variable {mo : MemoryObject} (h : Separate s) (hk : s.spaces[k]? = some a) (os : ObjectState)
  (hmo : mo.isSharedConcrete = false)
include h hk os hmo
theorem Separate.rebind : Separate (s.rebind k a mo os) := by
  have hl : (s.rebind k a mo os).spaces.length = s.spaces.length := length_set
  have hlt : k < s.spaces.length := (List.getElem?_eq_some_iff.1 hk).1
  have hy := key_of_getElem hk
  have hc : ∀ {j address mo' r}, (s.rebind k a mo os).binding j address = some (mo', r) →
      (j = k ∧ address = mo.address ∧ r = s.objectStates.size) ∨
        (s.binding j address = some (mo', r) ∧ r < s.objectStates.size) := by
    intro j address mo' r hb
    rw [binding_rebind hk] at hb
    split at hb
    next hj =>
      cases hb
      exact .inl ⟨hj.1, hj.2, rfl⟩
    · exact .inr ⟨hb, h.bound hb⟩
  constructor
  · intro j hj
    rw [key_rebind hk]
    exact h.key_lt (hl ▸ hj)
  · intro j hj
    rw [key_rebind hk, hl]
    exact h.key_le (hl ▸ hj)
  · intro j address mo' r hb
    have hz : (s.rebind k a mo os).objectStates.size = s.objectStates.size + 1 := size_alloc _ _
    obtain ⟨_, _, rfl⟩ | ⟨_, hr⟩ := hc hb <;> omega
  · intro j address mo' r hb
    rw [owner_rebind]
    obtain ⟨_, _, rfl⟩ | ⟨hb, hr⟩ := hc hb
    · rw [if_pos rfl, ← hy]
      exact h.key_lt hlt
    · rw [if_neg (by omega)]
      exact h.owner_lt hb
  · intro j address mo' r hb
    rw [owner_rebind, key_rebind hk]
    obtain ⟨rfl, _, rfl⟩ | ⟨hb, hr⟩ := hc hb
    · exact Nat.le_of_eq (by rw [if_pos rfl, hy])
    · rw [if_neg (by omega)]
      exact h.owner_le hb
  · intro j j' address mo' r address' mo'' hne hb hb'
    rw [owner_rebind, key_rebind hk]
    obtain ⟨rfl, _, rfl⟩ | ⟨hb, hr⟩ := hc hb
    · obtain ⟨hj', _, _⟩ | ⟨_, hr'⟩ := hc hb'
      · exact absurd hj'.symm hne
      · omega
    obtain ⟨_, _, rfl⟩ | ⟨hb', _⟩ := hc hb'
    · omega
    · rw [if_neg (by omega)]
      exact h.shared hne hb hb'
  · intro j j' address mo' r address' mo'' hb hb'
    obtain ⟨_, hm, rfl⟩ | ⟨hb, hr⟩ := hc hb
    · obtain ⟨_, hm', _⟩ | ⟨_, hr'⟩ := hc hb'
      · exact hm.trans hm'.symm
      · omega
    · obtain ⟨_, _, rfl⟩ | ⟨hb', _⟩ := hc hb'
      · omega
      · exact h.address_eq hb hb'
  · intro j address mo' r hb
    rw [binding_rebind hk] at hb
    split at hb
    · cases hb
      exact hmo
    · exact h.unshared hb

theorem observe_rebind : (s.rebind k a mo os).observe j address =
      if j = k ∧ address = mo.address then some (mo, { os with copyOnWriteOwner := 0 })
      else s.observe j address := by
  rw [(h.rebind hk os hmo).observe_eq, h.observe_eq, binding_rebind hk]
  split
  · rw [map_some]
    have hg : (s.rebind k a mo os).objectStates.get s.objectStates.size =
        { os with copyOnWriteOwner := a.cowKey } := get_alloc_size _ _
    simp only [hg]
  · cases hb : s.binding j address with
    | none => rfl
    | some p =>
      obtain ⟨mo', r⟩ := p
      have hg : (s.rebind k a mo os).objectStates.get r = s.objectStates.get r :=
        get_alloc_of_lt _ _ (h.bound hb)
      rw [map_some, map_some]
      simp only [hg]

end

def update (s : AddressSpaces) (r : Nat) (u : ObjectUpdate) : AddressSpaces :=
  { s with objectStates := s.objectStates.modify r u.apply }

theorem Separate.of_binding (h : Separate s) (hl : s'.spaces.length = s.spaces.length)
    (hz : s'.objectStates.size = s.objectStates.size) (hy : ∀ j, s'.key j = s.key j)
    (how : ∀ r, s'.owner r = s.owner r)
    (ho : ∀ {j address mo r}, s'.binding j address = some (mo, r) →
      s.binding j address = some (mo, r)) : Separate s' := by
  refine ⟨fun hj => ?_, fun hj => ?_, fun hb => ?_, fun hb => ?_, fun hb => ?_,
    fun hne hb hb' => ?_, fun hb hb' => h.address_eq (ho hb) (ho hb'),
    fun hb => h.unshared (ho hb)⟩
  · rw [hy]
    exact h.key_lt (hl ▸ hj)
  · rw [hy, hl]
    exact h.key_le (hl ▸ hj)
  · rw [hz]
    exact h.bound (ho hb)
  · rw [how]
    exact h.owner_lt (ho hb)
  · rw [how, hy]
    exact h.owner_le (ho hb)
  · rw [how, hy]
    exact h.shared hne (ho hb) (ho hb')

theorem Separate.update (h : Separate s) (r : Nat) (u : ObjectUpdate) : Separate (s.update r u) :=
  h.of_binding rfl (size_modify _ _ _) (fun _ => rfl)
    (get_modify_proj s.objectStates u.apply ObjectState.copyOnWriteOwner u.owner_eq r) id

theorem observe_update (h : Separate s) (hb : s.binding k address = some (mo, r))
    (ho : s.owner r = s.key k) (u : ObjectUpdate) : (s.update r u).observe j address' =
      if j = k ∧ address' = address then (s.observe j address').map fun p => (p.1, u.apply p.2)
      else s.observe j address' := by
  have hn : (s.update r u).binding j address' = s.binding j address' := rfl
  rw [(h.update r u).observe_eq, h.observe_eq, hn]
  cases hb' : s.binding j address' with
  | none => simp
  | some p =>
    obtain ⟨mo', r'⟩ := p
    simp only [map_some]
    split
    next hj =>
      obtain ⟨rfl, rfl⟩ := hj
      rw [hb] at hb'
      cases hb'
      have hg : (s.update r u).objectStates.get r = u.apply (s.objectStates.get r) :=
        get_modify_self _ _ (h.bound hb)
      rw [hg]
      exact congrArg (fun os => some (mo, os)) (u.frame _ 0).symm
    next hj =>
      have hne : r ≠ r' := by
        rintro rfl
        have ha := h.address_eq hb' hb
        have hjk : k ≠ j := fun hjk => hj ⟨hjk.symm, ha⟩
        have hlt := h.shared hjk hb hb'
        rw [ho] at hlt
        exact Nat.lt_irrefl _ hlt
      have hg : (s.update r u).objectStates.get r' = s.objectStates.get r' := get_modify_ne _ _ hne
      rw [hg]

theorem Separate.unbind (h : Separate s) (hk : s.spaces[k]? = some a) (mo : MemoryObject) :
    Separate { s with spaces := s.spaces.set k (a.unbindObject mo) } ∧
      ∀ j address, observe { s with spaces := s.spaces.set k (a.unbindObject mo) } j address =
        if j = k ∧ address = mo.address then none else s.observe j address := by
  have hn : ∀ j address, binding { s with spaces := s.spaces.set k (a.unbindObject mo) } j address =
        if j = k ∧ address = mo.address then none else s.binding j address := fun _ _ =>
    binding_set_at hk _ (find_removeBinding _ _ _)
  have ho : ∀ {j address mo' r},
      binding { s with spaces := s.spaces.set k (a.unbindObject mo) } j address = some (mo', r) →
        s.binding j address = some (mo', r) := by
    intro j address mo' r hb
    rw [hn] at hb
    split at hb
    · cases hb
    · exact hb
  have hsep : Separate { s with spaces := s.spaces.set k (a.unbindObject mo) } := h.of_binding
    length_set rfl (fun _ => key_set_of_eq hk _ rfl) (fun _ => rfl) ho
  refine ⟨hsep, fun j address => ?_⟩
  rw [hsep.observe_eq, h.observe_eq, hn]
  split <;> rfl

def source (s : AddressSpaces) (k j : Nat) : Nat := if j = s.spaces.length then k else j

def copied (s : AddressSpaces) (k : Nat) (a : AddressSpace) : AddressSpaces := { s with
    spaces := s.spaces.set k { a with cowKey := nextKey a.cowKey } ++
      [⟨nextKey a.cowKey, a.objects⟩] }

section
variable (hk : s.spaces[k]? = some a)
include hk
theorem getElem_copied : (s.copied k a).spaces[j]? = (s.spaces[s.source k j]?).map fun b =>
      if s.source k j = k then ⟨nextKey a.cowKey, a.objects⟩ else b := by
  obtain ⟨hlt, _⟩ := List.getElem?_eq_some_iff.1 hk
  rw [copied, source]
  split
  next hj =>
    subst hj
    have hle : (s.spaces.set k { a with cowKey := nextKey a.cowKey }).length ≤ s.spaces.length :=
      Nat.le_of_eq length_set
    rw [List.getElem?_append_right hle, length_set, Nat.sub_self, hk]
    simp
  next hj =>
    by_cases hlt' : j < s.spaces.length
    · rw [List.getElem?_append_left (by rwa [length_set]), getElem_set hk]
      by_cases hjk : j = k
      · simp [hjk, hk]
      · simp [hjk]
    · rw [List.getElem?_eq_none (by simp; omega), List.getElem?_eq_none (by omega)]
      rfl

theorem binding_copied : (s.copied k a).binding j address = s.binding (s.source k j) address := by
  rw [binding, getElem_copied hk, binding]
  cases hb : s.spaces[s.source k j]? with
  | none => rfl
  | some b =>
    split
    next hs =>
      rw [hs, hk] at hb
      cases hb
      rfl
    · rfl

theorem source_lt (hj : j < s.spaces.length + 1) : s.source k j < s.spaces.length := by
  rw [source]
  split
  · exact (List.getElem?_eq_some_iff.1 hk).1
  · omega

theorem key_copied (hj : j < s.spaces.length + 1) : (s.copied k a).key j =
      if s.source k j = k then nextKey a.cowKey else s.key (s.source k j) := by
  rw [key, getElem_copied hk, key, List.getElem?_eq_getElem (source_lt hk hj)]
  split <;> rfl

end

theorem Separate.copied (h : Separate s) (hk : s.spaces[k]? = some a)
    (hli : s.spaces.length < 2 ^ 32) : Separate (s.copied k a) := by
  obtain ⟨hlt, _⟩ := List.getElem?_eq_some_iff.1 hk
  have hl : (s.copied k a).spaces.length = s.spaces.length + 1 := by
    rw [AddressSpaces.copied, length_append, length_set]
    rfl
  have hy := key_of_getElem hk
  have hf := h.key_le hlt
  rw [hy] at hf
  obtain ⟨hn, hx⟩ := fullKey_nextKey a.cowKey (by omega)
  have hle : ∀ {j}, j < s.spaces.length + 1 →
      fullKey (s.key (s.source k j)) ≤ fullKey ((s.copied k a).key j) := by
    intro j hj
    rw [key_copied hk hj]
    split
    next hs =>
      rw [hs, hy, hx]
      exact le_succ _
    · exact Nat.le_refl _
  have hpl : ∀ {j address mo r}, (s.copied k a).binding j address = some (mo, r) →
      j < s.spaces.length + 1 := fun hb => hl ▸ binding_some hb
  have ho : ∀ {j address mo r}, (s.copied k a).binding j address = some (mo, r) →
      s.binding (s.source k j) address = some (mo, r) := by
    intro j address mo r hb
    rwa [binding_copied hk] at hb
  refine ⟨fun {j} hj => ?_, fun {j} hj => ?_, fun hb => h.bound (ho hb),
    fun hb => h.owner_lt (ho hb), fun hb => ?_, ?_, fun hb hb' => h.address_eq (ho hb) (ho hb'),
    fun hb => h.unshared (ho hb)⟩
  · rw [key_copied hk (hl ▸ hj)]
    split
    · exact hn
    · exact h.key_lt (source_lt hk (hl ▸ hj))
  · have hj' := source_lt hk (hl ▸ hj)
    rw [key_copied hk (hl ▸ hj), hl]
    split
    · omega
    · exact le_succ_of_le (h.key_le hj')
  · exact Nat.le_trans (h.owner_le (ho hb)) (hle (hpl hb))
  · intro j j' address mo r address' mo' hne hb hb'
    by_cases hs : s.source k j = s.source k j'
    · have hsk : s.source k j = k := by
        rw [source, source] at hs
        rw [source]
        split at hs
        · rw [if_pos (by assumption)]
        split at hs
        · rw [if_neg (by assumption)]
          exact hs
        · exact absurd hs hne
      have how := h.owner_le (ho hb)
      rw [key_copied hk (hpl hb), if_pos hsk, hx]
      rw [hsk, hy] at how
      exact lt_succ_of_le how
    · exact Nat.lt_of_lt_of_le (h.shared hs (ho hb) (ho hb')) (hle (hpl hb))

theorem replay_snoc (ops : List SpaceOp) (op : SpaceOp) :
    replay (ops ++ [op]) = (replay ops).step op := by
  rw [replay, foldl_append]
  rfl

theorem getD_modify_self (hs : List (List SpaceOp)) (hk : k < hs.length) (op : SpaceOp) :
    (hs.modify k fun h => h ++ [op]).getD k [] = hs.getD k [] ++ [op] := by
  rw [getD_eq_getElem?_getD, getD_eq_getElem?_getD, List.getElem?_modify,
    List.getElem?_eq_getElem hk]
  simp

theorem getD_modify_ne (hs : List (List SpaceOp)) (hne : j ≠ k) (op : SpaceOp) :
    (hs.modify k fun h => h ++ [op]).getD j [] = hs.getD j [] := by
  have hne' : ¬k = j := fun h => hne h.symm
  rw [getD_eq_getElem?_getD, getD_eq_getElem?_getD, List.getElem?_modify]
  simp [hne']

theorem Isolated.onSpace (h : Isolated hs s) (hk : k < hs.length) (hsep : Separate s')
    (hl : s'.spaces.length = s.spaces.length) (hn : ∀ j address, s'.observe j address =
      if j = k then PrivateBindings.step (s.observe k) op address else s.observe j address) :
    Isolated ((onSpace k op).extend hs) s' := by
  refine ⟨hsep, ?_, fun {j address} hj => ?_⟩
  · rw [hl, h.length_eq, extend, length_modify]
  rw [extend, length_modify] at hj
  rw [hn, extend]
  by_cases hjk : j = k
  · subst hjk
    have hp : s.observe j = PrivateBindings.replay (hs.getD j []) := funext fun address => h.seen hj
    rw [if_pos rfl, getD_modify_self hs hk, replay_snoc, hp]
  · rw [if_neg hjk, getD_modify_ne hs hjk, h.seen hj]

theorem Separate.exclusive (h : Separate s) (hb : s.binding k mo.address = some (mo, r))
    (ho : s.owner r = s.key k) : Exclusive s k mo r := by
  refine ⟨hb, ho, fun hj hb' => ?_⟩
  have hlt := h.shared (fun hkj => hj hkj.symm) hb hb'
  rw [ho] at hlt
  exact Nat.lt_irrefl _ hlt

theorem getWriteable_exclusive (h : Separate s) (ho : s.observe k mo.address = some (mo, os))
    (hro : os.readOnly = false) : ∃ r s', s.getWriteable k mo = .ok (r, s') ∧ Separate s' ∧
      s'.spaces.length = s.spaces.length ∧
      (∀ j address, s'.observe j address = s.observe j address) ∧ Exclusive s' k mo r := by
  rw [h.observe_eq, map_eq_some_iff] at ho
  obtain ⟨⟨mo', r⟩, hb, heq⟩ := ho
  obtain ⟨rfl, rfl⟩ := Prod.mk.inj heq
  obtain ⟨a, hk, hf⟩ := bind_eq_some_iff.1 hb
  have hro' : ¬(s.objectStates.get r).readOnly = true := by
    have hro'' : (s.objectStates.get r).readOnly = false := hro
    rw [hro'']
    exact Bool.false_ne_true
  by_cases how : a.cowKey = (s.objectStates.get r).copyOnWriteOwner
  · refine ⟨r, s, ?_, h, rfl, fun _ _ => rfl, h.exclusive hb ?_⟩
    · rw [getWriteable, hk]
      simp only [hf, AddressSpace.getWriteable]
      rw [if_neg hro', if_pos how]
      have ht : s.spaces.set k a = s.spaces := by
        obtain ⟨hlt, hg⟩ := List.getElem?_eq_some_iff.1 hk
        rw [← hg, set_getElem_self]
      simp only [Except.map, ht]
    · rw [key_of_getElem hk]
      exact how.symm
  · have hsep := h.rebind hk (s.objectStates.get r) (h.unshared hb)
    refine ⟨s.objectStates.size, s.rebind k a mo' (s.objectStates.get r), ?_, hsep, length_set, ?_,
      hsep.exclusive ?_ ?_⟩
    · rw [getWriteable, hk]
      simp only [hf, AddressSpace.getWriteable]
      rw [if_neg hro', if_neg how]
      rfl
    · intro j address
      rw [observe_rebind h hk _ (h.unshared hb)]
      split
      next hj =>
        obtain ⟨rfl, rfl⟩ := hj
        rw [h.observe_eq, hb]
        rfl
      · rfl
    · rw [binding_rebind hk, if_pos ⟨rfl, rfl⟩]
    · rw [owner_rebind, if_pos rfl, key_rebind hk, key_of_getElem hk]

section
variable (h : Isolated hs s) (hk : k < hs.length)
include h hk
theorem Isolated.getElem : ∃ a, s.spaces[k]? = some a :=
  ⟨_, List.getElem?_eq_getElem (h.length_eq ▸ hk)⟩

theorem Isolated.bindObject {mo : MemoryObject} (hmo : mo.isSharedConcrete = false)
    (hos : os.copyOnWriteOwner = 0) :
    ∃ s', s.step (.onSpace k (.bindObject mo os)) = .ok s' ∧
      Isolated ((SpacesOp.onSpace k (.bindObject mo os)).extend hs) s' := by
  obtain ⟨a, ha⟩ := h.getElem hk
  refine ⟨s.rebind k a mo os, ?_,
    h.onSpace hk (h.separate.rebind ha os hmo) length_set fun j address => ?_⟩
  · rw [step, ha]
    simp only [AddressSpace.bindObject]
    rw [if_pos hos]
    rfl
  · have her : { os with copyOnWriteOwner := 0 } = os := by rw [← hos]
    rw [observe_rebind h.separate ha os hmo, PrivateBindings.step, setAt_apply, her]
    by_cases hj : j = k <;> simp [hj]

theorem Isolated.unbindObject (mo : MemoryObject) :
    ∃ s', s.step (.onSpace k (.unbindObject mo)) = .ok s' ∧
      Isolated ((SpacesOp.onSpace k (.unbindObject mo)).extend hs) s' := by
  obtain ⟨a, ha⟩ := h.getElem hk
  obtain ⟨hp, ho⟩ := h.separate.unbind ha mo
  refine ⟨{ s with spaces := s.spaces.set k (a.unbindObject mo) }, ?_,
    h.onSpace hk hp length_set fun j address => ?_⟩
  · rw [step, ha]
  · rw [ho, PrivateBindings.step, setAt_apply]
    by_cases hj : j = k <;> simp [hj]

theorem Isolated.write (u : ObjectUpdate)
    (hb : PrivateBindings.replay (hs.getD k []) mo.address = some (mo, os))
    (hr : os.readOnly = false) : ∃ s', s.step (.onSpace k (.write mo u)) = .ok s' ∧
      Isolated ((SpacesOp.onSpace k (.write mo u)).extend hs) s' := by
  have ho : s.observe k mo.address = some (mo, os) := (h.seen hk).trans hb
  obtain ⟨r, s1, hg, hp, hl, hm, hex⟩ := getWriteable_exclusive h.separate ho hr
  refine ⟨s1.update r u, ?_, h.onSpace hk (hp.update r u) hl fun j address => ?_⟩
  · have hmo := hp.unshared hex.binding
    rw [step, hg]
    simp only [Except.map, hmo, Bool.false_eq_true, if_false, update]
  rw [observe_update hp hex.binding hex.owned, hm, PrivateBindings.step, setAt_apply, ho]
  by_cases hj : j = k
  · subst hj
    by_cases ha : address = mo.address
    · subst ha
      simp [ho]
    · simp [ha]
  · simp [hj]

theorem Isolated.copy (hli : hs.length < 2 ^ 32) :
    ∃ s', s.step (.copy k) = .ok s' ∧ Isolated ((copy k).extend hs) s' := by
  obtain ⟨a, ha⟩ := h.getElem hk
  refine ⟨s.copied k a, ?_, h.separate.copied ha (h.length_eq ▸ hli), ?_, fun {j address} hj => ?_⟩
  · rw [step, ha]
    rfl
  · rw [copied, length_append, length_set, h.length_eq, extend, length_append]
    rfl
  rw [extend, length_append, length_singleton] at hj
  have hb : (s.copied k a).observe j address = s.observe (s.source k j) address := by
    rw [AddressSpaces.observe_eq, AddressSpaces.observe_eq, binding_copied ha]
    rfl
  rw [hb, extend, source, h.length_eq]
  split
  next hjl =>
    subst hjl
    have hla : (hs ++ [hs.getD k []]).getD hs.length [] = hs.getD k [] := by
      rw [getD_eq_getElem?_getD, List.getElem?_concat_length]
      rfl
    rw [h.seen hk, hla]
  next hjl =>
    have hj' : j < hs.length := by omega
    have ho : (hs ++ [hs.getD k []]).getD j [] = hs.getD j [] := by
      rw [getD_eq_getElem?_getD, List.getElem?_append_left hj', getD_eq_getElem?_getD]
    rw [h.seen hj', ho]

end

theorem step_isolated (h : Isolated hs s) (op : SpacesOp) (hop : op.Allowed hs)
    (hli : op.isCopy = true → hs.length < 2 ^ 32) :
    ∃ s', s.step op = .ok s' ∧ Isolated (op.extend hs) s' := by
  cases op with
  | copy k => exact h.copy hop (hli rfl)
  | onSpace k op =>
    cases op with
    | bindObject mo os => exact h.bindObject hop.1 hop.2.2 hop.2.1
    | unbindObject mo => exact h.unbindObject hop.1 mo
    | write mo u =>
      obtain ⟨hk, os, hb, hr⟩ := hop
      exact h.write hk u hb hr

end

theorem initial_isolated : Isolated [[]] initial := by
  have hn : ∀ k address, initial.binding k address = none := by
    intro k address
    cases k <;> rfl
  have hno : ∀ {k address mo r}, ¬initial.binding k address = some (mo, r) := by
    intro k address mo r hb
    rw [hn] at hb
    cases hb
  have hy : ∀ {k}, k < initial.spaces.length → initial.key k = 1 := by
    intro k hk
    obtain rfl : k = 0 := lt_one_iff.1 hk
    rfl
  refine ⟨⟨fun hk => ?_, fun hk => ?_, fun hb => absurd hb hno, fun hb => absurd hb hno,
    fun hb => absurd hb hno, fun _ hb => absurd hb hno, fun hb => absurd hb hno,
    fun hb => absurd hb hno⟩, rfl,
    fun {k address} hk => ?_⟩
  · rw [hy hk]
    decide
  · rw [hy hk]
    decide
  · obtain rfl : k = 0 := lt_one_iff.1 hk
    rfl

def copies (ops : List SpacesOp) : Nat := (ops.filter isCopy).length

theorem histories_snoc (ops : List SpacesOp) (op : SpacesOp) :
    histories (ops ++ [op]) = op.extend (histories ops) := by
  rw [histories, foldl_append]
  rfl

theorem length_histories (ops : List SpacesOp) : (histories ops).length = copies ops + 1 := by
  induction ops using reverseRecOn with
  | nil => rfl
  | append_singleton ops op ih =>
    rw [histories_snoc, copies, filter_append, length_append]
    cases op with
    | onSpace k op =>
      rw [extend, length_modify, ih]
      rfl
    | copy k =>
      rw [extend, length_append, ih]
      rfl

theorem allAllowed_snoc (h : AllAllowed (ops ++ [op])) :
    AllAllowed ops ∧ op.Allowed (histories ops) := by
  refine ⟨fun before op' after ho => ?_, h ops op [] rfl⟩
  apply h before op' (after ++ [op])
  rw [ho, append_assoc]
  rfl

theorem run_isolated (ops : List SpacesOp) (ha : AllAllowed ops) (hli : copies ops < 2 ^ 32) :
    ∃ s, run ops initial = .ok s ∧ Isolated (histories ops) s := by
  induction ops using reverseRecOn with
  | nil => exact ⟨initial, rfl, initial_isolated⟩
  | append_singleton ops op ih =>
    have hp : copies (ops ++ [op]) = copies ops + copies [op] := by
      rw [copies, filter_append, length_append]
      rfl
    obtain ⟨ha, hop⟩ := allAllowed_snoc ha
    obtain ⟨s, hr, hI⟩ := ih ha (by omega)
    have hcp : op.isCopy = true → (histories ops).length < 2 ^ 32 := by
      intro hc
      have ho : copies [op] = 1 := by
        rw [copies, filter_cons_of_pos hc]
        rfl
      rw [length_histories]
      omega
    obtain ⟨s', ht, hI'⟩ := step_isolated hI op hop hcp
    refine ⟨s', ?_, histories_snoc ops op ▸ hI'⟩
    rw [run] at hr ⊢
    rw [foldlM_append, hr]
    simp only [bind, Except.bind, foldlM_cons, foldlM_nil, ht]
    rfl

theorem AllAllowed.snoc (op : SpacesOp) (h : AllAllowed ops)
    (hop : op.Allowed (histories ops)) : AllAllowed (ops ++ [op]) := by
  intro before op' after ho
  obtain rfl | ⟨after', last, rfl⟩ := after.eq_nil_or_concat
  · obtain ⟨rfl, hla⟩ := append_inj' ho rfl
    cases hla
    exact hop
  · rw [concat_eq_append, ← cons_append, ← append_assoc] at ho
    obtain ⟨rfl, _⟩ := append_inj' ho rfl
    exact h before op' after' rfl

def sampleOps : List SpacesOp :=
  let mo : MemoryObject := ⟨0, 0x1000, 4, false, false, false⟩
  let os : ObjectState := ⟨mo, 0, none, fun _ => 0, none, none, ⟨none, .null⟩, 4, false⟩
  [.onSpace 0 (.bindObject mo os), .copy 0, .onSpace 1 (.write mo (.write8 0 1)),
    .onSpace 0 (.write mo (.write8 0 2))]

theorem sampleOps_allowed : AllAllowed sampleOps := by
  have h0 : AllAllowed [] := by
    intro before op after h
    cases before <;> cases h
  have h1 := AllAllowed.snoc (sampleOps.get ⟨0, by decide⟩) h0 ⟨by decide, rfl, rfl⟩
  have h2 := AllAllowed.snoc (sampleOps.get ⟨1, by decide⟩) h1 Nat.one_pos
  have h3 := AllAllowed.snoc (sampleOps.get ⟨2, by decide⟩) h2 ⟨lt_succ_self 1, _, rfl, rfl⟩
  exact AllAllowed.snoc (sampleOps.get ⟨3, by decide⟩) h3 ⟨Nat.two_pos, _, rfl, rfl⟩

def sharedObject : MemoryObject := ⟨0, 0x1000, 4, false, true, false⟩

def sharedOps : List SpacesOp := [.onSpace 0 (.bindObject sharedObject
    ⟨sharedObject, 0, none, fun _ => 0, none, none, ⟨none, .null⟩, 4, false⟩), .copy 0]

def firstByte (ops : List SpacesOp) : Option UInt8 :=
  (run ops initial).toOption.bind fun s => (s.observe 0 0x1000).map fun p => p.2.concreteStore 0

end AddressSpaces
end Chef
