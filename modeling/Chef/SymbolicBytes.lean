import Chef.SmartBuilder

namespace Chef
open Foundations List Option ObjectState ObjectView And
namespace ObjectState
variable (os : ObjectState)
def markByteFlushed (offset : Nat) : ObjectState :=
  match os.flushMask with
  | none => { os with flushMask := some fun _ => false }
  | some mask => { os with flushMask := some (setAt mask offset false) }

def ofContents (mo : MemoryObject) (array : Option KArray) (contents : Nat → UInt8) : ObjectState :=
  ⟨mo, 0, none, contents, none, none, ⟨array, .null⟩, mo.size, false⟩

def makeByteSymbolic (offset : Nat) : ObjectState :=
  ((os.markByteSymbolic offset).setKnownSymbolic offset none).markByteFlushed offset

def makeSymbolic : ObjectState := (range os.size).foldl makeByteSymbolic os

/-- The constructor for symbolic contents. -/
def ofArray (mo : MemoryObject) (array : KArray) (garbage : Nat → UInt8) : ObjectState :=
  makeSymbolic ⟨mo, 0, none, garbage, none, none, ⟨some array, .null⟩, mo.size, false⟩

def copy : Except MemoryFault ObjectState :=
  if os.readOnly then .error .readOnly
  else .ok { os with copyOnWriteOwner := 0, readOnly := false }

/-- The documented invariants of the masks and of the cache. -/
structure CacheInvariants : Prop where
  known : i < os.size → (os.knownSymbolic i).isSome → os.isByteConcrete i = false
  concrete : i < os.size → os.isByteConcrete i = true → os.knownSymbolic i = none
  unflushed : i < os.size → os.isByteFlushed i = false →
    os.isByteConcrete i = true ∨ (os.knownSymbolic i).isSome

end ObjectState

structure Objects where
  states : List ObjectState
  host : Nat → UInt8
  nextArray : Nat

inductive ObjectOp where
  | write8 (object offset : Nat) (value : UInt8)
  | write8Expr (object offset : Nat) (value : Expr)
  | write8At (object : Nat) (offset value : Expr)
  | read8 (object offset : Nat)
  | read8At (object : Nat) (offset : Expr)
  | copy (object : Nat)

namespace Objects
def view (o : Objects) (os : ObjectState) : ObjectView := ⟨os, o.host, o.nextArray⟩

def setView (o : Objects) (k : Nat) (v : ObjectView) : Objects :=
  ⟨o.states.set k v.state, v.host, v.nextArray⟩

def access (o : Objects) (k : Nat) (f : ObjectView →
    Except MemoryFault (Option Expr × ObjectView)) : Except MemoryFault (Option Expr × Objects) :=
  match o.states[k]? with
  | none => .error .unboundObject
  | some os => (f (o.view os)).map fun (e, v) => (e, o.setView k v)

def step (o : Objects) : ObjectOp → Except MemoryFault (Option Expr × Objects)
  | .write8 k offset value => o.access k fun v => .ok (none, v.write8 offset value)
  | .write8Expr k offset value =>
    o.access k fun v => (v.write8Expr offset value).map fun v => (none, v)
  | .write8At k offset value =>
    o.access k fun v => (v.write8At smartBuilder offset value).map fun v => (none, v)
  | .read8 k offset =>
    o.access k fun v => (v.read8 smartBuilder offset).map fun (e, v) => (some e, v)
  | .read8At k offset =>
    o.access k fun v => (v.read8At smartBuilder offset).map fun (e, v) => (some e, v)
  | .copy k =>
    match o.states[k]? with
    | none => .error .unboundObject
    | some os => os.copy.map fun os' => (none, { o with states := o.states ++ [os'] })

def run (ops : List ObjectOp) (o : Objects) : Except MemoryFault Objects :=
  ops.foldlM (fun o op => (o.step op).map Prod.snd) o

end Objects

abbrev ByteArrays := List (Nat → UInt8)

namespace ByteArrays
def array (m : ByteArrays) (k : Nat) : Nat → UInt8 := m[k]?.getD fun _ => 0

def set8 (m : ByteArrays) (k i : Nat) (x : UInt8) : ByteArrays := m.modify k fun f => setAt f i x

def step (ρ : Assignment) (m : ByteArrays) : ObjectOp → ByteArrays
  | .write8 k i x => m.set8 k i x
  | .write8Expr k i value => m.set8 k i (UInt8.ofNat (value.eval ρ))
  | .write8At k offset value => m.set8 k (offset.eval ρ) (UInt8.ofNat (value.eval ρ))
  | .copy k =>
    match m[k]? with
    | none => m
    | some f => m ++ [f]
  | _ => m

def run (ρ : Assignment) (ops : List ObjectOp) (m : ByteArrays) : ByteArrays := ops.foldl (step ρ) m

end ByteArrays

open ByteArrays
namespace ObjectOp
def sizesAfter (sizes : List Nat) : ObjectOp → List Nat
  | .copy k =>
    match sizes[k]? with
    | none => sizes
    | some n => sizes ++ [n]
  | _ => sizes

def InObject (sizes : List Nat) (k i : Nat) : Prop := ∃ n, sizes[k]? = some n ∧ i < n

def Legal (sizes : List Nat) : ObjectOp → Prop
  | .write8 k i _ => InObject sizes k i
  | .write8Expr k i value => InObject sizes k i ∧ value.WellTyped ∧ value.width = 8
  | .write8At k offset value =>
    k < sizes.length ∧ offset.WellTyped ∧ offset.isConstant = false ∧ value.WellTyped ∧
      value.width = 8
  | .read8 k i => InObject sizes k i
  | .read8At k offset => k < sizes.length ∧ offset.WellTyped ∧ offset.isConstant = false
  | .copy k => k < sizes.length

/-- The offset is in range, and what is written has a value. -/
def InRange (ρ : Assignment) (sizes : List Nat) : ObjectOp → Prop
  | .write8Expr _ _ value => value.Defined ρ
  | .write8At k offset value =>
    InObject sizes k (offset.eval ρ) ∧ offset.Defined ρ ∧ value.Defined ρ
  | _ => True

def Throughout (p : List Nat → ObjectOp → Prop) : List Nat → List ObjectOp → Prop
  | _, [] => True
  | sizes, op :: ops => p sizes op ∧ Throughout p (op.sizesAfter sizes) ops

def Answers (ρ : Assignment) (sizes : List Nat) (m : ByteArrays) : ObjectOp → Option Expr → Prop
  | .read8 k i, res => ∃ e, res = some e ∧ e.eval ρ = (m.array k i).toNat
  | .read8At k offset, res =>
    ∃ e, res = some e ∧ (offset.Defined ρ → InObject sizes k (offset.eval ρ) →
      e.eval ρ = (m.array k (offset.eval ρ)).toNat)
  | _, res => res = none

end ObjectOp

namespace ObjectState
inductive Initial : ObjectState → (Assignment → Nat → UInt8) → Prop where
  | contents (mo : MemoryObject) (array : Option KArray) (contents : Nat → UInt8) :
    mo.size < 2 ^ 32 → mo.isSharedConcrete = false →
      (∀ a, array = some a → a.size = mo.size ∧ a.constantValues = []) →
      Initial (ofContents mo array contents) fun _ => contents
  | array (mo : MemoryObject) (array : KArray) (garbage : Nat → UInt8) :
    mo.size < 2 ^ 32 → mo.isSharedConcrete = false → array.size = mo.size →
      (array.constantValues ≠ [] → array.constantValues.length = mo.size) →
      Initial (ofArray mo array garbage) fun ρ => array.initialValue ρ

structure SymbolicUpTo (os0 : ObjectState) (n : Nat) (os : ObjectState) : Prop where
  same : os = { os0 with
    concreteMask := os.concreteMask
    flushMask := os.flushMask
    knownSymbolics := os.knownSymbolics }
  known : os.knownSymbolics = none
  concrete : i < n → os.isByteConcrete i = false
  flushed : i < n → os.isByteFlushed i = true

theorem isByteFlushed_markByteFlushed (os : ObjectState) (hi : i = n ∨ os.isByteFlushed i = true) :
    (os.markByteFlushed n).isByteFlushed i = true := by
  rw [markByteFlushed]
  cases hm : os.flushMask with
  | none => rfl
  | some mask =>
    rw [isByteFlushed, hm] at hi
    simp only [isByteFlushed, setAt_apply]
    split
    · rfl
    next hne => exact hi.resolve_left hne

theorem markByteFlushed_same (os : ObjectState) :
    os.markByteFlushed n = { os with flushMask := (os.markByteFlushed n).flushMask } := by
  rw [markByteFlushed.eq_def]
  split <;> rfl

theorem SymbolicUpTo.step (h : SymbolicUpTo os0 n os) :
    SymbolicUpTo os0 (n + 1) (os.makeByteSymbolic n) := by
  have hu : ((os.markByteSymbolic n).setKnownSymbolic n none).knownSymbolics = none := by
    have hk : (os.markByteSymbolic n).knownSymbolics = none := h.known
    simp only [setKnownSymbolic, hk]
  have hs := markByteFlushed_same (n := n) ((os.markByteSymbolic n).setKnownSymbolic n none)
  refine ⟨?_, ?_, fun {i} hi => ?_, fun {i} hi => ?_⟩
  · rw [makeByteSymbolic, hs, h.same]
    rfl
  · rw [makeByteSymbolic, hs]
    exact hu
  · have hc : (os.makeByteSymbolic n).isByteConcrete i =
      (os.markByteSymbolic n).isByteConcrete i := by
      rw [makeByteSymbolic, hs]
      rfl
    rw [hc, isByteConcrete_markByteSymbolic]
    split
    · rfl
    · exact h.concrete (by omega)
  · apply isByteFlushed_markByteFlushed
    by_cases hin : i = n
    · exact .inl hin
    · exact .inr (h.flushed (by omega))

theorem makeSymbolic_spec (os : ObjectState) (hk : os.knownSymbolics = none) :
    SymbolicUpTo os os.size os.makeSymbolic := by
  have hlp : ∀ n, SymbolicUpTo os n ((range n).foldl makeByteSymbolic os) := by
    intro n
    induction n with
    | zero => exact ⟨rfl, hk, nofun, nofun⟩
    | succ n ih =>
      rw [range_succ, foldl_append]
      exact ih.step
  exact hlp os.size

theorem represents_ofContents (array : Option KArray) (contents : Nat → UInt8) (hs : mo.size <
    2 ^ 32) (hr : ∀ a, array = some a → a.size = mo.size ∧ a.constantValues = []) :
    Represents P (fun _ => contents) (ofContents mo array contents) where
  valid := by
    refine ⟨rfl, hs, fun _ _ => .inl rfl, nofun, nofun, trivial, fun {a} ha => ?_⟩
    obtain ⟨ha, hy⟩ := hr a ha
    exact ⟨ha, fun hne => absurd hy hne⟩
  coherent _ := by
    refine ⟨fun _ hf => ?_, trivial, nofun⟩
    cases hf
  contents _ _ := rfl

theorem represents_ofArray (array : KArray) (garbage : Nat → UInt8) (hz : mo.size < 2 ^ 32)
    (hr : array.size = mo.size)
    (hv : array.constantValues ≠ [] → array.constantValues.length = mo.size) :
    Represents P (fun ρ => array.initialValue ρ) (ofArray mo array garbage) := by
  have h := makeSymbolic_spec
    ⟨mo, 0, none, garbage, none, none, ⟨some array, .null⟩, mo.size, false⟩ rfl
  have hm := h.same
  have hs : (ofArray mo array garbage).size = mo.size := by rw [ofArray, hm]
  have ho : (ofArray mo array garbage).object = mo := by rw [ofArray, hm]
  have hu : (ofArray mo array garbage).updates = ⟨some array, .null⟩ := by rw [ofArray, hm]
  have hkn : ∀ i, (ofArray mo array garbage).knownSymbolic i = none := by
    intro i
    rw [knownSymbolic, ofArray, h.known]
  have hl : ∀ ρ i, (ofArray mo array garbage).updates.valueAt ρ mo.size i =
      array.initialValue ρ i := by
    intro ρ i
    rw [hu, UpdateList.valueAt, UpdateNode.valueAt]
    rfl
  have hc : ∀ ρ i, i < mo.size →
      (ofArray mo array garbage).contents ρ i = array.initialValue ρ i := by
    intro ρ i hi
    rw [contents, hkn, hs, hl, ofArray, h.concrete hi]
    rfl
  refine ⟨⟨hs.trans (congrArg MemoryObject.size ho).symm, hs ▸ hz, fun {i} hi hf => ?_,
    fun {i e} hk => ?_, fun {i e} hk => ?_, ?_, fun {a} ha => ?_⟩,
    fun {ρ} _ => ⟨fun {i} hi _ => ?_, ?_, fun {i e} hk => ?_⟩, fun {ρ i} _ hi => ?_⟩
  · have hfl := h.flushed (i := i) (hs ▸ hi)
    rw [ofArray, hfl] at hf
    cases hf
  · rw [hkn] at hk
    cases hk
  · rw [hkn] at hk
    cases hk
  · rw [hu]
    trivial
  · rw [hu] at ha
    cases ha
    rw [hs]
    exact ⟨hr, hv⟩
  · rw [hs, hl, hc ρ i (hs ▸ hi)]
  · rw [hu]
    trivial
  · rw [hkn] at hk
    cases hk
  · exact hc ρ i (hs ▸ hi)

theorem Initial.represents (h : Initial os m) (P : Assignment → Prop) :
    Represents P m os ∧ os.object.isSharedConcrete = false ∧ os.readOnly = false := by
  cases h with
  | contents mo array contents hz hs ha =>
    exact ⟨represents_ofContents array contents hz ha, hs, rfl⟩
  | array mo array garbage hz hs ha hv =>
    have hm := (makeSymbolic_spec
      ⟨mo, 0, none, garbage, none, none, ⟨some array, .null⟩, mo.size, false⟩ rfl).same
    refine ⟨represents_ofArray array garbage hz ha hv, ?_, ?_⟩
    · rw [ofArray, hm]
      exact hs
    · rw [ofArray, hm]

theorem Represents.copied (h : Represents P m os) :
    Represents P m { os with copyOnWriteOwner := 0, readOnly := false } where
  valid :=
    ⟨h.valid.size_eq, h.valid.size_lt, h.valid.cached, h.valid.known_typed, h.valid.known_symbolic,
      h.valid.updates_typed, h.valid.root_size⟩
  coherent hρ :=
    ⟨(h.coherent hρ).flushed, (h.coherent hρ).updates_defined, (h.coherent hρ).known_defined⟩
  contents := h.contents

theorem Valid.cacheInvariants (h : Valid os) : CacheInvariants os where
  known _ hk := by
    obtain ⟨e, he⟩ := isSome_iff_exists.1 hk
    exact h.known_symbolic he
  concrete {i} _ hc := by
    cases hk : os.knownSymbolic i with
    | none => rfl
    | some e =>
      rw [h.known_symbolic hk] at hc
      cases hc
  unflushed hi hf := h.cached hi hf

end ObjectState

namespace Objects
def sizes (o : Objects) : List Nat := o.states.map size

/-- It stands for an array of bytes, and can be written and copied. -/
structure Implements (P : Assignment → Prop) (m : Assignment → Nat → UInt8) (os : ObjectState) :
    Prop where
  represents : Represents P m os
  unshared : os.object.isSharedConcrete = false
  writable : os.readOnly = false

structure Implement (P : Assignment → Prop) (m : Assignment → ByteArrays) (o : Objects) : Prop where
  length_eq (ρ : Assignment) : (m ρ).length = o.states.length
  object {k : Nat} {os : ObjectState} : o.states[k]? = some os →
    Implements P (fun ρ => (m ρ).array k) os

section
variable {o : Objects} {k i : Nat} {os : ObjectState} {v : ObjectView}

theorem sizes_getElem (h : o.sizes[k]? = some n) : ∃ os, o.states[k]? = some os ∧ os.size = n := by
  rw [sizes, getElem?_map, map_eq_some_iff] at h
  exact h

theorem inObject_iff (hk : o.states[k]? = some os) :
    ObjectOp.InObject o.sizes k i ↔ i < os.size := by
  rw [ObjectOp.InObject, sizes, getElem?_map, hk]
  refine ⟨fun ⟨n, hn, hi⟩ => ?_, fun hi => ⟨_, rfl, hi⟩⟩
  cases hn
  exact hi

theorem exists_state (h : k < o.sizes.length) : ∃ os, o.states[k]? = some os := by
  rw [sizes, length_map] at h
  exact ⟨_, getElem?_eq_getElem h⟩

theorem exists_state_of_inObject (h : ObjectOp.InObject o.sizes k i) :
    ∃ os, o.states[k]? = some os ∧ i < os.size := by
  obtain ⟨n, hn, hi⟩ := h
  obtain ⟨os, hk, rfl⟩ := sizes_getElem hn
  exact ⟨os, hk, hi⟩

theorem access_ok (hk : o.states[k]? = some os) (hf : f (o.view os) = .ok (e, v)) :
    o.access k f = .ok (e, o.setView k v) := by
  rw [access, hk]
  simp only [hf, Except.map]

section
variable (h : Implement P m o)
include h
theorem Implement.tracks (hk : o.states[k]? = some os) :
    Tracks P (fun ρ => (m ρ).array k) (o.view os) (o.view os) :=
  ⟨rfl, rfl, rfl, rfl, (h.object hk).unshared, (h.object hk).represents⟩

theorem Implement.mono (hQ : ∀ ρ, Q ρ → P ρ) : Implement Q m o where
  length_eq := h.length_eq
  object hk := ⟨(h.object hk).represents.mono hQ, (h.object hk).unshared, (h.object hk).writable⟩

section
variable (hk : o.states[k]? = some os)
include hk
theorem sizes_setView (hT : Tracks Q m' (o.view os) v) : (o.setView k v).sizes = o.sizes := by
  have hs : v.state.size = os.size := by
    rw [hT.size, (h.object hk).represents.valid.size_eq]
    rfl
  apply ext_getElem?
  intro j
  rw [sizes, sizes, setView, getElem?_map, getElem?_map, getElem?_set]
  split
  next hkj =>
    subst hkj
    obtain ⟨hlt, _⟩ := List.getElem?_eq_some_iff.1 hk
    rw [if_pos hlt, hk, map_some, map_some, hs]
  · rfl

theorem Implement.setView {f : Assignment → (Nat → UInt8) → Nat → UInt8} (hQ : ∀ ρ, Q ρ → P ρ)
    (hT : Tracks Q (fun ρ => f ρ ((m ρ).array k)) (o.view os) v) :
    Implement Q (fun ρ => (m ρ).modify k (f ρ)) (o.setView k v) := by
  obtain ⟨hlt, _⟩ := List.getElem?_eq_some_iff.1 hk
  refine ⟨fun ρ => ?_, fun {j os'} hj => ?_⟩
  · rw [length_modify, h.length_eq, Objects.setView, length_set]
  rw [Objects.setView, getElem?_set] at hj
  split at hj
  next hkj =>
    subst hkj
    cases hj
    have ha : ∀ ρ, array ((m ρ).modify k (f ρ)) k = f ρ ((m ρ).array k) := by
      intro ρ
      have hlt' : k < (m ρ).length := h.length_eq ρ ▸ hlt
      rw [array, array, getElem?_modify, getElem?_eq_getElem hlt']
      simp
    simp only [ha]
    exact ⟨hT.represents, hT.unshared, hT.readOnly.trans (h.object hk).writable⟩
  next hkj =>
    have ha : ∀ ρ, array ((m ρ).modify k (f ρ)) j = (m ρ).array j := by
      intro ρ
      rw [array, array, getElem?_modify]
      simp [hkj]
    simp only [ha]
    exact (h.mono hQ).object hj

theorem Implement.write (hQ : ∀ ρ, Q ρ → P ρ) {x : Assignment → UInt8} {a : Assignment → Nat} (hT :
    Tracks Q (fun ρ => setAt ((m ρ).array k) (a ρ) (x ρ)) (o.view os) v) :
    Implement Q (fun ρ => (m ρ).set8 k (a ρ) (x ρ)) (o.setView k v) ∧ (o.setView k v).sizes =
    o.sizes :=
  ⟨h.setView (f := fun ρ f => setAt f (a ρ) (x ρ)) hk hQ hT, sizes_setView h hk hT⟩

theorem Implement.read (hT : Tracks P (fun ρ => (m ρ).array k) (o.view os) v) :
    Implement (fun ρ => P ρ ∧ True) m (o.setView k v) ∧ (o.setView k v).sizes = o.sizes := by
  refine ⟨?_, sizes_setView h hk hT⟩
  have hs := (h.setView (f := fun _ f => f) hk (fun _ hρ => hρ) hT).mono
    fun ρ (hρ : P ρ ∧ True) => hρ.1
  have hid : ∀ ρ, (m ρ).modify k (fun f => f) = m ρ := fun ρ => modify_id k (m ρ)
  simp only [hid] at hs
  exact hs

theorem Implement.copy : Implement (fun ρ => P ρ ∧ True) (fun ρ => (m ρ).step ρ (.copy k))
      { o with states := o.states ++ [{ os with copyOnWriteOwner := 0, readOnly := false }] } := by
  have ho := h.object hk
  have hm : ∀ ρ, (m ρ)[k]? = some ((m ρ).array k) := by
    intro ρ
    obtain ⟨hlt, _⟩ := List.getElem?_eq_some_iff.1 hk
    have hlt' : k < (m ρ).length := h.length_eq ρ ▸ hlt
    rw [ByteArrays.array, getElem?_eq_getElem hlt']
    rfl
  have hs : ∀ ρ, (m ρ).step ρ (.copy k) = m ρ ++ [(m ρ).array k] := by
    intro ρ
    rw [ByteArrays.step, hm]
  refine ⟨fun ρ => ?_, fun {j os'} hj => ?_⟩
  · rw [hs, length_append, length_append, h.length_eq]
    rfl
  simp only [hs]
  obtain ⟨hlt, hg⟩ := List.getElem?_eq_some_iff.1 hj
  by_cases hl : j < o.states.length
  · have ha : ∀ ρ, ByteArrays.array (m ρ ++ [(m ρ).array k]) j = (m ρ).array j := by
      intro ρ
      have hlt' : j < (m ρ).length := h.length_eq ρ ▸ hl
      rw [ByteArrays.array, getElem?_append_left hlt']
      rfl
    rw [getElem?_append_left hl] at hj
    simp only [ha]
    exact (h.mono fun _ => left).object hj
  · have hn : j = o.states.length := by
      simp only [length_append, length_singleton] at hlt
      omega
    subst hn
    have ha : ∀ ρ, ByteArrays.array (m ρ ++ [(m ρ).array k]) o.states.length = (m ρ).array k := by
      intro ρ
      rw [← h.length_eq ρ, ByteArrays.array, getElem?_concat_length]
      rfl
    rw [getElem?_concat_length] at hj
    cases hj
    simp only [ha]
    exact ⟨(ho.represents.mono fun _ => left).copied, ho.unshared, rfl⟩

end

theorem step_implements (op : ObjectOp) (hl : op.Legal o.sizes) : ∃ e o', o.step op = .ok (e, o') ∧
      Implement (fun ρ => P ρ ∧ op.InRange ρ o.sizes) (fun ρ => (m ρ).step ρ op) o' ∧
      o'.sizes = op.sizesAfter o.sizes ∧ ∀ ρ, P ρ → op.Answers ρ o.sizes (m ρ) e := by
  have L := accessLawful_smartBuilder
  cases op with
  | write8 k i x =>
    obtain ⟨os, hk, hi⟩ := exists_state_of_inObject hl
    have hT0 := (h.mono (Q := fun ρ => P ρ ∧ True) fun _ => left).tracks hk
    have hT := write8_tracks hT0 i x
    obtain ⟨hI, hs⟩ := h.write (a := fun _ => i) hk (fun _ => left) hT
    refine ⟨none, _, ?_, hI, hs, fun _ _ => rfl⟩
    rw [step]
    exact access_ok hk rfl
  | write8Expr k i value =>
    obtain ⟨hin, ht, hw⟩ := hl
    obtain ⟨os, hk, hi⟩ := exists_state_of_inObject hin
    have hT0 := (h.mono (Q := fun ρ => P ρ ∧ value.Defined ρ) fun _ => left).tracks hk
    obtain ⟨v, hok⟩ := write8Expr_total hT0 hw i
    have hT := write8Expr_tracks hT0 ht hw (fun _ => right) hok
    obtain ⟨hI, hs⟩ := h.write (a := fun _ => i) hk (fun _ => left) hT
    refine ⟨none, _, ?_, hI, hs, fun _ _ => rfl⟩
    rw [step]
    apply access_ok hk
    rw [hok]
    rfl
  | write8At k offset value =>
    obtain ⟨hk, hto, hn, htv, hw⟩ := hl
    obtain ⟨os, hk⟩ := exists_state hk
    have hT0 := (h.mono (Q := fun ρ => P ρ ∧ (ObjectOp.write8At k offset value).InRange ρ o.sizes)
      fun _ => left).tracks hk
    obtain ⟨v, hok⟩ := write8At_total (b := smartBuilder) hT0 hn hw
    have hin : InRange (fun ρ => P ρ ∧
        (ObjectOp.write8At k offset value).InRange ρ o.sizes) (o.view os).state.size offset :=
      ⟨hto, fun hρ => hρ.2.2.1, fun hρ => (inObject_iff hk).1 hρ.2.1⟩
    have hT := write8At_tracks L hT0 hin htv hw (fun _ hρ => hρ.2.2.2) hok
    obtain ⟨hI, hs⟩ := h.write (a := fun ρ => offset.eval ρ) hk (fun _ => left) hT
    refine ⟨none, _, ?_, hI, hs, fun _ _ => rfl⟩
    rw [step]
    apply access_ok hk
    rw [hok]
    rfl
  | read8 k i =>
    obtain ⟨os, hk, hi⟩ := exists_state_of_inObject hl
    obtain ⟨e, v, hr, hT, hR⟩ := read8_tracks L (h.tracks hk) hi
    obtain ⟨hI, hs⟩ := h.read hk hT
    refine ⟨some e, _, ?_, hI, hs, fun ρ hρ => ⟨e, rfl, hR.eval_eq hρ⟩⟩
    rw [step]
    apply access_ok hk
    rw [hr]
    rfl
  | read8At k offset =>
    obtain ⟨hk, hto, hn⟩ := hl
    obtain ⟨os, hk⟩ := exists_state hk
    obtain ⟨e, v, hr, hT, _, _, he⟩ := read8At_total L (h.tracks hk) hto hn
    obtain ⟨hI, hs⟩ := h.read hk hT
    refine ⟨some e, _, ?_, hI, hs,
      fun ρ hρ => ⟨e, rfl, fun hd hin => he ρ hρ hd ((inObject_iff hk).1 hin)⟩⟩
    rw [step]
    apply access_ok hk
    rw [hr]
    rfl
  | copy k =>
    obtain ⟨os, hk⟩ := exists_state hl
    refine ⟨none, _, ?_, h.copy hk, ?_, fun _ _ => rfl⟩
    · have hcp : os.copy = .ok { os with copyOnWriteOwner := 0, readOnly := false } := by
        rw [copy, (h.object hk).writable, if_neg Bool.false_ne_true]
      rw [step, hk]
      simp only [hcp, Except.map]
    · rw [ObjectOp.sizesAfter, sizes, sizes, getElem?_map, hk, map_append]
      rfl

end

theorem throughout_append (p : List Nat → ObjectOp → Prop) (sizes : List Nat)
    (ops : List ObjectOp) (op : ObjectOp) : ObjectOp.Throughout p sizes (ops ++ [op]) ↔
      ObjectOp.Throughout p sizes ops ∧ p (ops.foldl ObjectOp.sizesAfter sizes) op := by
  induction ops generalizing sizes with
  | nil =>
    exact and_comm
  | cons op' ops ih =>
    rw [cons_append, ObjectOp.Throughout, ih, ObjectOp.Throughout, and_assoc]
    rfl

theorem run_implements (h : Implement P m o) (ops : List ObjectOp)
    (hl : ObjectOp.Throughout ObjectOp.Legal o.sizes ops) : ∃ o', o.run ops = .ok o' ∧
      Implement (fun ρ => P ρ ∧ ObjectOp.Throughout (ObjectOp.InRange ρ) o.sizes ops)
        (fun ρ => (m ρ).run ρ ops) o' ∧ o'.sizes = ops.foldl ObjectOp.sizesAfter o.sizes := by
  induction ops generalizing P m o with
  | nil => exact ⟨o, rfl, h.mono fun _ => left, rfl⟩
  | cons op ops ih =>
    obtain ⟨e, o1, hs, hI, hz, _⟩ := step_implements h op hl.1
    obtain ⟨o2, hr, hI2, hs2⟩ := ih hI (hz ▸ hl.2)
    refine ⟨o2, ?_, hI2.mono fun ρ hρ => ?_, ?_⟩
    · rw [run, foldlM_cons, hs]
      exact hr
    · rw [hz]
      exact ⟨⟨hρ.1, hρ.2.1⟩, hρ.2.2⟩
    · rw [hs2, hz]
      rfl

theorem Implement.initial {m : List (Assignment → Nat → UInt8)} (h : Forall₂ Initial o.states m) :
    Implement (fun _ => True) (fun ρ => m.map fun f => f ρ) o := by
  have hl := h.length_eq
  refine ⟨fun ρ => ?_, fun {k os} hk => ?_⟩
  · rw [length_map, hl]
  obtain ⟨hlt, hos⟩ := List.getElem?_eq_some_iff.1 hk
  have hi := List.Forall₂.get h hlt (hl ▸ hlt)
  have ha : ∀ ρ, array (m.map fun f => f ρ) k = m[k] ρ := by
    intro ρ
    rw [array, getElem?_map, getElem?_eq_getElem (hl ▸ hlt)]
    rfl
  obtain ⟨hR, hs, hr⟩ := hi.represents fun _ => True
  simp only [ha]
  subst hos
  exact ⟨hR, hs, hr⟩

end

/-- Operations succeed, and a read returns the last written byte. -/
theorem step_reads_last_write {o : Objects} {m : List (Assignment → Nat → UInt8)}
    (hinit : Forall₂ Initial o.states m) (ops : List ObjectOp) (op : ObjectOp)
    (hl : ObjectOp.Throughout ObjectOp.Legal o.sizes (ops ++ [op])) :
    ∃ o1 e o2, o.run ops = .ok o1 ∧ o1.step op = .ok (e, o2) ∧
      (∀ os ∈ o2.states, os.CacheInvariants) ∧
      ∀ ρ, ObjectOp.Throughout (ObjectOp.InRange ρ) o.sizes ops →
        op.Answers ρ o1.sizes (ByteArrays.run ρ ops (m.map fun f => f ρ)) e := by
  obtain ⟨hl, hla⟩ := (throughout_append _ _ ops op).1 hl
  obtain ⟨o1, hr, hI, hz⟩ := run_implements (Implement.initial hinit) ops hl
  obtain ⟨e, o2, hs, hI2, _, ha⟩ := step_implements hI op (hz ▸ hla)
  refine ⟨o1, e, o2, hr, hs, fun os hos => ?_, fun ρ hρ => ha ρ ⟨trivial, hρ⟩⟩
  obtain ⟨k, hk⟩ := mem_iff_getElem?.1 hos
  exact (hI2.object hk).represents.valid.cacheInvariants

def sample : Objects :=
  ⟨[ofArray ⟨0, 0, 4, false, false, false⟩ ⟨0, 4, []⟩ fun _ => 0], fun _ => 0, 1⟩

def sampleOffset : Expr := .zext (.read ⟨1, 1, []⟩ .null (.constant 32 0)) 32

def sampleOps : List ObjectOp :=
  [.write8At 0 sampleOffset (.constant 8 7), .copy 0, .write8Expr 1 2 (.constant 8 9)]

theorem sample_legal : ObjectOp.Throughout ObjectOp.Legal sample.sizes
    (sampleOps ++ [.read8At 0 sampleOffset]) := by
  have ho : sampleOffset.WellTyped := by decide
  have hb : ∀ c, c < 2 ^ 8 → (Expr.constant 8 c).WellTyped := fun _ hc => hc
  exact ⟨⟨by decide, ho, rfl, hb 7 (by decide), rfl⟩, Nat.one_pos,
    ⟨⟨4, rfl, by decide⟩, hb 9 (by decide), rfl⟩, ⟨by decide, ho, rfl⟩, trivial⟩

theorem sample_reads_last_write : ∃ o1 e o2, sample.run sampleOps = .ok o1 ∧
      o1.step (.read8At 0 sampleOffset) = .ok (e, o2) ∧
      (∀ os ∈ o2.states, os.CacheInvariants) ∧
      ∀ ρ, ObjectOp.Throughout (ObjectOp.InRange ρ) sample.sizes sampleOps →
        (ObjectOp.read8At 0 sampleOffset).Answers ρ o1.sizes
          (ByteArrays.run ρ sampleOps [fun i => KArray.initialValue ⟨0, 4, []⟩ ρ i]) e := by
  apply step_reads_last_write (m := [fun ρ => KArray.initialValue ⟨0, 4, []⟩ ρ]) _ sampleOps _
    sample_legal
  exact .cons (.array _ _ _ (by decide) rfl rfl fun h => absurd rfl h) .nil

end Objects
end Chef
