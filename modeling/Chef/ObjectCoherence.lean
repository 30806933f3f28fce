import Chef.ObjectContents
import Chef.Foundations.Loops

namespace Chef
open Foundations List Option
theorem UpdateList.valueAt_extend (updates : UpdateList) :
    UpdateList.valueAt ⟨updates.root, .node index value updates.head⟩ ρ size i =
      if index.eval ρ = i then UInt8.ofNat (value.eval ρ) else updates.valueAt ρ size i := by
  rfl

namespace ObjectState
/-- A byte that is flushed has its value in the updates. -/
structure Coherent (os : ObjectState) (ρ : Assignment) : Prop where
  flushed : i < os.size → os.isByteFlushed i = true →
    os.updates.valueAt ρ os.size i = os.contents ρ i
  updates_defined : os.updates.head.Defined ρ
  known_defined : os.knownSymbolic i = some e → e.Defined ρ

/-- The object state stands for an array of bytes. -/
structure Represents (P : Assignment → Prop) (m : Assignment → Nat → UInt8) (os : ObjectState) :
    Prop where
  valid : os.Valid
  coherent : P ρ → os.Coherent ρ
  contents : P ρ → i < os.size → os.contents ρ i = m ρ i

def byteExpr (os : ObjectState) (i : Nat) : Option Expr :=
  if os.isByteConcrete i then some (.constant 8 (os.concreteStore i).toNat) else os.knownSymbolic i

variable {os : ObjectState}
theorem eval_byte (x : UInt8) (ρ : Assignment) : (Expr.constant 8 x.toNat).eval ρ = x.toNat := by
  exact Nat.mod_eq_of_lt (UInt8.toNat_lt x)

theorem byteExpr_typed (hv : os.Valid) (he : os.byteExpr i = some e) :
    e.WellTyped ∧ e.width = 8 := by
  rw [byteExpr] at he
  split at he
  · cases he
    exact ⟨UInt8.toNat_lt _, rfl⟩
  · exact hv.known_typed he

theorem byteExpr_eval (he : os.byteExpr i = some e) (ρ : Assignment) :
    UInt8.ofNat (e.eval ρ) = os.contents ρ i := by
  rw [byteExpr] at he
  rw [contents]
  split at he
  next hc =>
    cases he
    rw [if_pos hc, eval_byte, UInt8.ofNat_toNat]
  next hc => rw [if_neg hc, he]

theorem byteExpr_defined (hc : os.Coherent ρ) (he : os.byteExpr i = some e) : e.Defined ρ := by
  rw [byteExpr] at he
  split at he
  · cases he
    exact trivial
  · exact hc.known_defined he

theorem byteExpr_isSome (hv : os.Valid) (hi : i < os.size) (hf : os.isByteFlushed i = false) :
    ∃ e, os.byteExpr i = some e := by
  rw [byteExpr]
  obtain hc | hk := hv.cached hi hf
  · exact ⟨_, if_pos hc⟩
  split
  · exact ⟨_, rfl⟩
  · exact isSome_iff_exists.1 hk

theorem contents_of_byteExpr_none (h : os.byteExpr i = none) :
    os.contents ρ i = os.updates.valueAt ρ os.size i := by
  rw [byteExpr] at h
  split at h
  · cases h
  next hc => rw [contents, if_neg hc, h]

def push (os : ObjectState) (i : Nat) (e : Expr) : ObjectState :=
  { os with updates := ⟨os.updates.root, .node (.constant 32 i) e os.updates.head⟩ }

theorem flushByteForRead_eq (hf : os.isByteFlushed i = false) (he : os.byteExpr i = some e)
    (hw : e.width = 8) : os.flushByteForRead i = .ok ((os.push i e).unsetFlushMask i) := by
  have hf' : ¬os.isByteFlushed i = true := by simp [hf]
  have hx : os.extend (.constant 32 i) e = .ok (os.push i e) := if_pos hw
  rw [flushByteForRead, if_neg hf']
  rw [byteExpr] at he
  split at he
  next hc =>
    cases he
    rw [if_pos hc, hx]
    rfl
  next hc =>
    rw [if_neg hc, he]
    simp only [hx]
    rfl

theorem valueAt_push (hi : i < 2 ^ 32) : (os.push i e).updates.valueAt ρ n j =
    if j = i then UInt8.ofNat (e.eval ρ) else os.updates.valueAt ρ n j := by
  rw [push, UpdateList.valueAt_extend, Expr.eval, Nat.mod_eq_of_lt hi]
  simp only [eq_comm]

theorem contents_congr {os' : ObjectState} (hc : os'.isByteConcrete i = os.isByteConcrete i) (hs :
    os'.concreteStore i = os.concreteStore i) (hk : os'.knownSymbolic i = os.knownSymbolic i) (hu :
    os.byteExpr i = none → os'.updates.valueAt ρ os'.size i = os.updates.valueAt ρ os.size i) :
    os'.contents ρ i = os.contents ρ i := by
  rw [contents, contents, hc, hs, hk]
  split
  · rfl
  next hn =>
    cases hk' : os.knownSymbolic i with
    | some e => rfl
    | none => exact hu (by rw [byteExpr, if_neg hn, hk'])

theorem contents_push (hi : i < 2 ^ 32) (he : os.byteExpr i = some e) :
    (os.push i e).contents ρ j = os.contents ρ j := by
  apply contents_congr
  · rfl
  · rfl
  · rfl
  · intro hno
    have hji : j ≠ i := by
      intro h
      rw [h, he] at hno
      cases hno
    exact (valueAt_push hi).trans (if_neg hji)

theorem Valid.push (hv : os.Valid) (hi : i < os.size) (he : os.byteExpr i = some e) :
    (os.push i e).Valid where
  size_eq := hv.size_eq
  size_lt := hv.size_lt
  cached := hv.cached
  known_typed := hv.known_typed
  known_symbolic := hv.known_symbolic
  updates_typed := by
    obtain ⟨ht, hw⟩ := byteExpr_typed hv he
    exact ⟨Nat.lt_trans hi hv.size_lt, rfl, ht, hw, hv.updates_typed⟩
  root_size := hv.root_size

variable {os' : ObjectState}
structure ReadFlushed (os : ObjectState) (done : List Nat) (os' : ObjectState) : Prop where
  same : os' = { os with updates := os'.updates, flushMask := os'.flushMask }
  valid : os'.Valid
  mask : os'.flushMask.isSome
  reached : i ∈ done → os'.isByteFlushed i = true
  contents : i < os.size → os'.contents ρ i = os.contents ρ i
  coherent : os.Coherent ρ → os'.Coherent ρ

theorem ReadFlushed.init (hv : os.Valid) : ReadFlushed os [] os.withFlushMask where
  same := rfl
  valid := ⟨hv.size_eq, hv.size_lt, fun hi hf => hv.cached hi (by simpa using hf), hv.known_typed,
    hv.known_symbolic, hv.updates_typed, hv.root_size⟩
  mask := rfl
  reached h := by cases h
  contents _ := rfl
  coherent hc := ⟨fun hi hf => hc.flushed hi (by simpa using hf), hc.updates_defined,
    hc.known_defined⟩

theorem Coherent.push (hc : os.Coherent ρ) (hi : i < 2 ^ 32) (hm : os.flushMask.isSome)
    (he : os.byteExpr i = some e) : ((os.push i e).unsetFlushMask i).Coherent ρ where
  flushed {j} hj hf := by
    have hv : ((os.push i e).unsetFlushMask i).updates.valueAt ρ os.size j =
        if j = i then UInt8.ofNat (e.eval ρ) else os.updates.valueAt ρ os.size j := valueAt_push hi
    have hn : ((os.push i e).unsetFlushMask i).contents ρ j = os.contents ρ j := contents_push hi he
    refine hv.trans ?_
    rw [hn]
    split
    next hji =>
      rw [hji]
      exact byteExpr_eval he ρ
    next hji =>
      rw [isByteFlushed_unsetFlushMask (os.push i e) i j hm, if_neg hji] at hf
      exact hc.flushed hj hf
  updates_defined := ⟨trivial, byteExpr_defined hc he, hc.updates_defined⟩
  known_defined := hc.known_defined

theorem ReadFlushed.step (h : ReadFlushed os done os') (hi : i < os.size) :
    ∃ os'', os'.flushByteForRead i = .ok os'' ∧ ReadFlushed os (done ++ [i]) os'' := by
  have hs : os'.size = os.size := by rw [h.same]
  have hi' : i < os'.size := hs ▸ hi
  have hlt : i < 2 ^ 32 := Nat.lt_trans hi' h.valid.size_lt
  cases hf : os'.isByteFlushed i with
  | true =>
    refine ⟨os', by rw [flushByteForRead, if_pos hf], h.same, h.valid, h.mask, ?_, h.contents,
      h.coherent⟩
    intro j hj
    obtain hj | hj := mem_append.1 hj
    · exact h.reached hj
    · rw [mem_singleton.1 hj]
      exact hf
  | false =>
    obtain ⟨e, he⟩ := byteExpr_isSome h.valid hi' hf
    obtain ⟨_, hw⟩ := byteExpr_typed h.valid he
    have hvd := h.valid.push hi' he
    have hfl : ∀ j, ((os'.push i e).unsetFlushMask i).isByteFlushed j =
        if j = i then true else os'.isByteFlushed j := fun j =>
      isByteFlushed_unsetFlushMask (os'.push i e) i j h.mask
    refine ⟨_, flushByteForRead_eq hf he hw, ?_, ?_, (isSome_map ..).trans h.mask, ?_, ?_, ?_⟩
    · have hm := h.same
      rw [hm]
      rfl
    · refine ⟨hvd.size_eq, hvd.size_lt, fun {j} hj hfj => ?_, hvd.known_typed,
        hvd.known_symbolic, hvd.updates_typed, hvd.root_size⟩
      rw [hfl] at hfj
      split at hfj
      · cases hfj
      · exact hvd.cached hj hfj
    · intro j hj
      rw [hfl]
      obtain hj | hj := mem_append.1 hj
      · rw [h.reached hj, ite_self]
      · exact if_pos (mem_singleton.1 hj)
    · intro j ρ hj
      have hn : ((os'.push i e).unsetFlushMask i).contents ρ j = os'.contents ρ j :=
        contents_push hlt he
      exact hn.trans (h.contents hj)
    · intro ρ hc
      exact (h.coherent hc).push hlt h.mask he

theorem flushRangeForRead_spec (hv : os.Valid) : ∃ os',
    os.flushRangeForRead 0 os.size = .ok os' ∧ ReadFlushed os (range os.size) os' := by
  rw [flushRangeForRead, ← range_eq_range']
  apply foldlM_range_total (ReadFlushed os) (.init hv)
  intro done i x hi _ hx
  exact hx.step hi

structure WriteFlushStep (os : ObjectState) (i : Nat) (os' : ObjectState) : Prop where
  same : os' = { os with
    concreteMask := os'.concreteMask
    flushMask := os'.flushMask
    knownSymbolics := os'.knownSymbolics
    updates := os'.updates }
  mask : os'.flushMask.isSome
  concrete : os'.isByteConcrete j = if j = i then false else os.isByteConcrete j
  known : os'.knownSymbolic j = if j = i then none else os.knownSymbolic j
  flushed : os'.isByteFlushed j = if j = i then true else os.isByteFlushed j
  updates : os.isByteFlushed i = true ∧ os'.updates = os.updates ∨
    ∃ e, os.byteExpr i = some e ∧ os'.updates = (os.push i e).updates

theorem flushByteForWrite_step (hv : os.Valid) (hm : os.flushMask.isSome) (hi : i < os.size) :
    ∃ os', os.flushByteForWrite i = .ok os' ∧ WriteFlushStep os i os' := by
  have hkn : os.isByteConcrete i = true → ∀ j, os.knownSymbolic j =
      if j = i then none else os.knownSymbolic j := by
    intro hc j
    split
    next hj =>
      rw [hj]
      cases hk : os.knownSymbolic i with
      | none => rfl
      | some e =>
        rw [hv.known_symbolic hk] at hc
        cases hc
    · rfl
  have hn : ¬os.isByteConcrete i = true → ∀ j, os.isByteConcrete j =
      if j = i then false else os.isByteConcrete j := by
    intro hc j
    split
    next hj =>
      rw [hj]
      exact Bool.eq_false_iff.2 hc
    · rfl
  rw [flushByteForWrite]
  cases hf : os.isByteFlushed i with
  | true =>
    have hfl : ∀ j, os.isByteFlushed j = if j = i then true else os.isByteFlushed j := by
      intro j
      split
      next hj => rw [hj, hf]
      · rfl
    rw [if_pos rfl]
    split
    next hc =>
      exact ⟨_, rfl, rfl, hm, isByteConcrete_markByteSymbolic os i _, hkn hc _, hfl _,
        .inl ⟨hf, rfl⟩⟩
    next hc =>
      split
      · exact ⟨_, rfl, rfl, hm, hn hc _, knownSymbolic_setKnownSymbolic os i _ none,
          hfl _, .inl ⟨hf, rfl⟩⟩
      next hk =>
        refine ⟨_, rfl, rfl, hm, hn hc _, ?_, hfl _, .inl ⟨hf, rfl⟩⟩
        intro j
        split
        next hj =>
          rw [hj]
          exact not_isSome_iff_eq_none.1 hk
        · rfl
  | false =>
    obtain ⟨e, he⟩ := byteExpr_isSome hv hi hf
    obtain ⟨_, hw⟩ := byteExpr_typed hv he
    have hx : os.extend (.constant 32 i) e = .ok (os.push i e) := if_pos hw
    rw [if_neg (by simp)]
    have he' := he
    rw [byteExpr] at he'
    split at he'
    next hc =>
      cases he'
      rw [if_pos hc, hx]
      refine ⟨_, rfl, rfl, (isSome_map ..).trans hm, ?_, hkn hc _, ?_, .inr ⟨_, he, rfl⟩⟩
      · exact fun {j} => isByteConcrete_markByteSymbolic (os.push i _) i j
      · exact fun {j} => isByteFlushed_unsetFlushMask ((os.push i _).markByteSymbolic i) i j hm
    next hc =>
      rw [if_neg hc, he']
      simp only [hx]
      refine ⟨_, rfl, rfl, (isSome_map ..).trans hm, hn hc _, ?_, ?_, .inr ⟨_, he, rfl⟩⟩
      · exact fun {j} => knownSymbolic_setKnownSymbolic (os.push i e) i j none
      · exact fun {j} => isByteFlushed_unsetFlushMask ((os.push i e).setKnownSymbolic i none) i j hm

section
variable (h : WriteFlushStep os i os')
include h
theorem WriteFlushStep.size : os'.size = os.size := by rw [h.same]

theorem WriteFlushStep.byteExpr : os'.byteExpr j = if j = i then none else os.byteExpr j := by
  have hs : os'.concreteStore = os.concreteStore := by rw [h.same]
  rw [ObjectState.byteExpr, h.concrete, h.known, hs]
  split <;> rfl

theorem WriteFlushStep.valueAt (hi : i < 2 ^ 32) (hj : j ≠ i) :
    os'.updates.valueAt ρ n j = os.updates.valueAt ρ n j := by
  obtain ⟨_, hu⟩ | ⟨e, he, hu⟩ := h.updates
  · rw [hu]
  · rw [hu, valueAt_push hi, if_neg hj]

theorem WriteFlushStep.contents (hc : os.Coherent ρ)
    (hi : i < os.size) (hlt : i < 2 ^ 32) : os'.contents ρ j = os.contents ρ j := by
  by_cases hj : j = i
  · subst hj
    rw [contents_of_byteExpr_none (h.byteExpr.trans (if_pos rfl)), h.size]
    obtain ⟨hf, hu⟩ | ⟨e, he, hu⟩ := h.updates
    · rw [hu]
      exact hc.flushed hi hf
    · rw [hu, valueAt_push hlt, if_pos rfl]
      exact byteExpr_eval he ρ
  · apply contents_congr
    · rw [h.concrete, if_neg hj]
    · rw [h.same]
    · rw [h.known, if_neg hj]
    · intro _
      rw [h.size]
      exact h.valueAt hlt hj

theorem WriteFlushStep.valid (hv : os.Valid) (hi : i < os.size) : os'.Valid := by
  constructor
  · rw [h.same]
    exact hv.size_eq
  · rw [h.size]
    exact hv.size_lt
  · intro j hj hf
    rw [h.flushed] at hf
    rw [h.concrete, h.known]
    split at hf
    · cases hf
    next hji =>
      rw [if_neg hji, if_neg hji]
      exact hv.cached (h.size ▸ hj) hf
  · intro j e hk
    rw [h.known] at hk
    split at hk
    · cases hk
    · exact hv.known_typed hk
  · intro j e hk
    rw [h.known] at hk
    rw [h.concrete]
    split at hk
    · cases hk
    next hji =>
      rw [if_neg hji]
      exact hv.known_symbolic hk
  · obtain ⟨_, hu⟩ | ⟨e, he, hu⟩ := h.updates
    · rw [hu]
      exact hv.updates_typed
    · rw [hu]
      exact (hv.push hi he).updates_typed
  · have hr : os'.updates.root = os.updates.root := by
      obtain ⟨_, hu⟩ | ⟨e, he, hu⟩ := h.updates
      · rw [hu]
      · rw [hu]
        rfl
    intro array
    rw [hr, h.size]
    exact hv.root_size

theorem WriteFlushStep.coherent (hc : os.Coherent ρ)
    (hi : i < os.size) (hlt : i < 2 ^ 32) : os'.Coherent ρ := by
  constructor
  · intro j hj hf
    rw [h.contents hc hi hlt]
    by_cases hji : j = i
    · rw [hji, ← h.contents hc hi hlt, contents_of_byteExpr_none (h.byteExpr.trans (if_pos rfl))]
    rw [h.flushed, if_neg hji] at hf
    rw [h.valueAt hlt hji, h.size]
    exact hc.flushed (h.size ▸ hj) hf
  · obtain ⟨_, hu⟩ | ⟨e, he, hu⟩ := h.updates
    · rw [hu]
      exact hc.updates_defined
    · rw [hu]
      exact ⟨trivial, byteExpr_defined hc he, hc.updates_defined⟩
  · intro j e hk
    rw [h.known] at hk
    split at hk
    · cases hk
    · exact hc.known_defined hk

end

structure WriteFlushed (os : ObjectState) (done : List Nat) (os' : ObjectState) : Prop where
  same : os' = { os with
    concreteMask := os'.concreteMask
    flushMask := os'.flushMask
    knownSymbolics := os'.knownSymbolics
    updates := os'.updates }
  valid : os'.Valid
  mask : os'.flushMask.isSome
  reached : i ∈ done → os'.isByteFlushed i = true ∧ os'.byteExpr i = none
  contents : os.Coherent ρ → i < os.size → os'.contents ρ i = os.contents ρ i
  coherent : os.Coherent ρ → os'.Coherent ρ

theorem WriteFlushed.init (hv : os.Valid) : WriteFlushed os [] os.withFlushMask := by
  have h := ReadFlushed.init hv
  exact ⟨rfl, h.valid, rfl, fun hi => (by cases hi), fun _ hi => h.contents hi, h.coherent⟩

theorem WriteFlushed.step (h : WriteFlushed os done os') (hi : i < os.size) :
    ∃ os'', os'.flushByteForWrite i = .ok os'' ∧ WriteFlushed os (done ++ [i]) os'' := by
  have hz : os'.size = os.size := by rw [h.same]
  have hi' : i < os'.size := hz ▸ hi
  have hlt : i < 2 ^ 32 := Nat.lt_trans hi' h.valid.size_lt
  obtain ⟨os'', hok, hs⟩ := flushByteForWrite_step h.valid h.mask hi'
  refine ⟨os'', hok, ?_, hs.valid h.valid hi', hs.mask, ?_, ?_, ?_⟩
  · have hm := hs.same
    rw [h.same] at hm
    exact hm
  · intro j hj
    rw [hs.flushed, hs.byteExpr]
    split
    · exact ⟨rfl, rfl⟩
    next hji =>
      obtain hj | hj := mem_append.1 hj
      · exact h.reached hj
      · exact absurd (mem_singleton.1 hj) hji
  · intro ρ j hc hj
    rw [hs.contents (h.coherent hc) hi' hlt]
    exact h.contents hc hj
  · intro ρ hc
    exact hs.coherent (h.coherent hc) hi' hlt

theorem flushRangeForWrite_spec (hv : os.Valid) : ∃ os',
    os.flushRangeForWrite 0 os.size = .ok os' ∧ WriteFlushed os (range os.size) os' := by
  rw [flushRangeForWrite, ← range_eq_range']
  apply foldlM_range_total (WriteFlushed os) (.init hv)
  intro done i x hi _ hx
  exact hx.step hi

end ObjectState
end Chef
