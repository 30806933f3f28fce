import Chef.ObjectState

namespace Chef
open Foundations Option UpdateNode Chef.Expr UInt8 KArray
open List hiding head
@[simp] theorem setAt_self (f : Nat → α) (i : Nat) (x : α) : setAt f i x i = x := if_pos rfl

theorem setAt_apply (f : Nat → α) (i : Nat) (x : α) (j : Nat) :
    setAt f i x j = if j = i then x else f j := rfl

/-- Updates without an array stand for updates of zeros. -/
def UpdateList.valueAt (updates : UpdateList) (ρ : Assignment) (size i : Nat) : UInt8 :=
  updates.head.valueAt ρ (updates.root.getD ⟨0, size, List.replicate size 0⟩) i

namespace ObjectState
/-- The store, the cache and the updates are asked in this order. -/
def contents (os : ObjectState) (ρ : Assignment) (i : Nat) : UInt8 :=
  if os.isByteConcrete i then os.concreteStore i
  else
    match os.knownSymbolic i with
    | some e => ofNat (e.eval ρ)
    | none => os.updates.valueAt ρ os.size i

structure Valid (os : ObjectState) : Prop where
  size_eq : os.size = os.object.size
  size_lt : os.size < 2 ^ 32
  cached : i < os.size → os.isByteFlushed i = false →
    os.isByteConcrete i = true ∨ (os.knownSymbolic i).isSome
  known_typed : os.knownSymbolic i = some e → e.WellTyped ∧ e.width = 8
  known_symbolic : os.knownSymbolic i = some e → os.isByteConcrete i = false
  updates_typed : os.updates.head.WellTyped
  root_size : os.updates.root = some array →
    array.size = os.size ∧ (array.constantValues ≠ [] → array.constantValues.length = os.size)

section
variable (os : ObjectState) (i j : Nat)
@[simp] theorem isByteConcrete_markByteConcrete : (os.markByteConcrete i).isByteConcrete j =
    if j = i then true else os.isByteConcrete j := by
  cases h : os.concreteMask with
  | none => simp [isByteConcrete, markByteConcrete, h]
  | some mask => simp [isByteConcrete, markByteConcrete, h, setAt]

@[simp] theorem isByteConcrete_markByteSymbolic : (os.markByteSymbolic i).isByteConcrete j =
    if j = i then false else os.isByteConcrete j := by
  cases h : os.concreteMask with
  | none | some mask => simp [isByteConcrete, markByteSymbolic, h, setAt]

@[simp] theorem isByteFlushed_markByteUnflushed : (os.markByteUnflushed i).isByteFlushed j =
    if j = i then false else os.isByteFlushed j := by
  cases h : os.flushMask with
  | none => simp [isByteFlushed, markByteUnflushed, h]
  | some mask =>
    simp only [isByteFlushed, markByteUnflushed, h, map_some, setAt_apply]
    split <;> rfl

theorem isByteFlushed_unsetFlushMask (h : os.flushMask.isSome) :
    (os.unsetFlushMask i).isByteFlushed j = if j = i then true else os.isByteFlushed j := by
  obtain ⟨mask, hm⟩ := isSome_iff_exists.1 h
  simp only [isByteFlushed, unsetFlushMask, hm, map_some, setAt_apply]
  split <;> rfl

@[simp] theorem isByteFlushed_withFlushMask :
    os.withFlushMask.isByteFlushed j = os.isByteFlushed j := by
  cases h : os.flushMask with
  | none | some mask => simp [isByteFlushed, withFlushMask, h]

@[simp] theorem knownSymbolic_setKnownSymbolic (value : Option Expr) :
    (os.setKnownSymbolic i value).knownSymbolic j =
      if j = i then value else os.knownSymbolic j := by
  cases h : os.knownSymbolics with
  | none =>
    cases value with
    | none => simp [knownSymbolic, setKnownSymbolic, h]
    | some e => simp [knownSymbolic, setKnownSymbolic, h, setAt]
  | some known => simp [knownSymbolic, setKnownSymbolic, h, setAt]

end

variable {os : ObjectState}
theorem flushed_storeConcrete : (os.storeConcrete i value).isByteFlushed j =
    if j = i then false else os.isByteFlushed j := by
  rw [storeConcrete, isByteFlushed_markByteUnflushed]
  rfl

theorem concrete_storeConcrete : (os.storeConcrete i value).isByteConcrete j =
    if j = i then true else os.isByteConcrete j :=
  (isByteConcrete_markByteConcrete _ i j).trans rfl

theorem known_storeConcrete : (os.storeConcrete i value).knownSymbolic j =
    if j = i then none else os.knownSymbolic j :=
  (knownSymbolic_setKnownSymbolic _ i j none).trans rfl

theorem flushed_storeSymbolic : (os.storeSymbolic i value).isByteFlushed j =
    if j = i then false else os.isByteFlushed j := by
  rw [storeSymbolic, isByteFlushed_markByteUnflushed]
  rfl

theorem concrete_storeSymbolic : (os.storeSymbolic i value).isByteConcrete j =
    if j = i then false else os.isByteConcrete j :=
  (isByteConcrete_markByteSymbolic _ i j).trans rfl

theorem known_storeSymbolic : (os.storeSymbolic i value).knownSymbolic j =
    if j = i then some value else os.knownSymbolic j :=
  (knownSymbolic_setKnownSymbolic _ i j (some value)).trans rfl

theorem contents_storeConcrete : (os.storeConcrete i value).contents ρ j =
    if j = i then value else os.contents ρ j := by
  rw [contents, concrete_storeConcrete, known_storeConcrete]
  by_cases hj : j = i
  · subst hj
    simp only [if_true]
    exact setAt_self _ _ _
  · have hs : (os.storeConcrete i value).concreteStore j = os.concreteStore j := if_neg hj
    simp only [if_neg hj, hs]
    rfl

theorem contents_storeSymbolic : (os.storeSymbolic i value).contents ρ j =
    if j = i then ofNat (value.eval ρ) else os.contents ρ j := by
  rw [contents, concrete_storeSymbolic, known_storeSymbolic]
  by_cases hj : j = i
  · subst hj
    simp
  · simp only [if_neg hj]
    rfl

theorem Valid.storeConcrete (hv : os.Valid) : (os.storeConcrete i value).Valid where
  size_eq := hv.size_eq
  size_lt := hv.size_lt
  cached {j} hj hf := by
    rw [flushed_storeConcrete] at hf
    rw [concrete_storeConcrete, known_storeConcrete]
    by_cases he : j = i
    · exact .inl (if_pos he)
    rw [if_neg he] at hf ⊢
    rw [if_neg he]
    exact hv.cached hj hf
  known_typed {j e} hk := by
    rw [known_storeConcrete] at hk
    split at hk
    · cases hk
    · exact hv.known_typed hk
  known_symbolic {j e} hk := by
    rw [known_storeConcrete] at hk
    rw [concrete_storeConcrete]
    split at hk
    · cases hk
    next he =>
      rw [if_neg he]
      exact hv.known_symbolic hk
  updates_typed := hv.updates_typed
  root_size := hv.root_size

theorem Valid.storeSymbolic (hv : os.Valid) (ht : value.WellTyped) (hw : value.width = 8) :
    (os.storeSymbolic i value).Valid where
  size_eq := hv.size_eq
  size_lt := hv.size_lt
  cached {j} hj hf := by
    rw [flushed_storeSymbolic] at hf
    rw [concrete_storeSymbolic, known_storeSymbolic]
    by_cases he : j = i
    · exact .inr (by rw [if_pos he]; rfl)
    rw [if_neg he] at hf ⊢
    rw [if_neg he]
    exact hv.cached hj hf
  known_typed {j e} hk := by
    rw [known_storeSymbolic] at hk
    split at hk
    · cases hk
      exact ⟨ht, hw⟩
    · exact hv.known_typed hk
  known_symbolic {j e} hk := by
    rw [known_storeSymbolic] at hk
    rw [concrete_storeSymbolic]
    split at hk
    next he => exact if_pos he
    next he =>
      rw [if_neg he]
      exact hv.known_symbolic hk
  updates_typed := hv.updates_typed
  root_size := hv.root_size

end ObjectState

namespace UpdateNode
def overwrite (ρ : Assignment) (i : Nat) (x : UInt8) (w : Expr × Expr) : UInt8 :=
  if w.1.eval ρ = i then ofNat (w.2.eval ρ) else x

def WriteTyped (w : Expr × Expr) : Prop :=
  w.1.WellTyped ∧ w.1.width = 32 ∧ w.2.WellTyped ∧ w.2.width = 8

theorem valueAt_writes (ρ : Assignment) (root : KArray) (i : Nat) : (head : UpdateNode) →
    head.valueAt ρ root i = head.writes.foldl (overwrite ρ i) (root.initialValue ρ i)
  | .null => rfl
  | .node index value next => by
    rw [valueAt, writes, foldl_append, ← valueAt_writes ρ root i next]
    rfl

theorem wellTyped_iff : (head : UpdateNode) → (head.WellTyped ↔ ∀ w ∈ head.writes, WriteTyped w)
  | .null => by simp [WellTyped, writes]
  | .node index value next => by
    rw [WellTyped, writes, wellTyped_iff next]
    simp only [mem_append, mem_singleton]
    constructor
    · intro h w hw
      obtain hw | rfl := hw
      · exact h.2.2.2.2 w hw
      · exact ⟨h.1, h.2.1, h.2.2.1, h.2.2.2.1⟩
    · intro h
      obtain ⟨hi, hi', hv, hv'⟩ := h (index, value) (.inr rfl)
      exact ⟨hi, hi', hv, hv', fun w hw => h w (.inl hw)⟩

theorem defined_iff (ρ : Assignment) : (head : UpdateNode) →
    (head.Defined ρ ↔ ∀ w ∈ head.writes, w.1.Defined ρ ∧ w.2.Defined ρ)
  | .null => by simp [Defined, writes]
  | .node index value next => by
    rw [Defined, writes, defined_iff ρ next]
    simp only [mem_append, mem_singleton]
    constructor
    · intro h w hw
      obtain hw | rfl := hw
      · exact h.2.2 w hw
      · exact ⟨h.1, h.2.1⟩
    · intro h
      obtain ⟨hi, hv⟩ := h (index, value) (.inr rfl)
      exact ⟨hi, hv, fun w hw => h w (.inl hw)⟩

theorem writes_extendAll : (extendAll head ws).writes = head.writes ++ ws := by
  induction ws generalizing head with
  | nil => exact (append_nil _).symm
  | cons w ws ih =>
    change (extendAll (.node w.1 w.2 head) ws).writes = _
    rw [ih, writes, append_assoc]
    rfl

end UpdateNode

theorem pullConstantWrites_length :
    (pullConstantWrites ws contents).1.length = contents.length := by
  fun_induction pullConstantWrites ws contents with
  | case1 w i w' v writes contents ih => rw [ih, length_set]
  | case2 writes contents h => rfl

theorem pullConstantWrites_suffix : (pullConstantWrites ws contents).2 <:+ ws := by
  fun_induction pullConstantWrites ws contents with
  | case1 w i w' v writes contents ih => exact ih.trans (suffix_cons _ _)
  | case2 writes contents h => exact suffix_rfl

theorem pullConstantWrites_value (ws : List (Expr × Expr)) (contents : List UInt8)
    (ρ : Assignment) (hj : j < contents.length) :
    (pullConstantWrites ws contents).2.foldl (overwrite ρ j)
        ((pullConstantWrites ws contents).1.getD j 0) =
      ws.foldl (overwrite ρ j) (contents.getD j 0) := by
  fun_induction pullConstantWrites ws contents with
  | case1 w i w' v writes contents ih =>
    have hwr : (contents.set (i % 2 ^ w) (ofNat (v % 2 ^ w'))).getD j 0 =
        overwrite ρ j (contents.getD j 0) (.constant w i, .constant w' v) := by
      rw [overwrite, eval, eval, getD_eq_getElem?_getD, List.getElem?_set, getD_eq_getElem?_getD]
      by_cases he : i % 2 ^ w = j
      · simp [he, hj]
      · simp [he]
    rw [ih (by rw [length_set]; exact hj), hwr]
    rfl
  | case2 writes contents h => rfl

namespace ObjectState
structure UpdatesAgree (os : ObjectState) (updates : UpdateList) : Prop where
  typed : updates.head.WellTyped
  root_size : updates.root = some array →
    array.size = os.size ∧ (array.constantValues ≠ [] → array.constantValues.length = os.size)
  value : i < os.size → updates.valueAt ρ os.size i = os.updates.valueAt ρ os.size i
  defined : os.updates.head.Defined ρ → updates.head.Defined ρ

theorem Valid.agree (hv : os.Valid) : UpdatesAgree os os.updates :=
  ⟨hv.updates_typed, hv.root_size, fun _ => rfl, fun h => h⟩

variable (ha : UpdatesAgree os ul)
include ha
theorem UpdatesAgree.valid (hv : os.Valid) : Valid { os with updates := ul } :=
  ⟨hv.size_eq, hv.size_lt, hv.cached, hv.known_typed, hv.known_symbolic, ha.typed, ha.root_size⟩

theorem UpdatesAgree.contents (hi : i < os.size) :
    ObjectState.contents { os with updates := ul } ρ i = os.contents ρ i := by
  have hv := ha.value (ρ := ρ) hi
  rw [ObjectState.contents, ObjectState.contents]
  have hc : isByteConcrete { os with updates := ul } i = os.isByteConcrete i := rfl
  have hkn : knownSymbolic { os with updates := ul } i = os.knownSymbolic i := rfl
  rw [hc, hkn, hv]

theorem UpdatesAgree.trans (ha' : UpdatesAgree { os with updates := ul } ul') :
    UpdatesAgree os ul' where
  typed := ha'.typed
  root_size := ha'.root_size
  value hi := (ha'.value hi).trans (ha.value hi)
  defined hd := ha'.defined (ha.defined hd)

end ObjectState

namespace ObjectView
open ObjectState
def byteAt (v : ObjectView) (ρ : Assignment) (i : Nat) : UInt8 :=
  if v.isShared then v.host (v.state.object.address + i) else v.state.contents ρ i

def withUpdates (v : ObjectView) (updates : UpdateList) (nextArray : Nat) : ObjectView :=
  { v with state := { v.state with updates := updates }, nextArray := nextArray }

variable {v : ObjectView}
theorem getUpdates_spec (hv : v.state.Valid) : ∃ array head n,
    v.getUpdates = ((array, head), v.withUpdates ⟨some array, head⟩ n) ∧
      UpdatesAgree v.state ⟨some array, head⟩ := by
  rw [getUpdates]
  split
  next root hr =>
    have hs : (⟨some root, v.state.updates.head⟩ : UpdateList) = v.state.updates := by rw [← hr]
    refine ⟨root, v.state.updates.head, v.nextArray, ?_, hs ▸ hv.agree⟩
    rw [withUpdates, hs]
  next hr =>
    generalize hp : pullConstantWrites v.state.updates.head.writes
      (List.replicate v.state.size 0) = pulled
    have hl : pulled.1.length = v.state.size := by
      rw [← hp, pullConstantWrites_length, length_replicate]
    have hf : pulled.2 <:+ v.state.updates.head.writes := hp ▸ pullConstantWrites_suffix
    have hwr : (null.extendAll pulled.2).writes = pulled.2 := by
      rw [writes_extendAll, writes, nil_append]
    refine ⟨_, _, _, rfl, ?_, ?_, ?_, ?_⟩
    · rw [wellTyped_iff, hwr]
      intro w hw
      exact (wellTyped_iff _).1 hv.updates_typed w (hf.subset hw)
    · rintro array ⟨⟩
      exact ⟨rfl, fun _ => hl⟩
    · intro i ρ hi
      have ht : initialValue ⟨v.nextArray, v.state.size, pulled.1⟩ ρ i = pulled.1.getD i 0 := by
        cases hc : pulled.1 with
        | nil =>
          rw [hc] at hl
          exact absurd hi (by simp [← hl])
        | cons x xs => rfl
      have hz : initialValue ⟨0, v.state.size, List.replicate v.state.size 0⟩ ρ i =
          (List.replicate v.state.size (0 : UInt8)).getD i 0 := by
        cases hc : List.replicate v.state.size (0 : UInt8) with
        | nil =>
          have hn := congrArg List.length hc
          rw [length_replicate] at hn
          exact absurd hi (by simp [hn])
        | cons x xs => rfl
      have hval := pullConstantWrites_value v.state.updates.head.writes
        (List.replicate v.state.size 0) ρ (by rw [length_replicate]; exact hi)
      rw [hp] at hval
      rw [UpdateList.valueAt, UpdateList.valueAt, hr, valueAt_writes, valueAt_writes, hwr]
      simp only [getD_some, getD_none, ht, hz]
      exact hval
    · intro ρ hd
      rw [defined_iff, hwr]
      intro w hw
      exact (defined_iff ρ _).1 hd w (hf.subset hw)

/-- The constructor of reads keeps the value of reads in range. -/
structure ReadLawful (b : ExprBuilder) : Prop where
  wellTyped : (Expr.read root head index).WellTyped → (b.read root head index).WellTyped
  width_eq : (Expr.read root head index).WellTyped → (b.read root head index).width = 8
  eval_eq : (Expr.read root head index).WellTyped → (Expr.read root head index).Defined ρ →
    (b.read root head index).eval ρ = (Expr.read root head index).eval ρ
  defined : (Expr.read root head (.constant w i)).WellTyped →
    (Expr.read root head (.constant w i)).Defined ρ → (b.read root head (.constant w i)).Defined ρ

theorem read8_spec (L : ReadLawful b) (hv : v.state.Valid) (hi : i < v.state.size) :
    ∃ e updates n, v.read8 b i = .ok (e, v.withUpdates updates n) ∧
      e.WellTyped ∧ e.width = 8 ∧ UpdatesAgree v.state updates ∧
      ∀ ρ, v.state.updates.head.Defined ρ → e.eval ρ = (v.byteAt ρ i).toNat := by
  have hb : ∀ x : UInt8, (constant 8 x.toNat).WellTyped ∧
      ∀ ρ, (constant 8 x.toNat).eval ρ = x.toNat := by
    intro x
    refine ⟨toNat_lt x, fun ρ => ?_⟩
    exact Nat.mod_eq_of_lt (toNat_lt x)
  rw [read8]
  by_cases hs : v.isShared = true
  · rw [if_pos hs]
    obtain ⟨ht, he⟩ := hb (v.host (v.state.object.address + i))
    refine ⟨_, _, _, rfl, ht, rfl, hv.agree, fun ρ _ => ?_⟩
    rw [he, byteAt, if_pos hs]
  · rw [if_neg hs]
    have hn : ∀ ρ, v.byteAt ρ i = v.state.contents ρ i := by
      intro ρ
      rw [byteAt, if_neg hs]
    by_cases hc : v.state.isByteConcrete i = true
    · rw [if_pos hc]
      obtain ⟨ht, he⟩ := hb (v.state.concreteStore i)
      refine ⟨_, _, _, rfl, ht, rfl, hv.agree, fun ρ _ => ?_⟩
      rw [he, hn, contents, if_pos hc]
    · rw [if_neg hc]
      cases hk : v.state.knownSymbolic i with
      | some value =>
        obtain ⟨ht, hw⟩ := hv.known_typed hk
        refine ⟨_, _, _, rfl, ht, hw, hv.agree, fun ρ _ => ?_⟩
        have hlt := eval_lt ρ value ht
        rw [hw] at hlt
        rw [hn, contents, if_neg hc, hk]
        exact (toNat_ofNat_of_lt' hlt).symm
      | none =>
        have hfl : v.state.isByteFlushed i = true := by
          cases hf : v.state.isByteFlushed i with
          | true => rfl
          | false =>
            obtain h | h := hv.cached hi hf
            · exact absurd h hc
            · rw [hk] at h
              cases h
        obtain ⟨array, head, n, hu, ha⟩ := getUpdates_spec hv
        obtain ⟨hz, _⟩ := ha.root_size rfl
        have hlt : i < 2 ^ 32 := Nat.lt_trans hi hv.size_lt
        have hty : (Expr.read array head (.constant 32 i)).WellTyped := ⟨ha.typed, hlt, rfl⟩
        simp only [hfl, if_true, hu]
        have hm : i % 2 ^ 32 = i := Nat.mod_eq_of_lt hlt
        refine ⟨_, _, _, rfl, L.wellTyped hty, L.width_eq hty, ha, fun ρ hd => ?_⟩
        have hde : (Expr.read array head (.constant 32 i)).Defined ρ := by
          refine ⟨trivial, ha.defined hd, ?_⟩
          rw [Expr.eval, hm, hz]
          exact hi
        rw [L.eval_eq hty hde, eval, eval, hm, hn, contents, if_neg hc, hk]
        exact congrArg UInt8.toNat (ha.value hi)

def cached (v : ObjectView) (i : Nat) : Option Expr :=
  if v.isShared then some (.constant 8 (v.host (v.state.object.address + i)).toNat)
  else if v.state.isByteConcrete i then some (.constant 8 (v.state.concreteStore i).toNat)
  else v.state.knownSymbolic i

def settled (b : ExprBuilder) (v : ObjectView) (i : Nat) : Option Expr :=
  match v.cached i with
  | some e => some e
  | none =>
    if v.state.isByteFlushed i then
      v.state.updates.root.map fun root => b.read root v.state.updates.head (.constant 32 i)
    else none

theorem read8_eq : v.read8 b i = match v.cached i with
    | some e => .ok (e, v)
    | none =>
      if v.state.isByteFlushed i then
        .ok (b.read v.getUpdates.1.1 v.getUpdates.1.2 (.constant 32 i), v.getUpdates.2)
      else .error .unflushedByte := by
  rw [read8, cached]
  split
  · rfl
  split
  · rfl
  · cases v.state.knownSymbolic i <;> rfl

theorem getUpdates_rooted (h : v.state.updates.root = some root) :
    v.getUpdates = ((root, v.state.updates.head), v) := by rw [getUpdates, h]

theorem getUpdates_unrooted (h : v.state.updates.root = none) : v.getUpdates.2 =
    v.withUpdates ⟨some v.getUpdates.1.1, v.getUpdates.1.2⟩ (v.nextArray + 1) := by
  rw [getUpdates, h]
  rfl

theorem settled_read8 (h : v.settled b i = some e) : v.read8 b i = .ok (e, v) := by
  rw [settled] at h
  rw [read8_eq]
  cases hc : v.cached i with
  | some e' =>
    rw [hc] at h
    cases h
    rfl
  | none =>
    rw [hc] at h
    simp only at h ⊢
    split at h
    next hf =>
      obtain ⟨root, hr, rfl⟩ := map_eq_some_iff.1 h
      rw [if_pos hf, getUpdates_rooted hr]
    · cases h

theorem read8_cases (h : v.read8 b i = .ok (e, v')) : (v' = v ∧ v.settled b i = some e) ∨
      (v.cached i = none ∧ v.state.isByteFlushed i = true ∧ v.state.updates.root = none ∧
        v' = v.withUpdates ⟨some v.getUpdates.1.1, v.getUpdates.1.2⟩ (v.nextArray + 1) ∧
        e = b.read v.getUpdates.1.1 v.getUpdates.1.2 (.constant 32 i)) := by
  rw [settled]
  rw [read8_eq] at h
  cases hc : v.cached i with
  | some e' =>
    rw [hc] at h
    cases h
    exact .inl ⟨rfl, rfl⟩
  | none =>
    rw [hc] at h
    simp only at h ⊢
    split at h
    next hf =>
      cases hr : v.state.updates.root with
      | some root =>
        rw [getUpdates_rooted hr] at h
        cases h
        exact .inl ⟨rfl, by rw [if_pos hf]; rfl⟩
      | none =>
        obtain ⟨rfl, rfl⟩ := Prod.mk.inj (Except.ok.inj h)
        exact .inr ⟨trivial, hf, rfl, getUpdates_unrooted hr, rfl⟩
    · cases h

theorem read8_settled (h : v.read8 b i = .ok (e, v')) : v'.settled b i = some e := by
  obtain ⟨rfl, hs⟩ | ⟨hc, hf, _, rfl, rfl⟩ := read8_cases h
  · exact hs
  have hc' : (v.withUpdates ⟨some v.getUpdates.1.1, v.getUpdates.1.2⟩
      (v.nextArray + 1)).cached i = none := hc
  rw [settled, hc']
  exact if_pos hf

theorem settled_of_read8 (h : v.read8 b j = .ok (e', v')) (hi : v.settled b i = some e) :
    v'.settled b i = some e := by
  obtain ⟨rfl, _⟩ | ⟨_, _, hr, rfl, rfl⟩ := read8_cases h
  · exact hi
  rw [settled] at hi
  cases hc : v.cached i with
  | some e' =>
    rw [hc] at hi
    have hc' : (v.withUpdates ⟨some v.getUpdates.1.1, v.getUpdates.1.2⟩
        (v.nextArray + 1)).cached i = some e' := hc
    rw [settled, hc']
    exact hi
  | none =>
    rw [hc, hr] at hi
    simp at hi

end ObjectView
end Chef
