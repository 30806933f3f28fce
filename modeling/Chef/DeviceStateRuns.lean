import Chef.DeviceState

namespace Chef
open Foundations ObjectState AddressSpaces DiskEvent
open List hiding count
structure SectorWrite where
  device : Nat
  sector : Nat
  data : Sector

namespace SectorWrite
def last (h : List SectorWrite) (n : Nat) : Option SectorWrite := h.find? fun w => w.sector = n

def onDevice (h : List SectorWrite) (dev n : Nat) : Option Sector :=
  (h.find? fun w => w.device = dev ∧ w.sector = n).map data

theorem last_cons (w : SectorWrite) (h : List SectorWrite) (n : Nat) :
    last (w :: h) n = if n = w.sector then some w else last h n := by
  rw [last, List.find?_cons]
  by_cases hn : w.sector = n
  · simp [hn]
  · have hn' : ¬n = w.sector := fun he => hn he.symm
    simp [hn, hn', last]

theorem onDevice_of_last_none (h : last l n = none) (dev : Nat) : onDevice l dev n = none := by
  rw [onDevice, Option.map_eq_none_iff, List.find?_eq_none]
  intro w hw
  have hn := List.find?_eq_none.1 h w hw
  simp [hn]

theorem onDevice_of_last (h : last l n = some w) (hw : w.device = dev) :
    onDevice l dev n = some w.data := by
  induction l with
  | nil => cases h
  | cons v l ih =>
    rw [last_cons] at h
    rw [onDevice, List.find?_cons]
    split at h
    next hn =>
      cases h
      simp [hw, hn]
    next hn =>
      have hn' : ¬v.sector = n := fun he => hn he.symm
      simp only [hn', and_false, decide_false]
      exact ih h

end SectorWrite

open SectorWrite
def recordWrites (dev : Nat) : Nat → List Sector → List SectorWrite → List SectorWrite
  | _, [], h => h
  | sector, data :: buf, h => recordWrites dev (sector + 1) buf (⟨dev, sector, data⟩ :: h)

def BlockDrivers.content (D : BlockDrivers) (dev n : Nat) : Sector :=
  match D.l1 dev (n / 128) with
  | none => D.file dev n
  | some page => if page.dirtyBitmap (n % 128) then page.block (n % 128) else D.file dev n

namespace DiskEvent
def extend (H : List (List SectorWrite)) : DiskEvent → List (List SectorWrite)
  | .writev k dev sector buf => H.modify k (recordWrites dev sector buf)
  | .readv _ _ _ _ => H
  | .fork k => H ++ [H.getD k []]

def Allowed (D : BlockDrivers) (H : List (List SectorWrite)) : DiskEvent → Prop
  | .writev k dev sector buf =>
    k < H.length ∧ 0 < buf.length ∧ sector + buf.length ≤ D.sectorCount dev
  | .readv k dev sector count => k < H.length ∧ 0 < count ∧ sector + count ≤ D.sectorCount dev
  | .fork k => k < H.length

end DiskEvent

/-- The allowed events so far, and the writes that each state has seen. -/
inductive Happened (D : BlockDrivers) : List DiskEvent → List (List SectorWrite) → Prop where
  | nil : Happened D [] [[]]
  | snoc : Happened D events H → Allowed D H e → Happened D (events ++ [e]) (e.extend H)

namespace AddressSpaces
variable {s s' : AddressSpaces}
theorem Isolated.observe_onSpace (h : Isolated hs s)
    (h' : Isolated ((SpacesOp.onSpace k op).extend hs) s') (hk : k < hs.length)
    (hj : j < hs.length) (address : Nat) : s'.observe j address =
      if j = k then PrivateBindings.step (s.observe k) op address else s.observe j address := by
  have hj' : j < ((SpacesOp.onSpace k op).extend hs).length := by
    rw [SpacesOp.extend, length_modify]
    exact hj
  have hseen : s.observe k = PrivateBindings.replay (hs.getD k []) := by
    funext a
    exact h.seen hk
  rw [h'.seen hj', hseen, SpacesOp.extend, getD_eq_getElem?_getD, List.getElem?_modify,
    List.getElem?_eq_getElem hj]
  by_cases he : j = k
  · subst he
    simp [PrivateBindings.replay, List.getElem?_eq_getElem hj]
  · have he' : ¬k = j := fun h => he h.symm
    rw [if_neg he, h.seen hj]
    simp [he', List.getElem?_eq_getElem hj]

theorem Isolated.observe_copy (h : Isolated hs s)
    (h' : Isolated ((SpacesOp.copy k).extend hs) s') (hk : k < hs.length)
    (hj : j < hs.length + 1) (address : Nat) :
    s'.observe j address = s.observe (if j = hs.length then k else j) address := by
  have hj' : j < ((SpacesOp.copy k).extend hs).length := by
    rw [SpacesOp.extend, length_append]
    exact hj
  rw [h'.seen hj', SpacesOp.extend, getD_eq_getElem?_getD]
  split
  next he =>
    rw [he, List.getElem?_concat_length, h.seen hk]
    rfl
  · have hlt : j < hs.length := by omega
    rw [List.getElem?_append_left hlt, h.seen hlt, getD_eq_getElem?_getD]

theorem binding_none_iff : s.binding k address = none ↔ s.observe k address = none := by
  rw [observe_eq, Option.map_eq_none_iff]

end AddressSpaces

def sectorState (n : Nat) (data : Sector) : ObjectState :=
  (copySector data).apply (newObjectState (sectorObject (n * 512)))

theorem copySector_sectorState (n : Nat) (data data' : Sector) :
    (copySector data).apply (sectorState n data') = sectorState n data := by
  simp only [sectorState, copySector]
  congr 1
  funext i
  split <;> simp [*]

theorem getConcreteStore_of_mask {os : ObjectState} (h : os.concreteMask = none) :
    os.getConcreteStore = some os.concreteStore := by
  have ha : ExecutionState.isAllConcrete os = true := by
    rw [ExecutionState.isAllConcrete, all_eq_true]
    intro i _
    rw [isByteConcrete, h]
  rw [getConcreteStore, ha]
  rfl

theorem sectorState_read (n : Nat) (data : Sector) :
    (fun i : Fin 512 => (sectorState n data).concreteStore i) = data := by
  funext i
  simp [sectorState, copySector]

/-- Sectors hold what was last written under their number. -/
structure Disks (H : List (List SectorWrite)) (s : AddressSpaces) : Prop where
  isolated : ∃ hs, Isolated hs s ∧ hs.length = H.length
  sector : ∀ {k n}, k < H.length → n < 2 ^ 27 → s.observe k (n * 512) =
    (last (H.getD k []) n).map fun w => (sectorObject (n * 512), sectorState n w.data)

theorem getD_modify {H : List (List α)} (hj : j < H.length) (k : Nat) (f : List α → List α) :
    (H.modify k f).getD j [] = if j = k then f (H.getD j []) else H.getD j [] := by
  rw [getD_eq_getElem?_getD, getD_eq_getElem?_getD, List.getElem?_modify,
    List.getElem?_eq_getElem hj]
  by_cases he : j = k
  · simp [he]
  · have he' : ¬k = j := fun h => he h.symm
    simp [he, he']

section
variable {s : AddressSpaces}
structure Writable (H : List (List SectorWrite)) (k n : Nat) (s s' : AddressSpaces)
    (os : ObjectState) : Prop where
  isolated : ∃ hs, Isolated hs s' ∧ hs.length = H.length
  own : s'.observe k (n * 512) = some (sectorObject (n * 512), os)
  other : ∀ {j address}, j < H.length → j ≠ k ∨ address ≠ n * 512 →
    s'.observe j address = s.observe j address
  mask : os.concreteMask = none
  writable : os.readOnly = false
  written : ∀ data, (copySector data).apply os = sectorState n data

section
variable (h : Disks H s) (hk : k < H.length) (hn : n < 2 ^ 27)
include h hk hn
theorem bindSector_writable :
    ∃ s' os, s.bindSector k (n * 512) = .ok s' ∧ Writable H k n s s' os := by
  obtain ⟨hs, hI, hl⟩ := h.isolated
  have hc := h.sector hk hn
  rw [← hl] at hk
  cases hla : last (H.getD k []) n with
  | none =>
    rw [hla] at hc
    have hw : (newObjectState (sectorObject (n * 512))).copyOnWriteOwner = 0 := rfl
    have hu : (sectorObject (n * 512)).isSharedConcrete = false := rfl
    obtain ⟨s', ht, hI'⟩ := hI.bindObject hk hu hw
    have ho := fun {j} (hj : j < hs.length) => hI.observe_onSpace hI' hk hj
    refine ⟨s', newObjectState (sectorObject (n * 512)), ?_, ⟨_, hI', ?_⟩, ?_, ?_, rfl, rfl,
      fun _ => rfl⟩
    · rw [bindSector, binding_none_iff.2 hc]
      simp only [stepDisk, ht]
      rfl
    · rw [SpacesOp.extend, length_modify, hl]
    · rw [ho hk, if_pos rfl, PrivateBindings.step]
      exact if_pos rfl
    · intro j address hj hne
      rw [ho (hl ▸ hj)]
      split
      next he =>
        rw [he] at hne ⊢
        have hne : address ≠ n * 512 := hne.resolve_left fun h => h rfl
        exact if_neg hne
      · rfl
  | some w =>
    rw [hla] at hc
    refine ⟨s, sectorState n w.data, ?_, ⟨hs, hI, hl⟩, hc, fun _ _ => rfl, rfl, rfl,
      fun data => copySector_sectorState n data w.data⟩
    rw [bindSector]
    cases hb : s.binding k (n * 512) with
    | none =>
      rw [binding_none_iff, hc] at hb
      cases hb
    | some _ => rfl

theorem writeAt_disks (dev : Nat) (data : Sector) : ∃ s', s.writeAt k (n * 512) data = .ok s' ∧
      Disks (H.modify k fun h => ⟨dev, n, data⟩ :: h) s' := by
  obtain ⟨s1, os, hbn, hw⟩ := bindSector_writable h hk hn
  obtain ⟨hs, hI, hl⟩ := hw.isolated
  have hk' : k < hs.length := hl ▸ hk
  have hr : PrivateBindings.replay (hs.getD k []) (sectorObject (n * 512)).address =
      some (sectorObject (n * 512), os) := (hI.seen hk').symm.trans hw.own
  obtain ⟨s', ht, hI'⟩ := hI.write hk' (copySector data) hr hw.writable
  have hobs := fun {j} (hj : j < hs.length) => hI.observe_onSpace hI' hk' hj
  refine ⟨s', ?_, ⟨_, hI', ?_⟩, ?_⟩
  · have ho := hw.own
    rw [hI.separate.observe_eq] at ho
    obtain ⟨⟨mo, r⟩, hb, heq⟩ := Option.map_eq_some_iff.1 ho
    cases heq
    have hma : (s1.objectStates.get r).concreteMask = none := hw.mask
    rw [writeAt, hbn]
    simp only [bind, Except.bind, hb, getConcreteStore_of_mask hma]
    simp only [stepDisk, ht]
    rfl
  · rw [SpacesOp.extend, length_modify, length_modify, hl]
  · intro j m hj hm
    rw [length_modify] at hj
    have ha : m * 512 = n * 512 ↔ m = n := by omega
    rw [hobs (hl ▸ hj), getD_modify hj]
    by_cases hjk : j = k
    · subst hjk
      rw [if_pos rfl, if_pos rfl, last_cons, PrivateBindings.step]
      by_cases hmn : m = n
      · subst hmn
        rw [if_pos rfl]
        refine (if_pos rfl).trans ?_
        change (s1.observe j (m * 512)).map _ = _
        rw [hw.own, Option.map_some, hw.written]
        rfl
      · rw [if_neg hmn]
        refine (if_neg fun h => hmn (ha.1 h)).trans ?_
        rw [hw.other hj (.inr fun h => hmn (ha.1 h))]
        exact h.sector hj hm
    · rw [if_neg hjk, if_neg hjk, hw.other hj (.inl hjk)]
      exact h.sector hj hm

end

theorem recordWrites_cons (dev n : Nat) (data : Sector) (buf : List Sector) :
    recordWrites dev n (data :: buf) =
      recordWrites dev (n + 1) buf ∘ fun h => ⟨dev, n, data⟩ :: h := rfl

theorem sectorAddress_zero (hn : n < 2 ^ 27) : sectorAddress 0 n = n * 512 := by
  rw [sectorAddress, sectorSize]
  omega

theorem writeSectors_disks (h : Disks H s) (hk : k < H.length) (dev : Nat)
    (hn : n + buf.length ≤ 2 ^ 27) :
    ∃ s', s.writeSectors k 0 n buf = .ok s' ∧ Disks (H.modify k (recordWrites dev n buf)) s' := by
  induction buf generalizing H s n with
  | nil =>
    refine ⟨s, rfl, ?_⟩
    have hm : H.modify k (recordWrites dev n []) = H := modify_id k H
    rw [hm]
    exact h
  | cons data buf ih =>
    rw [length_cons] at hn
    have hlt : n < 2 ^ 27 := by omega
    have hr : n + 1 + buf.length ≤ 2 ^ 27 := by omega
    obtain ⟨s1, hwr, h1⟩ := writeAt_disks h hk hlt dev data
    obtain ⟨s', hr, h'⟩ := ih h1 (by rw [length_modify]; exact hk) hr
    refine ⟨s', ?_, ?_⟩
    · rw [writeSectors, sectorAddress_zero hlt, hwr]
      exact hr
    · rw [recordWrites_cons, ← modify_modify_eq]
      exact h'

theorem copy_disks (h : Disks H s) (hk : k < H.length) (hli : H.length < 2 ^ 32) :
    ∃ s', s.stepDisk (.copy k) = .ok s' ∧ Disks (H ++ [H.getD k []]) s' := by
  obtain ⟨hs, hI, hl⟩ := h.isolated
  obtain ⟨s', ht, hI'⟩ := hI.copy (hl ▸ hk) (hl ▸ hli)
  refine ⟨s', ?_, ⟨_, hI', ?_⟩, ?_⟩
  · simp only [stepDisk, ht]
    rfl
  · rw [SpacesOp.extend, length_append, length_append, hl]
    rfl
  intro j n hj hn
  rw [length_append, length_singleton] at hj
  rw [hI.observe_copy hI' (hl ▸ hk) (hl ▸ hj), hl, getD_eq_getElem?_getD]
  split
  next he =>
    rw [he, List.getElem?_concat_length]
    exact h.sector hk hn
  · have hlt : j < H.length := by omega
    rw [List.getElem?_append_left hlt, ← getD_eq_getElem?_getD]
    exact h.sector hlt hn

def localRun (h : List SectorWrite) : Nat → Nat → List Sector
  | _, 0 => []
  | n, count + 1 =>
    match last h n with
    | none => []
    | some w => w.data :: localRun h (n + 1) count

theorem readSectors_eq (h : Disks H s) (hk : k < H.length) (hn : n + count ≤ 2 ^ 27) :
    s.readSectors k 0 n count = .ok (localRun (H.getD k []) n count) := by
  induction count generalizing n with
  | zero => rfl
  | succ count ih =>
    have hc := h.sector hk (n := n) (by omega)
    rw [readSectors, sectorAddress_zero (by omega), localRun]
    cases hla : last (H.getD k []) n with
    | none =>
      rw [hla] at hc
      rw [binding_none_iff.2 hc]
    | some w =>
      obtain ⟨hs, hI, -⟩ := h.isolated
      rw [hla, hI.separate.observe_eq] at hc
      obtain ⟨⟨mo, r⟩, hb, heq⟩ := Option.map_eq_some_iff.1 hc
      have hst := (Prod.mk.inj heq).2
      have hm := congrArg concreteMask hst
      have ht := congrArg concreteStore hst
      change (s.objectStates.get r).concreteMask = none at hm
      change (s.objectStates.get r).concreteStore = _ at ht
      simp only [hb, getConcreteStore_of_mask hm, ht, sectorState_read]
      rw [ih (by omega)]
      rfl

def overlay (h : List SectorWrite) : Nat → List Sector → List Sector
  | _, [] => []
  | n, data :: buffer => ((SectorWrite.last h n).elim data SectorWrite.data) ::
      overlay h (n + 1) buffer

theorem overlay_eq_localRun (h : List SectorWrite) (n : Nat) (buffer : List Sector) :
    overlay h n buffer = localRun h n buffer.length ++
      overlay h (n + (localRun h n buffer.length).length)
        (buffer.drop (localRun h n buffer.length).length) := by
  induction buffer generalizing n with
  | nil => rfl
  | cons data buffer ih =>
    rw [length_cons, localRun]
    cases hla : last h n with
    | none => rfl
    | some w =>
      have ha : n + (w.data :: localRun h (n + 1) buffer.length).length =
          n + 1 + (localRun h (n + 1) buffer.length).length := by
        rw [length_cons]
        omega
      rw [overlay, hla, ha, length_cons, drop_succ_cons, cons_append, ← ih]
      rfl

theorem localRun_length_le (h : List SectorWrite) (n count : Nat) :
    (localRun h n count).length ≤ count := by
  induction count generalizing n with
  | zero => exact Nat.le_refl 0
  | succ count ih =>
    rw [localRun]
    split
    · exact Nat.zero_le _
    · exact Nat.succ_le_succ (ih (n + 1))

end

namespace DeviceStates
section
variable {s : DeviceStates}
theorem getBlockDeviceStart_eq (dev : Nat) (s : DeviceStates) :
    (s.getBlockDeviceStart dev).1 = 0 ∧ (s.getBlockDeviceStart dev).2.spaces = s.spaces := by
  have hz : blockDevAs = 0 := by decide
  rw [getBlockDeviceStart, getBlockDeviceId, hz]
  split
  next id s' hid =>
    refine ⟨Nat.zero_mod _, ?_⟩
    split at hid
    · cases hid
      rfl
    · cases hid
      rfl

theorem readSector_eq (dev : Nat) (h : Disks H s.spaces) (hk : k < H.length) (hn : n + count ≤
    2 ^ 27) : ∃ s', s.readSector k dev n count = .ok (localRun (H.getD k []) n count, s') ∧
    s'.spaces = s.spaces := by
  obtain ⟨hst, hp⟩ := getBlockDeviceStart_eq dev s
  refine ⟨(s.getBlockDeviceStart dev).2, ?_, hp⟩
  rw [readSector]
  simp only [hst, hp, readSectors_eq h hk hn]
  rfl

theorem writeSector_disks (dev : Nat) (h : Disks H s.spaces) (hk : k < H.length)
    (hn : n + buf.length ≤ 2 ^ 27) : ∃ s', s.writeSector k dev n buf = .ok s' ∧
      Disks (H.modify k (recordWrites dev n buf)) s'.spaces := by
  obtain ⟨hst, hp⟩ := getBlockDeviceStart_eq dev s
  obtain ⟨spaces, hwr, h'⟩ := writeSectors_disks h hk dev hn
  refine ⟨{ (s.getBlockDeviceStart dev).2 with spaces }, ?_, h'⟩
  rw [writeSector]
  simp only [hst, hp, hwr]
  rfl

theorem readDirtyKlee_eq (dev : Nat) (h : Disks H s.spaces) (hk : k < H.length)
    (hn : n + buffer.length ≤ 2 ^ 27) (hrn : buffer.length ≤ rounds) : ∃ s',
    s.readDirtyKlee k dev rounds n buffer = .ok (overlay (H.getD k []) n buffer, s') ∧ s'.spaces =
    s.spaces := by
  induction rounds generalizing n buffer s with
  | zero =>
    cases buffer with
    | nil => exact ⟨s, by rw [readDirtyKlee]; rfl, rfl⟩
    | cons _ _ => cases hrn
  | succ rounds ih =>
    cases buffer with
    | nil => exact ⟨s, by rw [readDirtyKlee]; rfl, rfl⟩
    | cons data buffer =>
      rw [length_cons] at hn hrn
      obtain ⟨s1, hd, hss⟩ := readSector_eq dev h hk hn
      rw [← hss] at h
      rw [readDirtyKlee, hd]
      simp only [bind, Except.bind]
      have hle := localRun_length_le (H.getD k []) n (buffer.length + 1)
      have hy := overlay_eq_localRun (H.getD k []) n (data :: buffer)
      rw [length_cons] at hy
      cases hru : localRun (H.getD k []) n (buffer.length + 1) with
      | nil =>
        have hn' : n + 1 + buffer.length ≤ 2 ^ 27 := by omega
        obtain ⟨s', hr, hsc⟩ := ih h hn' (Nat.le_of_succ_le_succ hrn)
        have hno : last (H.getD k []) n = none := by
          rw [localRun] at hru
          split at hru
          · assumption
          · cases hru
        refine ⟨s', ?_, hsc.trans hss⟩
        simp only [hr, overlay, hno]
        rfl
      | cons first more =>
        rw [hru] at hle hy
        have hl : ((data :: buffer).drop (first :: more).length).length =
            buffer.length + 1 - (first :: more).length := by rw [length_drop, length_cons]
        have hp : 0 < (first :: more).length := Nat.succ_pos _
        have hn' : n + (first :: more).length +
            ((data :: buffer).drop (first :: more).length).length ≤ 2 ^ 27 := by
          omega
        obtain ⟨s', hr, hsc⟩ := ih h hn' (by rw [hl]; omega)
        refine ⟨s', ?_, hsc.trans hss⟩
        simp only [hr, hy]

theorem readDirty_length (l1 : Nat → Option S2EBLKL2) (n : Nat) (buffer : List Sector) :
    (readDirty l1 n buffer).length = buffer.length := by
  induction buffer generalizing n with
  | nil => rfl
  | cons data buffer ih => rw [readDirty, length_cons, length_cons, ih]

theorem overlay_readDirty (D : BlockDrivers) (h : List SectorWrite) (dev n count : Nat) :
    overlay h n (readDirty (D.l1 dev) n ((List.range' n count).map (D.file dev))) =
      (List.range' n count).map fun m => (last h m).elim (D.content dev m) data := by
  induction count generalizing n with
  | zero => rfl
  | succ count ih =>
    rw [List.range'_succ, map_cons, map_cons, readDirty, overlay, ih]
    rfl

theorem coReadv_eq (D : BlockDrivers) (h : Disks H s.spaces)
    (hr : (readv k dev n count).Allowed D H) (hn : n + count ≤ 2 ^ 27) :
    ∃ s', s.coReadv D k dev n count = .ok ((List.range' n count).map (fun m =>
        (last (H.getD k []) m).elim (D.content dev m) data), s') ∧ s'.spaces = s.spaces := by
  obtain ⟨hk, hc, hz⟩ := hr
  have hl : (readDirty (D.l1 dev) n ((List.range' n count).map (D.file dev))).length = count := by
    rw [readDirty_length, length_map, length_range']
  obtain ⟨s', hs', hp⟩ := readDirtyKlee_eq dev h hk (hl.symm ▸ hn) (Nat.le_of_eq hl)
  refine ⟨s', ?_, hp⟩
  rw [coReadv, if_neg (by omega), if_pos hz, hs', overlay_readDirty]

theorem handle_disks (D : BlockDrivers) (hD : ∀ dev, D.sectorCount dev ≤ 2 ^ 27)
    (h : Disks H s.spaces) (he : e.Allowed D H) (hli : (e.extend H).length ≤ 2 ^ 32) :
    ∃ s', s.handle D e = .ok s' ∧ Disks (e.extend H) s'.spaces := by
  cases e with
  | writev k dev sector buf =>
    obtain ⟨hk, hp, hz⟩ := he
    obtain ⟨s', hs', h'⟩ := writeSector_disks dev h hk (Nat.le_trans hz (hD dev))
    refine ⟨s', ?_, h'⟩
    rw [handle, coWritev, if_neg (by omega), if_pos hz, hs']
  | readv k dev sector count =>
    obtain ⟨s', hs', hss⟩ := coReadv_eq D h he (Nat.le_trans he.2.2 (hD dev))
    refine ⟨s', ?_, ?_⟩
    · rw [handle, hs']
      rfl
    · rw [hss]
      exact h
  | fork k =>
    rw [DiskEvent.extend, length_append, length_singleton] at hli
    obtain ⟨spaces, hcp, h'⟩ := copy_disks h he (by omega)
    refine ⟨{ s with spaces }, ?_, h'⟩
    rw [handle, fork, hcp]
    rfl

end

theorem initial_disks : Disks [[]] initial.spaces := by
  refine ⟨⟨_, initial_isolated, rfl⟩, ?_⟩
  intro k n hk hn
  obtain rfl : k = 0 := Nat.lt_one_iff.1 hk
  rfl

theorem extend_length_le (H : List (List SectorWrite)) (e : DiskEvent) :
    H.length ≤ (e.extend H).length := by
  cases e with
  | writev k dev sector buf => exact Nat.le_of_eq (length_modify ..).symm
  | readv k dev sector count => exact Nat.le_refl _
  | fork k =>
    rw [DiskEvent.extend, length_append]
    exact Nat.le_add_right _ _

variable (D : BlockDrivers)
theorem run_disks (hD : ∀ dev, D.sectorCount dev ≤ 2 ^ 27)
    (h : Happened D events H) (hli : H.length ≤ 2 ^ 32) :
    ∃ s, run D events = .ok s ∧ Disks H s.spaces := by
  induction h with
  | nil => exact ⟨initial, rfl, initial_disks⟩
  | snoc _ he ih =>
    obtain ⟨s, hr, hd⟩ := ih (Nat.le_trans (extend_length_le _ _) hli)
    obtain ⟨s', hs', hd'⟩ := handle_disks D hD hd he hli
    refine ⟨s', ?_, hd'⟩
    rw [run] at hr ⊢
    rw [foldlM_append, hr]
    change List.foldlM (handle D) s [_] = _
    rw [foldlM_cons, hs']
    rfl

def expected (h : List SectorWrite) (dev m : Nat) : Sector :=
  (onDevice h dev m).getD (D.content dev m)

theorem last_eq_expected_iff (h : List SectorWrite) (dev m : Nat) :
    (last h m).elim (D.content dev m) data = expected D h dev m ↔
      ∀ w, last h m = some w → w.device = dev ∨ w.data = expected D h dev m := by
  cases hla : last h m with
  | none =>
    rw [expected, onDevice_of_last_none hla]
    exact ⟨fun _ _ hw => (nomatch hw), fun _ => rfl⟩
  | some w =>
    constructor
    · rintro he w' ⟨⟩
      exact .inr he
    intro ha
    rcases ha w rfl with hv | hd
    · rw [expected, onDevice_of_last hla hv]
      rfl
    · exact hd

def zeroDisks : BlockDrivers := ⟨fun _ => 1, fun _ _ _ => 0, fun _ _ => none⟩

def onesWritten : List DiskEvent := [.writev 0 0 0 [fun _ => 1]]

theorem onesWritten_happened : Happened zeroDisks onesWritten [[⟨0, 0, fun _ => 1⟩]] := by
  have ha : (writev 0 0 0 [fun _ => 1]).Allowed zeroDisks [[]] :=
    ⟨Nat.one_pos, Nat.one_pos, Nat.le_refl 1⟩
  exact Happened.nil.snoc ha

theorem zeroDisks_readable (dev : Nat) (w : SectorWrite) :
    (readv 0 dev 0 1).Allowed zeroDisks [[w]] :=
  ⟨Nat.one_pos, Nat.one_pos, Nat.le_refl 1⟩

end DeviceStates
end Chef
