import Mathlib.Data.List.Basic
import Chef.Foundations.Transition

namespace Chef
open Foundations List Function Option
inductive SnapshotFault where
  | assertion
  | outOfBuffer

structure DeviceSnapshots where
  stateBuffer : Nat → Option (List UInt8)
  tempStateBuffer : List UInt8
  finalStateSize : Nat

inductive SnapshotEvent where
  | save (i : Nat) (bufs : List (List UInt8))
  | copy (i j : Nat)

/-- The snapshots, and the bytes that each state last saved. -/
structure Saved where
  snapshots : DeviceSnapshots
  last : Nat → Option (List UInt8)

namespace DeviceSnapshots
def allocateBuffer (temp : List UInt8) (size : Nat) : List UInt8 :=
  temp ++ replicate (size - temp.length) 0

def putBuffer (dest : List UInt8) (pos : Nat) (buf : List UInt8) :
    Except SnapshotFault (List UInt8) :=
  if pos + buf.length ≤ dest.length then
    .ok (dest.take pos ++ buf ++ dest.drop (pos + buf.length))
  else .error .outOfBuffer

def putBuffers (allocate : Bool) (dest : List UInt8) (pos : Nat) :
    List (List UInt8) → Except SnapshotFault (List UInt8)
  | [] => .ok dest
  | buf :: bufs => do
    let dest ← putBuffer
      (if allocate then allocateBuffer dest ((pos + buf.length) % 2 ^ 32) else dest) pos buf
    putBuffers allocate dest (pos + buf.length) bufs

def getBuffer (buffer : List UInt8) (finalStateSize pos size : Nat) :
    Except SnapshotFault (List UInt8) :=
  if finalStateSize < pos then .error .outOfBuffer
  else .ok ((buffer.drop pos).take
    (if pos + size ≤ finalStateSize then size else finalStateSize - pos))

variable (s : DeviceSnapshots)
def saveDeviceState (i : Nat) (bufs : List (List UInt8)) : Except SnapshotFault DeviceSnapshots :=
  match s.stateBuffer i with
  | none => do
    let temp ← putBuffers true s.tempStateBuffer 0 bufs
    if s.finalStateSize ≠ 0 then .ok { s with tempStateBuffer := temp }
    else if temp = [] then .error .assertion
    else .ok ⟨update s.stateBuffer i (some temp), [], temp.length⟩
  | some buffer => do
    let buffer ← putBuffers false buffer 0 bufs
    if s.finalStateSize = 0 then .error .assertion
    else .ok { s with stateBuffer := update s.stateBuffer i (some buffer) }

def copy (i j : Nat) : Except SnapshotFault DeviceSnapshots :=
  match s.stateBuffer i with
  | none => .error .assertion
  | some buffer =>
    if s.finalStateSize = 0 then .error .assertion
    else .ok { s with
      stateBuffer := update s.stateBuffer j (some (buffer.take s.finalStateSize)) }

def restoreDeviceState (i pos size : Nat) : Except SnapshotFault (List UInt8) :=
  match s.stateBuffer i with
  | none => .error .assertion
  | some buffer =>
    if s.finalStateSize = 0 then .error .assertion else getBuffer buffer s.finalStateSize pos size

end DeviceSnapshots

namespace Saved
variable (s : Saved)
def handle : SnapshotEvent → Except SnapshotFault Saved
  | .save i bufs => (s.snapshots.saveDeviceState i bufs).map fun snapshots =>
    ⟨snapshots, update s.last i (some bufs.flatten)⟩
  | .copy i j => (s.snapshots.copy i j).map fun snapshots => ⟨snapshots, update s.last j (s.last i)⟩

def machine : Machine Saved SnapshotEvent where
  init s := s = ⟨⟨fun _ => none, [], 0⟩, fun _ => none⟩
  step s e s' := s.handle e = .ok s'

/-- The first save is the longest, and states are copies of saved ones. -/
def Fits : SnapshotEvent → Prop
  | .save i bufs =>
    match s.snapshots.stateBuffer i with
    | none => s.snapshots.finalStateSize = 0 ∧ bufs.flatten.length < 2 ^ 32 ∧ bufs.flatten ≠ []
    | some _ => bufs.flatten.length ≤ s.snapshots.finalStateSize
  | .copy i _ => (s.snapshots.stateBuffer i).isSome

/-- Every piece that begins in what was saved has the saved bytes. -/
def Restores : Prop := ∀ i data, s.last i = some data → ∀ pos size, pos ≤ data.length →
    ∃ bytes, s.snapshots.restoreDeviceState i pos size = .ok bytes ∧
      (data.drop pos).take size <+: bytes

structure Inv : Prop where
  unsaved : s.snapshots.finalStateSize = 0 →
    s.snapshots.tempStateBuffer = [] ∧ ∀ i, s.snapshots.stateBuffer i = none
  buffer : s.snapshots.stateBuffer i = some b →
    b.length = s.snapshots.finalStateSize ∧ ∃ data, s.last i = some data ∧ data <+: b
  last : s.last i = some data → s.snapshots.stateBuffer i ≠ none

end Saved

namespace DeviceSnapshots
theorem putBuffers_allocate (done : List UInt8) (bufs : List (List UInt8))
    (h : done.length < 2 ^ 32) : putBuffers true done done.length bufs =
      if done.length + bufs.flatten.length < 2 ^ 32 then .ok (done ++ bufs.flatten)
      else .error .outOfBuffer := by
  induction bufs generalizing done with
  | nil => simpa [putBuffers] using h
  | cons buf bufs ih =>
    have hl (size : Nat) : (allocateBuffer done size).length = max done.length size := by
      simp [allocateBuffer]
      omega
    rw [putBuffers, if_pos rfl, putBuffer, hl]
    by_cases hft : done.length + buf.length < 2 ^ 32
    · have hih := ih (done ++ buf) (by simpa using hft)
      rw [Nat.mod_eq_of_lt hft, if_pos (by omega)]
      simpa [allocateBuffer, bind, Except.bind, Nat.add_assoc] using hih
    · rw [if_neg (by omega), if_neg (by simp; omega)]
      rfl

theorem putBuffers_fixed (done rest : List UInt8) (bufs : List (List UInt8)) :
    putBuffers false (done ++ rest) done.length bufs = if bufs.flatten.length ≤ rest.length then
        .ok (done ++ bufs.flatten ++ rest.drop bufs.flatten.length) else .error .outOfBuffer := by
  induction bufs generalizing done rest with
  | nil => simp [putBuffers]
  | cons buf bufs ih =>
    rw [putBuffers, if_neg Bool.false_ne_true, putBuffer, length_append]
    by_cases h : buf.length ≤ rest.length
    · have hih := ih (done ++ buf) (rest.drop buf.length)
      rw [if_pos (Nat.add_le_add_left h _)]
      simp only [length_append, length_drop, append_assoc, drop_drop,
        Nat.le_sub_iff_add_le' h] at hih
      simpa [bind, Except.bind, drop_length_add_append] using hih
    · rw [if_neg (by omega), if_neg (by simp; omega)]
      rfl

theorem getBuffer_eq (size : Nat) (hp : pos ≤ buffer.length) :
    getBuffer buffer buffer.length pos size = .ok ((buffer.drop pos).take size) := by
  rw [getBuffer, if_neg (Nat.not_lt.2 hp)]
  split
  · rfl
  · rw [take_of_length_le (by simp), take_of_length_le (by simp; omega)]

variable {s : DeviceSnapshots}
theorem saveDeviceState_none (hb : s.stateBuffer i = none) (ht : s.tempStateBuffer = [])
    (hz : s.finalStateSize = 0) (bufs : List (List UInt8)) :
    s.saveDeviceState i bufs = if bufs.flatten.length < 2 ^ 32 then
      if bufs.flatten = [] then .error .assertion
      else .ok ⟨update s.stateBuffer i (some bufs.flatten), [], bufs.flatten.length⟩
      else .error .outOfBuffer := by
  have hp := putBuffers_allocate [] bufs (by decide)
  rw [length_nil, Nat.zero_add, nil_append] at hp
  simp only [saveDeviceState, hb, ht, hp]
  split
  · simp [bind, Except.bind, hz]
  · rfl

theorem saveDeviceState_some (hb : s.stateBuffer i = some b)
    (hl : b.length = s.finalStateSize) (hz : s.finalStateSize ≠ 0) (bufs : List (List UInt8)) :
    s.saveDeviceState i bufs = if bufs.flatten.length ≤ s.finalStateSize then
        .ok ⟨update s.stateBuffer i (some (bufs.flatten ++ b.drop bufs.flatten.length)),
          s.tempStateBuffer, s.finalStateSize⟩ else .error .outOfBuffer := by
  have hp := putBuffers_fixed [] b bufs
  rw [nil_append, length_nil, nil_append, hl] at hp
  simp only [saveDeviceState, hb, hp]
  split
  · simp [bind, Except.bind]
  · rfl

end DeviceSnapshots

namespace Saved
open DeviceSnapshots
theorem inv_put (hb : b.length = size) (hz : size ≠ 0) (hd : data <+: b)
    (hB : ∀ j b', B j = some b' → b'.length = size ∧ ∃ data, L j = some data ∧ data <+: b')
    (hL : ∀ j data, L j = some data → B j ≠ none) :
    Inv ⟨⟨update B i (some b), temp, size⟩, update L i (some data)⟩ := by
  refine ⟨fun h => absurd h hz, fun {j b'} hj => ?_, fun {j data'} hj => ?_⟩
  · by_cases hji : j = i
    · subst hji
      simp only [update_self, some.injEq] at hj ⊢
      exact ⟨hj ▸ hb, data, rfl, hj ▸ hd⟩
    · simp only [update_of_ne hji] at hj ⊢
      exact hB j b' hj
  · by_cases hji : j = i
    · simp [hji]
    · simp only [update_of_ne hji] at hj ⊢
      exact hL j data' hj

section
variable {s : Saved} (hs : s.Inv)
include hs
theorem Inv.size_ne_zero (hb : s.snapshots.stateBuffer i = some b) :
    s.snapshots.finalStateSize ≠ 0 := by
  intro hz
  rw [(hs.unsaved hz).2 i] at hb
  cases hb

theorem Inv.restores : s.Restores := by
  intro i data hla pos size hp
  obtain ⟨b, hb⟩ := ne_none_iff_exists'.1 (hs.last hla)
  obtain ⟨hl, data', hd, rest, rfl⟩ := hs.buffer hb
  cases hla.symm.trans hd
  refine ⟨((data ++ rest).drop pos).take size, ?_, ?_⟩
  · simp only [restoreDeviceState, hb]
    rw [if_neg (hs.size_ne_zero hb), ← hl]
    exact getBuffer_eq size (Nat.le_trans hp (prefix_append ..).length_le)
  · rw [drop_append_of_le_length hp, take_append]
    exact prefix_append ..

theorem Inv.handle (hft : s.Fits e) : ∃ s', s.handle e = .ok s' ∧ s'.Inv := by
  cases e with
  | save i bufs =>
    rw [Fits] at hft
    rw [Saved.handle]
    split at hft
    next hb =>
      obtain ⟨ht, hno⟩ := hs.unsaved hft.1
      rw [saveDeviceState_none hb ht hft.1, if_pos hft.2.1, if_neg hft.2.2]
      exact ⟨_, rfl, inv_put rfl (mt length_eq_zero_iff.1 hft.2.2) prefix_rfl
        (fun j _ hj => absurd (hj.symm.trans (hno j)) nofun)
        fun j _ hd => absurd (hno j) (hs.last hd)⟩
    next b hb =>
      have hl := (hs.buffer hb).1
      have hz := hs.size_ne_zero hb
      rw [saveDeviceState_some hb hl hz, if_pos hft]
      refine ⟨_, rfl, inv_put ?_ hz (prefix_append ..) (fun _ _ => hs.buffer) fun _ _ => hs.last⟩
      rw [length_append, length_drop]
      omega
  | copy i j =>
    obtain ⟨b, hb⟩ := isSome_iff_exists.1 hft
    obtain ⟨hl, data, hda, hp⟩ := hs.buffer hb
    simp only [Saved.handle, copy, hb, hda]
    rw [if_neg (hs.size_ne_zero hb), take_of_length_le (Nat.le_of_eq hl)]
    exact ⟨_, rfl, inv_put hl (hs.size_ne_zero hb) hp (fun _ _ => hs.buffer) fun _ _ => hs.last⟩

end

/-- Device states are restored unless a save outgrows the first one. -/
theorem snapshots_restored_iff (h : machine.Reachable Fits s) (e : SnapshotEvent) :
    (∃ s', s.handle e = .ok s' ∧ s'.Restores) ↔ s.Fits e := by
  have hs : s.Inv := by
    apply h.invariant (I := Inv)
    · rintro s rfl
      exact ⟨fun _ => ⟨rfl, fun _ => rfl⟩, nofun, nofun⟩
    intro s e s' hs hft ht
    obtain ⟨s1, hs1, hi⟩ := hs.handle hft
    cases hs1.symm.trans ht
    exact hi
  constructor
  · rintro ⟨s', hs', hr⟩
    cases e with
    | save i bufs =>
      obtain ⟨snapshots, hv, rfl⟩ := map_ok_iff.1 hs'
      rw [Fits]
      split
      next hb =>
        by_cases hz : s.snapshots.finalStateSize = 0
        · rw [saveDeviceState_none hb (hs.unsaved hz).1 hz] at hv
          refine ⟨hz, ?_⟩
          split at hv
          next hl =>
            refine ⟨hl, fun hn => ?_⟩
            rw [if_pos hn] at hv
            cases hv
          · cases hv
        · simp only [saveDeviceState, hb] at hv
          obtain ⟨temp, -, hv⟩ := bind_ok_iff.1 hv
          rw [if_pos hz] at hv
          cases hv
          obtain ⟨bytes, hbs, -⟩ := hr i _ (update_self ..) 0 0 (Nat.zero_le _)
          simp [restoreDeviceState, hb] at hbs
      next b hb =>
        by_contra hlong
        rw [saveDeviceState_some hb (hs.buffer hb).1 (hs.size_ne_zero hb), if_neg hlong] at hv
        cases hv
    | copy i j =>
      obtain ⟨snapshots, hcp, rfl⟩ := map_ok_iff.1 hs'
      rw [copy] at hcp
      split at hcp
      · cases hcp
      next hb => exact isSome_iff_exists.2 ⟨_, hb⟩
  · intro hft
    exact (hs.handle hft).imp fun _ h => ⟨h.1, h.2.restores⟩

def oneSave : Saved :=
  ⟨⟨update (fun _ => none) 0 (some [1, 2]), [], 2⟩, update (fun _ => none) 0 (some [1, 2])⟩

theorem oneSave_reachable : machine.Reachable Fits oneSave :=
  .step (.init rfl) (e := SnapshotEvent.save 0 [[1], [2]]) ⟨rfl, by decide, nofun⟩ rfl

theorem oneSave_copied : ∃ s', oneSave.handle (.copy 0 1) = .ok s' ∧ s'.Restores :=
  (snapshots_restored_iff oneSave_reachable _).2 rfl

/-- A save of three bytes goes to the buffer of a save of two. -/
theorem longerSave_outOfBuffer : machine.Reachable Fits oneSave ∧
    oneSave.handle (.save 0 [[1], [2], [3]]) = .error .outOfBuffer :=
  ⟨oneSave_reachable, rfl⟩

end Saved
end Chef
