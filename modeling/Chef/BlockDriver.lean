import Mathlib.Order.Interval.Finset.Nat
import Mathlib.Data.Set.Card
import Chef.DeviceState

namespace Chef
open List hiding length
inductive BlockFault where
  | noSectors
  | beyondEnd
  | beyondTable
  | pageOverflow
  deriving DecidableEq

def S2EBLKL2.new : S2EBLKL2 := ⟨fun _ => false, fun _ _ => 0⟩

/-- A page that is not allocated is `none`. -/
structure BDRVS2EState where
  sectorCount : Nat
  dirtyCount : Nat
  l1Entries : Nat
  l1 : Nat → Option S2EBLKL2

inductive DiskRequest where
  | readv (sector count : Nat)
  | writev (sector : Nat) (data : List Sector)

namespace BDRVS2EState
def blkInit (length : Nat) : BDRVS2EState where
  sectorCount := length / sectorSize * sectorSize / sectorSize
  dirtyCount := 0
  l1Entries := length / sectorSize * sectorSize / 128
  l1 _ := none

variable (s : BDRVS2EState)
def page (index : Nat) : Except BlockFault (Option S2EBLKL2) :=
  if index < s.l1Entries then .ok (s.l1 index) else .error .beyondTable

def setDirty : Nat → Nat → (Nat → Bool) → Nat → (Nat → Bool) × Nat
  | _, 0, bitmap, dirtyCount => (bitmap, dirtyCount)
  | idx, cnt + 1, bitmap, dirtyCount =>
    setDirty (idx + 1) cnt (fun i => if i = idx then true else bitmap i)
      (if bitmap idx then dirtyCount else dirtyCount + 1)

def blkCopyAndSetDirty (buffer : List Sector) (sector count : Nat) :
    Except BlockFault BDRVS2EState :=
  let l1Index := sector / 128
  let l2Index := sector % 128
  if l2Index + count ≤ 128 then
    (s.page l1Index).map fun page =>
      let b := page.getD S2EBLKL2.new
      let marked := setDirty l2Index count b.dirtyBitmap s.dirtyCount
      let block i :=
        if l2Index ≤ i ∧ i < l2Index + count then buffer.getD (i - l2Index) (b.block i)
        else b.block i
      { s with
        dirtyCount := marked.2
        l1 := fun i => if i = l1Index then some ⟨marked.1, block⟩ else s.l1 i }
  else .error .pageOverflow

def writeDirty (s : BDRVS2EState) (buffer : List Sector) (sector : Nat) :
    Except BlockFault BDRVS2EState :=
  if buffer.length = 0 then .ok s
  else
    let transferCount := min (128 - sector % 128) buffer.length
    s.blkCopyAndSetDirty buffer sector transferCount >>= fun s =>
      s.writeDirty (buffer.drop transferCount) (sector + transferCount)
termination_by buffer.length
decreasing_by
  have := Nat.mod_lt sector (show 128 > 0 by decide)
  rw [length_drop]
  omega

def readDirty (s : BDRVS2EState) (sector : Nat) :
    List Sector → Except BlockFault (Bool × List Sector)
  | [] => .ok (false, [])
  | data :: buffer =>
    s.page (sector / 128) >>= fun page =>
      match page with
      | none =>
        let increment := 128 - sector % 128
        (s.readDirty (sector + increment) ((data :: buffer).drop increment)).map fun r =>
          (r.1, (data :: buffer).take increment ++ r.2)
      | some page =>
        (s.readDirty (sector + 1) buffer).map fun r =>
          if page.dirtyBitmap (sector % 128) then (true, page.block (sector % 128) :: r.2)
          else (r.1, data :: r.2)
termination_by buffer => buffer.length
decreasing_by
  · have := Nat.mod_lt sector (show 128 > 0 by decide)
    simp only [length_drop, length_cons]
    omega
  · exact Nat.lt_succ_self _

def coReadv (file : Nat → Sector) (s : BDRVS2EState) (sector count : Nat) :
    Except BlockFault (List Sector) :=
  if count = 0 then .error .noSectors
  else if sector + count ≤ s.sectorCount then
    let backing := (List.range' sector count).map file
    (s.readDirty sector backing).map fun r => if r.1 then r.2 else backing
  else .error .beyondEnd

def coWritev (sector : Nat) (data : List Sector) : Except BlockFault BDRVS2EState :=
  if data.length = 0 then .error .noSectors
  else if s.sectorCount ≤ sector ∨ s.sectorCount < sector + data.length then .error .beyondEnd
  else s.writeDirty data sector

def serve (file : Nat → Sector) (s : BDRVS2EState) : DiskRequest → Except BlockFault BDRVS2EState
  | .readv sector count => (s.coReadv file sector count).map fun _ => s
  | .writev sector data => s.coWritev sector data

def content (n : Nat) : Option Sector :=
  match s.l1 (n / 128) with
  | none => none
  | some page => if page.dirtyBitmap (n % 128) then some (page.block (n % 128)) else none

end BDRVS2EState

def overwrite (d : Nat → Option Sector) (sector : Nat) (data : List Sector) (n : Nat) :
    Option Sector :=
  if sector ≤ n ∧ n < sector + data.length then data[n - sector]? else d n

namespace DiskRequest
def Inside (sectors : Nat) : DiskRequest → Prop
  | .readv sector count => 0 < count ∧ sector + count ≤ sectors
  | .writev sector data => 0 < data.length ∧ sector + data.length ≤ sectors

def apply (d : Nat → Option Sector) : DiskRequest → Nat → Option Sector
  | .readv _ _ => d
  | .writev sector data => overwrite d sector data

def latest (requests : List DiskRequest) : Nat → Option Sector := requests.foldl apply fun _ => none

end DiskRequest

namespace BDRVS2EState
variable {s : BDRVS2EState}
def Counted (s : BDRVS2EState) (W : Finset Nat) : Prop :=
  s.dirtyCount = W.card ∧ ∀ n, n ∈ W ↔ (s.content n).isSome = true

structure Written (s s' : BDRVS2EState) (sector : Nat) (data : List Sector) : Prop where
  l1Entries : s'.l1Entries = s.l1Entries
  sectorCount : s'.sectorCount = s.sectorCount
  content : s'.content = overwrite s.content sector data
  dirtyCount : ∀ W, Counted s W →
    s'.dirtyCount = (W ∪ Finset.Ico sector (sector + data.length)).card

theorem overwrite_isSome (d : Nat → Option Sector) (sector : Nat) (data : List Sector) (n : Nat) :
    (overwrite d sector data n).isSome = true ↔
      (sector ≤ n ∧ n < sector + data.length) ∨ (d n).isSome = true := by
  rw [overwrite]
  split
  next h =>
    rw [List.getElem?_eq_getElem (by omega)]
    exact iff_of_true rfl (.inl h)
  next h => exact (or_iff_right h).symm

theorem overwrite_append (d : Nat → Option Sector) (sector : Nat) (front back : List Sector) :
    overwrite (overwrite d sector front) (sector + front.length) back =
      overwrite d sector (front ++ back) := by
  funext n
  simp only [overwrite, length_append]
  grind

theorem Written.counted {s' : BDRVS2EState} (h : Written s s' sector data) (hs : Counted s W) :
    Counted s' (W ∪ Finset.Ico sector (sector + data.length)) := by
  refine ⟨h.dirtyCount W hs, fun n => ?_⟩
  rw [h.content, overwrite_isSome, Finset.mem_union, Finset.mem_Ico, hs.2, or_comm]

theorem Written.append
    (h1 : Written s s1 sector front) (h2 : Written s1 s2 (sector + front.length) back) :
    Written s s2 sector (front ++ back) where
  l1Entries := h2.l1Entries.trans h1.l1Entries
  sectorCount := h2.sectorCount.trans h1.sectorCount
  content := by rw [h2.content, h1.content, overwrite_append]
  dirtyCount W hs := by
    have hs2 := h2.dirtyCount _ (h1.counted hs)
    rwa [Finset.union_assoc, Finset.Ico_union_Ico_eq_Ico (by omega) (by omega), Nat.add_assoc,
      ← length_append] at hs2

theorem setDirty_bitmap (idx cnt : Nat) (bitmap : Nat → Bool) (d i : Nat) :
    (setDirty idx cnt bitmap d).1 i = true ↔ (idx ≤ i ∧ i < idx + cnt) ∨ bitmap i = true := by
  induction cnt generalizing idx bitmap d with
  | zero =>
    rw [setDirty]
    grind
  | succ cnt ih =>
    rw [setDirty, ih]
    grind

theorem setDirty_count (hW : ∀ i, idx ≤ i → i < idx + cnt → (base + i ∈ W ↔ bitmap i = true)) :
    (setDirty idx cnt bitmap W.card).2 = (W ∪ Finset.Ico (base + idx) (base + idx + cnt)).card := by
  induction cnt generalizing idx bitmap W with
  | zero => rw [setDirty, Nat.add_zero, Finset.Ico_self, Finset.union_empty]
  | succ cnt ih =>
    have hn := hW idx (Nat.le_refl _) (by omega)
    have hr : ∀ i, idx + 1 ≤ i → i < idx + 1 + cnt → (base + i ∈ insert (base + idx) W ↔
        (if i = idx then true else bitmap i) = true) := by
      intro i hi hlt
      rw [Finset.mem_insert, hW i (by omega) (by omega), if_neg (by omega)]
      exact or_iff_right (by omega)
    have hc : (if bitmap idx then W.card else W.card + 1) = (insert (base + idx) W).card := by
      split
      next h => rw [Finset.insert_eq_of_mem (hn.2 h)]
      next h => rw [Finset.card_insert_of_notMem fun hm => h (hn.1 hm)]
    rw [setDirty, hc, ih hr]
    congr 1
    ext n
    grind

theorem content_eq (s : BDRVS2EState) (n : Nat) : s.content n =
    if ((s.l1 (n / 128)).getD S2EBLKL2.new).dirtyBitmap (n % 128) then
      some (((s.l1 (n / 128)).getD S2EBLKL2.new).block (n % 128)) else none := by
  rw [content]
  cases s.l1 (n / 128) <;> rfl

theorem blkCopyAndSetDirty_spec {sector count : Nat}
    (hf : sector % 128 + count ≤ 128) (hp : sector / 128 < s.l1Entries)
    (hc : count ≤ buffer.length) : ∃ s', s.blkCopyAndSetDirty buffer sector count = .ok s' ∧
      Written s s' sector (buffer.take count) := by
  have hl : (buffer.take count).length = count := by rw [length_take, Nat.min_eq_left hc]
  rw [blkCopyAndSetDirty, if_pos hf, page, if_pos hp]
  refine ⟨_, rfl, rfl, rfl, ?_, ?_⟩
  · funext n
    simp only [overwrite, hl, content_eq]
    by_cases hn : n / 128 = sector / 128
    · have hin : sector ≤ n ∧ n < sector + count ↔
          sector % 128 ≤ n % 128 ∧ n % 128 < sector % 128 + count := by omega
      simp only [hn, if_pos, Option.getD_some, setDirty_bitmap, ← hin]
      by_cases hw : sector ≤ n ∧ n < sector + count
      · have hlt : n - sector < buffer.length := by omega
        have ho : n % 128 - sector % 128 = n - sector := by omega
        have ht : (buffer.take count)[n - sector]? = buffer[n - sector]? :=
          List.getElem?_take_of_lt (by omega)
        rw [if_pos (.inl hw), if_pos hw, if_pos hw, ht, ho,
          getD_eq_getElem?_getD, List.getElem?_eq_getElem hlt, Option.getD_some]
      · simp only [hw, false_or, if_false]
    · have hout : ¬ (sector ≤ n ∧ n < sector + count) := by omega
      simp only [if_neg hn, if_neg hout]
  · intro W hs
    have hdi : ∀ i, sector % 128 ≤ i → i < sector % 128 + count → (128 * (sector / 128) + i ∈ W ↔
          ((s.l1 (sector / 128)).getD S2EBLKL2.new).dirtyBitmap i = true) := by
      intro i hi hlt
      have hd : (128 * (sector / 128) + i) / 128 = sector / 128 := by omega
      have hm : (128 * (sector / 128) + i) % 128 = i := by omega
      rw [hs.2, content_eq, hd, hm]
      split <;> simp_all
    have hr := setDirty_count hdi
    rw [Nat.div_add_mod] at hr
    rw [hl, ← hr, ← hs.1]

theorem writeDirty_spec {sector : Nat} (hrn : sector + buffer.length ≤ 128 * s.l1Entries) :
    ∃ s', s.writeDirty buffer sector = .ok s' ∧ Written s s' sector buffer := by
  induction h : buffer.length using Nat.strong_induction_on generalizing s buffer sector with
  | _ length ih =>
    rw [writeDirty]
    subst h
    split
    next hn =>
      obtain rfl := eq_nil_of_length_eq_zero hn
      refine ⟨s, rfl, rfl, rfl, funext fun n => (if_neg (by simp)).symm, fun W hs => ?_⟩
      rw [length_nil, Nat.add_zero, Finset.Ico_self, Finset.union_empty, hs.1]
    next hp =>
      have hm := Nat.mod_lt sector (show 128 > 0 by decide)
      generalize hc : min (128 - sector % 128) buffer.length = count
      have hl : (buffer.take count).length = count := by rw [length_take]; omega
      have hdr : (buffer.drop count).length = buffer.length - count := length_drop
      have hle : count ≤ buffer.length := by omega
      have hf : sector % 128 + count ≤ 128 := by omega
      have hg : sector / 128 < s.l1Entries := by omega
      obtain ⟨s1, h1, hs1⟩ := blkCopyAndSetDirty_spec hf hg hle
      have hr : sector + count + (buffer.drop count).length ≤ 128 * s1.l1Entries := by
        rw [hdr, hs1.l1Entries]
        omega
      obtain ⟨s2, h2, hs2⟩ := ih _ (by omega) hr rfl
      refine ⟨s2, ?_, ?_⟩
      · simp only [h1, bind, Except.bind, h2]
      · rw [← take_append_drop count buffer]
        exact hs1.append (hl.symm ▸ hs2)

theorem readDirty_spec (f : Nat → Sector) {sector count : Nat}
    (hrn : sector + count ≤ 128 * s.l1Entries) :
    ∃ r, s.readDirty sector ((List.range' sector count).map f) = .ok r ∧
      r.2 = (List.range' sector count).map (fun n => (s.content n).getD (f n)) ∧
      (r.1 = false → r.2 = (List.range' sector count).map f) := by
  induction count using Nat.strong_induction_on generalizing sector with
  | _ count ih =>
    cases count with
    | zero => exact ⟨_, by rw [List.range'_zero, map_nil, readDirty], rfl, fun _ => rfl⟩
    | succ count =>
      have hp : sector / 128 < s.l1Entries := by omega
      have hsu : List.range' sector (count + 1) = sector :: List.range' (sector + 1) count :=
        List.range'_succ
      rw [hsu, map_cons, readDirty, page, if_pos hp]
      simp only [bind, Except.bind]
      cases hl : s.l1 (sector / 128) with
      | none =>
        generalize hic : 128 - sector % 128 = increment
        have hrs : sector + increment + (count + 1 - increment) ≤ 128 * s.l1Entries := by omega
        obtain ⟨r, hr, hrd, hcl⟩ := ih _ (by omega) hrs
        have hdr : (List.range' sector (count + 1)).drop increment =
            List.range' (sector + increment) (count + 1 - increment) := by
          rw [drop_range', Nat.mul_one]
        rw [← hdr, map_drop] at hr hrd hcl
        rw [← map_cons, ← hsu, hr]
        have hk : ((List.range' sector (count + 1)).map f).take increment =
            ((List.range' sector (count + 1)).map fun n => (s.content n).getD (f n)).take
              increment := by
          rw [← map_take, ← map_take]
          apply map_congr_left
          intro n hn
          obtain ⟨i, hi, rfl⟩ := mem_take_iff_getElem.1 hn
          have hm : (sector + 1 * i) / 128 = sector / 128 := by omega
          rw [getElem_range', content, hm, hl]
          rfl
        refine ⟨_, rfl, ?_, fun h => ?_⟩
        · dsimp only
          rw [hrd, hk, take_append_drop]
        · dsimp only
          rw [hcl h, take_append_drop]
      | some page =>
        obtain ⟨r, hr, hrd, hcl⟩ := ih count (Nat.lt_succ_self _)
          (show sector + 1 + count ≤ 128 * s.l1Entries by omega)
        simp only [hr, Except.map]
        have hc : s.content sector = if page.dirtyBitmap (sector % 128) then
            some (page.block (sector % 128)) else none := by simp only [content, hl]
        split_ifs at hc ⊢
        · refine ⟨_, rfl, ?_, nofun⟩
          rw [map_cons, hc, hrd, Option.getD_some]
        · refine ⟨_, rfl, ?_, fun hr => ?_⟩
          · rw [map_cons, hc, hrd, Option.getD_none]
          · rw [hcl hr]

variable (file : Nat → Sector)
theorem coReadv_spec {sector count : Nat} (hc : 0 < count)
    (hin : sector + count ≤ s.sectorCount) (ht : s.sectorCount ≤ 128 * s.l1Entries) :
    s.coReadv file sector count =
      .ok ((List.range' sector count).map fun n => (s.content n).getD (file n)) := by
  obtain ⟨r, hr, hd, hcl⟩ := readDirty_spec file (Nat.le_trans hin ht)
  rw [coReadv, if_neg (by omega), if_pos hin]
  simp only [hr, Except.map]
  split
  · rw [hd]
  next h => rw [← hcl (eq_false_of_ne_true h), hd]

structure Serves (length : Nat) (d : Nat → Option Sector) (s : BDRVS2EState) : Prop where
  sectorCount : s.sectorCount = length / sectorSize
  l1Entries : s.sectorCount ≤ 128 * s.l1Entries
  content : s.content = d
  counted : ∃ W, Counted s W

theorem serves_blkInit (length : Nat) : Serves length (fun _ => none) (blkInit length) where
  sectorCount := Nat.mul_div_cancel _ (by decide)
  l1Entries := by
    simp only [blkInit, sectorSize]
    omega
  content := rfl
  counted := ⟨∅, rfl, fun n => by simp [content, blkInit]⟩

section
variable {d : Nat → Option Sector} (hs : Serves length d s)
include hs
theorem serve_spec {r : DiskRequest} (hr : r.Inside (length / sectorSize)) :
    ∃ s', s.serve file r = .ok s' ∧ Serves length (r.apply d) s' := by
  cases r with
  | readv sector count =>
    refine ⟨s, ?_, hs⟩
    rw [serve, coReadv_spec file hr.1 (hs.sectorCount ▸ hr.2) hs.l1Entries]
    rfl
  | writev sector data =>
    have hin : sector + data.length ≤ s.sectorCount := hs.sectorCount ▸ hr.2
    have hp : 0 < data.length := hr.1
    obtain ⟨s', hwr, hw⟩ := writeDirty_spec (Nat.le_trans hin hs.l1Entries)
    obtain ⟨W, hW⟩ := hs.counted
    refine ⟨s', ?_, ?_, ?_, ?_, _, hw.counted hW⟩
    · rw [serve, coWritev, if_neg (by omega), if_neg (by omega), hwr]
    · rw [hw.sectorCount, hs.sectorCount]
    · rw [hw.sectorCount, hw.l1Entries]
      exact hs.l1Entries
    · rw [hw.content, hs.content]
      rfl

theorem serve_run {requests : List DiskRequest} (hin : ∀ r ∈ requests,
    r.Inside (length / sectorSize)) : ∃ s', requests.foldlM (serve file) s = .ok s' ∧
    Serves length (requests.foldl DiskRequest.apply d) s' := by
  induction requests generalizing s d with
  | nil => exact ⟨s, rfl, hs⟩
  | cons r requests ih =>
    obtain ⟨s1, hsr, hs1⟩ := serve_spec file hs (hin r mem_cons_self)
    obtain ⟨s2, hr, hs2⟩ := ih hs1 fun r h => hin r (mem_cons_of_mem _ h)
    refine ⟨s2, ?_, hs2⟩
    rw [foldlM_cons, hsr]
    exact hr

end

end BDRVS2EState
end Chef
