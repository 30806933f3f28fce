import Chef.MemoryCheckerRuns

namespace Chef
open BitVec hiding and_comm not_not or_assoc
open Foundations List
def MemoryRange.Holds (r : MemoryRange) (address : BitVec 64) : Prop :=
  r.start.toNat ≤ address.toNat ∧ address.toNat < r.stop

open MemoryRange
instance (r : MemoryRange) (address : BitVec 64) : Decidable (r.Holds address) :=
  inferInstanceAs (Decidable (_ ∧ _))

namespace MemoryChecker
theorem not_grantable_iff :
    ¬Grantable region m ↔ region.range.size = 0 ∨ 2 ^ 64 ≤ region.range.stop ∨
      ∃ r ∈ m.toList, region.range.Overlaps r.range := by
  have hz : region.range.size = 0 ↔ ¬0 < region.range.size.toNat := by
    rw [Nat.pos_iff_ne_zero, not_not]
    exact toNat_inj.symm
  rw [Grantable, Valid, not_and_or, not_and_or, hz, Nat.not_lt, Nat.not_lt, or_assoc]
  simp only [not_forall, not_not, exists_prop]

theorem grantMemory_ne (hm : MemoryMap.WellFormed m) (h : Grantable region m) :
    grantMemory region m ≠ m := by
  intro heq
  rw [grantMemory_granted hm h] at heq
  have hmem := ((replace_spec hm h.1 h.2).2 region).2 (.inl rfl)
  rw [heq] at hmem
  exact h.2 region hmem ⟨h.1.start_lt, h.1.start_lt⟩

/-- A grant that would break validity or disjointness is rejected. -/
theorem run_regions_apart (ops : List CheckerOp) :
    (∀ r ∈ (run ops).toList, 0 < r.range.size.toNat ∧ r.range.stop < 2 ^ 64) ∧
    (run ops).toList.Pairwise (fun a b => ¬a.range.Overlaps b.range) ∧
    ∀ region : MemoryRegion,
      (grantMemory region (run ops) = run ops ↔ region.range.size = 0 ∨ 2 ^ 64 ≤ region.range.stop ∨
        ∃ r ∈ (run ops).toList, region.range.Overlaps r.range) ∧
      (grantMemory region (run ops) ≠ run ops →
        ∀ x, x ∈ (grantMemory region (run ops)).toList ↔ x = region ∨ x ∈ (run ops).toList) := by
  have hm := run_wellFormed ops
  refine ⟨hm.valid, hm.ordered.imp fun hab => mt And.right (Nat.not_lt.2 hab), fun region => ?_⟩
  rw [← not_grantable_iff]
  by_cases h : Grantable region (run ops)
  · refine ⟨iff_of_false (grantMemory_ne hm h) (not_not.2 h), fun _ => ?_⟩
    rw [grantMemory_granted hm h]
    exact (replace_spec hm h.1 h.2).2
  · have heq := grantMemory_rejected hm h
    exact ⟨iff_of_true heq h, fun hne => absurd heq hne⟩

inductive PointerError where
  | unallocated
  | middle
  deriving DecidableEq

/-- Why a state that revokes by a pointer is terminated. -/
def pointerError (pointer : BitVec 64) (m : MemoryMap) : Option PointerError :=
  match findMemoryRegion pointer m with
  | none => some .unallocated
  | some range => if range.start ≠ pointer then some .middle else none

/-- Whether a pointer is to the start or the middle of a region. -/
def diagnosis (pointer : BitVec 64) (m : MemoryMap) : Option PointerError :=
  if ∃ r ∈ m.toList, r.range.start = pointer then none
  else if ∃ r ∈ m.toList, r.range.Holds pointer then some .middle
  else some .unallocated

section
variable {m : MemoryMap}
theorem valid_byte (h : address ≠ allOnes 64) : Valid ⟨address, 1⟩ := by
  have hne : address.toNat ≠ 2 ^ 64 - 1 := fun he =>
    h (eq_of_toNat_eq (he.trans (toNat_allOnes).symm))
  have hlt := address.isLt
  refine ⟨Nat.one_pos, ?_⟩
  change address.toNat + 1 < 2 ^ 64
  omega

theorem overlaps_byte_iff : Overlaps ⟨address, 1⟩ r ↔ r.Holds address := by
  change address.toNat < r.stop ∧ r.start.toNat < address.toNat + 1 ↔ _
  rw [Holds, Nat.lt_succ_iff, and_comm]

variable (hm : m.WellFormed)
include hm
theorem eq_of_holds (hx : x ∈ m.toList) (hy : y ∈ m.toList) (hxa : x.range.Holds address)
    (hya : y.range.Holds address) : x = y := by
  by_contra hne
  have hap := hm.apart hx hy hne
  rw [Before, Before] at hap
  have := hxa.1
  have := hxa.2
  have := hya.1
  have := hya.2
  omega

theorem findMemoryRegion_eq_none_iff : findMemoryRegion address m = none ↔
    address = allOnes 64 ∨ ∀ r ∈ m.toList, address.toNat < r.range.start.toNat := by
  rw [findMemoryRegion, Option.map_eq_none_iff, lookupPrevious]
  by_cases ha : address = allOnes 64
  · subst ha
    have hlt (x : MemoryRange) : lt ⟨allOnes 64, 1⟩ x = true := decide_eq_true (Nat.zero_le _)
    have hc : SearchTree.Cuts lt MemoryRegion.range ⟨allOnes 64, 1⟩
        m.toList := hm.ordered.imp_of_mem fun {a b} ha _ _ => by
      refine ⟨fun _ => hlt _, fun _ => (lt_iff (hm.valid a ha)).2 ?_⟩
      exact Nat.le_pred_of_lt (hm.valid a ha).2
    rw [SearchTree.lookupPrevious_eq_none_iff hc]
    exact iff_of_true ⟨rfl, fun x _ => hlt _⟩ (.inl rfl)
  · have hv := valid_byte ha
    rw [SearchTree.lookupPrevious_eq_none_iff (cuts_of_wellFormed hm hv), or_iff_right ha,
      and_iff_right rfl]
    simp only [lt_iff hv]
    rfl

/-- A region is found exactly if it contains the address. -/
def FindsHolder (address : BitVec 64) (m : MemoryMap) : Prop :=
  ∀ range, findMemoryRegion address m = some range ↔
    ∃ r ∈ m.toList, r.range.Holds address ∧ r.range = range

theorem findsHolder_iff : FindsHolder address m ↔ (∃ r ∈ m.toList, r.range.Holds address) ∨
    address = allOnes 64 ∨ ∀ r ∈ m.toList, address.toNat < r.range.start.toNat := by
  rw [← findMemoryRegion_eq_none_iff hm]
  constructor
  · intro h
    cases hf : findMemoryRegion address m with
    | none => exact .inr rfl
    | some range =>
      obtain ⟨r, hr, hho, _⟩ := (h range).1 hf
      exact .inl ⟨r, hr, hho⟩
  · rintro (⟨r, hr, hho⟩ | hn) range
    · have ha : address ≠ allOnes 64 := by
        rintro rfl
        exact Nat.not_le.2 hho.2 (Nat.le_pred_of_lt (hm.valid r hr).2)
      rcases lookupPrevious_cases hm (valid_byte ha) with ⟨x, _, hx, hmem, hov⟩ | ⟨hn, _⟩
      · rw [findMemoryRegion, hx, Option.map_some, Option.some.injEq]
        refine ⟨fun heq => ⟨x, hmem, overlaps_byte_iff.1 hov, heq⟩, ?_⟩
        rintro ⟨y, hy, hya, rfl⟩
        rw [eq_of_holds hm hmem hy (overlaps_byte_iff.1 hov) hya]
      · exact absurd (overlaps_byte_iff.2 hho) (hn r hr)
    · rw [hn]
      refine iff_of_false (Option.some_ne_none _).symm ?_
      rintro ⟨r, hr, hho, _⟩
      rcases (findMemoryRegion_eq_none_iff hm).1 hn with rfl | ht
      · exact Nat.not_le.2 hho.2 (Nat.le_pred_of_lt (hm.valid r hr).2)
      · exact Nat.not_le.2 (ht r hr) hho.1

theorem FindsHolder.pointerError_eq (h : FindsHolder address m) :
    pointerError address m = diagnosis address m := by
  have hst (r : MemoryRegion) (hr : r ∈ m.toList) : r.range.Holds r.range.start :=
    ⟨Nat.le_refl _, (hm.valid r hr).start_lt⟩
  rw [pointerError, diagnosis]
  cases hf : findMemoryRegion address m with
  | none =>
    have hno : ¬∃ r ∈ m.toList, r.range.Holds address := by
      rintro ⟨r, hr, hho⟩
      rw [(h r.range).2 ⟨r, hr, hho, rfl⟩] at hf
      cases hf
    rw [if_neg, if_neg hno]
    rintro ⟨r, hr, rfl⟩
    exact hno ⟨r, hr, hst r hr⟩
  | some range =>
    obtain ⟨r, hr, hho, rfl⟩ := (h range).1 hf
    by_cases heq : r.range.start = address
    · rw [if_pos ⟨r, hr, heq⟩]
      exact if_neg (not_not.2 heq)
    rw [if_neg, if_pos ⟨r, hr, hho⟩]
    · exact if_pos heq
    · rintro ⟨y, hy, rfl⟩
      exact heq (eq_of_holds hm hr hy hho (hst y hy) ▸ rfl)

end

/-- The region before an address is found if none contains it. -/
theorem findMemoryRegion_right_iff (ops : List CheckerOp) (address : BitVec 64) :
    FindsHolder address (run ops) ∧ pointerError address (run ops) = diagnosis address (run ops) ↔
      (∃ r ∈ (run ops).toList, r.range.Holds address) ∨ address = allOnes 64 ∨
        ∀ r ∈ (run ops).toList, address.toNat < r.range.start.toNat := by
  have hm := run_wellFormed ops
  rw [← findsHolder_iff hm]
  exact ⟨And.left, fun h => ⟨h, h.pointerError_eq hm⟩⟩

theorem hundredBytes_holds_behind :
    findMemoryRegion 300 (run [.grant hundredBytes]) = some hundredBytes.range ∧
      pointerError 300 (run [.grant hundredBytes]) = some .middle ∧
      ¬∃ r ∈ (run [.grant hundredBytes]).toList, r.range.Holds 300 := by
  refine ⟨by decide, by decide, ?_⟩
  have hl : (run [.grant hundredBytes]).toList = [hundredBytes] := by decide
  rw [hl]
  rintro ⟨r, hr, hho⟩
  rw [mem_singleton.1 hr] at hho
  exact absurd hho.2 (by decide)

end MemoryChecker
end Chef
