import Mathlib.Algebra.Group.Nat.Defs
import Mathlib.Data.List.Pairwise
import Chef.MemoryChecker

namespace Chef
open Foundations List BitVec MemoryRange SearchTree Bool Option
namespace MemoryRange
def stop (r : MemoryRange) : Nat := r.start.toNat + r.size.toNat

def Valid (r : MemoryRange) : Prop := 0 < r.size.toNat ∧ r.stop < 2 ^ 64

def Before (a b : MemoryRange) : Prop := a.stop ≤ b.start.toNat

def Overlaps (a b : MemoryRange) : Prop := a.start.toNat < b.stop ∧ b.start.toNat < a.stop

theorem Valid.toNat_stop (h : Valid a) : (a.start + a.size).toNat = a.stop := by
  exact Nat.mod_eq_of_lt h.2

theorem lt_iff (h : Valid a) : lt a b = true ↔ Before a b := by
  rw [lt, decide_eq_true_iff, le_def, h.toNat_stop, Before]

theorem Valid.start_lt (h : Valid a) : a.start.toNat < a.stop := by
  have hp := h.1
  rw [stop]
  omega

theorem before_trans (hb : Valid b) (hab : Before a b) (hbc : Before b c) : Before a c :=
  Nat.le_trans hab (Nat.le_trans (Nat.le_of_lt hb.start_lt) hbc)

end MemoryRange

/-- Granted regions are valid and lie one before the other. -/
structure MemoryMap.WellFormed (m : MemoryMap) : Prop where
  valid : ∀ r ∈ m.toList, r.range.Valid
  ordered : m.toList.Pairwise fun a b => a.range.Before b.range

theorem MemoryMap.WellFormed.apart {m : MemoryMap} (hm : m.WellFormed) (hx : x ∈ m.toList)
    (hy : y ∈ m.toList) (hne : x ≠ y) : x.range.Before y.range ∨ y.range.Before x.range := by
  have hs : Std.Symm fun a b : MemoryRegion =>
      a.range.Before b.range ∨ b.range.Before a.range := ⟨fun _ _ => Or.symm⟩
  have hp : m.toList.Pairwise fun a b => a.range.Before b.range ∨ b.range.Before a.range :=
    hm.ordered.imp .inl
  exact hp.forall hx hy hne

namespace MemoryChecker
section
variable {m : MemoryMap} {range : MemoryRange} (hm : m.WellFormed) (hr : range.Valid)
include hm hr
theorem cuts_of_wellFormed : Cuts lt MemoryRegion.range range m.toList := by
  apply hm.ordered.imp_of_mem
  intro a b ha hb hab
  have hva := hm.valid a ha
  have hvb := hm.valid b hb
  rw [lt_iff hr, lt_iff hr, lt_iff hva, lt_iff hvb]
  exact ⟨fun h => before_trans hva h hab, fun h => before_trans hvb hab h⟩

theorem same_iff_overlaps (hx : x ∈ m.toList) :
    same lt MemoryRegion.range range x = true ↔ range.Overlaps x.range := by
  rw [same, and_eq_true, not_eq_true', not_eq_true', ← not_eq_true, ← not_eq_true, lt_iff hr,
    lt_iff (hm.valid x hx), Before, Before, Overlaps]
  omega

theorem lookupPrevious_cases : (∃ x, m.highest (same lt MemoryRegion.range range) = some x ∧
      lookupPrevious range m = some x ∧ x ∈ m.toList ∧ range.Overlaps x.range) ∨
    (∀ x ∈ m.toList, ¬range.Overlaps x.range) ∧
      ∀ x, lookupPrevious range m = some x → x ∈ m.toList ∧ x.range.Before range := by
  cases h : m.highest (same lt MemoryRegion.range range) with
  | some x =>
    obtain ⟨hx, hs⟩ := mem_of_highest h
    exact .inl ⟨x, rfl, lookupPrevious_of_highest (cuts_of_wellFormed hm hr) h, hx,
      (same_iff_overlaps hm hr hx).1 hs⟩
  | none =>
    have hno := highest_eq_none_iff.1 h
    refine .inr ⟨fun x hx hov => hno x hx ((same_iff_overlaps hm hr hx).2 hov), ?_⟩
    intro x hx
    rcases lookupPrevious_less hno hx with hrs | ⟨hmem, hlt⟩
    · cases hrs
    · exact ⟨hmem, (lt_iff (hm.valid x hmem)).1 hlt⟩

end

theorem WellFormed.of_sublist {m m' : MemoryMap} (h : m.WellFormed)
    (hs : m'.toList.Sublist m.toList) : m'.WellFormed :=
  ⟨fun r hr => h.valid r (hs.subset hr), h.ordered.sublist hs⟩

theorem valid_of_granted {range : MemoryRange}
    (h : ¬(range.size = 0 ∨ range.start + range.size < range.start)) : range.Valid := by
  obtain ⟨hs, hw⟩ := not_or.1 h
  have hp : range.size.toNat ≠ 0 := fun h0 => hs (eq_of_toNat_eq h0)
  rw [lt_def, toNat_add] at hw
  refine ⟨Nat.pos_of_ne_zero hp, ?_⟩
  rw [stop]
  omega

variable {m : MemoryMap}
theorem replace_spec (hm : m.WellFormed)
    (hv : region.range.Valid) (hno : ∀ x ∈ m.toList, ¬region.range.Overlaps x.range) :
    MemoryMap.WellFormed (m.replace lt MemoryRegion.range region) ∧
      ∀ x, x ∈ (m.replace lt MemoryRegion.range region).toList ↔ x = region ∨ x ∈ m.toList := by
  obtain ⟨l, r, heq, hp, hless, hmr⟩ := toList_replace (cuts_of_wellFormed hm hv)
    fun x hx hs => hno x hx ((same_iff_overlaps hm hv hx).1 hs)
  have hmem : ∀ x, x ∈ (m.replace lt MemoryRegion.range region).toList ↔
      x = region ∨ x ∈ m.toList := by
    intro x
    rw [hp, heq, mem_append, mem_cons, mem_append]
    exact or_left_comm
  have hl : ∀ x ∈ l, x ∈ m.toList := fun x hx => heq ▸ mem_append_left _ hx
  have ho := hm.ordered
  rw [heq, pairwise_append] at ho
  refine ⟨⟨fun x hx => ?_, ?_⟩, hmem⟩
  · rcases (hmem x).1 hx with rfl | hx
    · exact hv
    · exact hm.valid x hx
  rw [hp, pairwise_append, pairwise_cons]
  refine ⟨ho.1, ⟨fun x hx => (lt_iff hv).1 (hmr x hx), ho.2.1⟩, ?_⟩
  intro a ha b hb
  rcases mem_cons.1 hb with rfl | hb
  · exact (lt_iff (hm.valid a (hl a ha))).1 (hless a ha)
  · exact ho.2.2 a ha b hb

theorem not_granted_of_valid {range : MemoryRange} (hv : range.Valid) :
    ¬(range.size = 0 ∨ range.start + range.size < range.start) := by
  have hp := hv.1
  rintro (hz | hw)
  · rw [hz] at hp
    exact absurd hp (by decide)
  · rw [lt_def, hv.toNat_stop] at hw
    exact Nat.lt_asymm hw hv.start_lt

/-- It is valid, and overlaps no other region. -/
def Grantable (region : MemoryRegion) (m : MemoryMap) : Prop :=
  region.range.Valid ∧ ∀ y ∈ m.toList, ¬region.range.Overlaps y.range

theorem grantMemory_granted (hm : m.WellFormed) (h : Grantable region m) :
    grantMemory region m = m.replace lt MemoryRegion.range region := by
  rw [grantMemory]
  simp only [if_neg (not_granted_of_valid h.1)]
  rcases lookupPrevious_cases hm h.1 with ⟨y, _, _, hmem, hov⟩ | ⟨_, hp⟩
  · exact absurd hov (h.2 y hmem)
  cases hy : lookupPrevious region.range m with
  | none => rfl
  | some y =>
    obtain ⟨hmem, hb⟩ := hp y hy
    apply if_neg
    rw [lt_def, (hm.valid y hmem).toNat_stop]
    exact Nat.not_lt.2 hb

theorem grantMemory_rejected (hm : m.WellFormed) (h : ¬Grantable region m) :
    grantMemory region m = m := by
  rw [grantMemory]
  by_cases hb : region.range.size = 0 ∨ region.range.start + region.range.size < region.range.start
  · exact if_pos hb
  have hv := valid_of_granted hb
  simp only [if_neg hb]
  rcases lookupPrevious_cases hm hv with ⟨y, _, hy, hmem, hov⟩ | ⟨hno, _⟩
  · rw [hy]
    apply if_pos
    rw [lt_def, (hm.valid y hmem).toNat_stop]
    exact hov.1
  · exact absurd ⟨hv, hno⟩ h

theorem grantMemory_wellFormed (hm : m.WellFormed) (region : MemoryRegion) :
    (grantMemory region m).WellFormed := by
  by_cases h : Grantable region m
  · rw [grantMemory_granted hm h]
    exact (replace_spec hm h.1 h.2).1
  · rw [grantMemory_rejected hm h]
    exact hm

theorem sublist_revokeMemory (range : MemoryRange) (perms : BitVec 32) (pattern : String)
    (id : BitVec 64) (m : MemoryMap) :
    (revokeMemory range perms pattern id m).2.toList.Sublist m.toList := by
  rw [revokeMemory]
  split
  · exact .refl _
  split
  · exact .refl _
  split
  · exact .refl _
  split
  · exact .refl _
  · exact toList_remove_sublist _ _

theorem sublist_revokeMatching (pattern : String) (id : BitVec 64) (n : Nat) (m : MemoryMap) :
    (revokeMatching pattern id n m).toList.Sublist m.toList := by
  induction n generalizing m with
  | zero => exact .refl _
  | succ n ih =>
    rw [revokeMatching]
    split
    · exact .refl _
    · exact (ih _).trans (sublist_revokeMemory _ _ _ _ _)

theorem perform_cases (m : MemoryMap) (op : CheckerOp) : (perform m op).toList.Sublist m.toList ∨
      ∃ region, op = .grant region ∧ perform m op = grantMemory region m := by
  cases op with
  | grant region => exact .inr ⟨region, rfl, rfl⟩
  | revoke range perms pattern id => exact .inl (sublist_revokeMemory range perms pattern id m)
  | revokeMatching pattern id => exact .inl (sublist_revokeMatching pattern id _ m)
  | revokeByPointer pointer pattern =>
    rw [perform, revokeMemoryByPointer]
    split
    · exact .inl (.refl _)
    split
    · exact .inl (.refl _)
    · exact .inl (sublist_revokeMemory _ _ _ _ m)

theorem perform_wellFormed (hm : m.WellFormed) (op : CheckerOp) : (perform m op).WellFormed := by
  obtain hs | ⟨region, _, hg⟩ := perform_cases m op
  · exact WellFormed.of_sublist hm hs
  · rw [hg]
    exact grantMemory_wellFormed hm region

theorem run_wellFormed (ops : List CheckerOp) : (run ops).WellFormed :=
  foldlRecOn ops perform ⟨forall_mem_nil _, .nil⟩ fun _ hm op _ => perform_wellFormed hm op

def Covers (r : MemoryRegion) (range : MemoryRange) (perms : BitVec 8) : Prop :=
  r.range.start.toNat ≤ range.start.toNat ∧ range.stop ≤ r.range.stop ∧
    perms.setWidth 32 &&& r.perms = perms.setWidth 32

/-- The region begins inside of the access and reaches its end. -/
def BeginsInside (r : MemoryRegion) (range : MemoryRange) (perms : BitVec 8) : Prop :=
  range.start.toNat < r.range.start.toNat ∧ range.stop ≤ r.range.stop ∧
    perms.setWidth 32 &&& r.perms = perms.setWidth 32

/-- The overlapping region nearest the root. -/
def nearestRoot (range : MemoryRange) (m : MemoryMap) : Option MemoryRegion :=
  m.highest fun x => decide (range.start.toNat < x.range.stop ∧ x.range.start.toNat < range.stop)

theorem highest_congr {t : SearchTree α} (h : ∀ x ∈ t.toList, p x = q x) :
    t.highest p = t.highest q := by
  induction t with
  | nil => rfl
  | node l v r ihl ihr =>
    rw [SearchTree.toList, forall_mem_append, forall_mem_cons] at h
    rw [highest, highest, h.2.1, ihl h.1, ihr h.2.2]

section
variable (hm : m.WellFormed) {range : MemoryRange} (hr : range.Valid)
include hm hr
theorem nearestRoot_eq : nearestRoot range m = m.highest (same lt MemoryRegion.range range) := by
  apply highest_congr
  intro x hx
  rw [Bool.eq_iff_iff, same_iff_overlaps hm hr hx, decide_eq_true_iff, Overlaps]

theorem accessError_eq_none_iff : accessError range.start range.size perms m = none ↔
      ∃ x, nearestRoot range m = some x ∧ range.stop ≤ x.range.stop ∧
        perms.setWidth 32 &&& x.perms = perms.setWidth 32 := by
  have hw : ¬(range.size ≠ unspecified ∧ range.start + range.size < range.start) := by
    rw [lt_def, hr.toNat_stop]
    exact fun h => Nat.lt_asymm h.2 hr.start_lt
  rw [accessError, if_neg hw, nearestRoot_eq hm hr]
  rcases lookupPrevious_cases hm hr with ⟨x, hh, hx, hmem, _⟩ | ⟨hno, hpre⟩
  · have hv := hm.valid x hmem
    rw [hx, hh]
    simp only [lt_def, hv.toNat_stop, hr.toNat_stop]
    by_cases hsp : x.range.stop < range.stop
    · rw [if_pos hsp]
      refine iff_of_false (some_ne_none _) ?_
      rintro ⟨y, hy, hle, _⟩
      cases hy
      omega
    · rw [if_neg hsp]
      by_cases hpe : perms.setWidth 32 &&& x.perms = perms.setWidth 32
      · rw [if_neg fun h => h hpe]
        exact iff_of_true rfl ⟨x, rfl, Nat.not_lt.1 hsp, hpe⟩
      rw [if_pos hpe]
      refine iff_of_false (some_ne_none _) ?_
      rintro ⟨y, hy, _, hp⟩
      cases hy
      exact hpe hp
  · have hh : m.highest (same lt MemoryRegion.range range) = none :=
      highest_eq_none_iff.2 fun x hx hs => hno x hx ((same_iff_overlaps hm hr hx).1 hs)
    rw [hh]
    refine iff_of_false ?_ ?_
    · cases hx : lookupPrevious range m with
      | none =>
        exact some_ne_none _
      | some x =>
        obtain ⟨hmem, hb⟩ := hpre x hx
        have hlt : x.range.start + x.range.size < range.start + range.size := by
          rw [lt_def, (hm.valid x hmem).toNat_stop, hr.toNat_stop]
          exact Nat.lt_of_le_of_lt hb hr.start_lt
        simp only [if_pos hlt]
        exact some_ne_none _
    · rintro ⟨x, hx, _⟩
      cases hx

theorem exists_covers_iff {perms : BitVec 8} : (∃ r ∈ m.toList, Covers r range perms) ↔
      ∃ x, nearestRoot range m = some x ∧ Covers x range perms := by
  constructor
  · rintro ⟨r, hmem, hc⟩
    have hst := hr.start_lt
    have hov : range.Overlaps r.range := by
      rw [Overlaps]
      have := hc.1
      have := hc.2.1
      omega
    rcases lookupPrevious_cases hm hr with ⟨x, hh, _, hx, ho⟩ | ⟨hno, _⟩
    · have heq : x = r := by
        by_contra hne
        have hor := hm.apart hx hmem hne
        have h1 := hc.1
        have h2 := hc.2.1
        rw [Overlaps] at ho
        rw [Before, Before] at hor
        omega
      exact ⟨r, by rw [nearestRoot_eq hm hr, hh, heq], hc⟩
    · exact absurd hov (hno r hmem)
  · rintro ⟨x, hx, hc⟩
    exact ⟨x, (mem_of_highest hx).1, hc⟩

end

/-- The answer is right unless the nearest region begins inside the access. -/
theorem checkMemoryAccess_correct_iff (ops : List CheckerOp) (start size : BitVec 64)
    (perms : BitVec 8) (hsize : 0 < size.toNat) (hfits : start.toNat + size.toNat < 2 ^ 64) :
    ((checkMemoryAccess true start size perms (run ops) = true ↔
      ∃ r ∈ (run ops).toList, Covers r ⟨start, size⟩ perms) ↔
    ¬∃ r, nearestRoot ⟨start, size⟩ (run ops) = some r ∧ BeginsInside r ⟨start, size⟩ perms) := by
  have hm := run_wellFormed ops
  have hr : Valid ⟨start, size⟩ := ⟨hsize, hfits⟩
  have hc : checkMemoryAccess true start size perms (run ops) = true ↔
      ∃ x, nearestRoot ⟨start, size⟩ (run ops) = some x ∧ stop ⟨start, size⟩ ≤ x.range.stop ∧
        perms.setWidth 32 &&& x.perms = perms.setWidth 32 := by
    rw [← accessError_eq_none_iff hm hr, checkMemoryAccess, Bool.not_true, Bool.false_or,
      isNone_iff_eq_none]
  rw [hc, exists_covers_iff hm hr]
  cases hx : nearestRoot ⟨start, size⟩ (run ops) with
  | none => simp
  | some x =>
    simp only [some.injEq, exists_eq_left', Covers, BeginsInside]
    constructor
    · rintro hi ⟨hlt, hs⟩
      exact absurd (hi.1 hs).1 (Nat.not_le.2 hlt)
    · intro hn
      refine ⟨fun hs => ⟨Nat.not_lt.1 fun hlt => hn ⟨hlt, hs⟩, hs⟩, And.right⟩

def hundredBytes : MemoryRegion := ⟨⟨100, 100⟩, 1, "heap", 0, false⟩

theorem hundredBytes_checked : checkMemoryAccess true 120 20 1 (run [.grant hundredBytes]) = true ↔
      ∃ r ∈ (run [.grant hundredBytes]).toList, Covers r ⟨120, 20⟩ 1 := by
  apply (checkMemoryAccess_correct_iff [.grant hundredBytes] 120 20 1 (by decide) (by decide)).2
  rintro ⟨r, hr, hin, _⟩
  have hro : nearestRoot ⟨120, 20⟩ (run [.grant hundredBytes]) = some hundredBytes := by decide
  rw [hro] at hr
  cases hr
  exact absurd hin (by decide)

theorem hundredBytes_admits_before :
    checkMemoryAccess true 90 20 1 (run [.grant hundredBytes]) = true ∧
      ¬∃ r ∈ (run [.grant hundredBytes]).toList, Covers r ⟨90, 20⟩ 1 := by
  refine ⟨by decide, ?_⟩
  rintro ⟨r, hr, hle, _⟩
  have hl : (run [.grant hundredBytes]).toList = [hundredBytes] := by decide
  rw [hl] at hr
  rw [mem_singleton.1 hr] at hle
  exact absurd hle (by decide)

end MemoryChecker
end Chef
