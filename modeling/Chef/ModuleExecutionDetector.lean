import Chef.GrantedRegions

namespace Chef
open List
structure ModuleDescriptor where
  pid : BitVec 64
  loadBase : BitVec 64
  size : BitVec 64
  deriving DecidableEq

namespace ModuleDescriptor
def range (d : ModuleDescriptor) : MemoryRange := ⟨d.loadBase, d.size⟩

def byLoadBase (s1 s2 : ModuleDescriptor) : Bool :=
  if s1.pid = s2.pid then decide (s1.loadBase + s1.size ≤ s2.loadBase) else decide (s1.pid < s2.pid)

def Holds (d : ModuleDescriptor) (pid pc : BitVec 64) : Prop := d.pid = pid ∧ d.range.Holds pc

instance (d : ModuleDescriptor) (pid pc : BitVec 64) : Decidable (d.Holds pid pc) :=
  inferInstanceAs (Decidable (_ ∧ _))

end ModuleDescriptor

open ModuleDescriptor
/-- The loaded tracked modules as an ordered set, and the last one found. -/
structure ModuleTransitionState where
  descriptors : List ModuleDescriptor
  cachedModule : Option ModuleDescriptor
  valid : ∀ d ∈ descriptors, d.range.Valid
  ordered : descriptors.Pairwise fun a b => byLoadBase a b = true
  loaded : ∀ d ∈ cachedModule, d ∈ descriptors

namespace ModuleTransitionState
/-- `find` of a set: the first element not less, if not greater. -/
def find (d : ModuleDescriptor) (s : ModuleTransitionState) : Option ModuleDescriptor :=
  (s.descriptors.find? fun x => !byLoadBase x d).filter fun x => !byLoadBase d x

theorem find_mem {s : ModuleTransitionState} (h : x ∈ s.find d) : x ∈ s.descriptors :=
  mem_of_find?_eq_some (Option.filter_eq_some_iff.1 h).1

/-- The lookup of tracked modules. -/
def getDescriptor (pid pc : BitVec 64) (s : ModuleTransitionState) :
    Option ModuleDescriptor × ModuleTransitionState :=
  match s.cachedModule.filter fun md =>
    decide (pid = md.pid ∧ md.loadBase ≤ pc ∧ pc < md.loadBase + md.size) with
  | some md => (some md, s)
  | none =>
    let it := s.find ⟨pid, pc, 1⟩
    (it, { s with cachedModule := it, loaded := fun _ => find_mem })

/-- The program counter is cut to 32 bits. -/
def getCurrentDescriptor (pid pc : BitVec 64) (s : ModuleTransitionState) :
    Option ModuleDescriptor × ModuleTransitionState :=
  s.getDescriptor pid ((pc.setWidth 32).setWidth 64)

variable {s : ModuleTransitionState} {pid pc : BitVec 64}
theorem byLoadBase_same (ha : a.range.Valid) (h : a.pid = b.pid) :
    byLoadBase a b = true ↔ a.range.Before b.range := by
  rw [byLoadBase, if_pos h]
  exact MemoryRange.lt_iff (b := b.range) ha

theorem holds_iff (hv : d.range.Valid) : d.Holds pid pc ↔
    ¬byLoadBase d ⟨pid, pc, 1⟩ = true ∧ ¬byLoadBase ⟨pid, pc, 1⟩ d = true := by
  by_cases hp : d.pid = pid
  · subst hp
    rw [byLoadBase_same (b := ⟨d.pid, pc, 1⟩) hv rfl]
    by_cases hpc : pc = BitVec.allOnes 64
    · have hsp : d.range.stop ≤ pc.toNat := hpc ▸ Nat.le_pred_of_lt hv.2
      exact iff_of_false (fun h => Nat.not_le.2 h.2.2 hsp) fun h => h.1 hsp
    · rw [byLoadBase_same (a := ⟨d.pid, pc, 1⟩) (b := d) (MemoryChecker.valid_byte hpc) rfl]
      refine ⟨fun h => ⟨Nat.not_le.2 h.2.2, Nat.not_le.2 (Nat.lt_succ_of_le h.2.1)⟩, ?_⟩
      exact fun h => ⟨rfl, Nat.lt_succ_iff.1 (Nat.not_le.1 h.2), Nat.not_le.1 h.1⟩
  · refine iff_of_false (fun h => hp h.1) ?_
    rw [byLoadBase, byLoadBase, if_neg hp, if_neg (Ne.symm hp), decide_eq_true_iff,
      decide_eq_true_iff, BitVec.not_lt, BitVec.not_lt]
    exact fun h => hp (BitVec.le_antisymm h.2 h.1)

theorem less_of_holds (ha : a.range.Valid)
    (hl : byLoadBase a d = true) (h : d.Holds pid pc) : byLoadBase a ⟨pid, pc, 1⟩ = true := by
  obtain ⟨rfl, hb, _⟩ := h
  by_cases hp : a.pid = d.pid
  · rw [byLoadBase_same ha hp] at hl
    exact (byLoadBase_same (b := ⟨d.pid, pc, 1⟩) ha hp).2 (Nat.le_trans hl hb)
  · rw [byLoadBase, if_neg hp] at hl ⊢
    exact hl

theorem find_eq_some_iff : s.find ⟨pid, pc, 1⟩ = some d ↔ d ∈ s.descriptors ∧ d.Holds pid pc := by
  rw [find, Option.filter_eq_some_iff, find?_eq_some_iff_append, Bool.not_eq_true',
    Bool.not_eq_true', ← Bool.not_eq_true, ← Bool.not_eq_true]
  constructor
  · rintro ⟨⟨hlt, before, after, heq, _⟩, hgt⟩
    have hm : d ∈ s.descriptors := heq ▸ mem_append_cons_self
    exact ⟨hm, (holds_iff (s.valid d hm)).2 ⟨hlt, hgt⟩⟩
  rintro ⟨hm, hho⟩
  obtain ⟨hlt, hgt⟩ := (holds_iff (s.valid d hm)).1 hho
  obtain ⟨before, after, heq⟩ := append_of_mem hm
  refine ⟨⟨hlt, before, after, heq, fun a ha => ?_⟩, hgt⟩
  have hl := heq ▸ s.ordered
  rw [Bool.not_not]
  exact less_of_holds (s.valid a (heq ▸ mem_append_left _ ha))
    ((pairwise_append.1 hl).2.2 a ha d mem_cons_self) hho

theorem getDescriptor_eq_some_iff :
    (s.getDescriptor pid pc).1 = some d ↔ d ∈ s.descriptors ∧ d.Holds pid pc := by
  rw [getDescriptor]
  cases hc : s.cachedModule.filter fun md =>
      decide (pid = md.pid ∧ md.loadBase ≤ pc ∧ pc < md.loadBase + md.size) with
  | none => exact find_eq_some_iff
  | some md =>
    obtain ⟨hmd, hin⟩ := Option.filter_eq_some_iff.1 hc
    obtain ⟨rfl, hb, hsp⟩ := of_decide_eq_true hin
    have hm := s.loaded md hmd
    rw [BitVec.lt_def] at hsp
    have hho : md.Holds md.pid pc := ⟨rfl, hb, (s.valid md hm).toNat_stop ▸ hsp⟩
    change some md = some d ↔ _
    rw [← find_eq_some_iff, find_eq_some_iff.2 ⟨hm, hho⟩]

/-- The report is right if the lower half of the counter leads to it as well. -/
theorem getCurrentDescriptor_right_iff (s : ModuleTransitionState) (pid pc : BitVec 64) :
    (∀ d, (s.getCurrentDescriptor pid pc).1 = some d ↔ d ∈ s.descriptors ∧ d.Holds pid pc) ↔
      ∀ d ∈ s.descriptors, d.Holds pid ((pc.setWidth 32).setWidth 64) ↔ d.Holds pid pc := by
  simp only [getCurrentDescriptor, getDescriptor_eq_some_iff, and_congr_right_iff]

def highModule : ModuleTransitionState where
  descriptors := [⟨1, 0x100000000, 0x1000⟩]
  cachedModule := none
  valid := forall_mem_singleton.2 ⟨by decide, by decide⟩
  ordered := pairwise_singleton _ _
  loaded := nofun

theorem highModule_not_found : (highModule.getCurrentDescriptor 1 0x100000010).1 = none ∧
      ∃ d ∈ highModule.descriptors, d.Holds 1 0x100000010 := by decide

end ModuleTransitionState
end Chef
