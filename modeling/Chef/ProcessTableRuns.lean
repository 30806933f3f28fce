import Mathlib.Data.Finset.Card
import Mathlib.Data.List.Pairwise
import Chef.ProcessTable

namespace Chef
open Foundations Function BitVec
open List hiding count
namespace S2EProcess
variable (p : S2EProcess)
def holdsSlot : Bool :=
  match p.phase with
  | .starting _ => false
  | _ => true

def inProgress : Bool :=
  match p.phase with
  | .running => false
  | _ => true

def processIndex : BitVec 32 :=
  match p.phase with
  | .starting n => n
  | _ => p.currentProcessIndex

def indices : List (BitVec 32) :=
  match p.phase with
  | .running => [p.currentProcessIndex]
  | .forking n => [p.currentProcessIndex, n]
  | .starting n => [n]

theorem processIndex_mem : p.processIndex ∈ p.indices := by
  obtain ⟨pid, index, id, phase⟩ := p
  cases phase with
  | running | starting n => exact mem_singleton_self _
  | forking n => exact mem_cons_self

end S2EProcess

namespace ProcessTable
variable {next : BitVec 32}
def occupied (maxProcesses : Nat) (ids : Nat → BitVec 32) : Finset Nat :=
  (Finset.range maxProcesses).filter fun i => ids i ≠ freeSlot

theorem card_occupied_set (hi : i < n) (hf : ids i = freeSlot) (hv : v ≠ freeSlot) :
    (occupied n (update ids i v)).card = (occupied n ids).card + 1 := by
  have hs : occupied n (update ids i v) = insert i (occupied n ids) := by
    ext j
    simp only [occupied, Finset.mem_filter, Finset.mem_insert, Finset.mem_range]
    by_cases hj : j = i
    · subst hj
      rw [update_self]
      exact iff_of_true ⟨hi, hv⟩ (.inl rfl)
    · rw [update_of_ne hj]
      exact ⟨.inr, fun h => h.resolve_left hj⟩
  rw [hs, Finset.card_insert_of_notMem]
  simp [occupied, hf]

theorem card_occupied_clear (hi : i < n) (hu : ids i ≠ freeSlot) :
    (occupied n (update ids i freeSlot)).card + 1 = (occupied n ids).card := by
  have hbk : update (update ids i freeSlot) i (ids i) = ids := by rw [update_idem, update_eq_self]
  have hs := card_occupied_set hi (update_self i freeSlot ids) hu
  rw [hbk] at hs
  exact hs.symm

structure Fits (n count last : Nat) (ids pids : Nat → BitVec 32) (ps : List S2EProcess) : Prop where
  count_eq : count = (occupied n ids).card + ps.countP S2EProcess.inProgress
  count_le : count ≤ n
  last_lt : last < 2 ^ 32
  slots : ∀ i, i < n → (ids i = freeSlot ↔ pids i = freeSlot)
  pid_nodup : (ps.map S2EProcess.pid).Nodup
  pid_ne : ∀ p ∈ ps, p.pid ≠ freeSlot
  index_nodup : (ps.flatMap S2EProcess.indices).Nodup
  index_lt : ∀ i ∈ ps.flatMap S2EProcess.indices, i.toNat < last
  holds : ∀ p ∈ ps, p.holdsSlot = true → p.currentProcessId < n ∧
    ids p.currentProcessId = p.currentProcessIndex ∧ pids p.currentProcessId = p.pid

theorem Fits.perm (h : Fits n count last ids pids ps) (hp : ps.Perm qs) :
    Fits n count last ids pids qs where
  count_eq := by rw [h.count_eq, hp.countP_eq]
  count_le := h.count_le
  last_lt := h.last_lt
  slots := h.slots
  pid_nodup := (hp.map _).nodup_iff.1 h.pid_nodup
  pid_ne p hm := h.pid_ne p (hp.mem_iff.2 hm)
  index_nodup := (hp.flatMap_right _).nodup_iff.1 h.index_nodup
  index_lt i hm := h.index_lt i ((hp.flatMap_right _).mem_iff.2 hm)
  holds p hm := h.holds p (hp.mem_iff.2 hm)

theorem Fits.index_ne (h : Fits n count last ids pids ps)
    (hi : i ∈ ps.flatMap S2EProcess.indices) : i ≠ freeSlot := by
  intro heq
  have hlt := h.index_lt i hi
  have hm : freeSlot.toNat = 2 ^ 32 - 1 := by decide
  have hla := h.last_lt
  rw [heq, hm] at hlt
  omega

theorem Fits.reserve
    (h : Fits n count last ids pids (⟨pid, index, slot, .running⟩ :: rest)) (hc : count < n)
    (hla : last + 1 < 2 ^ 32) (hn : next.toNat = last) :
    Fits n (count + 1) (last + 1) ids pids (⟨pid, index, slot, .forking next⟩ :: rest) := by
  have hs : List.Perm (index :: next :: rest.flatMap S2EProcess.indices)
      (next :: index :: rest.flatMap S2EProcess.indices) := List.Perm.swap next index _
  have hf : next ∉ index :: rest.flatMap S2EProcess.indices := by
    intro hm
    have hlt := h.index_lt next hm
    rw [hn] at hlt
    exact Nat.lt_irrefl _ hlt
  obtain ⟨hpid, hp⟩ := forall_mem_cons.1 h.pid_ne
  obtain ⟨hho, hh⟩ := forall_mem_cons.1 h.holds
  refine ⟨?_, hc, hla, h.slots, h.pid_nodup, ?_, ?_, ?_, ?_⟩
  · rw [h.count_eq, countP_cons_of_neg Bool.false_ne_true, countP_cons_of_pos rfl]
    rfl
  · exact forall_mem_cons.2 ⟨hpid, hp⟩
  · exact hs.nodup_iff.2 (nodup_cons.2 ⟨hf, h.index_nodup⟩)
  · intro i hm
    rcases mem_cons.1 (hs.mem_iff.1 hm) with rfl | hm
    · rw [hn]
      exact Nat.lt_succ_self _
    · exact Nat.lt_succ_of_lt (h.index_lt i hm)
  · exact forall_mem_cons.2 ⟨fun _ => hho rfl, hh⟩

theorem Fits.forkFails
    (h : Fits n (count + 1) last ids pids (⟨pid, index, slot, .forking next⟩ :: rest)) :
    Fits n count last ids pids (⟨pid, index, slot, .running⟩ :: rest) := by
  have hs : List.Sublist (index :: rest.flatMap S2EProcess.indices)
      (index :: next :: rest.flatMap S2EProcess.indices) := (sublist_cons_self _ _).cons_cons _
  obtain ⟨hd, hp⟩ := forall_mem_cons.1 h.pid_ne
  obtain ⟨hho, hh⟩ := forall_mem_cons.1 h.holds
  have hc := h.count_eq
  rw [countP_cons_of_pos rfl] at hc
  refine ⟨?_, Nat.le_of_succ_le h.count_le, h.last_lt, h.slots, h.pid_nodup, ?_,
    h.index_nodup.sublist hs, fun i hm => h.index_lt i (hs.subset hm), ?_⟩
  · rw [countP_cons_of_neg Bool.false_ne_true]
    omega
  · exact forall_mem_cons.2 ⟨hd, hp⟩
  · exact forall_mem_cons.2 ⟨fun _ => hho rfl, hh⟩

theorem Fits.forkSucceeds
    (h : Fits n count last ids pids (⟨pid, index, slot, .forking next⟩ :: rest))
    (hk : child ≠ freeSlot) (hn : child ∉ (pid :: rest.map S2EProcess.pid)) :
    Fits n count last ids pids
      (⟨child, index, slot, .starting next⟩ :: ⟨pid, index, slot, .running⟩ :: rest) := by
  obtain ⟨hd, hp⟩ := forall_mem_cons.1 h.pid_ne
  obtain ⟨hho, hh⟩ := forall_mem_cons.1 h.holds
  have hs : List.Perm (next :: index :: rest.flatMap S2EProcess.indices)
      (index :: next :: rest.flatMap S2EProcess.indices) := List.Perm.swap index next _
  refine ⟨?_, h.count_le, h.last_lt, h.slots, ?_, ?_, hs.nodup_iff.2 h.index_nodup, ?_, ?_⟩
  · rw [h.count_eq, countP_cons_of_pos rfl, countP_cons_of_pos rfl,
      countP_cons_of_neg Bool.false_ne_true]
  · exact nodup_cons.2 ⟨hn, h.pid_nodup⟩
  · exact forall_mem_cons.2 ⟨hk, forall_mem_cons.2 ⟨hd, hp⟩⟩
  · intro i hm
    exact h.index_lt i (hs.mem_iff.1 hm)
  · refine forall_mem_cons.2 ⟨fun hst => ?_, forall_mem_cons.2 ⟨fun _ => hho rfl, hh⟩⟩
    cases hst

theorem Fits.allocate
    (h : Fits n count last ids pids (⟨pid, index, slot, .starting next⟩ :: rest)) (hi : i < n)
    (hf : ids i = freeSlot) : Fits n count last (update ids i next) (update pids i pid)
      (⟨pid, next, i, .running⟩ :: rest) := by
  obtain ⟨hd, hp⟩ := forall_mem_cons.1 h.pid_ne
  obtain ⟨_, hh⟩ := forall_mem_cons.1 h.holds
  have hn : next ≠ freeSlot := h.index_ne mem_cons_self
  have hc := h.count_eq
  rw [countP_cons_of_pos rfl] at hc
  refine ⟨?_, h.count_le, h.last_lt, ?_, h.pid_nodup, ?_, h.index_nodup, h.index_lt, ?_⟩
  · rw [card_occupied_set hi hf hn, countP_cons_of_neg Bool.false_ne_true]
    omega
  · intro j hj
    by_cases heq : j = i
    · subst heq
      rw [update_self, update_self]
      exact iff_of_false hn hd
    · rw [update_of_ne heq, update_of_ne heq]
      exact h.slots j hj
  · exact forall_mem_cons.2 ⟨hd, hp⟩
  · refine forall_mem_cons.2 ⟨fun _ => ⟨hi, update_self _ _ _, update_self _ _ _⟩, ?_⟩
    intro p hm hho
    obtain ⟨hlt, hx, ho⟩ := hh p hm hho
    have hne : p.currentProcessId ≠ i := by
      intro heq
      rw [heq] at hx ho
      exact hp p hm (ho.symm.trans ((h.slots i hi).1 hf))
    rw [update_of_ne hne, update_of_ne hne]
    exact ⟨hlt, hx, ho⟩

theorem Fits.crash (h : Fits n count last ids pids (⟨pid, index, slot, .running⟩ :: rest)) :
    Fits n count last ids pids rest := by
  obtain ⟨_, hp⟩ := forall_mem_cons.1 h.pid_ne
  obtain ⟨_, hh⟩ := forall_mem_cons.1 h.holds
  refine ⟨?_, h.count_le, h.last_lt, h.slots, (nodup_cons.1 h.pid_nodup).2, hp,
    (nodup_cons.1 h.index_nodup).2, ?_, hh⟩
  · rw [h.count_eq, countP_cons_of_neg Bool.false_ne_true]
  · intro i hm
    exact h.index_lt i (mem_cons_of_mem _ hm)

theorem Fits.clear (h : Fits n (count + 1) last ids pids ps) (hi : i < n)
    (hu : pids i ≠ freeSlot) (hde : ∀ p ∈ ps, p.pid ≠ pids i) :
    Fits n count last (update ids i freeSlot) (update pids i freeSlot) ps := by
  have hd : ids i ≠ freeSlot := fun heq => hu ((h.slots i hi).1 heq)
  have hc := h.count_eq
  have hr := card_occupied_clear hi hd
  refine ⟨by omega, Nat.le_of_succ_le h.count_le, h.last_lt, ?_, h.pid_nodup, h.pid_ne,
    h.index_nodup, h.index_lt, ?_⟩
  · intro j hj
    by_cases heq : j = i
    · subst heq
      rw [update_self, update_self]
    · rw [update_of_ne heq, update_of_ne heq]
      exact h.slots j hj
  · intro p hm hho
    obtain ⟨hlt, hx, ho⟩ := h.holds p hm hho
    have hne : p.currentProcessId ≠ i := by
      intro heq
      rw [heq] at ho
      exact hde p hm ho.symm
    rw [update_of_ne hne, update_of_ne hne]
    exact ⟨hlt, hx, ho⟩

theorem Fits.count_pos (h : Fits n count last ids pids ps) (hi : i < n)
    (hu : pids i ≠ freeSlot) : 0 < count := by
  have hm : i ∈ occupied n ids := by
    rw [occupied, Finset.mem_filter, Finset.mem_range]
    exact ⟨hi, fun heq => hu ((h.slots i hi).1 heq)⟩
  have hc := Finset.card_pos.2 ⟨i, hm⟩
  rw [h.count_eq]
  omega

structure Inv (n : Nat) (t : ProcessTable) : Prop where
  fits : Fits n t.currentProcessCount.toNat t.lastFileId.toNat t.processIds t.processPids
    t.processes
  file : t.lastFileId.toNat = t.forks + 1

variable {t t' : ProcessTable}
theorem Inv.focus (h : Inv n t) (hp : p ∈ t.processes) :
    Fits n t.currentProcessCount.toNat t.lastFileId.toNat t.processIds t.processPids (p ::
    t.processes.erase p) :=
  h.fits.perm (perm_cons_erase hp)

theorem mem_of_process (h : t.process pid = some p) : p ∈ t.processes := mem_of_find?_eq_some h

theorem isAlive_iff : t.isAlive pid = true ↔ ∃ p ∈ t.processes, p.pid = pid := by
  rw [isAlive, any_eq_true]
  exact exists_congr fun p => and_congr_right fun _ => beq_iff_eq

theorem toNat_add_one {x : BitVec 32} (h : x.toNat + 1 < 2 ^ 32) : (x + 1).toNat = x.toNat + 1 := by
  have ho : (1 : BitVec 32).toNat = 1 := rfl
  rw [toNat_add, ho, Nat.mod_eq_of_lt h]

theorem toNat_sub_one {x : BitVec 32} (h : 0 < x.toNat) : x.toNat = (x - 1).toNat + 1 := by
  have ho : (1 : BitVec 32).toNat = 1 := rfl
  rw [toNat_sub, ho]
  omega

section
variable (h : Inv n t)
include h
theorem reserve_inv (hn : n ≤ 48) (hp : ⟨pid, index, slot, .running⟩ ∈ t.processes)
    (hfk : (t.reserve n ⟨pid, index, slot, .running⟩).forks < 2 ^ 32 - 1) :
    Inv n (t.reserve n ⟨pid, index, slot, .running⟩) := by
  by_cases hf : t.currentProcessCount.toNat = n
  · rw [reserve, if_pos hf]
    exact h
  rw [reserve, if_neg hf] at hfk ⊢
  have hbd := h.fits.count_le
  have hl := h.file
  have hla : t.lastFileId.toNat + 1 < 2 ^ 32 := by
    simp only at hfk
    omega
  have hr := (h.focus hp).reserve (by omega) hla rfl
  refine ⟨?_, ?_⟩
  · simp only [toNat_add_one hla, toNat_add_one (by omega : t.currentProcessCount.toNat + 1 < _)]
    exact hr
  · simp only [toNat_add_one hla, hl]

theorem inProgress_pos (hp : p ∈ t.processes) (hr : p.inProgress = true) :
    0 < t.currentProcessCount.toNat := by
  have hs := countP_pos_iff.2 ⟨p, hp, hr⟩
  rw [h.fits.count_eq]
  omega

theorem forkFails_inv (hp : ⟨pid, index, slot, .forking next⟩ ∈ t.processes) :
    Inv n (t.forkFails ⟨pid, index, slot, .forking next⟩) := by
  have hft := h.focus hp
  rw [toNat_sub_one (inProgress_pos h hp rfl)] at hft
  exact ⟨hft.forkFails, h.file⟩

theorem forkSucceeds_inv (hp : ⟨pid, index, slot, .forking next⟩ ∈ t.processes)
    (hk : ¬(t.isAlive child = true ∨ child = freeSlot)) :
    Inv n (t.forkSucceeds ⟨pid, index, slot, .forking next⟩ next child) := by
  obtain ⟨hd, hne⟩ := not_or.1 hk
  refine ⟨(h.focus hp).forkSucceeds hne fun hm => hd (isAlive_iff.2 ?_), h.file⟩
  have hpm := (perm_cons_erase hp).map S2EProcess.pid
  exact mem_map.1 (hpm.mem_iff.2 hm)

theorem exists_freeSlot (hp : ⟨pid, index, slot, .starting next⟩ ∈ t.processes) :
    ((List.range n).find? fun i => t.processIds i == freeSlot) ≠ none := by
  intro hno
  have ha : occupied n t.processIds = Finset.range n := by
    apply Finset.filter_true_of_mem
    intro i hi heq
    have hu := List.find?_eq_none.1 hno i (mem_range.2 (Finset.mem_range.1 hi))
    exact hu (beq_iff_eq.2 heq)
  have hs := countP_pos_iff.2 ⟨_, hp, (rfl : S2EProcess.inProgress _ = true)⟩
  have hc := h.fits.count_eq
  have hbd := h.fits.count_le
  rw [ha, Finset.card_range] at hc
  omega

theorem allocate_inv (hp : ⟨pid, index, slot, .starting next⟩ ∈ t.processes) :
    ∃ t', t.allocate n ⟨pid, index, slot, .starting next⟩ next = .ok t' ∧ Inv n t' := by
  rw [allocate]
  split
  next hno => exact absurd hno (exists_freeSlot h hp)
  next i hd =>
    have hi := mem_range.1 (mem_of_find?_eq_some hd)
    have hf := List.find?_some hd
    exact ⟨_, rfl, (h.focus hp).allocate hi (beq_iff_eq.1 hf), h.file⟩

theorem clearSlot_inv (hi : i < n) (hu : t.processPids i ≠ freeSlot)
    (hd : ∀ p ∈ t.processes, p.pid ≠ t.processPids i) : Inv n (t.clearSlot i) := by
  have hft := h.fits
  rw [toNat_sub_one (hft.count_pos hi hu)] at hft
  exact ⟨hft.clear hi hu hd, h.file⟩

theorem crash_inv (hp : ⟨pid, index, slot, .running⟩ ∈ t.processes) :
    Inv n (t.crash ⟨pid, index, slot, .running⟩) :=
  ⟨(h.focus hp).crash, h.file⟩

theorem exit_inv (hp : ⟨pid, index, slot, .running⟩ ∈ t.processes) :
    ∃ t', t.exit ⟨pid, index, slot, .running⟩ = .ok t' ∧ Inv n t' := by
  obtain ⟨hlt, hi, ho⟩ := h.fits.holds _ hp rfl
  have hc := crash_inv h hp
  have hpid := h.fits.pid_ne _ hp
  have hd := nodup_cons.1 (h.focus hp).pid_nodup
  refine ⟨_, if_neg fun hne => hne hi, ?_⟩
  apply clearSlot_inv hc hlt
  · exact fun heq => hpid (ho.symm.trans heq)
  · intro p hm heq
    exact hd.1 (mem_map.2 ⟨p, hm, heq.trans ho⟩)

theorem checkSlot_inv (hi : i < n) : Inv n (t.checkSlot i) := by
  rw [checkSlot]
  split
  · exact h
  next hu =>
    split
    · exact h
    next hd =>
      apply clearSlot_inv h hi hu
      intro p hp heq
      exact hd (isAlive_iff.2 ⟨p, hp, heq⟩)

theorem checkDeadProcesses_inv : Inv n (t.checkDeadProcesses n) :=
  foldlRecOn _ _ h fun _ hs _ hi => checkSlot_inv hs (mem_range.1 hi)

end

def dead (t : ProcessTable) (i : Nat) : Bool :=
  t.processPids i != freeSlot && !t.isAlive (t.processPids i)

theorem checkSlot_eq (t : ProcessTable) (i : Nat) :
    t.checkSlot i = if t.dead i then t.clearSlot i else t := by
  by_cases hu : t.processPids i = freeSlot <;>
    cases ha : t.isAlive (t.processPids i) <;> simp [checkSlot, dead, hu, ha]

/-- The slots of dead processes below `n` are freed. -/
structure Freed (n : Nat) (t t' : ProcessTable) : Prop where
  ids i : t'.processIds i = if i < n ∧ t.dead i then freeSlot else t.processIds i
  pids i : t'.processPids i = if i < n ∧ t.dead i then freeSlot else t.processPids i
  count : t'.currentProcessCount = t.currentProcessCount - .ofNat 32 ((range n).countP t.dead)
  processes : t'.processes = t.processes
  forks : t'.forks = t.forks

theorem Freed.clear (h : Freed n t t') (hd : t.dead n = true) :
    Freed (n + 1) t (t'.clearSlot n) := by
  have hf (f g : Nat → BitVec 32) (hg : ∀ i, g i = if i < n ∧ t.dead i then freeSlot else f i)
      (i : Nat) : update g n freeSlot i = if i < n + 1 ∧ t.dead i then freeSlot else f i := by
    by_cases hin : i = n
    · rw [hin, update_self, if_pos ⟨n.lt_succ_self, hd⟩]
    · have hlt : i < n + 1 ↔ i < n := by omega
      simp only [update_of_ne hin, hg, hlt]
  refine ⟨hf _ _ h.ids, hf _ _ h.pids, ?_, h.processes, h.forks⟩
  rw [range_succ, countP_append, countP_singleton, if_pos hd, clearSlot, h.count]
  bv_omega

theorem Freed.keep (h : Freed n t t') (hd : t.dead n = false) : Freed (n + 1) t t' := by
  have hlt (i : Nat) : i < n + 1 ∧ t.dead i = true ↔ i < n ∧ t.dead i = true := by
    by_cases hin : i = n
    · simp [hin, hd]
    · have hlt : i < n + 1 ↔ i < n := by omega
      rw [hlt]
  refine ⟨fun i => ?_, fun i => ?_, ?_, h.processes, h.forks⟩
  · simp only [hlt, h.ids]
  · simp only [hlt, h.pids]
  · simp [range_succ, countP_append, hd, h.count]

theorem checkDeadProcesses_freed (n : Nat) (t : ProcessTable) :
    Freed n t (t.checkDeadProcesses n) := by
  induction n with
  | zero => exact ⟨fun _ => rfl, fun _ => rfl, (BitVec.sub_zero _).symm, rfl, rfl⟩
  | succ n ih =>
    have hdd : (t.checkDeadProcesses n).dead n = t.dead n := by
      rw [dead, ih.pids, if_neg (fun h => n.lt_irrefl h.1), isAlive, ih.processes]
      rfl
    rw [checkDeadProcesses, range_succ, foldl_append, foldl_cons, foldl_nil, ← checkDeadProcesses,
      checkSlot_eq, hdd]
    cases hd : t.dead n with
    | true => exact ih.clear hd
    | false => exact ih.keep hd

theorem checkDeadProcessesResult_eq (n : Nat) (t : ProcessTable) :
    t.checkDeadProcessesResult n = (false, t.checkDeadProcesses n) :=
  foldl_hom (Prod.mk false) fun _ _ => rfl

/-- The table is right after every check, the result only if no process is dead. -/
theorem checkDeadProcesses_right_iff (n : Nat) (t : ProcessTable) :
    Freed n t (t.checkDeadProcessesResult n).2 ∧
      (((t.checkDeadProcessesResult n).1 = true ↔ ∃ i < n, t.dead i) ↔ ∀ i < n, ¬t.dead i) := by
  rw [checkDeadProcessesResult_eq]
  refine ⟨checkDeadProcesses_freed n t, ?_⟩
  simp

theorem deadSlot_not_reported :
    ((crash (initial 7) ⟨7, 0, 0, .running⟩).checkDeadProcessesResult 1).1 = false ∧
      (crash (initial 7) ⟨7, 0, 0, .running⟩).dead 0 = true := by decide +kernel

theorem step_forks (h : step n t e = .ok t') : t.forks ≤ t'.forks := by
  cases e with rw [step] at h
  | reserve pid =>
    split at h
    · cases h
      rw [reserve]
      split
      · exact Nat.le_refl _
      · exact Nat.le_succ _
    · cases h
  | forkFails pid | crash pid =>
    split at h
    · cases h
      exact Nat.le_refl _
    · cases h
  | forkSucceeds pid child =>
    split at h
    · split at h
      · cases h
      · cases h
        exact Nat.le_refl _
    · cases h
  | allocate pid | exit pid =>
    split at h
    · first
      | rw [allocate] at h
      | rw [exit] at h
      split at h
      · cases h
      · cases h
        exact Nat.le_refl _
    · cases h
  | checkDeadProcesses pid =>
    split at h
    · cases h
      exact Nat.le_of_eq (checkDeadProcesses_freed n t).forks.symm
    · cases h

def Kept (n : Nat) : Except ProcessFault ProcessTable → Prop
  | .error fault => fault = .disabled
  | .ok t' => t'.forks < 2 ^ 32 - 1 → Inv n t'

theorem step_kept (hn : n ≤ 48) (h : Inv n t) (e : ProcessEvent) : Kept n (step n t e) := by
  cases e with rw [step]
  | reserve pid =>
    split
    next hp => exact reserve_inv h hn (mem_of_process hp)
    · rfl
  | forkFails pid =>
    split
    next hp => exact fun _ => forkFails_inv h (mem_of_process hp)
    · rfl
  | forkSucceeds pid child =>
    split
    next hp =>
      split
      · rfl
      next hk => exact fun _ => forkSucceeds_inv h (mem_of_process hp) hk
    · rfl
  | allocate pid =>
    split
    next hp =>
      obtain ⟨t', hok, hi⟩ := allocate_inv h (mem_of_process hp)
      rw [hok]
      exact fun _ => hi
    · rfl
  | exit pid =>
    split
    next hp =>
      obtain ⟨t', hok, hi⟩ := exit_inv h (mem_of_process hp)
      rw [hok]
      exact fun _ => hi
    · rfl
  | crash pid =>
    split
    next hp => exact fun _ => crash_inv h (mem_of_process hp)
    · rfl
  | checkDeadProcesses pid =>
    split
    · exact fun _ => checkDeadProcesses_inv h
    · rfl

theorem initial_inv (hn : 1 ≤ n) (hd : pid ≠ freeSlot) : Inv n (initial pid) := by
  have hl : (occupied n fun _ => freeSlot).card = 0 := by
    rw [Finset.card_eq_zero, occupied, Finset.filter_eq_empty_iff]
    exact fun _ _ h => h rfl
  have hz : (0 : BitVec 32) ≠ freeSlot := by decide
  have hc : (occupied n (update (fun _ => freeSlot) 0 0)).card =
      (occupied n fun _ => freeSlot).card + 1 := card_occupied_set hn rfl hz
  rw [hl] at hc
  refine ⟨⟨hc.symm, hn, (by decide : (1 : BitVec 32).toNat < 2 ^ 32), ?_, nodup_singleton _, ?_,
    nodup_singleton _, ?_, ?_⟩, rfl⟩
  · intro i hi
    by_cases heq : i = 0
    · subst heq
      exact iff_of_false hz hd
    · simp only [initial, update_of_ne heq]
  · intro p hp
    rw [mem_singleton.1 hp]
    exact hd
  · intro i hi
    rw [mem_singleton.1 hi]
    exact Nat.zero_lt_one
  · intro p hp _
    rw [mem_singleton.1 hp]
    exact ⟨hn, rfl, rfl⟩

theorem reached_inv (hn : 1 ≤ n) (hm : n ≤ 48) (h : (machine n).Reached t) :
    t.forks < 2 ^ 32 - 1 → Inv n t := by
  refine h.invariant (I := fun t => t.forks < 2 ^ 32 - 1 → Inv n t) ?_ ?_
  · rintro t ⟨pid, hp, rfl⟩ _
    exact initial_inv hn hp
  intro t e t' ih _ hs hfk
  have hkp := step_kept hm (ih (Nat.lt_of_le_of_lt (step_forks hs) hfk)) e
  have hok : step n t e = .ok t' := hs
  rw [hok] at hkp
  exact hkp hfk

structure Consistent (n : Nat) (t : ProcessTable) : Prop where
  count_eq : t.currentProcessCount.toNat =
    (occupied n t.processIds).card + t.processes.countP S2EProcess.inProgress
  count_le : t.currentProcessCount.toNat ≤ n
  slots_distinct : ∀ p ∈ t.processes, ∀ q ∈ t.processes, p.holdsSlot = true → q.holdsSlot = true →
    p.currentProcessId = q.currentProcessId → p = q
  indices_distinct : ∀ p ∈ t.processes, ∀ q ∈ t.processes, p.processIndex = q.processIndex → p = q
  asserted : ∀ e, step n t e ≠ .error .noFreeSlot ∧ step n t e ≠ .error .slotNotOwned

/-- In every interleaving the process table is consistent. -/
theorem processes_consistent (hn : 1 ≤ n) (hmax : n ≤ 48) (h : (machine n).Reached t)
    (hforks : t.forks < 2 ^ 32 - 1) : Consistent n t := by
  have hi := reached_inv hn hmax h hforks
  have hft := hi.fits
  refine ⟨hft.count_eq, hft.count_le, ?_, ?_, ?_⟩
  · intro p hp q hq hho hholds' heq
    have hown := (hft.holds p hp hho).2.2
    have hown' := (hft.holds q hq hholds').2.2
    rw [heq, hown'] at hown
    exact (inj_on_of_nodup_map hft.pid_nodup) hp hq hown.symm
  · intro p hp q hq heq
    by_contra hne
    obtain ⟨_, hd⟩ := nodup_flatMap.1 hft.index_nodup
    have hs : Std.Symm (onFun List.Disjoint S2EProcess.indices) := ⟨fun _ _ h => disjoint_comm.1 h⟩
    have hap := hd.forall hp hq hne
    exact hap p.processIndex_mem (heq ▸ q.processIndex_mem)
  · intro e
    have hkp := step_kept hmax hi e
    constructor
    · intro he
      rw [he] at hkp
      cases hkp
    · intro he
      rw [he] at hkp
      cases hkp

theorem forkedOnce_consistent : ∃ t, (machine 2).Reached t ∧ t.forks = 1 ∧ Consistent 2 t := by
  have hr : (runWhile (fun _ _ => True) (step 2)
      [.reserve 7, .forkSucceeds 7 8, .allocate 8] (initial 7)).map forks = some 1 := by
    decide +kernel
  obtain ⟨t, hr, hfk⟩ := Option.map_eq_some_iff.1 hr
  have hi : (machine 2).Reached (initial 7) := .init ⟨7, by decide, rfl⟩
  have hre := hi.runWhile (fun _ _ _ h => h) hr
  refine ⟨t, hre, hfk, ?_⟩
  apply processes_consistent (by decide) (by decide) hre
  rw [hfk]
  decide

end ProcessTable
end Chef
