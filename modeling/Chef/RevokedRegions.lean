import Chef.GrantedRegions

namespace Chef
open MemoryRange hiding size
open Foundations List SearchTree
namespace MemoryChecker
section
variable {m : MemoryMap} (perms : BitVec 32) (pattern : String) (id : BitVec 64)
theorem revokeMemory_cases (range : MemoryRange) (m : MemoryMap) :
    ((revokeMemory range perms pattern id m).1 ≠ [] ∧
      (revokeMemory range perms pattern id m).2 = m) ∨
    ∃ res ∈ m.toList, lookupPrevious range m = some res ∧ res.range.start = range.start ∧
      ¬lt range res.range = true := by
  rw [revokeMemory]
  split
  · exact .inl ⟨cons_ne_nil _ _, rfl⟩
  split
  · exact .inl ⟨cons_ne_nil _ _, rfl⟩
  next res hr =>
    split
    · exact .inl ⟨cons_ne_nil _ _, rfl⟩
    split
    · exact .inl ⟨cons_ne_nil _ _, rfl⟩
    next hst =>
      obtain hn | ⟨hmem, hlt⟩ := lookupPrevious_not_lt hr
      · cases hn
      · exact .inr ⟨res, hmem, hr, not_not.1 hst, hlt⟩

theorem lt_unspecified {start : BitVec 64} (h : start ≠ 0) :
    lt ⟨start, unspecified⟩ ⟨start, size⟩ = true := by
  apply decide_eq_true
  have hp : start.toNat ≠ 0 := fun h0 => h (BitVec.eq_of_toNat_eq h0)
  rw [BitVec.le_def, BitVec.toNat_add, unspecified, BitVec.toNat_allOnes]
  dsimp only
  omega

theorem revokeMemory_unspecified {start : BitVec 64} (h : start ≠ 0) :
    (revokeMemory ⟨start, unspecified⟩ perms pattern id m).2 = m := by
  obtain ⟨_, hs⟩ | ⟨res, _, _, hst, hlt⟩ :=
    revokeMemory_cases perms pattern id ⟨start, unspecified⟩ m
  · exact hs
  obtain ⟨⟨_, size⟩, _⟩ := res
  cases hst
  exact absurd (lt_unspecified h) hlt

theorem revokeMemory_root (l t : MemoryMap) (hv : v.range.Valid) (size : BitVec 64)
    (hw : ¬(size ≠ unspecified ∧ v.range.start + size < v.range.start))
    (hk : ¬lt ⟨v.range.start, size⟩ v.range = true) :
    revokeMemory ⟨v.range.start, size⟩ perms pattern id (.node l v t) =
      (revokeMismatches ⟨v.range.start, size⟩ perms pattern id v, join l t) := by
  have hsp : ¬v.range.start + v.range.size ≤ v.range.start := by
    rw [BitVec.le_def, hv.toNat_stop]
    exact Nat.not_le.2 hv.start_lt
  have hgt : ¬lt v.range ⟨v.range.start, size⟩ = true := by
    rw [lt_iff hv]
    exact Nat.not_le.2 hv.start_lt
  rw [revokeMemory, if_neg hw, lookupPrevious, SearchTree.lookupPrevious, if_neg hk, if_neg hgt]
  simp only [if_neg hsp, remove, if_neg hk, if_neg hgt]
  exact if_neg (not_not.2 rfl)

variable (hm : m.WellFormed)
include hm
theorem revokeMemory_mem (hr : r ∈ m.toList) : ∃ l t, m.toList = l ++ r :: t ∧ r ∉ l ∧
      (revokeMemory r.range perms pattern id m).1 = revokeMismatches r.range perms pattern id r ∧
      (revokeMemory r.range perms pattern id m).2.toList = l ++ t := by
  have hv := hm.valid r hr
  have hse : r.range.Overlaps r.range := ⟨hv.start_lt, hv.start_lt⟩
  rcases lookupPrevious_cases hm hv with ⟨x, hh, hx, hmem, hov⟩ | ⟨hn, _⟩
  · obtain rfl : r = x := by
      by_contra hne
      obtain hp | hp := hm.apart hr hmem hne
      · exact Nat.not_lt.2 hp hov.2
      · exact Nat.not_lt.2 hp hov.1
    obtain ⟨l, t, heq, hrm⟩ := toList_remove (cuts_of_wellFormed hm hv) hh
    have ho := hm.ordered
    rw [heq, pairwise_append] at ho
    have hw : ¬(r.range.size ≠ unspecified ∧
        r.range.start + r.range.size < r.range.start) := fun h =>
      not_granted_of_valid hv (.inr h.2)
    have hsp : ¬r.range.start + r.range.size ≤ r.range.start := by
      rw [BitVec.le_def, hv.toNat_stop]
      exact Nat.not_le.2 hv.start_lt
    refine ⟨l, t, heq, fun hl => ?_, ?_⟩
    · exact Nat.not_le.2 hv.start_lt (ho.2.2 r hl r mem_cons_self)
    rw [revokeMemory, if_neg hw, hx]
    simp only [if_neg hsp, ne_eq, not_true_eq_false, if_false, true_and]
    exact hrm
  · exact absurd hse (hn r hr)

theorem revokeMemory_toList (hr : r ∈ m.toList) :
    (revokeMemory r.range perms pattern id m).2.toList = m.toList.erase r := by
  obtain ⟨l, t, heq, hl, _, hrm⟩ := revokeMemory_mem perms pattern id hm hr
  rw [hrm, heq, erase_append_right _ hl, erase_cons_head]

end

/-- A region is revoked by its start as with its size. -/
structure RevokesByStart (start : BitVec 64) (perms : BitVec 32) (pattern : String)
    (id : BitVec 64) (m : MemoryMap) : Prop where
  removes : ∀ r ∈ m.toList, r.range.start = start →
    revokeMemory ⟨start, unspecified⟩ perms pattern id m = revokeMemory r.range perms pattern id m ∧
    (revokeMemory ⟨start, unspecified⟩ perms pattern id m).2.toList = m.toList.erase r
  fails : (∀ r ∈ m.toList, r.range.start ≠ start) →
    (revokeMemory ⟨start, unspecified⟩ perms pattern id m).1 ≠ [] ∧
      (revokeMemory ⟨start, unspecified⟩ perms pattern id m).2 = m

theorem lt_wildcard_iff {v : MemoryRange} (hv : v.Valid) : ¬lt ⟨0, unspecified⟩ v = true := by
  have hlt := hv.start_lt
  have hsp := hv.2
  rw [lt, decide_eq_true_iff, BitVec.le_def]
  change ¬2 ^ 64 - 1 ≤ v.start.toNat
  omega

/-- Without its size only a region at address 0 and the root is revoked. -/
theorem revokesByStart_iff (ops : List CheckerOp) (start : BitVec 64) (perms : BitVec 32)
    (pattern : String) (id : BitVec 64) :
    RevokesByStart start perms pattern id (run ops) ↔
      (∀ r ∈ (run ops).toList, r.range.start ≠ start) ∨
      start = 0 ∧ ∃ r, (run ops).highest (fun _ => true) = some r ∧ r.range.start = 0 := by
  have hm := run_wellFormed ops
  generalize run ops = m at hm
  constructor
  · intro h
    rw [or_iff_not_imp_left]
    intro hso
    simp only [not_forall, not_not] at hso
    obtain ⟨r, hr, hst⟩ := hso
    have hc : (revokeMemory ⟨start, unspecified⟩ perms pattern id m).2 ≠ m := by
      intro hs
      have hl := length_erase_add_one hr
      rw [← (h.removes r hr hst).2, hs] at hl
      omega
    obtain rfl : start = 0 := by
      by_contra hne
      exact hc (revokeMemory_unspecified perms pattern id hne)
    refine ⟨rfl, ?_⟩
    obtain ⟨_, hs⟩ | ⟨res, hmem, hres, hz, _⟩ :=
      revokeMemory_cases perms pattern id ⟨0, unspecified⟩ m
    · exact absurd hs hc
    cases m with
    | nil => cases hr
    | node l v t =>
      have hv := hm.valid v mem_append_cons_self
      have hgt : ¬lt v.range ⟨0, unspecified⟩ = true := by
        rw [lt_iff hv]
        exact Nat.not_le.2 (Nat.zero_lt_of_lt hv.start_lt)
      rw [lookupPrevious, SearchTree.lookupPrevious, if_neg (lt_wildcard_iff hv),
        if_neg hgt] at hres
      cases hres
      exact ⟨res, rfl, hz⟩
  · rintro (hn | ⟨rfl, v, hro, hz⟩)
    · refine ⟨fun r hr hst => absurd hst (hn r hr), fun _ => ?_⟩
      obtain hf | ⟨res, hmem, _, hst, _⟩ :=
        revokeMemory_cases perms pattern id ⟨start, unspecified⟩ m
      · exact hf
      · exact absurd hst (hn res hmem)
    · cases m with
      | nil => cases hro
      | node l v' t =>
        cases hro
        have hmem : v ∈ (node l v t).toList := mem_append_cons_self
        have hv := hm.valid v hmem
        refine ⟨fun r hr hst => ?_, fun h => absurd hz (h v hmem)⟩
        have hr0 : r.range.Holds 0 :=
          ⟨hst ▸ Nat.le_refl _, Nat.zero_lt_of_lt (hm.valid r hr).start_lt⟩
        have hv0 : v.range.Holds 0 := ⟨hz ▸ Nat.le_refl _, Nat.zero_lt_of_lt hv.start_lt⟩
        obtain rfl := eq_of_holds hm hr hmem hr0 hv0
        have heq : revokeMemory ⟨0, unspecified⟩ perms pattern id (.node l r t) =
            revokeMemory r.range perms pattern id (.node l r t) := by
          have hw := revokeMemory_root perms pattern id l t hv unspecified (fun h => h.1 rfl)
            (hz ▸ lt_wildcard_iff hv)
          have hreal := revokeMemory_root perms pattern id l t hv r.range.size
            (fun h => not_granted_of_valid hv (.inr h.2))
            (mt (lt_iff hv).1 (Nat.not_le.2 hv.start_lt))
          rw [← hz, hw, hreal]
          simp only [revokeMismatches, ne_eq, not_true_eq_false, false_and, and_false]
        exact ⟨heq, heq ▸ revokeMemory_toList perms pattern id hm hr⟩

theorem unspecifiedSize_not_revoked :
    (revokeMemory ⟨100, unspecified⟩ any "" unspecified (run [.grant hundredBytes])).2 =
        run [.grant hundredBytes] ∧
      (revokeMemory ⟨100, 100⟩ any "" unspecified (run [.grant hundredBytes])).2 = .nil := by decide

/-- It is any type, the pattern, or begins with what is before the star. -/
def TypeMatches (pattern type : String) : Prop := pattern = "" ∨ pattern = type ∨
    pattern.toList.getLast? = some '*' ∧ pattern.toList.dropLast <+: type.toList

theorem matchRegionType_iff (h : type ≠ "") :
    matchRegionType pattern type = true ↔ TypeMatches pattern type := by
  have ht : ¬type.toList.isEmpty = true := by
    rw [List.isEmpty_iff, String.toList_eq_nil_iff]
    exact h
  rw [matchRegionType, TypeMatches]
  simp only [List.isEmpty_iff, String.toList_eq_nil_iff]
  split
  next hn => exact iff_of_true rfl (.inl hn)
  next hn =>
    rw [or_iff_right hn]
    split
    next hs => rw [beq_iff_eq, String.toList_inj, or_iff_left fun h => hs h.1]
    next hs =>
      have hp : pattern.toList.dropLast <+: type.toList ↔
          (type.toList.take (pattern.toList.length - 1) ==
            pattern.toList.take (pattern.toList.length - 1)) = true := by
        rw [beq_iff_eq, prefix_iff_eq_take, length_dropLast, dropLast_eq_take, eq_comm]
      rw [← hp, and_iff_right (not_not.1 hs)]
      refine ⟨.inr, ?_⟩
      rintro (rfl | h)
      · exact dropLast_prefix _
      · exact h

/-- The loop with the value it returns, unless it goes on. -/
def revokeMemoryMatching (pattern : String) (id : BitVec 64) :
    Nat → Bool → MemoryMap → Option (Bool × MemoryMap)
  | 0, _, _ => none
  | n + 1, ret, m =>
    match m.toList.find? (matchesRegion pattern id) with
    | none => some (ret, m)
    | some region =>
      let revoked := revokeMemory region.range region.perms region.type region.id m
      revokeMemoryMatching pattern id n (ret && revoked.1.isEmpty) revoked.2

theorem revokeMismatches_self (r : MemoryRegion) :
    revokeMismatches r.range r.perms r.type r.id r = [] := by
  have hse : ¬(0 < r.type.length ∧ ¬matchRegionType r.type r.type = true) := by
    rintro ⟨_, hno⟩
    by_cases h : r.type = ""
    · rw [h] at hno
      exact hno (by decide)
    · exact hno ((matchRegionType_iff h).2 (.inr (.inl rfl)))
  simp only [revokeMismatches, ne_eq, not_true_eq_false, and_false, if_false, if_neg hse,
    append_nil]

theorem revokeMemoryMatching_spec {id : BitVec 64} (hm : MemoryMap.WellFormed m) (hn :
    m.toList.length < n) : revokeMemoryMatching pattern id n ret m = some (ret,
    revokeMatching pattern id n m) ∧ (revokeMatching pattern id n m).toList =
    m.toList.filter fun r => !matchesRegion pattern id r := by
  induction n generalizing m with
  | zero => cases hn
  | succ n ih =>
    rw [revokeMemoryMatching, revokeMatching]
    cases hf : m.toList.find? (matchesRegion pattern id) with
    | none =>
      refine ⟨rfl, (filter_eq_self.2 fun r hr => ?_).symm⟩
      rw [Bool.not_eq_true']
      exact Bool.eq_false_iff.2 (find?_eq_none.1 hf r hr)
    | some r =>
      obtain ⟨l, t, heq, _, he, hrm⟩ :=
        revokeMemory_mem r.perms r.type r.id hm (mem_of_find?_eq_some hf)
      have hlen : (revokeMemory r.range r.perms r.type r.id m).2.toList.length < n := by
        rw [heq, length_append, length_cons] at hn
        rw [hrm, length_append]
        omega
      obtain ⟨hru, hl⟩ := ih (WellFormed.of_sublist hm (sublist_revokeMemory _ _ _ _ m)) hlen
      refine ⟨?_, ?_⟩
      · simp only [he, revokeMismatches_self, isEmpty_nil, Bool.and_true]
        exact hru
      have hr := find?_some hf
      rw [hl, hrm, heq, filter_append, filter_append, filter_cons_of_neg]
      rw [hr]
      exact Bool.false_ne_true

def stackPage : MemoryRegion := ⟨⟨0x1000, 0x1000⟩, 1, "stack", 0, false⟩

/-- Exactly the matching regions are revoked, without an error. -/
theorem revokeMemoryMatching_exact (ops : List CheckerOp) (pattern : String) (id : BitVec 64)
    (htypes : ∀ r ∈ (run ops).toList, r.type ≠ "") :
    ∀ n, (run ops).toList.length < n →
      ∃ m, revokeMemoryMatching pattern id n true (run ops) = some (true, m) ∧
        ∀ r, r ∈ m.toList ↔ r ∈ (run ops).toList ∧
          ¬(TypeMatches pattern r.type ∧ (id = unspecified ∨ r.id = id)) := by
  intro n hn
  obtain ⟨hrun, hl⟩ := revokeMemoryMatching_spec (run_wellFormed ops) hn
  refine ⟨_, hrun, fun r => ?_⟩
  rw [hl, mem_filter]
  refine and_congr_right fun hr => ?_
  have ht := htypes r hr
  have hlen : 0 < r.type.length := Nat.pos_of_ne_zero fun h => ht (String.length_eq_zero_iff.1 h)
  rw [Bool.not_eq_true', ← Bool.not_eq_true, matchesRegion, decide_eq_true hlen, Bool.true_and,
    Bool.and_eq_true, matchRegionType_iff ht, Bool.or_eq_true, beq_iff_eq, beq_iff_eq]

theorem hundredBytes_revoked : ∃ m,
    revokeMemoryMatching "he*" unspecified 3 true (run [.grant hundredBytes, .grant stackPage]) =
      some (true, m) ∧ hundredBytes ∉ m.toList ∧ stackPage ∈ m.toList := by
  obtain ⟨m, hm, hr⟩ := revokeMemoryMatching_exact [.grant hundredBytes, .grant stackPage] "he*"
    unspecified (by decide) 3 (by decide)
  have hh : TypeMatches "he*" "heap" := .inr (.inr (by decide))
  have hs : ¬TypeMatches "he*" "stack" := by
    unfold TypeMatches
    decide
  exact ⟨m, hm, fun h => ((hr _).1 h).2 ⟨hh, .inl rfl⟩, (hr _).2 ⟨by decide, fun h => hs h.1⟩⟩

/-- The flag takes the place of the identifier. The other overload passes on false. -/
def moduleRegion (name : String) (range : MemoryRange) (perms : BitVec 32) (regionType : String)
    (permanent : Bool) : MemoryRegion :=
  ⟨range, perms, "module:" ++ name ++ ":" ++ regionType, if permanent then 1 else 0, false⟩

def grantMemoryForModule (name : String) (range : MemoryRange) (perms : BitVec 32)
    (regionType : String) (permanent : Bool) (m : MemoryMap) : MemoryMap :=
  grantMemory (moduleRegion name range perms regionType permanent) m

def leaked (m : MemoryMap) : List MemoryRegion := m.toList.filter fun r => !r.permanent

def checkMemoryLeaks (checkLeaks : Bool) (m : MemoryMap) : Bool := !checkLeaks || (leaked m).isEmpty

inductive GrantCall where
  | direct
  | forModule (permanent : Bool)
  deriving DecidableEq

inductive ModuleOp where
  | op (o : CheckerOp)
  | grantForModule (name : String) (range : MemoryRange) (perms : BitVec 32) (regionType : String)
      (permanent : Bool)

/-- The regions, and the calls that granted them. -/
structure GrantHistory where
  map : MemoryMap
  call : MemoryRegion → GrantCall

namespace GrantHistory
def note (region : MemoryRegion) (how : GrantCall) (h : GrantHistory) : MemoryRegion → GrantCall :=
  if region ∈ h.map.toList then h.call else Function.update h.call region how

def perform (h : GrantHistory) : ModuleOp → GrantHistory
  | .op (.grant region) => ⟨grantMemory region h.map, h.note region .direct⟩
  | .op o => ⟨MemoryChecker.perform h.map o, h.call⟩
  | .grantForModule name range perms regionType permanent =>
    ⟨grantMemoryForModule name range perms regionType permanent h.map,
      h.note (moduleRegion name range perms regionType permanent) (.forModule permanent)⟩

def run (ops : List ModuleOp) : GrantHistory := ops.foldl perform ⟨.nil, fun _ => .direct⟩

def asPermanent (h : GrantHistory) (r : MemoryRegion) : Bool :=
  match h.call r with
  | .direct => r.permanent
  | .forModule permanent => permanent

/-- A module's region is stored as not permanent. -/
structure Lost (h : GrantHistory) : Prop where
  wellFormed : h.map.WellFormed
  flag : ∀ r ∈ h.map.toList, ∀ permanent, h.call r = .forModule permanent → r.permanent = false

variable {h : GrantHistory}
theorem Lost.grant (hls : h.Lost) (hh : ∀ p, how = .forModule p → region.permanent = false) :
    Lost ⟨grantMemory region h.map, h.note region how⟩ := by
  refine ⟨grantMemory_wellFormed hls.wellFormed region, fun r hr p hc => ?_⟩
  have hmem : r ∈ h.map.toList ∨ r = region := by
    by_cases hg : Grantable region h.map
    · rw [grantMemory_granted hls.wellFormed hg] at hr
      exact (((replace_spec hls.wellFormed hg.1 hg.2).2 r).1 hr).symm
    · rw [grantMemory_rejected hls.wellFormed hg] at hr
      exact .inl hr
  change h.note region how r = .forModule p at hc
  rw [note] at hc
  split at hc
  next hs =>
    obtain hmem | rfl := hmem
    · exact hls.flag r hmem p hc
    · exact hls.flag r hs p hc
  next hn =>
    by_cases heq : r = region
    · subst heq
      rw [Function.update_self] at hc
      exact hh p hc
    · rw [Function.update_of_ne heq] at hc
      exact hls.flag r (hmem.resolve_right heq) p hc

theorem Lost.perform (hls : h.Lost) (op : ModuleOp) : (h.perform op).Lost := by
  fun_cases GrantHistory.perform h op with
  | case1 region => exact hls.grant nofun
  | case2 o hno =>
    refine ⟨perform_wellFormed hls.wellFormed o, fun r hr => ?_⟩
    obtain hs | ⟨region, rfl, _⟩ := perform_cases h.map o
    · exact hls.flag r (hs.subset hr)
    · exact absurd rfl (hno region)
  | case3 name range perms regionType permanent => exact hls.grant fun _ _ => rfl

theorem run_lost (ops : List ModuleOp) : (run ops).Lost :=
  foldlRecOn ops GrantHistory.perform ⟨⟨forall_mem_nil _, .nil⟩, forall_mem_nil _⟩
    fun _ hls op _ => hls.perform op

/-- Exactly regions granted as not permanent are reported. -/
structure LeaksRight (h : GrantHistory) : Prop where
  reported : checkMemoryLeaks true h.map = false ↔ ∃ r ∈ h.map.toList, h.asPermanent r = false
  never : ∀ r ∈ leaked h.map, h.asPermanent r = false

/-- Leaks are right unless a module's permanent region is left. -/
theorem leaksRight_iff (ops : List ModuleOp) :
    (run ops).LeaksRight ↔ ∀ r ∈ (run ops).map.toList, (run ops).call r ≠ .forModule true := by
  have hls := run_lost ops
  generalize run ops = h at hls
  constructor
  · intro ht r hr hc
    have hl : r ∈ leaked h.map := by
      rw [leaked, mem_filter, hls.flag r hr true hc]
      exact ⟨hr, rfl⟩
    have hv := ht.never r hl
    rw [asPermanent, hc] at hv
    cases hv
  · intro hn
    have hs (r : MemoryRegion) (hr : r ∈ h.map.toList) : h.asPermanent r = r.permanent := by
      rw [asPermanent]
      cases hc : h.call r with
      | direct => rfl
      | forModule permanent =>
        cases permanent with
        | false => exact (hls.flag r hr false hc).symm
        | true => exact absurd hc (hn r hr)
    refine ⟨?_, fun r hr => ?_⟩
    · simp only [checkMemoryLeaks, leaked, Bool.not_true, Bool.false_or,
        isEmpty_eq_false_iff_exists_mem, mem_filter, Bool.not_eq_true']
      exact exists_congr fun r => and_congr_right fun hr => by rw [hs r hr]
    · rw [leaked, mem_filter, Bool.not_eq_true'] at hr
      rw [hs r hr.1, hr.2]

theorem permanent_leaked :
    let h := run [.grantForModule "driver" ⟨100, 100⟩ 1 "heap" true]
    checkMemoryLeaks true h.map = false ∧ ∃ r ∈ leaked h.map, h.asPermanent r = true := by decide

end GrantHistory
end MemoryChecker
end Chef
