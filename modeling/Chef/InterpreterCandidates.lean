import Chef.InterpreterDetector

namespace Chef
open Foundations List Or Prod Grouping MemoryOp
namespace MemoryOpAnalyzer
section
variable (a : MemoryOpAnalyzer)
def writesTo (address : Nat) : List MemoryOp :=
  a.rangeOps.filter fun op => (op.isWrite && op.size == a.pointerSize) && op.address = address

def readsAt (range : Nat × Nat) (csf pc : Nat) : List MemoryOp :=
  a.rangeOps.filter fun op => isRead range csf op && op.pc = pc

/-- Enough growing writes to the address come from one frame. -/
structure HLPCVariable (sizeLimit spanLimit address : Nat) : Prop where
  written : a.writesTo address ≠ []
  growing : (a.writesTo address).Pairwise fun x y => x.value < y.value
  oneFrame : (a.writesTo address).Pairwise fun x y => x.frame = y.frame
  enough : sizeLimit ≤ (a.writesTo address).length
  span : ∀ front back, (a.writesTo address).head? = some front →
    (a.writesTo address).getLast? = some back → back.value - front.value ≤ spanLimit

/-- Enough reads go to growing addresses. -/
structure OpcodeRead (range : Nat × Nat) (csf sizeLimit pc : Nat) : Prop where
  read : a.readsAt range csf pc ≠ []
  growing : (a.readsAt range csf pc).Pairwise fun x y => x.address < y.address
  enough : sizeLimit ≤ (a.readsAt range csf pc).length

end

variable {a : MemoryOpAnalyzer}
theorem updates_iff : Updates x y ↔ x.value < y.value ∧ x.frame = y.frame := by
  rw [Updates, not_or, Nat.not_le, ne_eq, not_not]
  exact and_congr_right fun _ => eq_comm

theorem advances_iff : Advances x y ↔ x.address < y.address ∧ x.frame = y.frame := by
  rw [Advances, not_or, Nat.not_le, ne_eq, not_not]
  exact and_congr_right fun _ => eq_comm

theorem isChain_updates_iff {l : List MemoryOp} : l.IsChain Updates ↔
    l.Pairwise (fun x y => x.value < y.value) ∧ l.Pairwise fun x y => x.frame = y.frame := by
  have ht : IsTrans MemoryOp Updates := ⟨fun x y z hxy hyz => by
    rw [updates_iff] at *
    exact ⟨hxy.1.trans hyz.1, hxy.2.trans hyz.2⟩⟩
  rw [isChain_iff_pairwise, ← pairwise_and_iff]
  exact ⟨List.Pairwise.imp updates_iff.1, List.Pairwise.imp updates_iff.2⟩

theorem isChain_advances_iff {l : List MemoryOp} (hfr : ∀ x ∈ l, x.frame = csf) :
    l.IsChain Advances ↔ l.Pairwise fun x y => x.address < y.address := by
  have ht : IsTrans MemoryOp Advances := ⟨fun x y z hxy hyz => by
    rw [advances_iff] at *
    exact ⟨hxy.1.trans hyz.1, hxy.2.trans hyz.2⟩⟩
  rw [isChain_iff_pairwise]
  constructor
  · exact List.Pairwise.imp fun h => (advances_iff.1 h).1
  intro h
  apply h.imp_of_mem
  intro x y hx hy hlt
  exact advances_iff.2 ⟨hlt, (hfr x hx).trans (hfr y hy).symm⟩

section
variable (a : MemoryOpAnalyzer)
theorem foldl_addUpdate : a.rangeOps.foldl a.addUpdate ⟨[], []⟩ = collect address Updates
      (a.rangeOps.filter fun op => op.isWrite && op.size == a.pointerSize) := by
  rw [collect, foldl_filter]
  rfl

theorem foldl_addRead (range : Nat × Nat) (csf : Nat) :
    a.rangeOps.foldl (addRead range csf) ⟨[], []⟩ =
      collect pc Advances (a.rangeOps.filter (isRead range csf)) := by
  rw [collect, foldl_filter]
  rfl

theorem itemsOf_updates (address : Nat) : itemsOf MemoryOp.address address
      (a.rangeOps.filter fun op => op.isWrite && op.size == a.pointerSize) =
        a.writesTo address := by
  rw [itemsOf, filter_filter, writesTo]
  apply filter_congr
  intro op _
  exact Bool.and_comm _ _

theorem itemsOf_reads (range : Nat × Nat) (csf pc : Nat) :
    itemsOf MemoryOp.pc pc (a.rangeOps.filter (isRead range csf)) = a.readsAt range csf pc := by
  rw [itemsOf, filter_filter, readsAt]
  apply filter_congr
  intro op _
  exact Bool.and_comm _ _

end

theorem isHLPCPattern_iff (h : items ≠ []) :
    a.isHLPCPattern items = true ↔ a.sizeLimit ≤ items.length ∧
      ∀ front back, items.head? = some front → items.getLast? = some back →
        back.value - front.value ≤ a.spanLimit := by
  rw [isHLPCPattern, head?_eq_some_head h, getLast?_eq_some_getLast h]
  simp only [Bool.and_eq_true, Bool.not_eq_true', decide_eq_false_iff_not, Nat.not_lt,
    Option.some.injEq]
  constructor
  · rintro ⟨hs, hsp⟩
    refine ⟨hs, ?_⟩
    rintro _ _ rfl rfl
    exact hsp
  · rintro ⟨hs, hsp⟩
    exact ⟨hs, hsp _ _ rfl rfl⟩

theorem computeCandidateHLPCUpdates_ok (h : a.InRange) :
    ∃ r, a.computeCandidateHLPCUpdates = .ok r ∧ (r.1 = true ↔ r.2 ≠ []) ∧
      (∀ address, address ∈ r.2.map fst ↔ a.HLPCVariable a.sizeLimit a.spanLimit address) ∧
      ∀ e ∈ r.2, e.2 = a.writesTo e.1 := by
  have hc := collect_collects address Updates
    (a.rangeOps.filter fun op => op.isWrite && op.size == a.pointerSize)
  rw [← foldl_addUpdate] at hc
  have hlp : a.loop a.addUpdate ⟨[], []⟩ = .ok (a.rangeOps.foldl a.addUpdate ⟨[], []⟩) := if_pos h
  generalize a.rangeOps.foldl a.addUpdate ⟨[], []⟩ = g at hc hlp
  have hks : ∀ address, address ∈ (g.groups.filter fun e => a.isHLPCPattern e.2).map fst ↔
      a.HLPCVariable a.sizeLimit a.spanLimit address := by
    intro address
    rw [hc.mem_keys_filter, itemsOf_updates]
    constructor
    · rintro ⟨hne, hch, hp⟩
      obtain ⟨hg, hfr⟩ := isChain_updates_iff.1 hch
      obtain ⟨hs, hsp⟩ := (isHLPCPattern_iff hne).1 hp
      exact ⟨hne, hg, hfr, hs, hsp⟩
    · rintro ⟨hne, hg, hfr, hs, hsp⟩
      exact ⟨hne, isChain_updates_iff.2 ⟨hg, hfr⟩, (isHLPCPattern_iff hne).2 ⟨hs, hsp⟩⟩
  have hi : ∀ e ∈ g.groups.filter fun e => a.isHLPCPattern e.2, e.2 = a.writesTo e.1 := by
    intro e he
    rw [← itemsOf_updates]
    exact (hc.mem_iff.1 (mem_of_mem_filter he)).1
  rw [computeCandidateHLPCUpdates, hlp]
  simp only [bind, Except.bind]
  by_cases hn : g.groups.isEmpty = true
  · rw [if_pos hn]
    rw [List.isEmpty_iff] at hn
    rw [hn] at hks
    exact ⟨_, rfl, by simp, hks, forall_mem_nil _⟩
  · rw [if_neg hn]
    refine ⟨_, rfl, ?_, hks, hi⟩
    rw [Bool.not_eq_true', isEmpty_eq_false_iff]

theorem computeCandidateHLPCReads_ok (h : a.InRange) (range : Nat × Nat) (csf : Nat) :
    ∃ r, a.computeCandidateHLPCReads range csf = .ok r ∧
      ∀ pc, pc ∈ r.2.map fst ↔ a.OpcodeRead range csf a.sizeLimit pc := by
  have hc := collect_collects pc Advances (a.rangeOps.filter (isRead range csf))
  rw [← foldl_addRead] at hc
  have hlp : a.loop (addRead range csf) ⟨[], []⟩ =
      .ok (a.rangeOps.foldl (addRead range csf) ⟨[], []⟩) := if_pos h
  generalize a.rangeOps.foldl (addRead range csf) ⟨[], []⟩ = g at hc hlp
  have hks : ∀ pc, pc ∈ (g.groups.filter fun e => !(e.2.length < a.sizeLimit)).map fst ↔
      a.OpcodeRead range csf a.sizeLimit pc := by
    intro pc
    have hfr : ∀ op ∈ a.readsAt range csf pc, op.frame = csf := by
      intro op hop
      have hr := (mem_filter.1 hop).2
      rw [isRead] at hr
      simp only [Bool.and_eq_true, beq_iff_eq] at hr
      exact hr.1.1.2
    have hi := hc.mem_keys_filter (k := pc) fun items => !(items.length < a.sizeLimit)
    rw [hi, itemsOf_reads, isChain_advances_iff hfr, Bool.not_eq_true',
      decide_eq_false_iff_not, Nat.not_lt]
    constructor
    · rintro ⟨hne, hg, hs⟩
      exact ⟨hne, hg, hs⟩
    · rintro ⟨hne, hg, hs⟩
      exact ⟨hne, hg, hs⟩
  rw [computeCandidateHLPCReads, hlp]
  simp only [bind, Except.bind]
  by_cases hn : g.groups.isEmpty = true
  · rw [if_pos hn]
    rw [List.isEmpty_iff] at hn
    rw [hn] at hks
    exact ⟨_, rfl, hks⟩
  · rw [if_neg hn]
    exact ⟨_, rfl, hks⟩

section
variable (hmin : a.minOpcodes = (m : Nat)) (hover : m * 1024 < 2 ^ 31)
include hmin hover
theorem sizeLimit_eq : a.sizeLimit = m := by
  rw [sizeLimit, hmin]
  omega

theorem spanLimit_eq : a.spanLimit = 1024 * m := by
  have hb : ((m : Int) * 1024).bmod (2 ^ 32) = (m : Int) * 1024 := by
    apply Int.bmod_eq_of_le <;> omega
  rw [spanLimit, hmin, hb]
  omega

end

/-- The filters leave exactly the candidates of the range. -/
theorem candidates_exact (hrange : a.memopRange.2 ≤ a.memOps.length)
    (hmin : a.minOpcodes = (m : Nat)) (hover : m * 1024 < 2 ^ 31) :
    (∃ r, a.computeCandidateHLPCUpdates = .ok r ∧
      ∀ address, address ∈ r.2.map fst ↔ a.HLPCVariable m (1024 * m) address) ∧
    ∀ range csf, ∃ r, a.computeCandidateHLPCReads range csf = .ok r ∧
      ∀ pc, pc ∈ r.2.map fst ↔ a.OpcodeRead range csf m pc := by
  have hin : a.InRange := fun _ => hrange
  have hs := sizeLimit_eq hmin hover
  constructor
  · obtain ⟨r, hr, _, hks, _⟩ := computeCandidateHLPCUpdates_ok hin
    rw [hs, spanLimit_eq hmin hover] at hks
    exact ⟨r, hr, hks⟩
  intro range csf
  obtain ⟨r, hr, hks⟩ := computeCandidateHLPCReads_ok hin range csf
  rw [hs] at hks
  exact ⟨r, hr, hks⟩

def twoOpcodes : MemoryOpAnalyzer where
  memOps := [⟨0, 1, 7, 100, 5, 1, false⟩, ⟨1, 2, 7, 8, 100, 8, true⟩,
    ⟨2, 1, 7, 102, 6, 1, false⟩, ⟨3, 2, 7, 8, 102, 8, true⟩]
  minOpcodes := 2
  memopRange := (0, 4)
  pointerSize := 8
  functionOf := fun frame => frame

theorem twoOpcodes_candidates_exact : (∃ r, twoOpcodes.computeCandidateHLPCUpdates = .ok r ∧
    ∀ address, address ∈ r.2.map fst ↔ twoOpcodes.HLPCVariable 2 (1024 * 2) address) ∧
    ∀ range csf, ∃ r, twoOpcodes.computeCandidateHLPCReads range csf = .ok r ∧ ∀ pc, pc ∈
    r.2.map fst ↔ twoOpcodes.OpcodeRead range csf 2 pc :=
  candidates_exact (by decide) rfl (by decide)

def BytecodeBuffer (a : MemoryOpAnalyzer) (address : Nat) : Prop :=
  a.HLPCVariable a.sizeLimit a.spanLimit address ∧
    ∃ r pc, valueRange (a.writesTo address) = .ok r ∧ a.OpcodeRead r.1 r.2 a.sizeLimit pc

def HasReads (a : MemoryOpAnalyzer) (e : Nat × List MemoryOp) : Prop :=
  ∃ r pc, valueRange e.2 = .ok r ∧ a.OpcodeRead r.1 r.2 a.sizeLimit pc

theorem valueRange_ok (h : items ≠ []) : ∃ r, valueRange items = .ok r := by
  rw [valueRange, head?_eq_some_head h, getLast?_eq_some_getLast h]
  exact ⟨_, rfl⟩

theorem findBuffers_cons (h : a.InRange) (he : e.2 ≠ []) (rest : MemSeqVectorMap)
    (hlpc : Option (Nat × List MemoryOp)) (pcs : MemSeqVectorMap) :
    (¬a.HasReads e ∧ a.findBuffers (e :: rest) hlpc pcs = a.findBuffers rest hlpc pcs) ∨
    (a.HasReads e ∧ ∃ reads, reads ≠ [] ∧ a.findBuffers (e :: rest) hlpc pcs =
      if pcs.isEmpty then a.findBuffers rest (some e) reads else .ok none) := by
  obtain ⟨r, hr⟩ := valueRange_ok he
  obtain ⟨reads, hd, hks⟩ := computeCandidateHLPCReads_ok h r.1 r.2
  have hs : a.findBuffers (e :: rest) hlpc pcs =
      if reads.2.isEmpty then a.findBuffers rest hlpc pcs
      else if pcs.isEmpty then a.findBuffers rest (some e) reads.2 else .ok none := by
    rw [findBuffers, hr]
    simp only [bind, Except.bind, hd]
  by_cases hn : reads.2 = []
  · left
    rw [hn] at hks
    refine ⟨?_, ?_⟩
    · rintro ⟨r', pc, hr', hpc⟩
      rw [hr] at hr'
      cases hr'
      exact not_mem_nil ((hks pc).2 hpc)
    · rw [hs, if_pos (isEmpty_iff.2 hn)]
  · right
    obtain ⟨first, hf⟩ := exists_mem_of_ne_nil _ hn
    refine ⟨⟨r, first.1, hr, (hks _).1 (mem_map_of_mem hf)⟩, reads.2, hn, ?_⟩
    rw [hs, if_neg (mt List.isEmpty_iff.1 hn)]

section
variable (h : a.InRange) {es : MemSeqVectorMap} (hes : ∀ e ∈ es, e.2 ≠ [])
include h hes
theorem findBuffers_found (hlpc : Option (Nat × List MemoryOp)) (hp : pcs ≠ []) :
    a.findBuffers es hlpc pcs = .ok none ∨
      a.findBuffers es hlpc pcs = .ok (some (hlpc, pcs)) ∧ ∀ e ∈ es, ¬a.HasReads e := by
  induction es with
  | nil => exact inr ⟨rfl, forall_mem_nil _⟩
  | cons e rest ih =>
    obtain ⟨he, hr⟩ := forall_mem_cons.1 hes
    obtain ⟨hno, hs⟩ | ⟨-, reads, -, hs⟩ := findBuffers_cons h he rest hlpc pcs
    · rw [hs]
      obtain hsp | ⟨hn, ha⟩ := ih hr
      · exact inl hsp
      · exact inr ⟨hn, forall_mem_cons.2 ⟨hno, ha⟩⟩
    · rw [if_neg (mt List.isEmpty_iff.1 hp)] at hs
      exact inl hs

theorem findBuffers_ok :
    (a.findBuffers es none [] = .ok (some (none, [])) ∧ ∀ e ∈ es, ¬a.HasReads e) ∨
    ∃ e ∈ es, a.HasReads e ∧ (a.findBuffers es none [] = .ok none ∨
      ∃ pcs, a.findBuffers es none [] = .ok (some (some e, pcs)) ∧
        ∀ e' ∈ es, a.HasReads e' → e' = e) := by
  induction es with
  | nil => exact inl ⟨rfl, forall_mem_nil _⟩
  | cons e rest ih =>
    obtain ⟨he, hr⟩ := forall_mem_cons.1 hes
    obtain ⟨hno, hs⟩ | ⟨hd, reads, hne, hs⟩ := findBuffers_cons h he rest none []
    · rw [hs]
      obtain ⟨hn, ha⟩ | ⟨e', hm, hd, hn⟩ := ih hr
      · exact inl ⟨hn, forall_mem_cons.2 ⟨hno, ha⟩⟩
      refine inr ⟨e', mem_cons_of_mem e hm, hd, ?_⟩
      obtain hsp | ⟨pcs, hf, hu⟩ := hn
      · exact inl hsp
      refine inr ⟨pcs, hf, forall_mem_cons.2 ⟨?_, hu⟩⟩
      intro hc
      exact absurd hc hno
    · rw [if_pos isEmpty_nil] at hs
      refine inr ⟨e, mem_cons_self, hd, ?_⟩
      rw [hs]
      obtain hsp | ⟨hn, ha⟩ := findBuffers_found h hr (some e) hne
      · exact inl hsp
      refine inr ⟨reads, hn, forall_mem_cons.2 ⟨fun _ => rfl, ?_⟩⟩
      intro e' hm hc
      exact absurd hc (ha e' hm)

end

theorem analyze_outOfRange (h : ¬a.InRange) : a.analyze = .error .outOfRange := by
  have hlp : a.loop a.addUpdate ⟨[], []⟩ = .error .outOfRange := if_neg h
  rw [analyze, computeCandidateHLPCUpdates, hlp]
  rfl

def Determined (a : MemoryOpAnalyzer) : Prop :=
  ∃ r, a.analyze = .ok r ∧ (r.1 = true → ∃! address, a.BytecodeBuffer address)

/-- There is a result if some candidate has reads, or if there is none. -/
theorem analyze_determined_iff (a : MemoryOpAnalyzer) : a.Determined ↔ a.InRange ∧
    ((∃ address, a.BytecodeBuffer address) ∨
      ∀ address, ¬a.HLPCVariable a.sizeLimit a.spanLimit address) := by
  by_cases hin : a.InRange
  swap
  · refine iff_of_false ?_ fun h => hin h.1
    rintro ⟨r, hr, -⟩
    rw [analyze_outOfRange hin] at hr
    cases hr
  obtain ⟨updates, hu, hs, hks, hi⟩ := computeCandidateHLPCUpdates_ok hin
  have hana := analyze.eq_1 a
  rw [hu] at hana
  change a.analyze = if updates.1 then a.findBuffers updates.2 none [] >>= _
    else .ok (false, ⟨0, 0, 0⟩) at hana
  have hv : ∀ e ∈ updates.2, a.HLPCVariable a.sizeLimit a.spanLimit e.1 := fun e he =>
    (hks _).1 (mem_map_of_mem he)
  have hne : ∀ e ∈ updates.2, e.2 ≠ [] := by
    intro e he
    rw [hi e he]
    exact (hv e he).written
  have hrds : ∀ e ∈ updates.2, a.HasReads e ↔ a.BytecodeBuffer e.1 := by
    intro e he
    rw [HasReads, hi e he]
    exact (and_iff_right (hv e he)).symm
  have ht : ∀ address, a.BytecodeBuffer address → ∃ e ∈ updates.2, e.1 = address := by
    intro address ha
    exact mem_map.1 ((hks address).2 ha.1)
  by_cases hn : updates.2 = []
  · have hff : ¬updates.1 = true := fun h => hs.1 h hn
    rw [if_neg hff] at hana
    have hno : ∀ address, ¬a.HLPCVariable a.sizeLimit a.spanLimit address := by
      intro address ha
      have hm := (hks address).2 ha
      rw [hn] at hm
      exact not_mem_nil hm
    exact iff_of_true ⟨_, hana, by simp⟩ ⟨hin, inr hno⟩
  rw [if_pos (hs.2 hn)] at hana
  obtain ⟨hd, hl⟩ | ⟨e, he, hR, hd⟩ := findBuffers_ok hin hne
  · refine iff_of_false ?_ ?_
    · rintro ⟨r, hr, -⟩
      rw [hana, hd] at hr
      cases hr
    rintro ⟨-, ⟨address, ha⟩ | hno⟩
    · obtain ⟨e, he, rfl⟩ := ht address ha
      exact hl e he ((hrds e he).2 ha)
    · obtain ⟨e, he⟩ := exists_mem_of_ne_nil _ hn
      exact hno e.1 (hv e he)
  · refine iff_of_true ?_ ⟨hin, inl ⟨e.1, (hrds e he).1 hR⟩⟩
    obtain hsp | ⟨pcs, hf, hq⟩ := hd
    · rw [hsp] at hana
      exact ⟨_, hana, by simp⟩
    have hdetect : ∃ r, a.detect (some e) pcs = .ok r := by
      rw [detect, head?_eq_some_head (hne e he)]
      exact ⟨_, rfl⟩
    obtain ⟨r, hr⟩ := hdetect
    rw [hf] at hana
    refine ⟨r, hana.trans hr, fun _ => ⟨e.1, (hrds e he).1 hR, ?_⟩⟩
    intro address ha
    obtain ⟨e', he', rfl⟩ := ht address ha
    rw [hq e' he' ((hrds e' he').2 ha)]

def onlyWrites : MemoryOpAnalyzer := { twoOpcodes with
    memOps := [⟨0, 2, 7, 8, 100, 8, true⟩, ⟨1, 2, 7, 8, 102, 8, true⟩]
    memopRange := (0, 2) }

theorem onlyWrites_undetermined :
    onlyWrites.InRange ∧ onlyWrites.analyze = .error .undeterminedCandidate ∧
      ¬onlyWrites.Determined := by
  have ha : onlyWrites.analyze = .error .undeterminedCandidate := by rfl
  refine ⟨by decide, ha, ?_⟩
  rintro ⟨r, hr, -⟩
  cases hr

end MemoryOpAnalyzer
end Chef
