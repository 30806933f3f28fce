import Mathlib.Data.List.Induction
import Mathlib.Data.List.Pairwise
import Mathlib.Data.Nat.Find
import Chef.Foundations.AssocList
import Chef.Foundations.SearchTree

namespace Chef
open List Foundations Option
/-- The addresses from `start` to `stop`. -/
structure BasicBlock where
  timeStamp : BitVec 64
  start : BitVec 64
  stop : BitVec 64
  deriving DecidableEq

namespace BasicBlock
def sortByTime (b1 b2 : BasicBlock) : Bool :=
  decide (b1.timeStamp < b2.timeStamp) || decide (b1.start < b2.start)

/-- The elements before and after the place to which an element descends. -/
def place (b : BasicBlock) : SearchTree BasicBlock → List BasicBlock × List BasicBlock
  | .nil => ([], [])
  | .node l v r =>
    if sortByTime b v then ((place b l).1, (place b l).2 ++ v :: r.toList)
    else (l.toList ++ v :: (place b r).1, (place b r).2)

/-- An insertion into the set; the tree may be rebalanced. -/
inductive Inserts (b : BasicBlock) (t t' : SearchTree BasicBlock) : Prop
  | inserted : (∀ p ∈ (place b t).1.getLast?, sortByTime p b = true) →
    t'.toList = (place b t).1 ++ b :: (place b t).2 → Inserts b t t'
  | rejected : p ∈ (place b t).1.getLast? → ¬sortByTime p b = true → t' = t → Inserts b t t'

/-- The set after the insertion of all blocks in their order. -/
inductive Sorted : List BasicBlock → SearchTree BasicBlock → Prop
  | nil : Sorted [] .nil
  | insert : Sorted done t → Inserts b t t' → Sorted (done ++ [b]) t'

/-- A line of the report: the time, the number and the addresses. -/
def printTimeCoverage (bbtime : SearchTree BasicBlock) :
    List (BitVec 64 × Nat × BitVec 64 × BitVec 64) :=
  bbtime.toList.zipIdx.map fun (b, i) =>
    ((b.timeStamp - (bbtime.toList.headD b).timeStamp) / 1000000, i, b.start, b.stop)

def getTimeCoverage (bbtime : SearchTree BasicBlock) : Option (BitVec 64) := do
  let tfirst ← bbtime.toList.head?
  let tit ← bbtime.toList.getLast?
  return (tit.timeStamp - tfirst.timeStamp) / 1000000

/-- The covered blocks, in the order of the set. -/
structure Covered (blocks : List BasicBlock) : Prop where
  valid : ∀ b ∈ blocks, b.start ≤ b.stop
  disjoint : blocks.Pairwise fun a b => a.stop < b.start

def ByTime (bs : List BasicBlock) : Prop := bs.Pairwise fun a b => a.timeStamp ≤ b.timeStamp

theorem Covered.starts (h : Covered blocks) : blocks.Pairwise fun a b => a.start < b.start :=
  h.disjoint.imp_of_mem fun ha _ hlt => Nat.lt_of_le_of_lt (h.valid _ ha) hlt

theorem place_spec (t : SearchTree BasicBlock) (hst : ∀ v ∈ t.toList, v.start < b.start)
    (hso : ByTime t.toList) : (place b t).1 ++ (place b t).2 = t.toList ∧
      (∀ v ∈ (place b t).1, v.timeStamp ≤ b.timeStamp) ∧
        ∀ v ∈ (place b t).2, b.timeStamp < v.timeStamp := by
  induction t with
  | nil => simp [place, SearchTree.toList]
  | node l v r ihl ihr =>
    rw [SearchTree.toList] at hst hso
    obtain ⟨hl, hvr, hlv⟩ := pairwise_append.1 hso
    obtain ⟨hv, hr⟩ := pairwise_cons.1 hvr
    have hp : sortByTime b v = true ↔ b.timeStamp < v.timeStamp := by
      have hn : ¬b.start < v.start := BitVec.not_lt.2 (BitVec.le_of_lt (hst v (by simp)))
      simp [sortByTime, hn]
    have ihl := ihl (fun x hx => hst x (by simp [hx])) hl
    have ihr := ihr (fun x hx => hst x (by simp [hx])) hr
    rw [place, SearchTree.toList]
    split
    next hlt =>
      rw [hp] at hlt
      refine ⟨by rw [← append_assoc, ihl.1], ihl.2.1, fun x hx => ?_⟩
      rcases mem_append.1 hx with hx | hx
      · exact ihl.2.2 x hx
      rcases mem_cons.1 hx with rfl | hx
      · exact hlt
      · exact Nat.lt_of_lt_of_le hlt (hv x hx)
    next hlt =>
      rw [hp, BitVec.not_lt] at hlt
      refine ⟨by rw [append_assoc, cons_append, ihr.1], fun x hx => ?_, ihr.2.2⟩
      rcases mem_append.1 hx with hx | hx
      · exact BitVec.le_trans (hlv x hx v mem_cons_self) hlt
      rcases mem_cons.1 hx with rfl | hx
      · exact hlt
      · exact ihr.2.1 x hx

theorem Inserts.sorted (h : Inserts b t t') (hst : ∀ v ∈ t.toList, v.start < b.start)
    (hso : ByTime t.toList) : ByTime t'.toList ∧ t'.toList.Perm (t.toList ++ [b]) := by
  obtain ⟨hpl, hw, hh⟩ := place_spec t hst hso
  have hpre : ∀ p ∈ (place b t).1, sortByTime p b = true := by
    intro p hp
    have := hst p (hpl ▸ mem_append_left _ hp)
    simp [sortByTime, this]
  cases h with
  | rejected hp hn _ => exact absurd (hpre _ (mem_of_getLast? hp)) hn
  | inserted _ ht =>
    rw [ht]
    rw [← hpl] at hso
    obtain ⟨hl, hr, hlr⟩ := pairwise_append.1 hso
    constructor
    · refine pairwise_append.2 ⟨hl, pairwise_cons.2 ⟨fun x hx => BitVec.le_of_lt (hh x hx), hr⟩, ?_⟩
      intro x hx y hy
      rcases mem_cons.1 hy with rfl | hy
      · exact hw x hx
      · exact hlr x hx y hy
    · rw [← hpl, append_assoc]
      exact (perm_append_singleton b _).symm.append_left _

theorem Sorted.spec (h : Sorted blocks t) (hb : Covered blocks) :
    ByTime t.toList ∧ t.toList.Perm blocks := by
  induction h with
  | nil => exact ⟨.nil, .nil⟩
  | @insert done t b t' _ hi ih =>
    obtain ⟨hs, hpm⟩ := ih ⟨fun x hx => hb.valid x (mem_append_left _ hx),
      (pairwise_append.1 hb.disjoint).1⟩
    have hst : ∀ v ∈ t.toList, v.start < b.start := fun v hv =>
      (pairwise_append.1 hb.starts).2.2 v (hpm.mem_iff.1 hv) b mem_cons_self
    obtain ⟨hs', hpe⟩ := hi.sorted hst hs
    exact ⟨hs', hpe.trans (hpm.append_right _)⟩

/-- The report has every covered block once, by time, and the last time is right. -/
theorem timeCoverage_right (hb : Covered blocks) (hne : blocks ≠ []) (h : Sorted blocks t) :
    ∃ bs, bs.Perm blocks ∧ ByTime bs ∧ ∃ first ∈ blocks, ∃ last ∈ blocks,
      (∀ b ∈ blocks, first.timeStamp ≤ b.timeStamp ∧ b.timeStamp ≤ last.timeStamp) ∧
      printTimeCoverage t = (bs.zipIdx.map fun (b, i) =>
        ((b.timeStamp - first.timeStamp) / 1000000, i, b.start, b.stop)) ∧
      ∃ time, getTimeCoverage t = some time ∧
        time.toNat = (last.timeStamp.toNat - first.timeStamp.toNat) / 1000000 := by
  obtain ⟨hs, hpm⟩ := h.spec hb
  have hne' : t.toList ≠ [] := fun h => hne (h ▸ hpm).nil_eq.symm
  obtain ⟨first, rest, hf⟩ := exists_cons_of_ne_nil hne'
  obtain ⟨init, last, hla⟩ := (eq_nil_or_concat' t.toList).resolve_left hne'
  have hn : ∀ b ∈ t.toList, first.timeStamp ≤ b.timeStamp := by
    intro b hm
    rw [ByTime, hf, pairwise_cons] at hs
    rcases mem_cons.1 (hf ▸ hm) with rfl | hm
    · exact BitVec.le_refl _
    · exact hs.1 b hm
  have hx : ∀ b ∈ t.toList, b.timeStamp ≤ last.timeStamp := by
    intro b hm
    rw [ByTime, hla, pairwise_append] at hs
    rcases mem_append.1 (hla ▸ hm) with hm | hm
    · exact hs.2.2 b hm last mem_cons_self
    · rw [mem_singleton.1 hm]
      exact BitVec.le_refl _
  have hl : last ∈ t.toList := hla ▸ mem_append_right _ mem_cons_self
  refine ⟨t.toList, hpm, hs, first, hpm.mem_iff.1 (hf ▸ mem_cons_self), last, hpm.mem_iff.1 hl,
    fun b hm => ?_, ?_, (last.timeStamp - first.timeStamp) / 1000000, ?_, ?_⟩
  · exact ⟨hn b (hpm.mem_iff.2 hm), hx b (hpm.mem_iff.2 hm)⟩
  · rw [printTimeCoverage, hf]
    rfl
  · rw [getTimeCoverage, hla, getLast?_concat, ← hla, hf]
    rfl
  · rw [BitVec.toNat_udiv, BitVec.toNat_sub_of_le (hn last hl)]
    rfl

theorem timeCoverage_right_two : ∃ bs : List BasicBlock, bs.Perm [⟨7, 1, 2⟩, ⟨5, 3, 4⟩] ∧
    ByTime bs := by
  have ho : Sorted ([] ++ [⟨7, 1, 2⟩]) (.node .nil ⟨7, 1, 2⟩ .nil) :=
    .insert .nil (.inserted (by simp [place]) rfl)
  have ht : Sorted ([⟨7, 1, 2⟩] ++ [⟨5, 3, 4⟩])
      (.node .nil ⟨5, 3, 4⟩ (.node .nil ⟨7, 1, 2⟩ .nil)) :=
    .insert ho (.inserted (by decide) (by decide))
  obtain ⟨bs, hpm, hs, _⟩ := timeCoverage_right ⟨by decide, by simp⟩ (by simp) ht
  exact ⟨bs, hpm, hs⟩

/-- A translation block goes from `start` to its last byte `stop`. -/
abbrev Block := BasicBlock

/-- The blocks of the set are ordered by `start`. -/
def addTranslationBlock : List Block → Block → List Block
  | [], tb => [tb]
  | it :: tbs, tb =>
    if tb.start < it.start then tb :: it :: tbs
    else if it.start < tb.start then it :: addTranslationBlock tbs tb
    else if tb.timeStamp < it.timeStamp then tb :: tbs
    else it :: tbs

/-- The first element that is neither before nor after the key. -/
def find (key : BasicBlock) (bbs : List BasicBlock) : Option BasicBlock :=
  bbs.find? fun b => !decide (b.stop < key.start) && !decide (key.stop < b.start)

/-- The keys that are looked up, with the time of their block. -/
def lookups (tb : Block) : List BasicBlock := (range (tb.stop.toNat - tb.start.toNat)).map fun i =>
    ⟨tb.timeStamp, tb.start + .ofNat 64 i, tb.start + .ofNat 64 i + 1⟩

def coverByte (allBbs coveredBbs : List BasicBlock) (key : BasicBlock) : List BasicBlock :=
  match find key allBbs with
  | none => coveredBbs
  | some it =>
    let newBlock : BasicBlock := ⟨key.timeStamp, it.start, it.stop⟩
    if (find newBlock coveredBbs).isNone then newBlock :: coveredBbs else coveredBbs

def convertTbToBb (allBbs : List BasicBlock) (uniqueTbs : List Block) : List BasicBlock :=
  uniqueTbs.foldl (fun covered tb => (lookups tb).foldl (coverByte allBbs) covered) []

/-- The time of the first lookup that finds the block. -/
def firstFound (allBbs keys : List BasicBlock) (b : BasicBlock) : Option (BitVec 64) :=
  (keys.find? fun key => find key allBbs = some b).map timeStamp

def Earliest (added : List Block) (b : BasicBlock) (time : BitVec 64) : Prop :=
  (∃ tb ∈ added, tb.start ≤ b.stop ∧ b.start ≤ tb.stop ∧ tb.timeStamp = time) ∧
    ∀ tb ∈ added, tb.start ≤ b.stop → b.start ≤ tb.stop → time ≤ tb.timeStamp

/-- The translation blocks that are kept: for each start the first one of the least time. -/
def uniqueTbs (added : List Block) : List Block := added.foldl addTranslationBlock []

/-- A byte before its last is in the block, or in none and the block starts right after it. -/
def Reaches (allBbs : List BasicBlock) (tb : Block) (b : BasicBlock) : Prop :=
  ∃ s, tb.start ≤ s ∧ s < tb.stop ∧ ((b.start ≤ s ∧ s ≤ b.stop) ∨
    (b.start = s + 1 ∧ ∀ b' ∈ allBbs, ¬(b'.start ≤ s ∧ s ≤ b'.stop)))

/-- Of the kept translation blocks that reach the block it has the lowest start. -/
structure FirstReaching (allBbs : List BasicBlock) (added : List Block) (b : BasicBlock)
    (tb : Block) : Prop where
  kept : tb ∈ uniqueTbs added
  reaches : Reaches allBbs tb b
  lowest : ∀ tb' ∈ uniqueTbs added, Reaches allBbs tb' b → tb.start ≤ tb'.start

/-- The covered blocks are those that share an address with a translation block. -/
def ConvertsRight (allBbs : List BasicBlock) (added : List Block) : Prop :=
  ∀ c, c ∈ convertTbToBb allBbs (uniqueTbs added) ↔
    ∃ b ∈ allBbs, c = ⟨c.timeStamp, b.start, b.stop⟩ ∧ Earliest added b c.timeStamp

theorem Covered.eq_of_overlap (h : Covered blocks) (ha : a ∈ blocks) (hb : b ∈ blocks)
    (hab : ¬a.stop < b.start) (hba : ¬b.stop < a.start) : a = b := by
  let R (a b : BasicBlock) : Prop := ¬a.stop < b.start → ¬b.stop < a.start → a = b
  have : Std.Symm R := ⟨fun _ _ h h1 h2 => (h h2 h1).symm⟩
  have hR : blocks.Pairwise R := h.disjoint.imp fun hlt h => absurd hlt h
  exact hR.forall_of_forall (fun _ _ _ _ => rfl) ha hb hab hba

theorem firstFound_append (blocks keys : List BasicBlock) (key b : BasicBlock) :
    firstFound blocks (keys ++ [key]) b = (firstFound blocks keys b).or
      (if find key blocks = some b then some key.timeStamp else none) := by
  rw [firstFound, firstFound, find?_append, map_or, find?_singleton]
  congr 1
  split <;> simp_all

def Found (blocks covered keys : List BasicBlock) : Prop :=
  ∀ c, c ∈ covered ↔ ∃ b ∈ blocks, c = ⟨c.timeStamp, b.start, b.stop⟩ ∧
    firstFound blocks keys b = some c.timeStamp

theorem Found.coverByte (h : Found blocks covered ks) (hb : Covered blocks) :
    Found blocks (coverByte blocks covered key) (ks ++ [key]) := by
  intro c
  simp only [firstFound_append]
  rw [BasicBlock.coverByte]
  split
  next hf => simp [hf, h c]
  next it hf =>
    have hit := mem_of_find?_eq_some hf
    simp only [hf, some.injEq]
    split
    next hn =>
      rw [isNone_iff_eq_none, find, find?_eq_none] at hn
      have hnn : firstFound blocks ks it = none := by
        rw [eq_none_iff_forall_ne_some]
        intro t ht
        have hc := hn _ ((h ⟨t, it.start, it.stop⟩).2 ⟨it, hit, rfl, ht⟩)
        have hv := BitVec.not_lt.2 (hb.valid it hit)
        simp [hv] at hc
      rw [mem_cons, h c]
      constructor
      · rintro (hc | ⟨b, hbm, hc, hb'⟩)
        · exact ⟨it, hit, by rw [hc], by rw [hnn, if_pos rfl, hc]; rfl⟩
        · exact ⟨b, hbm, hc, by rw [hb']; rfl⟩
      rintro ⟨b, hbm, hc, hb'⟩
      rcases or_eq_some_iff.1 hb' with hb' | ⟨_, hb'⟩
      · exact .inr ⟨b, hbm, hc, hb'⟩
      split at hb'
      next heq =>
        exact .inl (hc.trans (by rw [heq, some.inj hb']))
      · cases hb'
    next hn =>
      obtain ⟨c', hc'⟩ := ne_none_iff_exists'.1 (mt isNone_iff_eq_none.2 hn)
      obtain ⟨b', hbm', heq', hb'⟩ := (h c').1 (mem_of_find?_eq_some hc')
      have ho := find?_some (by exact hc')
      rw [heq', Bool.and_eq_true, Bool.not_eq_true', Bool.not_eq_true', decide_eq_false_iff_not,
        decide_eq_false_iff_not] at ho
      obtain rfl := hb.eq_of_overlap hbm' hit ho.1 ho.2
      rw [h c]
      refine exists_congr fun b => and_congr_right fun _ => and_congr_right fun _ => ?_
      by_cases hbi : b' = b
      · rw [← hbi, hb']
        rfl
      · rw [if_neg hbi, or_none]

theorem convertTbToBb_found (hb : Covered blocks) (tbs : List Block) :
    Found blocks (convertTbToBb blocks tbs) (tbs.flatMap lookups) := by
  have hlp (keys : List BasicBlock) : Found blocks (keys.foldl (coverByte blocks) []) keys := by
    induction keys using reverseRecOn with
    | nil => simp [Found, firstFound]
    | append_singleton keys key ih =>
      rw [foldl_append]
      exact ih.coverByte hb
  rw [convertTbToBb, ← foldl_flatMap]
  exact hlp _

theorem convertsRight_iff_firstFound (hb : Covered blocks) : ConvertsRight blocks added ↔
    ∀ b ∈ blocks, ∀ time, firstFound blocks ((uniqueTbs added).flatMap lookups) b = some time ↔
        Earliest added b time := by
  have hf := convertTbToBb_found hb (uniqueTbs added)
  have hex {P : BasicBlock → Prop} {b : BasicBlock} (hbm : b ∈ blocks) (time : BitVec 64) :
      (∃ b' ∈ blocks, (⟨time, b.start, b.stop⟩ : BasicBlock) = ⟨time, b'.start, b'.stop⟩ ∧ P b') ↔
        P b := by
    constructor
    · rintro ⟨b', hbm', he, hP⟩
      obtain ⟨_, hs, ht⟩ := BasicBlock.mk.inj he
      have hv := BitVec.not_lt.2 (hb.valid b hbm)
      obtain rfl := hb.eq_of_overlap hbm hbm' (hs ▸ hv) (ht ▸ hv)
      exact hP
    · exact fun hP => ⟨b, hbm, rfl, hP⟩
  constructor
  · intro h b hbm time
    have hc := (hf ⟨time, b.start, b.stop⟩).symm.trans (h ⟨time, b.start, b.stop⟩)
    exact (hex hbm time).symm.trans (hc.trans (hex hbm time))
  · intro h c
    rw [hf c]
    exact exists_congr fun b => and_congr_right fun hbm => and_congr_right fun _ => h b hbm _

theorem find?_eq_some_iff_first {l : List α} {p : α → Bool} {r : α → α → Prop}
    (hs : l.Pairwise r) (hr : ∀ a ∈ l, ∀ b ∈ l, r a b → ¬r b a) :
    l.find? p = some c ↔ c ∈ l ∧ p c = true ∧ ∀ x ∈ l, p x = true → x = c ∨ r c x := by
  have hf : ∀ a ∈ l.filter p, ∀ b ∈ l.filter p, r a b → ¬r b a := fun a ha b hb =>
    hr a (mem_of_mem_filter ha) b (mem_of_mem_filter hb)
  rw [← head?_filter, head?_eq_some_iff_first hf (hs.filter p)]
  simp only [mem_filter, and_imp, and_assoc]

theorem mem_lookups : key ∈ lookups tb ↔
    ∃ s, tb.start ≤ s ∧ s < tb.stop ∧ key = ⟨tb.timeStamp, s, s + 1⟩ := by
  rw [lookups, List.mem_map]
  constructor
  · rintro ⟨i, hi, rfl⟩
    have hi := mem_range.1 hi
    exact ⟨_, by bv_omega, by bv_omega, rfl⟩
  · rintro ⟨s, hle, hlt, rfl⟩
    have hn : tb.start + BitVec.ofNat 64 (s.toNat - tb.start.toNat) = s := by bv_omega
    exact ⟨s.toNat - tb.start.toNat, mem_range.2 (by bv_omega), by rw [hn]⟩

section
variable (hb : Covered blocks)
include hb
theorem Covered.asymm : ∀ a ∈ blocks, ∀ b ∈ blocks, a.stop < b.start → ¬b.stop < a.start := by
  intro a ha b hbm
  have hva := hb.valid a ha
  have hvb := hb.valid b hbm
  bv_omega

/-- The block of the byte is found, or the next one if it is in none. -/
theorem find_iff {s last : BitVec 64} (hbm : b ∈ blocks) (hs : s < last) :
    find ⟨time, s, s + 1⟩ blocks = some b ↔ (b.start ≤ s ∧ s ≤ b.stop) ∨
      (b.start = s + 1 ∧ ∀ b' ∈ blocks, ¬(b'.start ≤ s ∧ s ≤ b'.stop)) := by
  rw [find, find?_eq_some_iff_first hb.disjoint hb.asymm]
  simp only [Bool.and_eq_true, Bool.not_eq_true', decide_eq_false_iff_not]
  have hvb := hb.valid b hbm
  constructor
  · rintro ⟨-, ⟨hge, hle⟩, hfirst⟩
    by_cases hin : b.start ≤ s
    · exact .inl ⟨hin, by bv_omega⟩
    · refine .inr ⟨by bv_omega, fun b' hb' hc => ?_⟩
      rcases hfirst b' hb' ⟨by bv_omega, by bv_omega⟩ with rfl | hlt <;> bv_omega
  · rintro (⟨hge, hle⟩ | ⟨hst, hnone⟩)
    · refine ⟨hbm, ⟨by bv_omega, by bv_omega⟩, fun x hx hp => ?_⟩
      by_cases hlt : b.stop < x.start
      · exact .inr hlt
      · exact .inl (hb.eq_of_overlap hx hbm (by bv_omega) hlt)
    · refine ⟨hbm, ⟨by bv_omega, by bv_omega⟩, fun x hx hp => .inl ?_⟩
      have hno := hnone x hx
      have hvx := hb.valid x hx
      exact hb.eq_of_overlap hx hbm (by bv_omega) (by bv_omega)

theorem reaches_iff (hbm : b ∈ blocks) :
    (∃ key ∈ lookups tb, find key blocks = some b) ↔ Reaches blocks tb b := by
  simp only [mem_lookups, Reaches]
  constructor
  · rintro ⟨_, ⟨s, hle, hlt, rfl⟩, hf⟩
    exact ⟨s, hle, hlt, (find_iff hb hbm hlt).1 hf⟩
  · rintro ⟨s, hle, hlt, hf⟩
    exact ⟨_, ⟨s, hle, hlt, rfl⟩, (find_iff hb hbm hlt).2 hf⟩

end

theorem Reaches.touches (h : Reaches blocks tb b) (hv : b.start ≤ b.stop) :
    tb.start ≤ b.stop ∧ b.start ≤ tb.stop := by
  obtain ⟨s, hle, hlt, hin | ⟨hst, -⟩⟩ := h <;> exact ⟨by bv_omega, by bv_omega⟩

def ByStart (tbs : List Block) : Prop := tbs.Pairwise fun a b => a.start < b.start

theorem ByStart.eq_of_start (h : ByStart tbs) (ha : a ∈ tbs) (hb : b ∈ tbs)
    (hs : a.start = b.start) : a = b := by
  let R (a b : Block) : Prop := a.start = b.start → a = b
  have : Std.Symm R := ⟨fun _ _ h hs => (h hs.symm).symm⟩
  have hR : tbs.Pairwise R := h.imp fun hlt he => absurd (he ▸ hlt) (BitVec.lt_irrefl _)
  exact hR.forall_of_forall (fun _ _ _ => rfl) ha hb hs

theorem mem_addTranslationBlock (h : x ∈ addTranslationBlock tbs tb) : x = tb ∨ x ∈ tbs := by
  fun_induction addTranslationBlock tbs tb <;> grind

theorem ByStart.addTranslationBlock (h : ByStart tbs) (tb : Block) :
    ByStart (addTranslationBlock tbs tb) := by
  fun_induction BasicBlock.addTranslationBlock tbs tb with
  | case1 => exact pairwise_singleton _ _
  | case2 tb it tbs hlt =>
    obtain ⟨hit, _⟩ := pairwise_cons.1 h
    exact pairwise_cons.2 ⟨forall_mem_cons.2 ⟨hlt, fun x hx => BitVec.lt_trans hlt (hit x hx)⟩, h⟩
  | case3 tb it tbs _ hlt ih =>
    obtain ⟨hit, hrest⟩ := pairwise_cons.1 h
    refine pairwise_cons.2 ⟨fun x hx => ?_, ih hrest⟩
    rcases mem_addTranslationBlock hx with rfl | hx
    · exact hlt
    · exact hit x hx
  | case4 tb it tbs hle hge =>
    obtain ⟨hit, hrest⟩ := pairwise_cons.1 h
    refine pairwise_cons.2 ⟨fun x hx => ?_, hrest⟩
    have hx := hit x hx
    bv_omega
  | case5 => exact h

theorem uniqueTbs_spec (added : List Block) :
    ByStart (uniqueTbs added) ∧ ∀ tb ∈ uniqueTbs added, tb ∈ added := by
  induction added using reverseRecOn with
  | nil => exact ⟨.nil, nofun⟩
  | append_singleton added tb ih =>
    rw [uniqueTbs, foldl_append]
    refine ⟨ih.1.addTranslationBlock tb, fun x hx => ?_⟩
    rcases mem_addTranslationBlock hx with rfl | hx
    · exact mem_append_right _ mem_cons_self
    · exact mem_append_left _ (ih.2 x hx)

theorem FirstReaching.eq (h : FirstReaching blocks added b tb)
    (h' : FirstReaching blocks added b tb') : tb = tb' :=
  (uniqueTbs_spec added).1.eq_of_start h.kept h'.kept
    (BitVec.le_antisymm (h.lowest tb' h'.kept h'.reaches) (h'.lowest tb h.kept h.reaches))

theorem firstFound_flatMap (blocks : List BasicBlock) (tbs : List Block) (b : BasicBlock) :
    firstFound blocks (tbs.flatMap lookups) b =
      (tbs.find? fun tb => (lookups tb).any fun key => find key blocks = some b).map timeStamp := by
  induction tbs with
  | nil => rfl
  | cons tb tbs ih =>
    rw [firstFound] at ih ⊢
    rw [flatMap_cons, find?_append, map_or, ih, find?_cons]
    cases hf : (lookups tb).find? fun key => find key blocks = some b with
    | none =>
      rw [List.any_eq_false.2 (find?_eq_none.1 hf)]
      rfl
    | some key =>
      have hp := find?_some hf
      rw [List.any_eq_true.2 ⟨key, mem_of_find?_eq_some hf, hp⟩]
      obtain ⟨s, _, _, rfl⟩ := mem_lookups.1 (mem_of_find?_eq_some hf)
      rfl

theorem firstFound_iff (hb : Covered blocks) (hbm : b ∈ blocks) :
    firstFound blocks ((uniqueTbs added).flatMap lookups) b = some time ↔
      ∃ tb, FirstReaching blocks added b tb ∧ tb.timeStamp = time := by
  have hs := (uniqueTbs_spec added).1
  rw [firstFound_flatMap, map_eq_some_iff]
  refine exists_congr fun tb => and_congr_left fun _ => ?_
  rw [find?_eq_some_iff_first hs fun a _ b _ => BitVec.lt_asymm]
  simp only [List.any_eq_true, decide_eq_true_eq, reaches_iff hb hbm]
  constructor
  · rintro ⟨hk, hr, hfirst⟩
    refine ⟨hk, hr, fun tb' hk' hr' => ?_⟩
    rcases hfirst tb' hk' hr' with rfl | hlt
    · exact BitVec.le_refl _
    · exact BitVec.le_of_lt hlt
  · rintro ⟨hk, hr, hlowest⟩
    refine ⟨hk, hr, fun x hkx hrx => ?_⟩
    by_cases hlt : tb.start < x.start
    · exact .inr hlt
    · have heq := BitVec.le_antisymm (BitVec.not_lt.1 hlt) (hlowest x hkx hrx)
      exact .inl (hs.eq_of_start hkx hk heq)

/-- The conversion is right exactly if each block that is touched is reached, and the first that
reaches it has the earliest time. -/
theorem convertsRight_iff (hb : Covered blocks) : ConvertsRight blocks added ↔
    ∀ b ∈ blocks, ∀ tb ∈ added, tb.start ≤ b.stop → b.start ≤ tb.stop →
      ∃ first, FirstReaching blocks added b first ∧ first.timeStamp ≤ tb.timeStamp := by
  rw [convertsRight_iff_firstFound hb]
  refine forall₂_congr fun b hbm => ?_
  have hv := hb.valid b hbm
  simp only [firstFound_iff hb hbm]
  constructor
  · intro h tb ht hle hge
    classical
    have hex : ∃ n, ∃ tb ∈ added, tb.start ≤ b.stop ∧ b.start ≤ tb.stop ∧
        tb.timeStamp.toNat = n := ⟨_, tb, ht, hle, hge, rfl⟩
    obtain ⟨earliest, hm, hel, heg, heq⟩ := Nat.find_spec hex
    have he : Earliest added b earliest.timeStamp := by
      refine ⟨⟨earliest, hm, hel, heg, rfl⟩, fun tb' ht' hle' hge' => ?_⟩
      rw [BitVec.le_def, heq]
      exact Nat.find_min' hex ⟨tb', ht', hle', hge', rfl⟩
    obtain ⟨first, hf, htime⟩ := (h _).2 he
    refine ⟨first, hf, ?_⟩
    rw [htime]
    exact he.2 tb ht hle hge
  · intro h time
    constructor
    · rintro ⟨first, hf, rfl⟩
      obtain ⟨hle, hge⟩ := hf.reaches.touches hv
      have hm := (uniqueTbs_spec added).2 first hf.kept
      refine ⟨⟨first, hm, hle, hge, rfl⟩, fun tb ht hle hge => ?_⟩
      obtain ⟨first', hf', hle'⟩ := h tb ht hle hge
      rw [hf.eq hf']
      exact hle'
    · rintro ⟨⟨tb, ht, hle, hge, rfl⟩, hmin⟩
      obtain ⟨first, hf, hle'⟩ := h tb ht hle hge
      obtain ⟨hle, hge⟩ := hf.reaches.touches hv
      have hm := hmin first ((uniqueTbs_spec added).2 first hf.kept) hle hge
      exact ⟨first, hf, BitVec.le_antisymm hle' hm⟩

theorem convertsRight_iff_two : ConvertsRight [⟨0, 4, 7⟩, ⟨0, 9, 12⟩] [⟨2, 8, 10⟩, ⟨1, 3, 5⟩] := by
  rw [convertsRight_iff ⟨by decide, by simp⟩]
  have hu : uniqueTbs [⟨2, 8, 10⟩, ⟨1, 3, 5⟩] = [⟨1, 3, 5⟩, ⟨2, 8, 10⟩] := by decide
  simp only [forall_mem_cons, not_mem_nil, false_implies, implies_true, and_true]
  refine ⟨⟨fun hle => absurd hle (by decide), fun _ _ => ⟨⟨1, 3, 5⟩, ⟨hu ▸ by simp, ?_, ?_⟩,
    BitVec.le_refl _⟩⟩, fun _ _ => ⟨⟨2, 8, 10⟩, ⟨hu ▸ by simp, ?_, ?_⟩, BitVec.le_refl _⟩,
    fun _ hge => absurd hge (by decide)⟩
  · exact ⟨4, by decide, by decide, .inl (by decide)⟩
  · rw [hu]
    simp
  · exact ⟨9, by decide, by decide, .inl (by decide)⟩
  · rw [hu]
    refine forall_mem_cons.2 ⟨fun h => absurd (h.touches (by decide)).2 (by decide), by simp⟩

/-- A translation block of one byte inside a basic block. -/
theorem oneByte_missed : convertTbToBb [⟨0, 4, 7⟩] (addTranslationBlock [] ⟨1, 5, 5⟩) = [] ∧
    Earliest [⟨1, 5, 5⟩] ⟨0, 4, 7⟩ 1 :=
  ⟨by decide, ⟨_, mem_cons_self, by decide, by decide, rfl⟩, by decide⟩

end BasicBlock
end Chef
