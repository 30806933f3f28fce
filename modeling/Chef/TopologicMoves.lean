import Chef.TopologicPaths

namespace Chef
open Foundations Relation List Or
namespace TopologicNode
inductive Goes (old nodes : Store TopologicNode) : TopologyEvent → List Nat → List Nat → Prop where
  | push : Below nodes slot n → (old.get slot).down = some n ∨ (nodes.get n).isCallBase = true →
      Goes old nodes (.push l) (slot :: outer) (n :: slot :: outer)
  | pop {base caller n l : Nat} {inner outer : List Nat} :
      (old.get base).isCallBase = true → (∀ m ∈ inner, (old.get m).isCallBase = false) →
      TransGen (Next nodes) caller n →
      Goes old nodes (.pop l) (inner ++ base :: caller :: outer) (n :: outer)
  | backEdge {bbIndex : Nat} : bbIndex ≤ (old.get slot).basicBlock → Below nodes slot n →
      ((∃ d, (old.get slot).down = some d ∧ (nodes.get n).isCallBase = (old.get d).isCallBase) ∨
        (old.get slot).down = none ∧ (nodes.get n).isCallBase = false) →
      Goes old nodes (.basicBlock l bbIndex) (slot :: outer) (n :: slot :: outer)
  | forward {inner outer : List Nat} {back n l bbIndex : Nat} :
      (∀ m ∈ inner, (old.get m).isCallBase = false) → TransGen (Next nodes) back n →
      Goes old nodes (.basicBlock l bbIndex) (inner ++ back :: outer) (n :: outer)

namespace Goes
variable {old nodes : Store TopologicNode}
section
variable (h : Goes old nodes e ls ls')
include h
theorem cases_levels :
    (∃ slot n outer, ls = slot :: outer ∧ ls' = n :: slot :: outer ∧ Below nodes slot n) ∨
      ∃ inner a n outer, ls = inner ++ a :: outer ∧ ls' = n :: outer ∧
        TransGen (Next nodes) a n := by
  cases h with
  | push hb | backEdge _ hb => exact inl ⟨_, _, _, rfl, rfl, hb⟩
  | @pop base caller n l inner outer _ _ hn =>
    exact inr ⟨inner ++ [base], caller, n, outer, append_cons _ _ _, rfl, hn⟩
  | forward _ hn => exact inr ⟨_, _, _, _, rfl, rfl, hn⟩

theorem path (hg : Graded nodes level) (hp : Path nodes level ls) : Path nodes level ls' := by
  obtain ⟨slot, n, outer, rfl, rfl, hb⟩ | ⟨inner, a, n, outer, rfl, rfl, hn⟩ := h.cases_levels
  · exact .down hp hb
  · exact hp.suffix.next hg hn

theorem precedes : Precedes nodes ls.reverse ls'.reverse := by
  obtain ⟨slot, n, outer, rfl, rfl, -⟩ | ⟨inner, a, n, outer, rfl, rfl, hn⟩ := h.cases_levels
  · exact precedes_down nodes n (slot :: outer)
  · exact precedes_next hn inner outer

end

theorem ne (h : Goes old nodes e (slot :: outer) (n :: ls)) (hg : Graded nodes level)
    (hp : Path nodes level (slot :: outer)) : n ≠ slot := by
  have hsl := hp.level_eq hg
  have hn := (h.path hg hp).level_eq hg
  obtain ⟨_, _, _, heq, heq', hb⟩ | ⟨inner, a, _, _, heq, heq', hx⟩ := h.cases_levels
  · cases heq
    cases heq'
    rintro rfl
    rw [length_cons] at hn
    omega
  · cases heq'
    cases inner with
    | nil =>
      cases heq
      rintro rfl
      exact lt_irrefl _ (hg.transGen_key hx)
    | cons b inner =>
      rw [cons_append] at heq
      injection heq with _ ho
      rintro rfl
      rw [ho, length_append, length_cons] at hsl
      omega

end Goes
end TopologicNode

namespace HighLevelExecutor
open TopologicNode
/-- The tree is in order, and every live state has a place in it. -/
structure Topologic (x : HighLevelExecutor σ) (level : Nat → Nat) : Prop where
  graded : Graded x.nodes level
  path : ∀ l ∈ x.stateMap, Path x.nodes level (x.levels l)
  alive : ∀ l ∈ x.stateMap, l < x.llStates.size
  nodup : x.stateMap.Nodup

structure Moved (x : HighLevelExecutor σ) (level : Nat → Nat) (e : TopologyEvent) (l slot n : Nat)
    (outer ls : List Nat) (nodes : Store TopologicNode) (level' : Nat → Nat) : Prop where
  levels : x.levels l = slot :: outer
  grows : TopologicNode.Grows x.nodes nodes level level'
  graded : Graded nodes level'
  goes : Goes x.nodes nodes e (slot :: outer) (n :: ls)

variable {x : HighLevelExecutor σ}
section
variable (h : Topologic x level) (hl : l ∈ x.stateMap)
include h hl
theorem Topologic.levels_cons : ∃ slot outer, x.levels l = slot :: outer ∧ slot < x.nodes.size ∧
      Path x.nodes level (slot :: outer) := by
  obtain ⟨slot, outer, hv⟩ := exists_cons_of_ne_nil (h.path l hl).ne_nil
  have hp := h.path l hl
  rw [hv] at hp
  exact ⟨slot, outer, hv, hp.lt h.graded, hp⟩

theorem onStackFramePush_moves : ∃ slot n outer ls nodes level',
      x.onStackFramePush l = .ok (x.moveState l slot nodes (n :: ls)) ∧
        Moved x level (.push l) l slot n outer ls nodes level' := by
  obtain ⟨slot, outer, hv, hsl, hp⟩ := h.levels_cons hl
  obtain ⟨level', hg, hgr, hd, hk⟩ := getDown_spec h.graded hsl true
  refine ⟨slot, (getDown x.nodes slot true).1, outer, slot :: outer, (getDown x.nodes slot true).2,
    level', ?_, hv, hg, hgr, .push ⟨_, hd, .refl⟩ (hk.imp And.left And.right)⟩
  rw [onStackFramePush, hv]

end

def Returns (x : HighLevelExecutor σ) (l : Nat) : Prop :=
  ∃ inner base caller outer, x.levels l = inner ++ base :: caller :: outer ∧
    (x.nodes.get base).isCallBase = true ∧ (∀ m ∈ inner, (x.nodes.get m).isCallBase = false) ∧
    (x.nodes.get caller).callIndex < 2 ^ 31 - 1

theorem unwindCall_ok_iff {nodes : Store TopologicNode} :
    unwindCall nodes ls = .ok (caller, outer) ↔ ∃ inner base,
      ls = inner ++ base :: caller :: outer ∧ (nodes.get base).isCallBase = true ∧
        ∀ m ∈ inner, (nodes.get m).isCallBase = false := by
  induction ls with
  | nil =>
    refine iff_of_false (by intro hn; cases hn) ?_
    rintro ⟨inner, base, hls, -⟩
    exact append_ne_nil_of_right_ne_nil _ (cons_ne_nil _ _) hls.symm
  | cons a ls ih =>
    cases ha : (nodes.get a).isCallBase with
    | true =>
      have hdr : (a :: ls).dropWhile (fun n => !(nodes.get n).isCallBase) = a :: ls := by
        rw [dropWhile_cons, ha]
        rfl
      rw [unwindCall, hdr]
      constructor
      · intro hok
        split at hok
        next hc =>
          cases hc
          cases hok
          exact ⟨[], a, rfl, ha, forall_mem_nil _⟩
        · cases hok
      · rintro ⟨inner, base, hls, hb, hin⟩
        cases inner with
        | nil =>
          cases hls
          rfl
        | cons b inner =>
          cases hls
          rw [hin a mem_cons_self] at ha
          cases ha
    | false =>
      have hdr : unwindCall nodes (a :: ls) = unwindCall nodes ls := by
        rw [unwindCall, unwindCall, dropWhile_cons, ha]
        rfl
      rw [hdr, ih]
      constructor
      · rintro ⟨inner, base, rfl, hb, hin⟩
        exact ⟨a :: inner, base, rfl, hb, forall_mem_cons.2 ⟨ha, hin⟩⟩
      rintro ⟨inner, base, hls, hb, hin⟩
      cases inner with
      | nil =>
        cases hls
        rw [ha] at hb
        cases hb
      | cons b inner =>
        cases hls
        exact ⟨inner, base, rfl, hb, (forall_mem_cons.1 hin).2⟩

theorem lt_succIndex_iff (ci : Int) : ci < succIndex ci ↔ ci < 2 ^ 31 - 1 := by
  rw [succIndex, Int.bmod_def]
  split <;> omega

theorem key_lt_succIndex_iff (n : TopologicNode) :
    n.key < toLex (n.basicBlock, succIndex n.callIndex) ↔ n.callIndex < 2 ^ 31 - 1 := by
  rw [lt_toLex_iff, ← lt_succIndex_iff]
  constructor
  · rintro (hlt | ⟨-, hlt⟩)
    · exact absurd hlt (lt_irrefl _)
    · exact hlt
  · intro hlt
    exact inr ⟨rfl, hlt⟩

theorem onStackFramePopping_moves (h : Topologic x level) (hl : l ∈ x.stateMap) (hr : x.Returns l) :
    ∃ slot n outer ls nodes level',
      x.onStackFramePopping l = .ok (x.moveState l slot nodes (n :: ls)) ∧
        Moved x level (.pop l) l slot n outer ls nodes level' := by
  obtain ⟨slot, outer, hv, hsl, hp⟩ := h.levels_cons hl
  obtain ⟨inner, base, caller, callers, hsp, hb, hin, hi⟩ := hr
  have hu : unwindCall x.nodes (slot :: outer) = .ok (caller, callers) :=
    unwindCall_ok_iff.2 ⟨inner, base, hv.symm.trans hsp, hb, hin⟩
  rw [hv] at hsp
  rw [hsp, append_cons] at hp
  obtain ⟨⟨n, nodes⟩, level', hg, hf⟩ := getNext_spec h.graded (hp.suffix.lt h.graded)
    ((key_lt_succIndex_iff _).2 hi)
  have hs : Goes x.nodes nodes (.pop l) (slot :: outer) (n :: callers) := by
    rw [hsp]
    exact .pop hb hin hf.behind
  refine ⟨slot, n, outer, callers, nodes, level', ?_, hv, hf.grows, hf.graded, hs⟩
  rw [onStackFramePopping, hv]
  simp only [bind, Except.bind, hu, hg]

theorem returns_of_onStackFramePopping_ok (hok : x.onStackFramePopping l = .ok y) :
    x.Returns l := by
  rw [onStackFramePopping] at hok
  split at hok
  · cases hok
  next slot outer hv =>
    obtain ⟨⟨caller, callers⟩, hu, hr⟩ := bind_ok_iff.1 hok
    obtain ⟨next, hg, -⟩ := bind_ok_iff.1 hr
    obtain ⟨inner, base, hsp, hb, hin⟩ := unwindCall_ok_iff.1 hu
    refine ⟨inner, base, caller, callers, hv.trans hsp, hb, hin, ?_⟩
    rw [← key_lt_succIndex_iff]
    by_contra hn
    rw [getNext_notAfter hn] at hg
    cases hg

theorem leaveLoops_spec {nodes : Store TopologicNode} {prev : Nat}
    (hp : Path nodes level (prev :: outer)) (hbb : (nodes.get prev).basicBlock < bb) :
    ∃ inner back ls, leaveLoops nodes bb (prev :: outer) = .ok (back, ls) ∧
      prev :: outer = inner ++ back :: ls ∧ (nodes.get back).basicBlock < bb ∧
        ∀ m ∈ inner, (nodes.get m).isCallBase = false := by
  induction outer generalizing prev with
  | nil =>
    refine ⟨[], prev, [], ?_, rfl, hbb, forall_mem_nil _⟩
    rw [leaveLoops, if_pos hp.callBase]
  | cons slot outer ih =>
    rw [leaveLoops]
    split_ifs with hb hle
    · exact ⟨[], prev, slot :: outer, rfl, rfl, hbb, forall_mem_nil _⟩
    · exact ⟨[], prev, slot :: outer, rfl, rfl, hbb, forall_mem_nil _⟩
    obtain ⟨inner, back, ls, hok, hsp, hbk, hin⟩ := ih hp.tail (not_le.1 hle)
    refine ⟨prev :: inner, back, ls, hok, ?_, hbk, ?_⟩
    · rw [hsp, cons_append]
    · exact forall_mem_cons.2 ⟨Bool.not_eq_true _ ▸ hb, hin⟩

theorem stepBasicBlock_moves (h : Topologic x level) (hl : l ∈ x.stateMap) (bbIndex : Nat) :
    ∃ slot n outer ls nodes level',
      x.stepBasicBlock l bbIndex = .ok (x.moveState l slot nodes (n :: ls)) ∧
        Moved x level (.basicBlock l bbIndex) l slot n outer ls nodes level' := by
  obtain ⟨slot, outer, hv, hsl, hp⟩ := h.levels_cons hl
  by_cases hbk : (bbIndex : Int) ≤ (x.nodes.get slot).basicBlock
  · obtain ⟨level1, hr, hgr, hd, hk⟩ := getDown_spec h.graded hsl false
    have hy : ((getDown x.nodes slot false).2.get (getDown x.nodes slot false).1).key <
        toLex ((bbIndex : Int), 0) := by
      rw [hgr.down_key hd, Prod.Lex.toLex_lt_toLex]
      exact inl (by simp only; omega)
    obtain ⟨⟨n, nodes⟩, level', hg, hf⟩ := getNext_spec hgr (hgr.down_lt hd) hy
    have hb : Below nodes slot n := ⟨_, hf.grows.down hd, hf.behind.to_reflTransGen⟩
    have hcb : (nodes.get n).isCallBase =
        ((getDown x.nodes slot false).2.get (getDown x.nodes slot false).1).isCallBase := by
      rw [(hf.graded.reflTransGen hf.behind.to_reflTransGen).2.2]
      exact hf.grows.callBase (hgr.down_lt hd)
    refine ⟨slot, n, outer, slot :: outer, nodes, level', ?_, hv,
      hr.trans hf.grows, hf.graded, .backEdge hbk hb ?_⟩
    · rw [stepBasicBlock, hv]
      simp only [if_pos hbk, bind, Except.bind, hg]
    rw [hcb]
    obtain ⟨hso, hs⟩ | ⟨hno, hff⟩ := hk
    · exact inl ⟨_, hso, by rw [hs]⟩
    · exact inr ⟨hno, hff⟩
  · obtain ⟨inner, back, ls, hle, hsp, hbb, hin⟩ := leaveLoops_spec hp (not_le.1 hbk)
    have hy : (x.nodes.get back).key < toLex ((bbIndex : Int), 0) :=
      (lt_toLex_iff _ _ _).2 (inl hbb)
    rw [hsp] at hp
    obtain ⟨⟨n, nodes⟩, level', hg, hf⟩ := getNext_spec h.graded (hp.suffix.lt h.graded) hy
    have hgo : Goes x.nodes nodes (.basicBlock l bbIndex) (slot :: outer) (n :: ls) := by
      rw [hsp]
      exact .forward hin hf.behind
    refine ⟨slot, n, outer, ls, nodes, level', ?_, hv, hf.grows, hf.graded, hgo⟩
    rw [stepBasicBlock, hv]
    simp only [if_neg hbk, bind, Except.bind, hle, hg]

end HighLevelExecutor
end Chef
