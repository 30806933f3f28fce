import Chef.TopologicRuns

namespace Chef
open Foundations Relation List Function
namespace TopologicNode
/-- The levels with the positions of open calls. -/
inductive Framed (nodes : Store TopologicNode) : List Nat → List (List Nat) → Prop where
  | root {inner : List Nat} {base : Nat} : (∀ m ∈ inner, (nodes.get m).isCallBase = false) →
      (nodes.get base).isCallBase = true → Framed nodes (inner ++ [base]) []
  | call {inner : List Nat} {base : Nat} {call : List Nat} {calls : List (List Nat)} :
      (∀ m ∈ inner, (nodes.get m).isCallBase = false) → (nodes.get base).isCallBase = true →
      Framed nodes call calls → Framed nodes (inner ++ base :: call) (call :: calls)

def callBases (nodes : Store TopologicNode) (levels : List Nat) : Nat :=
  levels.countP fun n => (nodes.get n).isCallBase

namespace Framed
variable {nodes nodes' : Store TopologicNode}
theorem ne_nil (h : Framed nodes ls calls) : ls ≠ [] := by
  cases h with
  | root | call => exact append_ne_nil_of_right_ne_nil _ (cons_ne_nil _ _)

theorem countP_inner {inner : List Nat} (h : ∀ m ∈ inner, (nodes.get m).isCallBase = false) :
    inner.countP (fun n => (nodes.get n).isCallBase) = 0 := by
  rw [countP_eq_zero]
  intro m hm
  rw [h m hm]
  exact Bool.false_ne_true

theorem callBases_eq (h : Framed nodes ls calls) : callBases nodes ls = 1 + calls.length := by
  induction h with
  | root hin hb =>
    rw [callBases, countP_append, countP_inner hin, countP_cons, hb]
    rfl
  | call hin hb _ ih =>
    rw [callBases] at ih
    rw [callBases, countP_append, countP_inner hin, countP_cons, hb, ih, length_cons, if_pos rfl]
    omega

theorem unwindCall (h : Framed nodes ls (position :: calls)) :
    ∃ caller outer, position = caller :: outer ∧ Framed nodes (caller :: outer) calls ∧
      HighLevelExecutor.unwindCall nodes ls = .ok (caller, outer) := by
  cases h with
  | call hin hb hc =>
    obtain ⟨caller, outer, rfl⟩ := exists_cons_of_ne_nil hc.ne_nil
    exact ⟨caller, outer, rfl, hc, HighLevelExecutor.unwindCall_ok_iff.2 ⟨_, _, rfl, hb, hin⟩⟩

theorem congr (h : Framed nodes ls calls)
    (hcb : ∀ m ∈ ls, (nodes'.get m).isCallBase = (nodes.get m).isCallBase) :
    Framed nodes' ls calls := by
  induction h with
  | root hin hb =>
    refine .root ?_ ?_
    · intro m hm
      rw [hcb m (mem_append_left _ hm), hin m hm]
    · rw [hcb _ mem_append_cons_self, hb]
  | call hin hb _ ih =>
    refine .call ?_ ?_ (ih ?_)
    · intro m hm
      rw [hcb m (mem_append_left _ hm), hin m hm]
    · rw [hcb _ mem_append_cons_self, hb]
    · intro m hm
      exact hcb m (mem_append_right _ (mem_cons_of_mem _ hm))

theorem cons (h : Framed nodes ls calls) (hn : (nodes.get n).isCallBase = false) :
    Framed nodes (n :: ls) calls := by
  cases h with
  | root hin hb =>
    exact .root (forall_mem_cons.2 ⟨hn, hin⟩) hb
  | call hin hb hc =>
    exact .call (forall_mem_cons.2 ⟨hn, hin⟩) hb hc

theorem tail (h : Framed nodes (n :: ls) calls) (hn : (nodes.get n).isCallBase = false) :
    Framed nodes ls calls := by
  generalize hns : n :: ls = ns at h
  cases h with
  | @root inner base hin hb | @call inner base _ _ hin hb =>
    cases inner with
    | nil =>
      cases hns
      rw [hn] at hb
      cases hb
    | cons m inner =>
      cases hns
      constructor
      · exact (forall_mem_cons.1 hin).2
      all_goals assumption

theorem append {inner : List Nat} (h : Framed nodes (inner ++ ls) calls)
    (hin : ∀ m ∈ inner, (nodes.get m).isCallBase = false) : Framed nodes ls calls := by
  induction inner with
  | nil => exact h
  | cons m inner ih =>
    obtain ⟨hm, hr⟩ := forall_mem_cons.1 hin
    exact ih (h.tail hm) hr

theorem replace (h : Framed nodes (a :: ls) calls)
    (hn : (nodes.get n).isCallBase = (nodes.get a).isCallBase) : Framed nodes (n :: ls) calls := by
  cases ha : (nodes.get a).isCallBase with
  | false => exact (h.tail ha).cons (hn.trans ha)
  | true =>
    generalize has : a :: ls = as at h
    cases h with
    | @root inner base hin | @call inner base _ _ hin _ hc =>
      cases inner with
      | nil =>
        cases has
        first
        | exact .root (forall_mem_nil _) (hn.trans ha)
        | exact .call (forall_mem_nil _) (hn.trans ha) hc
      | cons m inner =>
        cases has
        rw [hin a mem_cons_self] at ha
        cases ha

end Framed

theorem Path.mem_lt (h : Path nodes level ls) (hg : Graded nodes level) :
    ∀ m ∈ ls, m < nodes.size := by
  induction h with
  | root hlt => exact forall_mem_cons.2 ⟨hlt, forall_mem_nil _⟩
  | down _ hb ih => exact forall_mem_cons.2 ⟨(hg.below hb).1, ih⟩

end TopologicNode

namespace HighLevelExecutor
open TopologicNode
structure Recorded (σ : Type) where
  executor : HighLevelExecutor σ
  calls : Nat → List (List Nat)

def recordCalls (x : HighLevelExecutor σ) (calls : Nat → List (List Nat)) :
    TopologyEvent → Nat → List (List Nat)
  | .stream (.create _) => update calls x.llStates.size []
  | .stream (.clone l) => update calls x.llStates.size (calls l)
  | .push l => update calls l (x.levels l :: calls l)
  | .pop l => update calls l (calls l).tail
  | .stream (.step _ _) | .stream (.terminate _) | .basicBlock _ _ | .expire _ => calls

def ChainKind (x : HighLevelExecutor σ) (l : Nat) (cb : Bool) : Prop :=
  ∀ slot ∈ (x.levels l).head?, ∀ d ∈ (x.nodes.get slot).down, (x.nodes.get d).isCallBase = cb

instance (x : HighLevelExecutor σ) (l : Nat) (cb : Bool) : Decidable (x.ChainKind l cb) :=
  inferInstanceAs (Decidable (∀ _ ∈ _, _))

def BackEdge (x : HighLevelExecutor σ) (l bbIndex : Nat) : Prop :=
  ∃ slot ∈ (x.levels l).head?, (bbIndex : Int) ≤ (x.nodes.get slot).basicBlock

instance (x : HighLevelExecutor σ) (l bbIndex : Nat) : Decidable (x.BackEdge l bbIndex) :=
  inferInstanceAs (Decidable (∃ _ ∈ _, _))

/-- Calls and loops use their own chains, and leave what they entered. -/
def Unshared (s : Recorded σ) : TopologyEvent → Prop
  | .push l => s.executor.ChainKind l true
  | .basicBlock l bbIndex => s.executor.BackEdge l bbIndex → s.executor.ChainKind l false
  | .pop l => s.calls l ≠ []
  | .stream _ | .expire _ => True

instance (s : Recorded σ) (e : TopologyEvent) : Decidable (Unshared s e) :=
  match e with
  | .push l => inferInstanceAs (Decidable (s.executor.ChainKind l true))
  | .basicBlock l bbIndex =>
    inferInstanceAs (Decidable (s.executor.BackEdge l bbIndex → s.executor.ChainKind l false))
  | .pop l => inferInstanceAs (Decidable (s.calls l ≠ []))
  | .stream _ | .expire _ => inferInstanceAs (Decidable True)

section
variable (S : HighLevelStrategy σ) (order : List (UInt64 × Nat) → List (UInt64 × Nat))
def recordTopology (fuel : Nat) (s : Recorded σ) (e : TopologyEvent) :
    Except TopologyFault (Recorded σ) :=
  (s.executor.handleTopology S order fuel e).map fun y => ⟨y, recordCalls s.executor s.calls e⟩

def callMachine : Machine (Recorded σ) TopologyEvent where
  init s := s = ⟨initial S, fun _ => []⟩
  step s e s' := ∃ fuel, recordTopology S order fuel s e = .ok s'

end

/-- The frames of live states are their open calls. -/
structure CallsFramed (s : Recorded σ) (level : Nat → Nat) : Prop where
  topologic : Topologic s.executor level
  framed : ∀ l ∈ s.executor.stateMap, Framed s.executor.nodes (s.executor.levels l) (s.calls l)

variable {s : Recorded σ} {x y : HighLevelExecutor σ} {nodes : Store TopologicNode}
theorem Moved.framed (ht : Topologic s.executor level) (hl : l ∈ s.executor.stateMap)
    (hal : Unshared s e) (he : e.state? = some l)
    (ho : Framed s.executor.nodes (s.executor.levels l) (s.calls l))
    (hm : Moved s.executor level e l slot n outer ls nodes level') :
    Framed nodes (n :: ls) (recordCalls s.executor s.calls e l) := by
  have hhd : slot ∈ (s.executor.levels l).head? := by
    rw [hm.levels]
    rfl
  have hcb : ∀ m ∈ slot :: outer,
      (nodes.get m).isCallBase = (s.executor.nodes.get m).isCallBase := by
    intro m hmem
    rw [← hm.levels] at hmem
    exact hm.grows.callBase ((ht.path l hl).mem_lt ht.graded m hmem)
  have hg := hm.goes
  rw [hm.levels] at ho
  have hfr := ho.congr hcb
  generalize hf : slot :: outer = old at hg hcb hfr
  generalize hto : n :: ls = new at hg
  cases hg with
  | push hbl hk =>
    cases he
    cases hf
    rw [recordCalls, update_self, hm.levels]
    refine .call (forall_mem_nil _) ?_ hfr
    obtain hd | hn := hk
    · rw [hm.grows.callBase (ht.graded.down_lt hd)]
      exact hal _ hhd _ hd
    · exact hn
  | @pop base caller n k inner outer hb hin hx =>
    cases he
    obtain ⟨position, calls, hcs⟩ := exists_cons_of_ne_nil hal
    rw [recordCalls, update_self, hcs, tail_cons]
    rw [hcs] at hfr
    obtain ⟨caller', outer', -, hc, hu⟩ := hfr.unwindCall
    have huw : unwindCall nodes (inner ++ base :: caller :: outer) = .ok (caller, outer) := by
      refine unwindCall_ok_iff.2 ⟨inner, base, rfl, ?_, ?_⟩
      · rw [hcb base mem_append_cons_self, hb]
      · intro m hmem
        rw [hcb m (mem_append_left _ hmem), hin m hmem]
    rw [huw] at hu
    cases hu
    exact hc.replace (hm.graded.reflTransGen hx.to_reflTransGen).2.2
  | backEdge hbk hbl hk =>
    cases he
    cases hf
    refine hfr.cons ?_
    obtain ⟨d, hd, heq⟩ | ⟨-, hn⟩ := hk
    · rw [heq]
      exact hal ⟨_, hhd, hbk⟩ _ hhd _ hd
    · exact hn
  | forward hin hx =>
    cases he
    refine (hfr.append ?_).replace (hm.graded.reflTransGen hx.to_reflTransGen).2.2
    intro m hmem
    rw [hcb m (mem_append_left _ hmem), hin m hmem]

theorem recordCalls_of_ne (x : HighLevelExecutor σ) (calls : Nat → List (List Nat))
    (he : e.state? = some l) (hk : k ≠ l) : recordCalls x calls e k = calls k := by
  cases e with
  | push m | pop m =>
    cases he
    exact update_of_ne hk _ _
  | basicBlock m bbIndex => rfl
  | stream s => cases he
  | expire n => cases he

namespace CallsFramed
theorem moveState (h : CallsFramed s level) (hl : l ∈ s.executor.stateMap) (hal : Unshared s e)
    (he : e.state? = some l) (hm : Moved s.executor level e l slot n outer ls nodes level') :
    CallsFramed ⟨s.executor.moveState l slot nodes (n :: ls),
      recordCalls s.executor s.calls e⟩ level' := by
  have hli := (sameLinks_insertState nodes n l).trans (sameLinks_removeState _ slot l)
  refine ⟨h.topologic.moveState hl hm, ?_⟩
  rw [moveState_eq]
  intro k hk
  simp only
  rw [levels_of_modify (h.topologic.alive l hl) rfl]
  by_cases hkl : k = l
  · rw [if_pos hkl, hkl]
    refine (hm.framed h.topologic hl hal he (h.framed l hl)).congr ?_
    intro m _
    exact hli.proj isCallBase (fun _ => rfl) m
  · rw [if_neg hkl, recordCalls_of_ne _ _ he hkl]
    refine (h.framed k hk).congr ?_
    intro m hmem
    rw [hli.proj isCallBase fun _ => rfl]
    exact hm.grows.callBase ((h.topologic.path k hk).mem_lt h.topologic.graded m hmem)

theorem expire (h : CallsFramed s level) (hn : s.executor.Unowned n) :
    CallsFramed ⟨{ s.executor with nodes := s.executor.nodes.map (forget n) }, s.calls⟩ level := by
  refine ⟨h.topologic.expire hn, ?_⟩
  intro l hl
  refine (h.framed l hl).congr ?_
  intro m _
  rw [get_forget]
  rfl

theorem same (h : CallsFramed ⟨x, calls⟩ level) (hs : SameTopology x y) :
    CallsFramed ⟨y, calls⟩ level := by
  refine ⟨h.topologic.same hs, ?_⟩
  intro l hl
  simp only at hl ⊢
  rw [hs.nodes, hs.levels]
  exact h.framed l (hs.stateMap ▸ hl)

theorem enter (h : CallsFramed s level)
    (hg : TopologicNode.Grows s.executor.nodes nodes level level') (hgr : Graded nodes level')
    (hp : Path nodes level' (n :: ls)) (hfr : Framed nodes (n :: ls) calls)
    (hy : Entered s.executor nodes n ls y) :
    CallsFramed ⟨y, update s.calls s.executor.llStates.size calls⟩ level' := by
  refine ⟨h.topologic.enter hg hgr hp hy, ?_⟩
  intro k hk
  simp only at hk ⊢
  rw [hy.nodes, hy.levels]
  rw [hy.stateMap, mem_append, mem_singleton] at hk
  have hli := sameLinks_insertState nodes n s.executor.llStates.size
  obtain hk | rfl := hk
  · have hne := (h.topologic.alive k hk).ne
    rw [if_neg hne, update_of_ne hne]
    refine (h.framed k hk).congr ?_
    intro m hmem
    rw [hli.proj isCallBase fun _ => rfl]
    exact hg.callBase ((h.topologic.path k hk).mem_lt h.topologic.graded m hmem)
  · rw [if_pos rfl, update_self]
    refine hfr.congr ?_
    intro m _
    exact hli.proj isCallBase (fun _ => rfl) m

theorem stream (h : CallsFramed s level) (hs : StreamMoves s.executor e y) :
    ∃ level', CallsFramed ⟨y, recordCalls s.executor s.calls (.stream e)⟩ level' := by
  cases hs with
  | create hs =>
    have hr : Framed (s.executor.nodes.alloc root) ([] ++ [s.executor.nodes.size]) [] := by
      refine .root (forall_mem_nil _) ?_
      rw [Store.get_alloc_size]
      rfl
    exact ⟨_, h.enter (grows_alloc_root _ _) h.topologic.graded.alloc_root (path_alloc_root _ _) hr
      (.enterNode hs rfl rfl rfl)⟩
  | @clone l y hl hs =>
    obtain ⟨slot, outer, hv, -, hp⟩ := h.topologic.levels_cons hl
    have hfr := h.framed l hl
    rw [hv] at hfr
    rw [topoIndex_eq hv] at hs
    exact ⟨level, h.enter (TopologicNode.Grows.refl _ _) h.topologic.graded hp hfr
      (.enterNode hs rfl rfl rfl)⟩
  | step hs => exact ⟨level, h.same hs⟩
  | @terminate l y hl hs =>
    obtain ⟨level', ht⟩ := h.topologic.stream (.terminate hl hs)
    refine ⟨level', ht, ?_⟩
    obtain ⟨slot, outer, hv, -, -⟩ := h.topologic.levels_cons hl
    rw [leaveNode_eq hv] at hs
    intro k hk
    simp only at hk ⊢
    rw [hs.stateMap] at hk
    rw [hs.nodes, hs.levels]
    refine (h.framed k (mem_of_mem_erase hk)).congr ?_
    intro m _
    exact (sameLinks_removeState _ slot l).proj isCallBase (fun _ => rfl) m

end CallsFramed

variable {S : HighLevelStrategy σ} {order : List (UInt64 × Nat) → List (UInt64 × Nat)}
theorem CallsFramed.step (h : CallsFramed s level) (hal : Unshared s e)
    (ht : (callMachine S order).step s e s') : ∃ level', CallsFramed s' level' := by
  obtain ⟨fuel, hok⟩ := ht
  obtain ⟨y, hy, rfl⟩ := map_ok_iff.1 hok
  obtain ⟨t, rfl, hs⟩ | ⟨n, rfl, hn, rfl⟩ |
      ⟨l, slot, n, outer, ls, nodes, level', hl, he, rfl, hm⟩ :=
    handleTopology_cases h.topologic hy
  · exact h.stream hs
  · exact ⟨level, h.expire hn⟩
  · exact ⟨level', h.moveState hl hal he hm⟩

/-- There is a base for each open call, and returns come to the innermost. -/
theorem callBases_of_reachable (h : (callMachine S order).Reachable Unshared s)
    (hl : l ∈ s.executor.stateMap) :
    callBases s.executor.nodes (s.executor.levels l) = 1 + (s.calls l).length ∧
      ∀ position calls, s.calls l = position :: calls → ∃ caller outer, position = caller :: outer ∧
          unwindCall s.executor.nodes (s.executor.levels l) = .ok (caller, outer) := by
  have hi : ∃ level, CallsFramed s level := by
    apply h.invariant
    · rintro _ rfl
      exact ⟨_, Topologic.initial S, fun _ hl => absurd hl not_mem_nil⟩
    · rintro s e s' ⟨level, hs⟩ hal ht
      exact hs.step hal ht
  obtain ⟨level, hfr⟩ := hi
  refine ⟨(hfr.framed l hl).callBases_eq, ?_⟩
  intro position calls hcs
  have hp := hfr.framed l hl
  rw [hcs] at hp
  obtain ⟨caller, outer, heq, -, hu⟩ := hp.unwindCall
  exact ⟨caller, outer, heq, hu⟩

abbrev plainCalls : Machine (Recorded (QueuedSelector Nat)) TopologyEvent :=
  callMachine (selectorStrategy .dfs) fun children => children

abbrev plainRecord : Recorded (QueuedSelector Nat) → TopologyEvent →
    Except TopologyFault (Recorded (QueuedSelector Nat)) :=
  recordTopology (selectorStrategy .dfs) (fun children => children) 1

def callFromLoop : List TopologyEvent :=
  [.stream (.create true), .basicBlock 0 1, .basicBlock 0 1, .push 0, .basicBlock 0 0,
    .basicBlock 0 0, .pop 0, .push 0]

theorem callFromLoop_callBases : ∃ s, plainCalls.Reachable Unshared s ∧ (s.calls 0).length = 1 ∧
      callBases s.executor.nodes (s.executor.levels 0) = 2 := by
  obtain ⟨s, hs, hm, hcs⟩ : ∃ s, runWhile Unshared plainRecord callFromLoop
      ⟨.initial (selectorStrategy .dfs), fun _ => []⟩ = some s ∧
        0 ∈ s.executor.stateMap ∧ (s.calls 0).length = 1 := ⟨_, rfl, by decide, by decide⟩
  have hre : plainCalls.Reachable Unshared s := .runWhile (fun _ _ _ h => ⟨1, h⟩) (.init rfl) hs
  have hc := (callBases_of_reachable hre hm).1
  rw [hcs] at hc
  exact ⟨s, hre, hcs, hc⟩

theorem sharedChain_callBases :
    ∃ s, plainCalls.Reached s ∧ 1 ∈ s.executor.stateMap ∧ (s.calls 1).length = 1 ∧
      callBases s.executor.nodes (s.executor.levels 1) = 1 ∧
        unwindCall s.executor.nodes (s.executor.levels 1) = .error .noCaller := by
  have hs : runWhile (fun _ _ => True) plainRecord sharedChain
    ⟨.initial (selectorStrategy .dfs), fun _ => []⟩ = some _ := rfl
  exact ⟨_, .runWhile (fun _ _ _ h => ⟨1, h⟩) (.init rfl) hs, by decide, by decide, by decide,
    by rfl⟩

end HighLevelExecutor
end Chef
