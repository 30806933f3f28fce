import Chef.Z3Cache
import Chef.Z3Terms
import Chef.Foundations.Loops
import Mathlib.Data.List.Chain

namespace Chef
open Option hiding mem_map
open Foundations List ConditionNode Z3Builder Z3Session
structure Expr.CanonicalBool (e : Expr) : Prop extends e.IsBool where
  canonical : e.Everywhere Expr.CanonicalNode

def Query.constraintExprs (nodes : Store ConditionNode) (q : Query) : List Expr :=
  ((q.constraints.path nodes).getD []).map (exprOf nodes)

def Query.arrays (nodes : Store ConditionNode) (q : Query) : List KArray :=
  (q.constraintExprs nodes).flatMap Expr.arrays ++ q.expr.arrays

/-- Its constraints lead to their root, and it is about canonical booleans. -/
structure Query.Canonical (nodes : Store ConditionNode) (q : Query) : Prop where
  path : (q.constraints.path nodes).isSome = true
  constraints : ∀ c ∈ q.constraintExprs nodes, c.CanonicalBool
  expr : q.expr.CanonicalBool

def TermIs (N : ArrayNames) (mode : ArrayMode) (μ : SmtModel) (e : Expr) (b : Bool) : Prop :=
  ∃ t, makeExpr N mode e = some t ∧ t.eval μ = some (.bool b)

/-- The constraints are true, the expression false, the arrays right. -/
structure Query.RefutedBy (N : ArrayNames) (mode : ArrayMode) (nodes : Store ConditionNode)
    (q : Query) (μ : SmtModel) : Prop where
  facts : ∀ a, ArrayFact N mode (q.arrays nodes) a → a.eval μ = some (.bool true)
  constraints : ∀ c ∈ q.constraintExprs nodes, TermIs N mode μ c true
  expr : TermIs N mode μ q.expr false

/-- The constraints and the negated expression are satisfiable. -/
def Query.Refutable (N : ArrayNames) (mode : ArrayMode) (nodes : Store ConditionNode)
    (q : Query) : Prop := ∃ μ : SmtModel, q.RefutedBy N mode nodes μ

def Contributes (N : ArrayNames) (mode : ArrayMode) (e : Expr) (a : SmtTerm) : Prop :=
  makeExpr N mode e = some a ∨ ArrayFact N mode e.arrays a

section
variable {mode : ArrayMode} {q : Query}
theorem Expr.CanonicalBool.makes {e : Expr} (h : e.CanonicalBool) (N : ArrayNames)
    (mode : ArrayMode) : ∃ t, makeExpr N mode e = some t ∧ t.HasSort .bool :=
  (makeExpr_sorted e h.wellTyped h.canonical).bool h.width_eq

theorem termIs_iff (h : makeExpr N mode e = some t) :
    TermIs N mode μ e b ↔ t.eval μ = some (.bool b) := by
  constructor
  · rintro ⟨t', h', he⟩
    rw [h, some.injEq] at h'
    exact h' ▸ he
  · intro he
    exact ⟨t, h, he⟩

theorem eval_not_iff (h : t.HasSort .bool) :
    (SmtTerm.not t).eval μ = some (.bool true) ↔ t.eval μ = some (.bool false) := by
  obtain ⟨b, hb⟩ := h.bool μ
  rw [SmtTerm.eval_not hb, hb]
  cases b with
  | true => exact iff_of_false (nomatch ·) (nomatch ·)
  | false => exact iff_of_true rfl rfl

theorem arrayFact_arrays : ArrayFact N mode (q.arrays nodes) a ↔
    (∃ c ∈ q.constraintExprs nodes, ArrayFact N mode c.arrays a) ∨
      ArrayFact N mode q.expr.arrays a := by
  rw [Query.arrays, arrayFact_append]
  apply or_congr_left
  constructor
  · rintro ⟨hm, root, hr, ha⟩
    obtain ⟨c, hc, hr⟩ := mem_flatMap.1 hr
    exact ⟨c, hc, hm, root, hr, ha⟩
  · rintro ⟨c, hc, hm, root, hr, ha⟩
    exact ⟨hm, root, mem_flatMap.2 ⟨c, hc, hr⟩, ha⟩

theorem satisfiable_iff_refutable (hq : q.Canonical nodes) (ht : makeExpr N mode q.expr = some t)
    (hp : ∀ a, a ∈ problem ↔ a = .not t ∨ ArrayFact N mode q.expr.arrays a ∨
      ∃ c ∈ q.constraintExprs nodes, Contributes N mode c a) :
    Satisfiable problem ↔ q.Refutable N mode nodes := by
  obtain ⟨t', ht', hso⟩ := hq.expr.makes N mode
  rw [ht, some.injEq] at ht'
  rw [← ht'] at hso
  constructor
  · rintro ⟨μ, hμ⟩
    refine ⟨μ, fun a ha => hμ a ((hp a).2 ?_), fun c hc => ?_, ?_⟩
    · rcases arrayFact_arrays.1 ha with ⟨c, hc, ha⟩ | ha
      · exact .inr (.inr ⟨c, hc, .inr ha⟩)
      · exact .inr (.inl ha)
    · obtain ⟨u, hu, _⟩ := (hq.constraints c hc).makes N mode
      exact ⟨u, hu, hμ u ((hp u).2 (.inr (.inr ⟨c, hc, .inl hu⟩)))⟩
    · exact ⟨t, ht, (eval_not_iff hso).1 (hμ _ ((hp _).2 (.inl rfl)))⟩
  · rintro ⟨μ, hμ⟩
    refine ⟨μ, fun a ha => ?_⟩
    rcases (hp a).1 ha with rfl | ha | ⟨c, hc, ha | ha⟩
    · exact (eval_not_iff hso).2 ((termIs_iff ht).1 hμ.expr)
    · exact hμ.facts a (arrayFact_arrays.2 (.inr ha))
    · exact (termIs_iff ha).1 (hμ.constraints c hc)
    · exact hμ.facts a (arrayFact_arrays.2 (.inl ⟨c, hc, ha⟩))

end

namespace Z3BaseSolver
variable {impl : Z3BaseSolver σ} {Inv : σ → Prop}
theorem computeInitialValues_inv (Checked : σ → Prop)
    (hh : ∃ problem s', impl.check r.query s = some (problem, s') ∧ Checked s')
    (hex : ∀ s, Checked s → ∃ s', impl.extractModel r.objects s = some s' ∧ Checked s')
    (hp : ∀ s, Checked s → ∃ s', impl.postCheck s = some s' ∧ Inv s') :
    ∃ s', impl.computeInitialValues s r = some s' ∧ Inv s' := by
  obtain ⟨problem, s1, hs1, hc⟩ := hh
  rw [computeInitialValues, hs1]
  cases r.result with
  | unknown | unsat => exact hp s1 hc
  | sat =>
    obtain ⟨s2, hs2, hc⟩ := hex s1 hc
    obtain ⟨s3, hs3, hi⟩ := hp s2 hc
    refine ⟨s3, ?_, hi⟩
    simp only [bind_eq_bind, bind_some, hs2, hs3]

theorem poses_of {P : List SmtTerm → Prop}
    (hr : ∃ s, requests.foldlM impl.computeInitialValues impl.start = some s ∧ Inv s)
    (hc : ∀ s, Inv s → ∃ problem s', impl.check q s = some (problem, s') ∧ P problem) :
    ∃ problem, impl.poses requests q = some problem ∧ P problem := by
  obtain ⟨s, hs, hi⟩ := hr
  obtain ⟨problem, s', hs', hp⟩ := hc s hi
  refine ⟨problem, ?_, hp⟩
  rw [poses, hs]
  simp only [bind_eq_bind, bind_some, hs']
  rfl

end Z3BaseSolver

namespace Z3Session
structure OnTop (N : ArrayNames) (mode : ArrayMode) (below s : Z3Session) : Prop where
  outer : s.outer = below.scope :: below.outer
  incremental : s.incremental = below.incremental
  saved : s.saved = if below.incremental then below.frame :: below.saved else below.saved
  right : s.frame.Right N mode s.assertions

inductive Stacked (N : ArrayNames) (mode : ArrayMode) (nodes : Store ConditionNode) :
    List Nat → Z3Session → Prop
  | base (hassertions : s.assertions = []) (hright : s.frame.Right N mode s.assertions) :
    Stacked N mode nodes [] s
  | level (hbelow : Stacked N mode nodes ns below) (htop : OnTop N mode below s)
    (hassertions : ∀ a, a ∈ s.assertions ↔
      a ∈ below.assertions ∨ Contributes N mode (exprOf nodes n) a) :
    Stacked N mode nodes (n :: ns) s

variable {mode : ArrayMode} {s below : Z3Session}
section
variable (h : Stacked N mode nodes ns s)
include h
theorem Stacked.right : s.frame.Right N mode s.assertions := by
  cases h with
  | base _ hr => exact hr
  | level _ ht _ => exact ht.right

theorem Stacked.mem_assertions (a : SmtTerm) :
    a ∈ s.assertions ↔ ∃ n ∈ ns, Contributes N mode (exprOf nodes n) a := by
  induction h with
  | base ha _ =>
    rw [ha]
    exact iff_of_false not_mem_nil fun ⟨_, hn, _⟩ => not_mem_nil hn
  | level _ _ ha ih => rw [ha, ih, or_comm, exists_mem_cons_iff]

theorem Stacked.clear : Stacked N mode nodes ns { s with frame := .empty } := by
  cases h with
  | base ha _ => exact .base ha (CacheFrame.empty_right _ _ _)
  | level hb ht ha =>
    exact .level hb { ht with right := CacheFrame.empty_right _ _ _ } ha

end

theorem OnTop.pop (h : OnTop N mode below s) (k : Nat) : s.pop (k + 1) = below.pop k := by
  rw [Z3Session.pop, Z3Session.pop, h.outer, h.incremental, h.saved]
  cases below.incremental <;> rfl

theorem Stacked.pop (h : Stacked N mode nodes ns s) (hk : k ≤ ns.length) :
    ∃ s', s.pop k = some s' ∧ Stacked N mode nodes (ns.drop k) s' := by
  induction k generalizing ns s with
  | zero =>
    cases hi : s.incremental with
    | true =>
      refine ⟨s, ?_, h⟩
      cases s
      cases hi
      rfl
    | false =>
      refine ⟨{ s with frame := .empty }, ?_, h.clear⟩
      cases s
      cases hi
      rfl
  | succ k ih =>
    cases h with
    | base _ _ => cases hk
    | level hb ht _ =>
      rw [ht.pop]
      exact ih hb (Nat.le_of_succ_le_succ hk)

theorem push_assertions (s : Z3Session) : s.push.assertions = s.assertions := rfl

theorem push_construct (hs : s.frame.Right N mode s.assertions) (ht : makeExpr N mode e = some t) :
    ∃ s', (construct N mode e).run s.push = some (t, s') ∧ ∀ u, OnTop N mode s (s'.add u) ∧
      ∀ a, a ∈ (s'.add u).assertions ↔ a = u ∨ a ∈ s.assertions ∨ ArrayFact N mode e.arrays a := by
  obtain ⟨s', hr, he⟩ := getOrMakeExpr_yields (s := s.push) e hs ht
  refine ⟨s', hr, fun u => ⟨⟨he.outer, he.incremental, he.saved, ?_⟩, fun a => ?_⟩⟩
  · exact he.right.mono fun a => mem_cons_of_mem _
  · have hc : (s'.add u).assertions = u :: s'.assertions := rfl
    rw [hc, mem_cons, he.assertions, push_assertions]

theorem Stacked.addConstraint (h : Stacked N mode nodes ns s)
    (hn : (exprOf nodes n).CanonicalBool) :
    ∃ s', Z3StackSolver.addConstraint N mode nodes s n = some s' ∧
      Stacked N mode nodes (n :: ns) s' := by
  obtain ⟨t, ht, _⟩ := hn.makes N mode
  obtain ⟨s', hr, ha⟩ := push_construct h.right ht
  refine ⟨s'.add t, ?_, .level h (ha t).1 fun a => ?_⟩
  · rw [Z3StackSolver.addConstraint, hr]
    rfl
  · rw [(ha t).2, Contributes, ht, some.injEq, or_left_comm, eq_comm]

end Z3Session

namespace ConditionNode
theorem depthFrom_fuel (ht : ConditionTree nodes) (hf : n < f) (hg : n < g) :
    depthFrom nodes f n = depthFrom nodes g n := by
  induction f generalizing n g with
  | zero => omega
  | succ f ih =>
    cases g with
    | zero => omega
    | succ g =>
      rw [depthFrom, depthFrom]
      cases hp : (nodes.get n).parent with
      | none => rfl
      | some p =>
        have hlt := ht.parent_lt hp
        simp only
        rw [ih (by omega) (show p < g by omega)]

theorem depth_child (ht : ConditionTree nodes) (hp : (nodes.get c).parent = some p) :
    depth nodes c = depth nodes p + 1 := by
  have hlt := ht.parent_lt hp
  rw [depth, depthFrom, hp, depth]
  simp only
  rw [depthFrom_fuel ht hlt (Nat.lt_succ_self p)]

theorem pathFrom_chain (h : pathFrom nodes root f n = some l) :
    l.IsChain (fun p c => (nodes.get c).parent = some p) ∧ ∀ m ∈ l.getLast?, m = n := by
  induction f generalizing n l with
  | zero => cases h
  | succ f ih =>
    obtain ⟨_, rfl⟩ | ⟨p, l', hp, hl', rfl⟩ := pathFrom_cases h
    · exact ⟨.nil, fun m hm => nomatch hm⟩
    obtain ⟨hch, hla⟩ := ih hl'
    constructor
    · apply hch.append (.singleton n)
      intro m hm c hc
      rw [hla m hm]
      cases hc
      exact hp
    · intro m hm
      rw [getLast?_concat] at hm
      exact (some.inj hm).symm

theorem depth_getLast (ht : ConditionTree nodes)
    (h : (m :: l).IsChain fun p c => (nodes.get c).parent = some p) :
    depth nodes ((m :: l).getLastD 0) = depth nodes m + l.length := by
  induction l generalizing m with
  | nil => rfl
  | cons c l ih =>
    obtain ⟨hp, hl⟩ := isChain_cons_cons.1 h
    have hla : (m :: c :: l).getLastD 0 = (c :: l).getLastD 0 := rfl
    rw [hla, ih hl, depth_child ht hp, length_cons]
    omega

end ConditionNode

namespace Z3StackSolver
theorem skipCommon_spec : (cur last : List Nat) → ∃ common,
    cur = common ++ (skipCommon cur last).1 ∧ last = common ++ (skipCommon cur last).2
  | [], last => ⟨[], by simp [skipCommon]⟩
  | n :: cur, [] => ⟨[], by simp [skipCommon]⟩
  | n :: cur, m :: last => by
    rw [skipCommon]
    split
    next heq =>
      subst heq
      obtain ⟨common, hc, hla⟩ := skipCommon_spec cur last
      refine ⟨n :: common, ?_, ?_⟩
      · rw [cons_append, ← hc]
      · rw [cons_append, ← hla]
    · exact ⟨[], rfl, rfl⟩

variable {mode : ArrayMode} {s : Z3StackSolver}
structure Ready (N : ArrayNames) (mode : ArrayMode) (nodes : Store ConditionNode)
    (s : Z3StackSolver) : Prop where
  stacked : Stacked N mode nodes s.lastConstraints.reverse s.session
  chain : s.lastConstraints.IsChain fun p c => (nodes.get c).parent = some p

theorem pop_amount (ht : ConditionTree nodes)
    (h : s.lastConstraints.IsChain fun p c => (nodes.get c).parent = some p)
    (hla : s.lastConstraints = common ++ m :: rest) :
    1 + depth nodes (s.lastConstraints.getLastD 0) - depth nodes m = rest.length + 1 := by
  rw [hla] at h ⊢
  have hch := (isChain_append.1 h).2.1
  have hd := depth_getLast ht hch
  have hg : (common ++ m :: rest).getLastD 0 = (m :: rest).getLastD 0 := by
    rw [getLastD_eq_getLast?, getLastD_eq_getLast?, getLast?_append]
    rfl
  rw [hg, hd]
  omega

theorem Ready.popUnused (h : Ready N mode nodes s) (ht : ConditionTree nodes)
    (hla : s.lastConstraints = common ++ rest) :
    ∃ session, Z3StackSolver.popUnused nodes s rest = some session ∧
      Stacked N mode nodes common.reverse session := by
  have hs := h.stacked
  cases rest with
  | nil =>
    rw [hla, append_nil] at hs
    exact ⟨_, rfl, hs⟩
  | cons m rest =>
    rw [Z3StackSolver.popUnused, pop_amount ht h.chain hla]
    rw [hla, reverse_append] at hs
    have hl : (m :: rest).reverse.length = rest.length + 1 := length_reverse
    obtain ⟨session, hp, hr⟩ := hs.pop (k := rest.length + 1) (by
      rw [length_append, hl]
      exact Nat.le_add_right _ _)
    rw [← hl, drop_left] at hr
    exact ⟨session, hp, hr⟩

theorem addConstraints_stacked {cur : List Nat} {session : Z3Session}
    (h : Stacked N mode nodes ns session) (hc : ∀ n ∈ cur, (exprOf nodes n).CanonicalBool) :
    ∃ session', cur.foldlM (addConstraint N mode nodes) session = some session' ∧
      Stacked N mode nodes (cur.reverse ++ ns) session' := by
  refine foldlM_some (fun done session => Stacked N mode nodes (done.reverse ++ ns)
    session) h fun done n rest session hl hs => ?_
  have hn := hc n (hl ▸ mem_append_cons_self)
  obtain ⟨session', ha, ht⟩ := hs.addConstraint hn
  refine ⟨session', ha, ?_⟩
  rw [reverse_concat]
  exact ht

structure Checked (N : ArrayNames) (mode : ArrayMode) (nodes : Store ConditionNode)
    (below : Z3Session) (s : Z3StackSolver) : Prop where
  stacked : Stacked N mode nodes s.lastConstraints.reverse below
  top : OnTop N mode below s.session
  chain : s.lastConstraints.IsChain fun p c => (nodes.get c).parent = some p

theorem Ready.check (h : Ready N mode nodes s) (ht : ConditionTree nodes) (hq : q.Canonical nodes) :
    ∃ problem s', check N mode nodes q s = some (problem, s') ∧
      (∃ below, Checked N mode nodes below s') ∧
      (Satisfiable problem ↔ q.Refutable N mode nodes) := by
  obtain ⟨path, hp⟩ := isSome_iff_exists.1 hq.path
  have hes : q.constraintExprs nodes = path.map (exprOf nodes) := by
    rw [Query.constraintExprs, hp]
    rfl
  have hcan : ∀ n ∈ path, (exprOf nodes n).CanonicalBool := fun n hn =>
    hq.constraints _ (hes ▸ mem_map_of_mem hn)
  obtain ⟨common, hc, hla⟩ := skipCommon_spec path s.lastConstraints
  obtain ⟨session, hpo, hco⟩ := h.popUnused ht hla
  obtain ⟨session', ha, hs⟩ := addConstraints_stacked hco fun n hn =>
    hcan n (hc ▸ mem_append_right _ hn)
  rw [← reverse_append, ← hc] at hs
  obtain ⟨t, hm, _⟩ := hq.expr.makes N mode
  obtain ⟨session'', hr, htp⟩ := push_construct hs.right hm
  refine ⟨(session''.add (.not t)).assertions, ⟨session''.add (.not t), path⟩, ?_, ⟨session', hs,
    (htp _).1, (pathFrom_chain hp).1⟩, satisfiable_iff_refutable hq hm fun a => ?_⟩
  · rw [Z3StackSolver.check, hp]
    simp only [bind_eq_bind, bind_some, hpo, ha, hr]
    rfl
  · rw [(htp _).2, hs.mem_assertions, or_comm (b := ArrayFact N mode q.expr.arrays a)]
    simp only [mem_reverse, hes, mem_map, exists_exists_and_eq_and]

theorem Checked.extractModel (h : Checked N mode nodes below s) (objects : List KArray) :
    ∃ s', extractModel N mode objects s = some s' ∧ Checked N mode nodes below s' := by
  obtain ⟨used, _, session, hr, he⟩ := extractModel_yields h.top.right objects
  refine ⟨{ s with session }, ?_, h.stacked, ⟨he.outer.trans h.top.outer, he.incremental.trans
    h.top.incremental, he.saved.trans h.top.saved, he.right⟩, h.chain⟩
  rw [Z3StackSolver.extractModel, hr]
  rfl

theorem Checked.postCheck (h : Checked N mode nodes below s) :
    ∃ s', postCheck s = some s' ∧ Ready N mode nodes s' := by
  obtain ⟨session, hp, hs⟩ := h.stacked.pop (Nat.zero_le _)
  refine ⟨{ s with session }, ?_, hs, h.chain⟩
  rw [Z3StackSolver.postCheck, h.top.pop, hp]
  rfl

theorem start_ready (N : ArrayNames) (mode : ArrayMode) (nodes : Store ConditionNode) :
    Ready N mode nodes (solver N mode nodes).start := by
  refine ⟨.base ?_ ?_, .nil⟩
  · cases mode with
    | ite | stores | asserts => rfl
  · cases mode with
    | ite | stores | asserts => exact CacheFrame.empty_right _ _ _

theorem poses_query (ht : ConditionTree nodes) (hrq : ∀ r ∈ requests, r.query.Canonical nodes)
    (hq : q.Canonical nodes) : ∃ problem, (solver N mode nodes).poses requests q = some problem ∧
      (Satisfiable problem ↔ q.Refutable N mode nodes) := by
  have hn : ∃ s, requests.foldlM (solver N mode nodes).computeInitialValues
      (solver N mode nodes).start = some s ∧ Ready N mode nodes s := by
    refine foldlM_some (fun _ => Ready N mode nodes) (start_ready N mode nodes)
      fun done r rest s hl hs => ?_
    have hr := hrq r (hl ▸ mem_append_cons_self)
    obtain ⟨problem, s', hs', hc, _⟩ := hs.check ht hr
    refine Z3BaseSolver.computeInitialValues_inv (fun s => ∃ below, Checked N mode nodes below s)
      ⟨problem, s', hs', hc⟩ ?_ ?_
    · rintro s ⟨below, hb⟩
      obtain ⟨s', hs', hc⟩ := hb.extractModel r.objects
      exact ⟨s', hs', below, hc⟩
    · rintro s ⟨below, hb⟩
      exact hb.postCheck
  refine Z3BaseSolver.poses_of hn fun s hs => ?_
  obtain ⟨problem, s', hs', _, hp⟩ := hs.check ht hq
  exact ⟨problem, s', hs', hp⟩

end Z3StackSolver
end Chef
