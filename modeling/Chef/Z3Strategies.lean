import Chef.Z3Guards

namespace Chef
open Foundations Z3Builder List Chef.Expr Z3AssumptionSolver ConditionNode Query Z3BaseSolver
namespace Z3ResetSolver
structure Collected (N : ArrayNames) (mode : ArrayMode) (es : List Expr) (s : Z3Session) :
    Prop where
  incremental : s.incremental = false
  right : s.frame.Right N mode s.assertions
  assertions : ∀ a, a ∈ s.assertions ↔ ∃ e ∈ es, Contributes N mode e a

variable {s : Z3Session}
theorem Collected.construct (h : Collected N mode es s) (ht : makeExpr N mode e = some t) :
    ∃ s', (Z3Session.construct N mode e).run s = some (t, s') ∧ ∀ u,
      (s'.add u).incremental = false ∧ (s'.add u).frame.Right N mode (s'.add u).assertions ∧
      ∀ a, a ∈ (s'.add u).assertions ↔ a = u ∨ ArrayFact N mode e.arrays a ∨
        ∃ e ∈ es, Contributes N mode e a := by
  obtain ⟨s', hr, he⟩ := Z3Session.getOrMakeExpr_yields e h.right ht
  refine ⟨s', hr, fun u => ⟨he.incremental.trans h.incremental, ?_, fun a => ?_⟩⟩
  · exact he.right.mono fun a => mem_cons_of_mem _
  · have hc : (s'.add u).assertions = u :: s'.assertions := rfl
    rw [hc, mem_cons, he.assertions, h.assertions, or_comm (b := ArrayFact N mode e.arrays a)]

theorem Collected.addConstraint (h : Collected N mode es s) (hn : (exprOf nodes n).CanonicalBool) :
    ∃ s', addConstraint N mode nodes s n = some s' ∧
      Collected N mode (es ++ [exprOf nodes n]) s' := by
  obtain ⟨t, ht, _⟩ := hn.makes N mode
  obtain ⟨s', hr, ha⟩ := h.construct ht
  obtain ⟨hi, hrt, hm⟩ := ha t
  refine ⟨s'.add t, ?_, hi, hrt, fun a => ?_⟩
  · rw [Z3ResetSolver.addConstraint, hr]
    rfl
  have hterm : a = t ↔ makeExpr N mode (exprOf nodes n) = some a := by
    rw [ht, Option.some.injEq, eq_comm]
  have hla : (∃ e ∈ es ++ [exprOf nodes n], Contributes N mode e a) ↔
      (∃ e ∈ es, Contributes N mode e a) ∨ Contributes N mode (exprOf nodes n) a := by
    simp only [mem_append, mem_singleton, or_and_right, exists_or, exists_eq_left]
  rw [hm, hla, hterm, ← or_assoc, or_comm, Contributes]

theorem initial_collected (N : ArrayNames) (mode : ArrayMode) :
    Collected N mode [] (.initial false) :=
  ⟨rfl, CacheFrame.empty_right _ _ _, fun _ => iff_of_false not_mem_nil
    fun ⟨_, he, _⟩ => not_mem_nil he⟩

theorem check_initial (hq : q.Canonical nodes) :
    ∃ problem s', check N mode nodes q (.initial false) = some (problem, s') ∧
      (s'.incremental = false ∧ s'.frame.Right N mode s'.assertions) ∧
      (Satisfiable problem ↔ q.Refutable N mode nodes) := by
  obtain ⟨path, hp⟩ := Option.isSome_iff_exists.1 hq.path
  have hes : q.constraintExprs nodes = path.map (exprOf nodes) := by
    rw [constraintExprs, hp]
    rfl
  obtain ⟨s, hs, hc⟩ := foldlM_some (fun done s => Collected N mode (done.map (exprOf nodes)) s)
    (f := addConstraint N mode nodes) (l := path) (initial_collected N mode)
    fun done n rest s hl hs => by
      have hn : n ∈ path := hl ▸ mem_append_cons_self
      rw [map_append]
      exact hs.addConstraint (hq.constraints _ (hes ▸ mem_map_of_mem hn))
  obtain ⟨t, ht, _⟩ := hq.expr.makes N mode
  obtain ⟨s', hr, ha⟩ := hc.construct ht
  obtain ⟨hi, hrt, hm⟩ := ha (.not t)
  refine ⟨(s'.add (.not t)).assertions, s'.add (.not t), ?_, ⟨hi, hrt⟩,
    satisfiable_iff_refutable hq ht fun a => ?_⟩
  · rw [check, hp]
    simp only [Option.bind_eq_bind, Option.bind_some, hs, hr]
    rfl
  · rw [hm, hes]

theorem poses_query (hrq : ∀ r ∈ requests, r.query.Canonical nodes) (hq : q.Canonical nodes) :
    ∃ problem, (solver N mode nodes).poses requests q = some problem ∧
      (Satisfiable problem ↔ q.Refutable N mode nodes) := by
  have hn : ∃ s, requests.foldlM (solver N mode nodes).computeInitialValues
      (solver N mode nodes).start = some s ∧ s = .initial false := by
    refine foldlM_some (fun _ s => s = Z3Session.initial false) rfl fun done r rest s hl hs => ?_
    subst hs
    have hr := hrq r (hl ▸ mem_append_cons_self)
    obtain ⟨problem, s', hs', hc, _⟩ := check_initial hr
    refine computeInitialValues_inv
      (fun s => s.incremental = false ∧ s.frame.Right N mode s.assertions)
      ⟨problem, s', hs', hc⟩ ?_ ?_
    · rintro s ⟨hi, ht⟩
      obtain ⟨used, _, s', hn, he⟩ := Z3Session.extractModel_yields ht r.objects
      refine ⟨s', ?_, he.incremental.trans hi, he.right⟩
      simp only [solver, hn]
      rfl
    · rintro s ⟨hi, _⟩
      refine ⟨.initial false, ?_, rfl⟩
      simp only [solver, Z3Session.reset, hi]
  refine poses_of hn fun s hs => ?_
  subst hs
  obtain ⟨problem, s', hs', _, hp⟩ := check_initial hq
  exact ⟨problem, s', hs', hp⟩

end Z3ResetSolver

/-- The query is canonical, and sizes of arrays are unsigned numbers. -/
structure SolverRequest.Canonical (nodes : Store ConditionNode) (r : SolverRequest) : Prop where
  query : r.query.Canonical nodes
  objects : ∀ root ∈ r.objects, root.size < 2 ^ 32

def sessionArrays (nodes : Store ConditionNode) (requests : List SolverRequest) (q : Query) :
    List KArray :=
  requests.flatMap (fun r => r.query.arrays nodes ++ r.objects) ++ q.arrays nodes

def guardCount (nodes : Store ConditionNode) (requests : List SolverRequest) : Nat :=
  (requests.map fun r => (r.query.constraintExprs nodes).length + 1).sum

theorem Query.Canonical.arrays_sized {q : Query} (hq : q.Canonical nodes) :
    ∀ root ∈ q.arrays nodes, root.size < 2 ^ 32 := by
  rw [arrays, forall_mem_append]
  refine ⟨?_, q.expr.arrays_sized hq.expr.canonical⟩
  intro root hr
  obtain ⟨c, hc, hr⟩ := mem_flatMap.1 hr
  exact c.arrays_sized (hq.constraints c hc).canonical root hr

namespace Z3AssumptionSolver
variable {roots : List KArray} {s : Z3AssumptionSolver}

section
variable (h : Guarded N mode roots made s)
include h
theorem check_assumes (hq : q.Canonical nodes) (hr : ∀ root ∈ q.arrays nodes, root ∈ roots)
    (hmd : made + ((q.constraintExprs nodes).length + 1) ≤ 10 ^ 14) :
    ∃ p, check N mode nodes q s = some (p.1 ++ p.2.session.assertions, p.2) ∧
      Assumes N mode roots made (assumed nodes q) p := by
  obtain ⟨path, ht⟩ := Option.isSome_iff_exists.1 hq.path
  have hes : assumed nodes q = path.map (exprOf nodes) ++ [createIsZero q.expr] := by
    rw [assumed, constraintExprs, ht]
    rfl
  have hl : (assumed nodes q).length = (q.constraintExprs nodes).length + 1 := by
    rw [assumed, length_append]
    rfl
  rw [← hl] at hmd
  obtain ⟨p, hp, ha⟩ := h.getAssumptions hmd fun e he => assumed_guardable hq hr he
  refine ⟨p, ?_, ha⟩
  rw [check, ht]
  simp only [Option.bind_eq_bind, Option.bind_some, ← hes, hp]
  rfl

theorem Guarded.extractModel (ho : ∀ root ∈ objects, root ∈ roots) :
    ∃ s', extractModel N mode objects s = some s' ∧ Guarded N mode roots made s' := by
  obtain ⟨used, hu, session, hr, he⟩ := Z3Session.extractModel_yields h.right objects
  have hs : ∀ a ∈ s.session.assertions, a ∈ session.assertions := fun a ha =>
    (he.assertions a).2 (.inl ha)
  refine ⟨{ s with session }, ?_, he.right, h.counter, h.numbered, h.apart, ?_, ?_⟩
  · rw [Z3AssumptionSolver.extractModel, hr]
    rfl
  · intro e g hl
    obtain ⟨t, ht, hso, hi, hfa, hrts⟩ := h.implied e g hl
    exact ⟨t, ht, hso, hs _ hi, hfa.mono hs, hrts⟩
  intro a ha
  rcases (he.assertions a).1 ha with ha | ha
  · exact h.assertions a ha
  · exact .inl (ha.mono fun root hro => ho root (hu root hro))

theorem Guarded.postCheck (threshold : Nat) :
    ∃ s', postCheck threshold s = some s' ∧ Guarded N mode roots made s' := by
  refine ⟨_, rfl, ?_⟩
  split
  · exact {
      right := CacheFrame.empty_right _ _ _
      counter := h.counter
      numbered := fun _ _ hl => nomatch hl
      apart := fun _ _ _ hl => nomatch hl
      implied := fun _ _ hl => nomatch hl
      assertions := fun _ ha => nomatch ha }
  · exact h

end

theorem start_guarded (N : ArrayNames) (mode : ArrayMode) (roots : List KArray)
    (nodes : Store ConditionNode) (threshold : Nat) :
    Guarded N mode roots 0 (solver N mode nodes threshold).start where
  right := CacheFrame.empty_right _ _ _
  counter := Nat.le_refl 0
  numbered _ _ hl := nomatch hl
  apart _ _ _ hl := nomatch hl
  implied _ _ hl := nomatch hl
  assertions _ ha := nomatch ha

/-- If names are distinct, the assumption solver poses the query. -/
theorem poses_query (hrq : ∀ r ∈ requests, r.Canonical nodes) (hq : q.Canonical nodes)
    (hap : N.Apart (sessionArrays nodes requests q))
    (hgu : guardCount nodes requests + (q.constraintExprs nodes).length < 10 ^ 14) :
    ∃ problem, (solver N mode nodes threshold).poses requests q = some problem ∧
      (Satisfiable problem ↔ q.Refutable N mode nodes) := by
  have ht : ∀ r ∈ requests, ∀ root ∈ r.query.arrays nodes ++ r.objects,
      root ∈ sessionArrays nodes requests q := fun r hr root hro =>
    mem_append_left _ (mem_flatMap.2 ⟨r, hr, hro⟩)
  have hz : ∀ root ∈ sessionArrays nodes requests q, root.size < 2 ^ 32 := by
    rw [sessionArrays, forall_mem_append]
    refine ⟨fun root hro => ?_, hq.arrays_sized⟩
    obtain ⟨r, hr, hro⟩ := mem_flatMap.1 hro
    rcases mem_append.1 hro with hro | hro
    · exact (hrq r hr).query.arrays_sized root hro
    · exact (hrq r hr).objects root hro
  have hn : ∃ s, requests.foldlM (solver N mode nodes threshold).computeInitialValues
      (solver N mode nodes threshold).start = some s ∧
      Guarded N mode (sessionArrays nodes requests q) (guardCount nodes requests) s := by
    refine foldlM_some (fun done s => Guarded N mode (sessionArrays nodes requests q)
      (guardCount nodes done) s) (start_guarded N mode _ nodes threshold)
      fun done r rest s hl hs => ?_
    have hr : r ∈ requests := hl ▸ mem_append_cons_self
    have hc : guardCount nodes (done ++ [r]) =
        guardCount nodes done + ((r.query.constraintExprs nodes).length + 1) := by simp [guardCount]
    have hsp : guardCount nodes requests =
        guardCount nodes (done ++ [r]) + guardCount nodes rest := by
      rw [hl, append_cons, guardCount, map_append, sum_append]
      rfl
    rw [hc] at hsp ⊢
    obtain ⟨p, hp, ha⟩ := check_assumes hs (hrq r hr).query
      (fun root hro => ht r hr root (mem_append_left _ hro)) (by omega)
    have hlen : (assumed nodes r.query).length = (r.query.constraintExprs nodes).length + 1 := by
      rw [assumed, length_append]
      rfl
    have hg := ha.guarded
    rw [hlen] at hg
    refine computeInitialValues_inv (Guarded N mode (sessionArrays nodes requests q) _)
      ⟨_, _, hp, hg⟩ ?_ ?_
    · intro s hs
      exact hs.extractModel fun root hro => ht r hr root (mem_append_right _ hro)
    · intro s hs
      exact hs.postCheck threshold
  refine poses_of hn fun s hs => ?_
  have hqroots : ∀ root ∈ q.arrays nodes, root ∈ sessionArrays nodes requests q := fun root =>
    mem_append_right _
  obtain ⟨p, hp, ha⟩ := check_assumes hs hq hqroots (by omega)
  refine ⟨_, _, hp, ?_, ?_⟩
  · rintro ⟨μ, hμ⟩
    exact ha.refuted hq hqroots hap hz hμ
  · rintro ⟨μ, hμ⟩
    exact ha.satisfied hq hqroots hap hz hμ

end Z3AssumptionSolver

section
variable {q : Query} {μ : SmtModel} {A : APInt} {ρ : Assignment}

theorem getInitialRead_sorted (N : ArrayNames) (mode : ArrayMode)
    (hi : i < root.size) : ∃ t, getInitialRead N mode root i = some t ∧ t.HasSort (.bitVec 8) := by
  cases mode with
  | ite =>
    refine ⟨_, getArrayValues_getElem? hi, ?_⟩
    split
    · exact .const _ _
    · exact constantValue_sorted
  | stores | asserts => exact ⟨_, rfl, (getInitialArray_sorted N _ root).select (.bitVecVal _ _)⟩

theorem exists_interprets (hfa : ∀ a, ArrayFact N mode roots a → a.eval μ = some (.bool true)) :
    ∃ ρ, Interprets N mode μ ρ roots := by
  have hr : ∀ (root : KArray) (i : Nat), ∃ b : UInt8, i < root.size →
      ∃ t, getInitialRead N mode root i = some t ∧ t.eval μ = some (.bits 8 b.toBitVec) := by
    intro root i
    by_cases hi : i < root.size
    · obtain ⟨t, ht, hso⟩ := getInitialRead_sorted N mode hi
      obtain ⟨x, hx⟩ := hso.bits μ
      exact ⟨⟨x⟩, fun _ => ⟨t, ht, hx⟩⟩
    · exact ⟨0, fun h => absurd h hi⟩
  choose ρ hρ using hr
  exact ⟨ρ, fun root _ _ i hi => hρ root i hi, fun hm root hro hc =>
    hfa _ ⟨hm, root, hro, hc, rfl⟩⟩

/-- The term has the value of constant evaluation. -/
def Expr.Faithful (A : APInt) (ρ : Assignment) (e : Expr) : Prop :=
  e.Everywhere (DefinedNode A ρ) ∧ e.Everywhere (KeptNode A ρ)

theorem termIs_iff_evaluate {e : Expr} (he : e.CanonicalBool) (hA : A.Shifts)
    (hf : e.Faithful A ρ) (hμ : Interprets N mode μ ρ e.arrays) :
    TermIs N mode μ e b ↔ decide (e.evaluate A ρ = 1) = b := by
  have htr := (e.translated_iff_kept hA he.wellTyped he.canonical hf.1 hμ).2 hf.2
  obtain ⟨t, ht, hv⟩ := htr.self.bool he.width_eq
  rw [termIs_iff ht, hv, Option.some.injEq, SmtValue.bool.injEq]

/-- Some assignment satisfies the constraints and not the expression. -/
def Query.Falsifiable (A : APInt) (nodes : Store ConditionNode) (q : Query) : Prop :=
  ∃ ρ, (∀ c ∈ q.constraintExprs nodes, c.evaluate A ρ = 1) ∧ q.expr.evaluate A ρ ≠ 1

/-- Names are not cut off, and terms have the values of their expressions. -/
structure Query.Preserved (A : APInt) (N : ArrayNames) (mode : ArrayMode)
    (nodes : Store ConditionNode) (q : Query) : Prop where
  identified : Identified (q.arrays nodes)
  fits : N.Fits mode (q.arrays nodes)
  faithful : ∀ ρ, (∀ c ∈ q.constraintExprs nodes, c.Faithful A ρ) ∧ q.expr.Faithful A ρ

theorem Query.Preserved.refutable_iff (h : q.Preserved A N mode nodes) (hA : A.Shifts)
    (hq : q.Canonical nodes) : q.Refutable N mode nodes ↔ q.Falsifiable A nodes := by
  have hcon : ∀ {μ ρ}, Interprets N mode μ ρ (q.arrays nodes) →
      ∀ c ∈ q.constraintExprs nodes, TermIs N mode μ c true ↔ c.evaluate A ρ = 1 := by
    intro μ ρ hμ c hc
    rw [termIs_iff_evaluate (hq.constraints c hc) hA ((h.faithful ρ).1 c hc), decide_eq_true_iff]
    exact hμ.subset fun root hr => mem_append_left _ (mem_flatMap.2 ⟨c, hc, hr⟩)
  have he : ∀ {μ ρ}, Interprets N mode μ ρ (q.arrays nodes) →
      (TermIs N mode μ q.expr false ↔ q.expr.evaluate A ρ ≠ 1) := by
    intro μ ρ hμ
    rw [termIs_iff_evaluate hq.expr hA (h.faithful ρ).2, decide_eq_false_iff_not]
    exact hμ.subset fun root hr => mem_append_right _ hr
  constructor
  · rintro ⟨μ, hμ⟩
    obtain ⟨ρ, hρ⟩ := exists_interprets hμ.facts
    exact ⟨ρ, fun c hc => (hcon hρ c hc).1 (hμ.constraints c hc), (he hρ).1 hμ.expr⟩
  rintro ⟨ρ, hn, hf⟩
  have hρ : Interprets N mode (modelOf N ρ (q.arrays nodes)) ρ (q.arrays nodes) :=
    modelOf_interprets h.identified h.fits hq.arrays_sized
  refine ⟨modelOf N ρ (q.arrays nodes), ?_, fun c hc => ((hcon hρ c hc).2 (hn c hc)), (he hρ).2 hf⟩
  rintro a ⟨hm, root, hr, hs, rfl⟩
  exact hρ.asserted hm root hr hs

end

/-- After any canonical requests the solvers pose a query whose terms are right, the assumption
solver if names are distinct and guards few. -/
theorem strategies_pose_query (N : ArrayNames) (mode : ArrayMode) {A : APInt} (hA : A.Shifts)
    {nodes : Store ConditionNode} (ht : ConditionTree nodes) (threshold : Nat)
    (requests : List SolverRequest) (q : Query) (hrequests : ∀ r ∈ requests, r.Canonical nodes)
    (hq : q.Canonical nodes) (hpreserved : q.Preserved A N mode nodes) :
    (∃ problem, (Z3StackSolver.solver N mode nodes).poses requests q = some problem ∧
      (Satisfiable problem ↔ q.Falsifiable A nodes)) ∧
    (∃ problem, (Z3ResetSolver.solver N mode nodes).poses requests q = some problem ∧
      (Satisfiable problem ↔ q.Falsifiable A nodes)) ∧
    (N.Apart (sessionArrays nodes requests q) → guardCount nodes requests +
      (q.constraintExprs nodes).length < 10 ^ 14 → ∃ problem,
      (solver N mode nodes threshold).poses requests q = some problem ∧
      (Satisfiable problem ↔ q.Falsifiable A nodes)) := by
  have hqs : ∀ r ∈ requests, r.query.Canonical nodes := fun r hr => (hrequests r hr).query
  rw [← hpreserved.refutable_iff hA hq]
  refine ⟨Z3StackSolver.poses_query ht hqs hq, Z3ResetSolver.poses_query hqs hq, ?_⟩
  intro hap hg
  exact poses_query hrequests hq hap hg

def byteIsZero : Expr := .compare .eq (.constant 8 0) (.read ⟨0, 1, []⟩ .null (.constant 32 0))

def selected : Expr := .read ⟨1, 2, [3, 4]⟩ .null (.zext byteIsZero 32)

def isSelected (v : Nat) : Expr := .compare .eq (.constant 8 v) selected

def branches : Store ConditionNode :=
  ⟨[⟨none, none, []⟩, ⟨some 0, some (isSelected 3), []⟩, ⟨some 0, some (isSelected 4), []⟩]⟩

theorem isSelected_canonical (hv : v < 256) : (isSelected v).CanonicalBool := by
  refine ⟨⟨⟨hv, ?_, rfl⟩, rfl⟩, ?_⟩
  · decide
  · simp [isSelected, selected, byteIsZero, Everywhere, UpdateNode.Everywhere, CanonicalNode,
      CmpKind.isCanonical, width]

theorem isSelected_faithful (v : Nat) (ρ : Assignment) : (isSelected v).Faithful APInt.llvm ρ := by
  have hz : (byteIsZero.zext 32).evaluate APInt.llvm ρ < 2 := by
    rw [evaluate, byteIsZero, evaluate]
    exact Nat.lt_of_le_of_lt (Nat.mod_le _ _) (Bool.toNat_lt _)
  constructor
  · simpa [isSelected, selected, byteIsZero, Everywhere, UpdateNode.Everywhere, DefinedNode,
      evaluate] using hz
  · simp [isSelected, selected, byteIsZero, Everywhere, UpdateNode.Everywhere, KeptNode]

theorem branches_tree : ConditionTree branches := .of_nodes (by decide) (by decide) (by decide)

theorem branches_canonical (hn : n = 1 ∨ n = 2) (hv : v < 256) :
    (mk ⟨0, n⟩ (isSelected v)).Canonical branches := by
  obtain rfl | rfl := hn
  · refine ⟨rfl, fun c hc => ?_, isSelected_canonical hv⟩
    rw [mem_singleton.1 hc]
    exact isSelected_canonical (by decide)
  · refine ⟨rfl, fun c hc => ?_, isSelected_canonical hv⟩
    rw [mem_singleton.1 hc]
    exact isSelected_canonical (by decide)

theorem branches_preserved :
    (mk ⟨0, 2⟩ (isSelected 3)).Preserved APInt.llvm .numbered .asserts branches where
  identified := by
    unfold Identified
    decide
  fits := by
    unfold ArrayNames.Fits
    decide +kernel
  faithful ρ := by
    refine ⟨fun c hc => ?_, isSelected_faithful 3 ρ⟩
    rw [mem_singleton.1 hc]
    exact isSelected_faithful 4 ρ

theorem branches_posed :
    let requests := [SolverRequest.mk ⟨⟨0, 1⟩, isSelected 4⟩ [⟨0, 1, []⟩] .sat]
    let q := mk ⟨0, 2⟩ (isSelected 3)
    (∃ problem, (Z3StackSolver.solver .numbered .asserts branches).poses requests q =
      some problem ∧ (Satisfiable problem ↔ q.Falsifiable APInt.llvm branches)) ∧
    (∃ problem, (Z3ResetSolver.solver .numbered .asserts branches).poses requests q =
      some problem ∧ (Satisfiable problem ↔ q.Falsifiable APInt.llvm branches)) ∧
    ∃ problem, (solver .numbered .asserts branches 50).poses requests q =
      some problem ∧ (Satisfiable problem ↔ q.Falsifiable APInt.llvm branches) := by
  intro requests q
  have hq : ∀ r ∈ requests, r.Canonical branches := by
    intro r hr
    rw [mem_singleton.1 hr]
    refine ⟨branches_canonical (.inl rfl) (by decide), fun root hro => ?_⟩
    rw [mem_singleton.1 hro]
    decide
  have hp := strategies_pose_query .numbered .asserts APInt.llvm_shifts branches_tree 50 requests q
    hq (branches_canonical (.inr rfl) (by decide)) branches_preserved
  refine ⟨hp.1, hp.2.1, hp.2.2 ?_ (by decide)⟩
  unfold ArrayNames.Apart
  decide +kernel

def longNames : ArrayNames :=
  { ArrayNames.numbered with name := fun _ => String.ofList (replicate 300 'a') }

def ones : KArray := ⟨1, 1, [1]⟩

def twos : KArray := ⟨2, 1, [2]⟩

def isSeven (root : KArray) : Expr :=
  .compare .eq (.constant 8 7) (.read root .null (.constant 32 0))

theorem printed_longNames (root : KArray) :
    printed (arrayText longNames root) = String.ofList (replicate 255 'a') := by
  have hn : (longNames.name root).toList = replicate 300 'a' := String.toList_ofList
  have hl : 255 ≤ (replicate 300 'a').length := by
    rw [length_replicate]
    omega
  rw [printed, arrayText, String.toList_append, String.toList_append, hn, append_assoc,
    take_append_of_le_length hl, take_replicate]
  rfl

theorem isSeven_canonical (hs : root.size < 2 ^ 32) :
    (mk ⟨0, 0⟩ (isSeven root)).Canonical branches := by
  refine ⟨rfl, fun c hc => absurd hc not_mem_nil, ⟨⟨?_, rfl⟩, ?_⟩⟩
  · exact ⟨by decide, ⟨trivial, by decide, rfl⟩, rfl⟩
  · simpa [isSeven, Everywhere, UpdateNode.Everywhere, CanonicalNode,
      CmpKind.isCanonical, width] using hs

def assertedSeven (i : Nat) (root : KArray) : List SmtTerm := [.implies (.const (guardName i) .bool)
    (.eq (.boolVal false)
      (.eq (.bitVecVal 8 7) (.select (arrayConst longNames root) (.bitVecVal 32 0)))),
    getArrayAssertion root (arrayConst longNames root)]

/-- Arrays with one printed name have contradicting assertions. -/
theorem isSeven_twos_not_posed :
    ConditionTree branches ∧ (mk ⟨0, 0⟩ (isSeven ones)).Canonical branches ∧
      (mk ⟨0, 0⟩ (isSeven twos)).Canonical branches ∧
      (mk ⟨0, 0⟩ (isSeven twos)).Falsifiable APInt.llvm branches ∧
      ∃ problem, (solver longNames .asserts branches 50).poses
        [⟨⟨⟨0, 0⟩, isSeven ones⟩, [], .sat⟩] ⟨⟨0, 0⟩, isSeven twos⟩ = some problem ∧
        ¬Satisfiable problem := by
  refine ⟨branches_tree, isSeven_canonical (by decide), isSeven_canonical (by decide), ?_,
    .const (guardName 1) .bool :: (assertedSeven 1 twos ++ assertedSeven 0 ones), rfl, ?_⟩
  · exact ⟨fun _ _ => 0, nofun, Nat.zero_ne_one⟩
  rintro ⟨μ, hμ⟩
  have hs : arrayConst longNames ones = arrayConst longNames twos := by
    rw [arrayConst, arrayConst, printed_longNames, printed_longNames]
  obtain ⟨f, hf⟩ := eval_arrayConst longNames μ twos
  have ht := hμ (getArrayAssertion twos (arrayConst longNames twos)) (by simp [assertedSeven])
  have ho := hμ (getArrayAssertion ones (arrayConst longNames ones)) (by simp [assertedSeven])
  rw [eval_getArrayAssertion (ρ := default) rfl hf, Option.some.injEq, SmtValue.bool.injEq,
    decide_eq_true_iff] at ht
  rw [hs, eval_getArrayAssertion (ρ := default) rfl hf, Option.some.injEq,
    SmtValue.bool.injEq, decide_eq_true_iff] at ho
  have hv := (ht 0 Nat.one_pos).symm.trans (ho 0 Nat.one_pos)
  exact absurd hv (by decide)

end Chef
