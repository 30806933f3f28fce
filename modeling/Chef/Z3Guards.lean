import Chef.Z3Negation

namespace Chef
open Foundations Z3Builder List Nat SmtTerm SmtModel
/-- No constant array shares its printed name. -/
def ArrayNames.Apart (N : ArrayNames) (roots : List KArray) : Prop :=
  ∀ root ∈ roots, ∀ root' ∈ roots, root.isSymbolicArray = false →
    printed (arrayText N root) = printed (arrayText N root') → root = root'

def redirected (N : ArrayNames) (μ : SmtModel) (fixed : List KArray) (on : List SmtTerm) :
    SmtModel :=
  μ.override fun name σ =>
    if σ = .bool then some (.bool (decide (.const name .bool ∈ on)))
    else if σ = .array 32 8 then
      (fixed.find? fun root => printed (arrayText N root) = name).map fun root =>
        .array 32 8 fun x => (root.initialValue default x.toNat).toBitVec
    else none

section
variable {N : ArrayNames} {fixed : List KArray}
theorem redirected_guard (name : String) : (const name .bool).eval (redirected N μ fixed on)
    = some (.bool (decide (const name .bool ∈ on))) :=
  congrArg some (override_some (if_pos rfl) rfl)

theorem redirected_array (h : fixed.find? (fun root => printed (arrayText N root) = name) = o) :
    (redirected N μ fixed on).value name (.array 32 8) =
      ((o.map fun root => SmtValue.array 32 8 fun x =>
        (KArray.initialValue root default x.toNat).toBitVec).getD
          (μ.value name (.array 32 8))) := by
  cases o with
  | none =>
    apply override_none
    rw [if_neg (by decide), if_pos rfl, h]
    rfl
  | some root =>
    refine override_some ?_ rfl
    rw [if_neg (by decide), if_pos rfl, h]
    rfl

theorem redirected_eval (ht : NamedBy N roots t) (hrts : ∀ root ∈ roots, ∀ root' ∈ fixed,
    printed (arrayText N root') ≠ printed (arrayText N root)) :
    t.eval (redirected N μ fixed on) = t.eval μ := by
  apply eval_congr
  intro c hc
  rcases ht c hc with hb | ⟨root, hr, rfl⟩
  · rw [hb]
    apply override_none
    rw [if_neg (by decide), if_neg (by decide)]
  have hno : fixed.find? (fun root' => printed (arrayText N root') =
      printed (arrayText N root)) = none := by
    apply List.find?_eq_none.2
    intro root' hrt
    rw [decide_eq_true_iff]
    exact hrts root hr root' hrt
  exact redirected_array hno

theorem redirected_fact (hr : root ∈ fixed) (hc : root.isSymbolicArray = false)
    (hz : root.size < 2 ^ 32) (hap : ∀ root' ∈ fixed,
      printed (arrayText N root') = printed (arrayText N root) → root' = root) :
    (getArrayAssertion root (arrayConst N root)).eval (redirected N μ fixed on) =
      some (.bool true) := by
  have hf : fixed.find? (fun root' => printed (arrayText N root') =
      printed (arrayText N root)) = some root := by
    cases hs : fixed.find? fun root' => printed (arrayText N root') =
        printed (arrayText N root) with
    | none => exact absurd (decide_eq_true rfl) (List.find?_eq_none.1 hs root hr)
    | some root' =>
      have hn := List.find?_some hs
      rw [hap root' (mem_of_find?_eq_some hs) (of_decide_eq_true hn)]
  have ha : (arrayConst N root).eval (redirected N μ fixed on) =
      some (.array 32 8 fun x => (root.initialValue default x.toNat).toBitVec) :=
    congrArg some (redirected_array hf)
  rw [eval_getArrayAssertion hc ha (ρ := default), decide_eq_true]
  intro i hi
  rw [BitVec.toNat_ofNat, mod_eq_of_lt (lt_trans hi hz)]

theorem TermIs.redirected (h : TermIs N mode μ e b) (hrts : ∀ root ∈ e.arrays, ∀ root' ∈ fixed,
    printed (arrayText N root') ≠ printed (arrayText N root)) :
    TermIs N mode (redirected N μ fixed on) e b := by
  obtain ⟨t, ht, he⟩ := h
  exact ⟨t, ht, (redirected_eval (makeExpr_named e (fun _ => id) ht) hrts).trans he⟩

theorem eval_fact_redirected (h : (getArrayAssertion root (arrayConst N root)).eval μ = some v)
    (hrts : ∀ root' ∈ fixed, printed (arrayText N root') ≠ printed (arrayText N root)) :
    (getArrayAssertion root (arrayConst N root)).eval (Chef.redirected N μ fixed on) = some v := by
  refine (redirected_eval
    (getArrayAssertion_named (arrayConst_named (mem_singleton_self root))) ?_).trans h
  intro root' hrt
  rw [mem_singleton.1 hrt]
  exact hrts

def othersThan (used roots : List KArray) : List KArray :=
  roots.filter fun root => root ∉ used ∧ root.isSymbolicArray = false

theorem mem_othersThan : root ∈ othersThan used roots ↔
    root ∈ roots ∧ root ∉ used ∧ root.isSymbolicArray = false := by
  rw [othersThan, mem_filter, decide_eq_true_iff]

variable (h : N.Apart roots) (hsub : ∀ root ∈ fixed, root ∈ roots)
include h hsub
theorem ArrayNames.Apart.othersThan (hu : ∀ root ∈ used, root ∈ roots) (hr : root ∈ used)
    (hrt : root' ∈ othersThan used fixed) :
    printed (arrayText N root') ≠ printed (arrayText N root) := by
  obtain ⟨hm, ht, hc⟩ := mem_othersThan.1 hrt
  intro hn
  apply ht
  rw [h root' (hsub root' hm) root (hu root hr) hc hn]
  exact hr

theorem othersThan_fact (hs : root.size < 2 ^ 32) (hr : root ∈ othersThan used fixed) :
    (getArrayAssertion root (arrayConst N root)).eval
      (Chef.redirected N μ (othersThan used fixed) on) = some (.bool true) := by
  have hc := (mem_othersThan.1 hr).2.2
  refine redirected_fact hr hc hs ?_
  intro root' hrt hn
  have hmem := hsub root (mem_othersThan.1 hr).1
  have hmem' := hsub root' (mem_othersThan.1 hrt).1
  exact (h root hmem root' hmem' hc hn.symm).symm

end

namespace Z3AssumptionSolver
theorem guardName_injective (hi : i < 10 ^ 14) (hj : j < 10 ^ 14)
    (h : guardName i = guardName j) : i = j := by
  have hw : ∀ n, n < 10 ^ 14 → guardName n = "g" ++ n.repr := by
    intro n hn
    have hlen : ("g" ++ n.repr).length ≤ 15 := by
      have hr := (length_repr_le_iff (by decide)).2 hn
      rw [String.length_append]
      exact Nat.add_le_add_left hr 1
    rw [guardName, take_of_length_le (String.length_toList ▸ hlen), String.ofList_toList]
  rw [hw i hi, hw j hj] at h
  have hl := congrArg String.toList h
  rw [String.toList_append, String.toList_append] at hl
  have hd := congrArg (fun l => ofDigitChars 10 l 0) (append_cancel_left hl)
  simp only [toList_repr, ofDigitChars_ten_toDigits] at hd
  exact hd

/-- Facts about known arrays and implications of guards are assumed. -/
structure Guarded (N : ArrayNames) (mode : ArrayMode) (roots : List KArray) (made : Nat)
    (s : Z3AssumptionSolver) : Prop where
  right : s.session.frame.Right N mode s.session.assertions
  counter : s.guardCounter ≤ made
  numbered : ∀ e g, s.guards.lookup e = some g →
    ∃ i, i < s.guardCounter ∧ g = .const (guardName i) .bool
  apart : ∀ e e' g, s.guards.lookup e = some g → s.guards.lookup e' = some g → e = e'
  implied : ∀ e g, s.guards.lookup e = some g → ∃ t, makeExpr N mode e = some t ∧
    t.HasSort .bool ∧ .implies g t ∈ s.session.assertions ∧
    FactsIn N mode e.arrays s.session.assertions ∧ ∀ root ∈ e.arrays, root ∈ roots
  assertions : ∀ a ∈ s.session.assertions, ArrayFact N mode roots a ∨
    ∃ e g t, s.guards.lookup e = some g ∧ makeExpr N mode e = some t ∧ a = .implies g t

variable {N : ArrayNames} {roots : List KArray} {session : Z3Session}

def Guardable (N : ArrayNames) (mode : ArrayMode) (roots : List KArray) (e : Expr) : Prop :=
  (∃ t, makeExpr N mode e = some t ∧ t.HasSort .bool) ∧ ∀ root ∈ e.arrays, root ∈ roots

theorem lookup_keep {l : List (Expr × SmtTerm)} (h : l.lookup e = none)
    (h' : l.lookup e' = some g') : ((e, g) :: l).lookup e' = some g' := by
  have hne : (e' == e) = false := by
    apply beq_false_of_ne
    intro heq
    rw [heq, h] at h'
    cases h'
  rw [lookup_cons, hne]
  exact h'

theorem lookup_new (l : List (Expr × SmtTerm)) (e : Expr) (g : SmtTerm) :
    ((e, g) :: l).lookup e = some g := by rw [lookup_cons, beq_self_eq_true]

section
variable (h : Guarded N mode roots made s)
include h
theorem Guarded.guard (hmd : made < 10 ^ 14)
    (he : Guardable N mode roots e) (hno : s.guards.lookup e = none)
    (ht : makeExpr N mode e = some t) (hx : s.session.Extended N mode e.arrays session) :
    Guarded N mode roots (made + 1)
      { session := session.add (.implies (.const (guardName s.guardCounter) .bool) t)
        guards := (e, .const (guardName s.guardCounter) .bool) :: s.guards
        guardCounter := (s.guardCounter + 1) % 2 ^ 64 } := by
  have hc := h.counter
  have hm : (s.guardCounter + 1) % 2 ^ 64 = s.guardCounter + 1 := mod_eq_of_lt (by omega)
  have hsub : ∀ a ∈ s.session.assertions, a ∈ session.assertions := fun a ha =>
    (hx.assertions a).2 (.inl ha)
  have ho : ∀ i, i < s.guardCounter →
      const (guardName i) .bool ≠ .const (guardName s.guardCounter) .bool := by
    intro i hi heq
    have hn : guardName i = guardName s.guardCounter := by
      injection heq
    have hij := guardName_injective (by omega) (by omega) hn
    omega
  constructor
  case right => exact hx.right.mono fun a => mem_cons_of_mem _
  case counter =>
    simp only [hm]
    omega
  case numbered =>
    intro e' g' hl
    simp only [hm]
    rcases lookup_insert hl with ⟨_, rfl⟩ | hl
    · exact ⟨_, lt_succ_self _, rfl⟩
    · obtain ⟨i, hi, hg⟩ := h.numbered e' g' hl
      exact ⟨i, lt_succ_of_lt hi, hg⟩
  case apart =>
    intro e1 e2 g' h1 h2
    rcases lookup_insert h1 with ⟨he1, hg1⟩ | hl1
    · rcases lookup_insert h2 with ⟨he2, _⟩ | hl2
      · exact he1.trans he2.symm
      · obtain ⟨i, hi, hg⟩ := h.numbered e2 g' hl2
        exact absurd (hg.symm.trans hg1) (ho i hi)
    · rcases lookup_insert h2 with ⟨_, hg2⟩ | hl2
      · obtain ⟨i, hi, hg⟩ := h.numbered e1 g' hl1
        exact absurd (hg.symm.trans hg2) (ho i hi)
      · exact h.apart e1 e2 g' hl1 hl2
  case implied =>
    intro e' g' hl
    rcases lookup_insert hl with ⟨rfl, rfl⟩ | hl
    · obtain ⟨⟨t', ht', hso⟩, hrts⟩ := he
      rw [ht, Option.some.injEq] at ht'
      exact ⟨t, ht, ht' ▸ hso, mem_cons_self, fun a ha =>
        mem_cons_of_mem _ ((hx.assertions a).2 (.inr ha)), hrts⟩
    · obtain ⟨t', ht', hso, hp, hfa, hrts⟩ := h.implied e' g' hl
      exact ⟨t', ht', hso, mem_cons_of_mem _ (hsub _ hp), fun a ha =>
        mem_cons_of_mem _ (hsub a (hfa a ha)), hrts⟩
  case assertions =>
    intro a ha
    rcases mem_cons.1 ha with rfl | ha
    · exact .inr ⟨e, _, t, lookup_new _ e _, ht, rfl⟩
    rcases (hx.assertions a).1 ha with ha | ha
    · rcases h.assertions a ha with ha | ⟨e', g', t', hl, ht', ha⟩
      · exact .inl ha
      · exact .inr ⟨e', g', t', lookup_keep hno hl, ht', ha⟩
    · exact .inl (ha.mono he.2)

theorem Guarded.mono (hle : made ≤ made') :
    Guarded N mode roots made' s := { h with counter := le_trans h.counter hle }

theorem Guarded.getAssumption (hmd : made < 10 ^ 14) (he : Guardable N mode roots e) :
    ∃ g s', getAssumption N mode e s = some (g, s') ∧ Guarded N mode roots (made + 1) s' ∧
      s'.guards.lookup e = some g ∧
      ∀ e' g', s.guards.lookup e' = some g' → s'.guards.lookup e' = some g' := by
  rw [Z3AssumptionSolver.getAssumption.eq_def]
  cases hl : s.guards.lookup e with
  | some g => exact ⟨g, s, rfl, h.mono (le_succ _), hl, fun _ _ hl' => hl'⟩
  | none =>
    obtain ⟨t, ht, _⟩ := he.1
    obtain ⟨session, hr, hx⟩ := Z3Session.getOrMakeExpr_yields e h.right ht
    refine ⟨_, _, ?_, h.guard hmd he hl ht hx, lookup_new _ e _, fun e' g' hl' =>
      lookup_keep hl hl'⟩
    simp only [Z3Session.construct, hr]
    rfl

end

structure Assumes (N : ArrayNames) (mode : ArrayMode) (roots : List KArray) (made : Nat)
    (es : List Expr) (p : List SmtTerm × Z3AssumptionSolver) : Prop where
  guarded : Guarded N mode roots (made + es.length) p.2
  guard : ∀ e ∈ es, ∃ g ∈ p.1, p.2.guards.lookup e = some g
  expr : ∀ g ∈ p.1, ∃ e ∈ es, p.2.guards.lookup e = some g

theorem Guarded.getAssumptions (h : Guarded N mode roots made s)
    (hmd : made + es.length ≤ 10 ^ 14) (hes : ∀ e ∈ es, Guardable N mode roots e) :
    ∃ p, es.foldlM (getAssumptions N mode) ([], s) = some p ∧ Assumes N mode roots made es p := by
  refine foldlM_some (Assumes N mode roots made) ⟨h, forall_mem_nil _, forall_mem_nil _⟩ ?_
  rintro done e rest p hl ⟨hp, hd, hgs⟩
  have hn : made + done.length < 10 ^ 14 := by
    rw [hl, length_append, length_cons] at hmd
    omega
  have he := hes e (hl ▸ mem_append_cons_self)
  obtain ⟨g, s', hr, hs', hg, hk⟩ := hp.getAssumption hn he
  refine ⟨(g :: p.1, s'), ?_, ?_, ?_, ?_⟩
  · rw [Z3AssumptionSolver.getAssumptions, hr]
    rfl
  · rw [length_append]
    exact hs'
  · intro e' he'
    rcases mem_append.1 he' with he' | he'
    · obtain ⟨g', hg', hl'⟩ := hd e' he'
      exact ⟨g', mem_cons_of_mem _ hg', hk e' g' hl'⟩
    · rw [mem_singleton.1 he']
      exact ⟨g, mem_cons_self, hg⟩
  · intro g' hg'
    rcases mem_cons.1 hg' with rfl | hg'
    · exact ⟨e, mem_append_cons_self, hg⟩
    · obtain ⟨e', he', hl'⟩ := hgs g' hg'
      exact ⟨e', mem_append_left _ he', hk e' g' hl'⟩

def assumed (nodes : Store ConditionNode) (q : Query) : List Expr :=
  q.constraintExprs nodes ++ [createIsZero q.expr]

variable {nodes : Store ConditionNode} {μ : SmtModel}
theorem assumed_arrays (hq : q.Canonical nodes) (he : e ∈ assumed nodes q)
    (hr : root ∈ e.arrays) : root ∈ q.arrays nodes := by
  rcases mem_append.1 he with he | he
  · exact mem_append_left _ (mem_flatMap.2 ⟨e, he, hr⟩)
  · rw [mem_singleton.1 he] at hr
    exact mem_append_right _ (createIsZero_arrays hq.expr.width_eq hr)

theorem assumed_guardable (hq : q.Canonical nodes) (hrts : ∀ root ∈ q.arrays nodes, root ∈ roots)
    (he : e ∈ assumed nodes q) : Guardable N mode roots e := by
  refine ⟨?_, fun root hr => hrts root (assumed_arrays hq he hr)⟩
  rcases mem_append.1 he with he | he
  · exact (hq.constraints e he).makes N mode
  · rw [mem_singleton.1 he]
    exact (hq.expr.negated N mode).1

variable {p : List SmtTerm × Z3AssumptionSolver}
theorem Assumes.termIs
    (h : Assumes N mode roots made es p) (hμ : μ.Satisfies (p.1 ++ p.2.session.assertions))
    (he : e ∈ es) : TermIs N mode μ e true ∧ FactsIn N mode e.arrays p.2.session.assertions := by
  obtain ⟨g, hg, hl⟩ := h.guard e he
  obtain ⟨t, ht, hso, hi, hfa, _⟩ := h.guarded.implied e g hl
  have htt := hμ g (mem_append_left _ hg)
  have hr := hμ _ (mem_append_right _ hi)
  obtain ⟨b, hb⟩ := hso.bool μ
  rw [eval_implies htt hb] at hr
  cases hr
  exact ⟨⟨t, ht, hb⟩, hfa⟩

variable (h : Assumes N mode roots made (assumed nodes q) p) (hq : q.Canonical nodes)
  (hrts : ∀ root ∈ q.arrays nodes, root ∈ roots) (hap : N.Apart roots)
  (hsized : ∀ root ∈ roots, root.size < 2 ^ 32)
include h hq hrts hap hsized
theorem Assumes.refuted (hμ : μ.Satisfies (p.1 ++ p.2.session.assertions)) :
    q.Refutable N mode nodes := by
  let used := (assumed nodes q).flatMap Expr.arrays
  let fixed := othersThan used (q.arrays nodes)
  have hu : ∀ root ∈ used, root ∈ roots := by
    intro root hr
    obtain ⟨e, he, hr⟩ := mem_flatMap.1 hr
    exact hrts root (assumed_arrays hq he hr)
  have hs : ∀ root ∈ used, ∀ root' ∈ fixed,
      printed (arrayText N root') ≠ printed (arrayText N root) := fun root hr root' hrt =>
    hap.othersThan hrts hu hr hrt
  have ht : ∀ e ∈ assumed nodes q, TermIs N mode (redirected N μ fixed []) e true := by
    intro e he
    apply (h.termIs hμ he).1.redirected
    intro root hr
    exact hs root (mem_flatMap.2 ⟨e, he, hr⟩)
  refine ⟨redirected N μ fixed [], ?_, fun c hc => ht c (mem_append_left _ hc), ?_⟩
  · rintro a ⟨hm, root, hr, hcst, rfl⟩
    by_cases hmem : root ∈ used
    · obtain ⟨e, he, hrt⟩ := mem_flatMap.1 hmem
      have hfa := (h.termIs hμ he).2 _ ⟨hm, root, hrt, hcst, rfl⟩
      exact eval_fact_redirected (hμ _ (mem_append_right _ hfa)) (hs root hmem)
    · have hf : root ∈ fixed := mem_othersThan.2 ⟨hr, hmem, hcst⟩
      exact othersThan_fact hap hrts (hsized root (hrts root hr)) hf
  · apply ((hq.expr.negated N mode).2 _).1
    exact ht _ mem_append_cons_self

theorem Assumes.satisfied (hμ : q.RefutedBy N mode nodes μ) :
    Satisfiable (p.1 ++ p.2.session.assertions) := by
  let fixed := othersThan (q.arrays nodes) roots
  have hs : ∀ root ∈ q.arrays nodes, ∀ root' ∈ fixed,
      printed (arrayText N root') ≠ printed (arrayText N root) := fun root hr root' hrt =>
    hap.othersThan (fun _ h => h) hrts hr hrt
  have hterm : ∀ e ∈ assumed nodes q, TermIs N mode (redirected N μ fixed p.1) e true := by
    intro e he
    have htt : TermIs N mode μ e true := by
      rcases mem_append.1 he with hc | hc
      · exact hμ.constraints e hc
      · rw [mem_singleton.1 hc]
        exact ((hq.expr.negated N mode).2 μ).2 hμ.expr
    exact htt.redirected fun root hr => hs root (assumed_arrays hq he hr)
  refine ⟨redirected N μ fixed p.1, fun a ha => ?_⟩
  rcases mem_append.1 ha with ha | ha
  · obtain ⟨e, _, hl⟩ := h.expr a ha
    obtain ⟨i, _, rfl⟩ := h.guarded.numbered e a hl
    rw [redirected_guard, decide_eq_true ha]
  rcases h.guarded.assertions a ha with ⟨hm, root, hr, hcst, rfl⟩ | hg
  · by_cases hmem : root ∈ q.arrays nodes
    · have hfa := hμ.facts _ ⟨hm, root, hmem, hcst, rfl⟩
      exact eval_fact_redirected hfa (hs root hmem)
    · have hf : root ∈ fixed := mem_othersThan.2 ⟨hr, hmem, hcst⟩
      exact othersThan_fact hap (fun _ h => h) (hsized root hr) hf
  · obtain ⟨e, g, t, hl, ht, rfl⟩ := hg
    obtain ⟨t', ht', hso, _⟩ := h.guarded.implied e g hl
    rw [ht, Option.some.injEq] at ht'
    subst ht'
    obtain ⟨b, hb⟩ := hso.bool (redirected N μ fixed p.1)
    obtain ⟨i, _, rfl⟩ := h.guarded.numbered e g hl
    rw [eval_implies (redirected_guard _) hb]
    by_cases hon : .const (guardName i) .bool ∈ p.1
    · obtain ⟨e', he', hl'⟩ := h.expr _ hon
      have heq := h.guarded.apart e e' _ hl hl'
      rw [← heq] at he'
      have htt := (termIs_iff ht).1 (hterm e he')
      rw [hb] at htt
      cases htt
      rw [Bool.or_true]
    · rw [decide_eq_false hon]
      rfl

end Z3AssumptionSolver
end Chef
