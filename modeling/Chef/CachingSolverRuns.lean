import Chef.CachingSolver

namespace Chef
open Foundations Option Chef.Expr Validity
def PartialValidity.Right (T : Set Assignment) (e : Expr) : PartialValidity → Prop
  | .mustBeTrue => ∀ ρ ∈ T, e.eval ρ = 1
  | .mustBeFalse => ∀ ρ ∈ T, e.eval ρ ≠ 1
  | .mayBeTrue => ∃ ρ ∈ T, e.eval ρ = 1
  | .mayBeFalse => ∃ ρ ∈ T, e.eval ρ ≠ 1
  | .trueOrFalse => (∃ ρ ∈ T, e.eval ρ = 1) ∧ ∃ ρ ∈ T, e.eval ρ ≠ 1
  | .none => False

structure Query.Asked (nodes : Store ConditionNode) (q : Query) : Prop where
  isBool : q.expr.IsBool
  satisfiable : (q.models nodes).Nonempty

structure SolverImpl.Sound (nodes : Store ConditionNode) (solver : SolverImpl) : Prop where
  validity : Query.Asked nodes q → solver.computeValidity q = some v →
    v.Right (q.models nodes) q.expr
  truth : Query.Asked nodes q → solver.computeTruth q = some b →
    (b = true ↔ q.expr.ValidIn (q.models nodes))

structure SolverImpl.Answers (solver : SolverImpl) (q : Query) : Prop where
  validity : (solver.computeValidity q).isSome = true
  truth : (solver.computeTruth q).isSome = true
  negated : (solver.computeTruth q.negateExpr).isSome = true

theorem Query.Asked.negateExpr {q : Query} (h : q.Asked nodes) : q.negateExpr.Asked nodes :=
  ⟨h.isBool.createIsZero, h.satisfiable⟩

theorem Query.Asked.negateExpr_validIn {q : Query} (h : q.Asked nodes) :
    q.negateExpr.expr.ValidIn (q.negateExpr.models nodes) ↔ isFalse.Right (q.models nodes) q.expr :=
  forall₂_congr fun ρ _ => h.isBool.createIsZero_eval ρ

theorem Expr.not_validIn {T : Set Assignment} {e : Expr} :
    ¬e.ValidIn T ↔ ∃ ρ ∈ T, e.eval ρ ≠ 1 := by
  rw [ValidIn]
  push Not
  exact Iff.rfl

namespace CachingSolver
def Inv (nodes : Store ConditionNode) (s : CachingSolver) : Prop := ∀ entry ∈ s.cache,
    entry.2.Right {ρ | ConstraintManager.Satisfied nodes entry.1.constraints ρ} entry.1.query

/-- The answer is right or missing, and the cache stays right. -/
structure Outcome (nodes : Store ConditionNode) (Right : α → Prop) (answers : Prop)
    (r : Option α × CachingSolver) : Prop where
  right : ∀ a, r.1 = some a → Right a
  answered : answers → r.1.isSome = true
  inv : Inv nodes r.2

theorem Outcome.known (hi : Inv nodes s) (h : P a) : Outcome nodes P answers (some a, s) :=
  ⟨fun _ ha => some.inj ha ▸ h, fun _ => rfl, hi⟩

variable {T : Set Assignment} {e e' : Expr} {nodes : Store ConditionNode}
theorem negatePartialValidity_right (hn : ∀ ρ, e'.eval ρ = 1 ↔ e.eval ρ ≠ 1)
    (h : PartialValidity.Right T e result) :
    ∃ result', IncompleteSolver.negatePartialValidity result = .ok result' ∧
      result'.Right T e' := by
  have hbk : ∀ ρ, e'.eval ρ ≠ 1 ↔ e.eval ρ = 1 := fun ρ => by rw [Ne, hn, not_ne_iff]
  cases result with
  | mustBeTrue => exact ⟨_, rfl, fun ρ hρ => (hbk ρ).2 (h ρ hρ)⟩
  | mustBeFalse => exact ⟨_, rfl, fun ρ hρ => (hn ρ).2 (h ρ hρ)⟩
  | mayBeTrue =>
    obtain ⟨ρ, hρ, hval⟩ := h
    exact ⟨_, rfl, ρ, hρ, (hbk ρ).2 hval⟩
  | mayBeFalse =>
    obtain ⟨ρ, hρ, hval⟩ := h
    exact ⟨_, rfl, ρ, hρ, (hn ρ).2 hval⟩
  | trueOrFalse =>
    obtain ⟨⟨ρ, hρ, hval⟩, ρ', hρ', hval'⟩ := h
    exact ⟨_, rfl, ⟨ρ', hρ', (hn ρ').2 hval'⟩, ρ, hρ, (hbk ρ).2 hval⟩
  | none => exact h.elim

theorem orient_right (hs : ∀ ρ, e'.eval ρ = 1 ↔ (e.eval ρ = 1 ↔ negationUsed = false))
    (h : PartialValidity.Right T e result) :
    ∃ result', orient negationUsed result = .ok result' ∧ result'.Right T e' := by
  cases negationUsed with
  | true =>
    apply negatePartialValidity_right _ h
    intro ρ
    rw [hs]
    simp
  | false =>
    refine ⟨result, rfl, ?_⟩
    have he : ∀ ρ, e'.eval ρ = 1 ↔ e.eval ρ = 1 := fun ρ => by
      rw [hs]
      simp
    cases result with
    | mustBeTrue | mayBeTrue => simpa only [PartialValidity.Right, he] using h
    | mustBeFalse | mayBeFalse | trueOrFalse =>
      simpa only [PartialValidity.Right, ne_eq, he] using h
    | none => exact h.elim

theorem canonicalizeQuery_eval (compare : Expr → Expr → Int) (h : e.IsBool) (ρ : Assignment) :
    (canonicalizeQuery compare e).1.eval ρ = 1 ↔
      (e.eval ρ = 1 ↔ (canonicalizeQuery compare e).2 = false) := by
  rw [canonicalizeQuery]
  split
  · simp
  · rw [h.createIsZero_eval]
    simp

section
variable {compare : Expr → Expr → Int} {q : Query} {s : CachingSolver}
theorem cacheLookup_spec (hi : Inv nodes s) (hq : q.expr.IsBool) :
    ∃ r, cacheLookup compare q s = .ok r ∧
      ∀ result, r = some result → result.Right (q.models nodes) q.expr := by
  have hs := canonicalizeQuery_eval compare hq
  rw [cacheLookup]
  split
  rename_i c n hc
  rw [hc] at hs
  split
  next result hl =>
    have hn := hi _ (mem_of_lookup hl)
    have hbk : ∀ ρ, q.expr.eval ρ = 1 ↔ (c.eval ρ = 1 ↔ n = false) := fun ρ => by
      rw [hs ρ]
      tauto
    obtain ⟨result', ho, hr⟩ := orient_right hbk hn
    refine ⟨some result', by rw [ho]; rfl, ?_⟩
    rintro _ ⟨⟩
    exact hr
  · exact ⟨none, rfl, nofun⟩

theorem cacheInsert_spec (hi : Inv nodes s) (hq : q.expr.IsBool)
    (h : PartialValidity.Right (q.models nodes) q.expr result) :
    ∃ s', cacheInsert compare q result s = .ok s' ∧ Inv nodes s' := by
  have hs := canonicalizeQuery_eval compare hq
  rw [cacheInsert]
  split
  rename_i c n hc
  rw [hc] at hs
  obtain ⟨cached, ho, hr⟩ := orient_right hs h
  rw [ho]
  refine ⟨_, rfl, ?_⟩
  split
  · exact hi
  · exact List.forall_mem_cons.2 ⟨hr, hi⟩

theorem store_spec {Right : α → Prop} (hinv : Inv nodes s) (hq : q.expr.IsBool)
    (hr : ∀ a, answer = some a → (result a).Right (q.models nodes) q.expr)
    (ht : ∀ a, answer = some a → Right a) (ha : answers → answer.isSome = true) :
    ∃ r, store compare q answer result s = .ok r ∧ Outcome nodes Right answers r := by
  cases answer with
  | none => exact ⟨_, rfl, nofun, ha, hinv⟩
  | some a =>
    obtain ⟨s', hs', hinv'⟩ := cacheInsert_spec hinv hq (hr a rfl)
    rw [store]
    exact ⟨_, by rw [hs']; rfl, ht, fun _ => rfl, hinv'⟩

theorem refine_spec (hi : Inv nodes s) (hq : q.expr.IsBool) (ht : answer = some true →
      stored.Right (q.models nodes) q.expr ∧ onTrue.Right (q.models nodes) q.expr)
    (hf : answer = some false → unknown.Right (q.models nodes) q.expr)
    (hn : answers → answer.isSome = true) : ∃ r, refine compare q answer onTrue stored s = .ok r ∧
      Outcome nodes (Right (q.models nodes) q.expr) answers r := by
  have hb : ∀ a, answer.map (refined onTrue stored) = some a →
      a.2.Right (q.models nodes) q.expr ∧ a.1.Right (q.models nodes) q.expr := by
    intro a ha
    obtain ⟨tmp, hm, rfl⟩ := map_eq_some_iff.1 ha
    cases tmp with
    | true => exact ht hm
    | false => exact ⟨hf hm, hf hm⟩
  have hs : ∃ r, store compare q (answer.map (refined onTrue stored)) Prod.snd s = .ok r ∧
      Outcome nodes (fun a => a.1.Right (q.models nodes) q.expr) answers r := by
    apply store_spec hi hq (fun a ha => (hb a ha).1) fun a ha => (hb a ha).2
    intro ha
    rw [isSome_map]
    exact hn ha
  obtain ⟨r, hr, ho⟩ := hs
  refine ⟨_, by rw [CachingSolver.refine, hr]; rfl, ?_, ?_, ho.inv⟩
  · intro v hv
    obtain ⟨a, ha, rfl⟩ := map_eq_some_iff.1 hv
    exact ho.right a ha
  · intro ha
    rw [isSome_map]
    exact ho.answered ha

theorem computeValidity_spec (compare : Expr → Expr → Int) (hi : Inv nodes s)
    (hq : q.Asked nodes) (hs : solver.Sound nodes) :
    ∃ r, computeValidity compare solver q s = .ok r ∧
      Outcome nodes (Right (q.models nodes) q.expr) (solver.Answers q) r := by
  obtain ⟨found, hf, hrt⟩ := cacheLookup_spec (s := s) hi hq.isBool
  rw [computeValidity, hf]
  cases found with
  | none =>
    apply store_spec hi hq.isBool _ (fun v hv => hs.validity hq hv) fun ha => ha.validity
    intro v hv
    have hv := hs.validity hq hv
    cases v with
    | isTrue | isFalse | unknown => exact hv
  | some result =>
    have hr := hrt result rfl
    cases result with
    | mustBeTrue | mustBeFalse | trueOrFalse =>
      exact ⟨_, rfl, .known hi hr⟩
    | mayBeTrue =>
      apply refine_spec hi hq.isBool _ _ fun ha => ha.truth
      · intro ht
        have hvd := (hs.truth hq ht).1 rfl
        exact ⟨hvd, hvd⟩
      · intro ht
        refine ⟨hr, not_validIn.1 fun hvd => ?_⟩
        cases (hs.truth hq ht).2 hvd
    | mayBeFalse =>
      apply refine_spec hi hq.isBool _ _ fun ha => ha.negated
      · intro ht
        have hvd := hq.negateExpr_validIn.1 ((hs.truth hq.negateExpr ht).1 rfl)
        exact ⟨hvd, hvd⟩
      intro ht
      refine ⟨?_, hr⟩
      by_contra hno
      push Not at hno
      cases (hs.truth hq.negateExpr ht).2 (hq.negateExpr_validIn.2 hno)
    | none => exact hr.elim

theorem computeTruth_spec (compare : Expr → Expr → Int) (hi : Inv nodes s) (hq : q.Asked nodes)
    (hs : solver.Sound nodes) : ∃ r, computeTruth compare solver q s = .ok r ∧
      Outcome nodes (fun b => b = true ↔ q.expr.ValidIn (q.models nodes)) (solver.Answers q) r := by
  obtain ⟨found, hf, hrt⟩ := cacheLookup_spec (s := s) hi hq.isBool
  have hff : solver.computeTruth q = some false → ∃ ρ ∈ q.models nodes, q.expr.eval ρ ≠ 1 := by
    intro ht
    refine not_validIn.1 fun hvd => ?_
    cases (hs.truth hq ht).2 hvd
  rw [computeTruth, hf]
  cases found with
  | none =>
    apply store_spec hi hq.isBool _ (fun b hb => hs.truth hq hb) fun ha => ha.truth
    intro b hb
    cases b with
    | true => exact (hs.truth hq hb).1 rfl
    | false => exact hff hb
  | some result =>
    have hr := hrt result rfl
    cases result with
    | mayBeTrue =>
      apply store_spec hi hq.isBool _ (fun b hb => hs.truth hq hb) fun ha => ha.truth
      intro b hb
      cases b with
      | true => exact (hs.truth hq hb).1 rfl
      | false => exact ⟨hr, hff hb⟩
    | mustBeTrue => exact ⟨_, rfl, .known hi ⟨fun _ => hr, fun _ => rfl⟩⟩
    | mustBeFalse =>
      obtain ⟨ρ, hρ⟩ := hq.satisfiable
      exact ⟨_, rfl, .known hi ⟨nofun, fun hvd => absurd (hvd ρ hρ) (hr ρ hρ)⟩⟩
    | mayBeFalse =>
      exact ⟨_, rfl, .known hi ⟨nofun, fun hvd => absurd hvd (not_validIn.2 hr)⟩⟩
    | trueOrFalse =>
      exact ⟨_, rfl, .known hi ⟨nofun, fun hvd => absurd hvd (not_validIn.2 hr.2)⟩⟩
    | none => exact hr.elim

end

structure Call where
  solver : SolverImpl
  query : Query
  onlyTruth : Bool

def Call.Fair (nodes : Store ConditionNode) (call : Call) : Prop :=
  call.query.Asked nodes ∧ call.solver.Sound nodes

variable (compare : Expr → Expr → Int)
def handle (s : CachingSolver) (call : Call) : Except CachingFault CachingSolver :=
  if call.onlyTruth then (computeTruth compare call.solver call.query s).map Prod.snd
  else (computeValidity compare call.solver call.query s).map Prod.snd

def machine : Machine CachingSolver Call where
  init s := s.cache = []
  step s call s' := handle compare s call = .ok s'

theorem handle_inv {compare : Expr → Expr → Int} (hi : Inv nodes s) (hc : call.Fair nodes)
    (h : handle compare s call = .ok s') : Inv nodes s' := by
  rw [handle] at h
  split at h
  · obtain ⟨r, hr, rfl⟩ := map_ok_iff.1 h
    obtain ⟨r', hr', ho⟩ := computeTruth_spec compare hi hc.1 hc.2
    rw [hr] at hr'
    cases hr'
    exact ho.inv
  · obtain ⟨r, hr, rfl⟩ := map_ok_iff.1 h
    obtain ⟨r', hr', ho⟩ := computeValidity_spec compare hi hc.1 hc.2
    rw [hr] at hr'
    cases hr'
    exact ho.inv

theorem reachable_inv {compare : Expr → Expr → Int}
    (h : (machine compare).Reachable (fun _ call => call.Fair nodes) s) : Inv nodes s := by
  apply h.invariant
  · intro s hs entry he
    rw [hs] at he
    cases he
  · intro s call s' hi hc ht
    exact handle_inv hi hc ht

/-- After any queries no assertion fails, and answers are right. -/
theorem answers_right (h : (machine compare).Reachable (fun _ call => call.Fair nodes) s)
    (hq : q.Asked nodes) (hsound : solver.Sound nodes) :
    (∃ r s', computeValidity compare solver q s = .ok (r, s') ∧
      (∀ v, r = some v → v.Right (q.models nodes) q.expr) ∧ (solver.Answers q → r.isSome = true)) ∧
    (∃ r s', computeTruth compare solver q s = .ok (r, s') ∧
      (∀ b, r = some b → (b = true ↔ q.expr.ValidIn (q.models nodes))) ∧
      (solver.Answers q → r.isSome = true)) := by
  have hi := reachable_inv h
  obtain ⟨r, hr, hout⟩ := computeValidity_spec compare hi hq hsound
  obtain ⟨r', hr', hout'⟩ := computeTruth_spec compare hi hq hsound
  exact ⟨⟨r.1, r.2, hr, hout.right, hout.answered⟩, r'.1, r'.2, hr', hout'.right, hout'.answered⟩

def firstIsOne : Expr := .compare .eq (.constant 8 1) (.read ⟨0, 1, []⟩ .null (.constant 32 0))

def noConditions : Store ConditionNode := ⟨[⟨none, none, []⟩]⟩

def firstQuery : Query := ⟨⟨0, 0⟩, firstIsOne⟩

def firstSolver : SolverImpl where
  computeValidity q := if q = firstQuery ∨ q = firstQuery.negateExpr then some .unknown else none
  computeTruth q := if q = firstQuery ∨ q = firstQuery.negateExpr then some false else none

def oneBefore (l _ : Expr) : Int := if l = firstIsOne then -1 else 1

def afterFirst : CachingSolver := ⟨[(⟨⟨0, 0⟩, firstIsOne⟩, .mayBeFalse)]⟩

theorem firstQuery_asked : firstQuery.Asked noConditions :=
  ⟨⟨by decide, rfl⟩, fun _ _ => 0, [], rfl, nofun⟩

theorem firstQuery_open (h : q = firstQuery ∨ q = firstQuery.negateExpr) :
    unknown.Right (q.models noConditions) q.expr := by
  have ha : ∀ ρ, ConstraintManager.Satisfied noConditions ⟨0, 0⟩ ρ := fun ρ => ⟨[], rfl, nofun⟩
  rcases h with rfl | rfl
  · exact ⟨⟨fun _ _ => 1, ha _, by decide⟩, fun _ _ => 0, ha _, by decide⟩
  · exact ⟨⟨fun _ _ => 0, ha _, by decide⟩, fun _ _ => 1, ha _, by decide⟩

theorem firstSolver_sound : firstSolver.Sound noConditions where
  validity := by
    intro q v _ h
    obtain ⟨hq, hv⟩ := ite_none_right_eq_some.1 h
    cases hv
    exact firstQuery_open hq
  truth := by
    intro q b _ h
    obtain ⟨hq, hb⟩ := ite_none_right_eq_some.1 h
    cases hb
    exact ⟨nofun, fun hvd => absurd hvd (not_validIn.2 (firstQuery_open hq).2)⟩

theorem negated_after_truth :
    ∃ r s', computeValidity oneBefore firstSolver firstQuery.negateExpr afterFirst = .ok (r, s') ∧
      ∀ v, r = some v →
        v.Right (firstQuery.negateExpr.models noConditions) firstQuery.negateExpr.expr := by
  have hi : (machine oneBefore).init ⟨[]⟩ := rfl
  have hstep : (machine oneBefore).step ⟨[]⟩ ⟨firstSolver, firstQuery, true⟩ afterFirst := by
    have hn : (handle oneBefore ⟨[]⟩ ⟨firstSolver, firstQuery, true⟩).toOption.map cache =
        some afterFirst.cache := by decide +kernel
    obtain ⟨⟨_⟩, hs, rfl⟩ := ok_of_toOption_map hn
    exact hs
  have hf : (machine oneBefore).Reachable (fun _ call => call.Fair noConditions) afterFirst :=
    .step (.init hi) ⟨firstQuery_asked, firstSolver_sound⟩ hstep
  obtain ⟨⟨r, s', hr, ht, _⟩, _⟩ :=
    answers_right oneBefore hf firstQuery_asked.negateExpr firstSolver_sound
  exact ⟨r, s', hr, ht⟩

end CachingSolver
end Chef
