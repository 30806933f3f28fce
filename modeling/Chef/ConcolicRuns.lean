import Chef.ConcolicForks

namespace Chef
open Foundations Chef.Expr List Prod Option APInt
inductive ConcolicOp where
  | concolicFork (i : Nat) (condition : Expr) (solver : Solver) (limits : ForkLimits)
  | resolveSpeculativeState (i : Nat) (solver : Solver)
  | toConstant (i : Nat) (e : Expr)
  | toConstantSilent (i : Nat) (e : Expr)
  | setForkDisabled (i : Nat) (forkDisabled : Bool)

namespace Executor
def setForkDisabled (x : Executor) (i : Nat) (forkDisabled : Bool) :
    Except ExecutorFault Executor :=
  (x.state i).map fun s => x.setState i { s with forkDisabled := forkDisabled }

def perform (A : APInt) (depth : Nat) (enableSpeculativeForking : Bool) (x : Executor) :
    ConcolicOp → Except ExecutorFault Executor
  | .concolicFork i condition solver limits =>
    (x.concolicFork A depth enableSpeculativeForking i condition solver limits).map snd
  | .resolveSpeculativeState i solver => (x.resolveSpeculativeState i solver).map snd
  | .toConstant i e => (x.toConstant A depth i e).map snd
  | .toConstantSilent i e => (x.toConstantSilent A depth i e).map snd
  | .setForkDisabled i forkDisabled => x.setForkDisabled i forkDisabled

end Executor

def ConcolicOp.Allowed (T : Set Assignment) : ConcolicOp → Prop
  | .concolicFork _ condition _ _ => condition.SteadyIn T ∧ condition.width = 1
  | .resolveSpeculativeState _ solver =>
    solver.Sound ∧ ∀ constraints, ∀ ρ ∈ solver.getInitialValues constraints, ρ ∈ T
  | .toConstant _ e => e.SteadyIn T
  | .toConstantSilent _ e => e.SteadyIn T
  | .setForkDisabled _ _ => True

/-- The constraints are steady, and hold unless the state is speculative. -/
structure ForkingState.ConsistentIn (T : Set Assignment) (s : ForkingState) : Prop where
  constraints : ∀ ρ ∈ T, ∀ k ∈ s.constraints, k.IsCondition ρ
  speculativeCondition : s.speculative = true → ∀ k ∈ s.speculativeCondition, ∀ ρ ∈ T,
    k.IsCondition ρ
  concolics : s.speculative = false → ∃ ρ ∈ T, s.concolics = some ρ ∧ HoldAt ρ s.constraints
  cleared : s.speculative = true → s.concolics = none

section
variable {T : Set Assignment} {s : ForkingState} (hs : s.ConsistentIn T)
include hs
theorem ForkingState.ConsistentIn.add (had : ∀ ρ ∈ T, Added ρ c s.constraints cs)
    (hho : s.speculative = false → ∀ ρ ∈ s.concolics, c.eval ρ = 1) :
    ForkingState.ConsistentIn T { s with constraints := cs } where
  constraints ρ hρ := (had ρ hρ).conditions (hs.constraints ρ hρ)
  speculativeCondition := hs.speculativeCondition
  concolics hsp := by
    obtain ⟨ρ, hρ, hcs, hhd⟩ := hs.concolics hsp
    exact ⟨ρ, hρ, hcs, (had ρ hρ).holds.2 ⟨hhd, hho hsp ρ hcs⟩⟩
  cleared := hs.cleared

theorem ForkingState.ConsistentIn.forget :
    ForkingState.ConsistentIn T { s with speculativeCondition := none } :=
  ⟨hs.constraints, nofun, hs.concolics, hs.cleared⟩

theorem ForkingState.ConsistentIn.mem_of_concolics (hcs : s.concolics = some ρ) : ρ ∈ T := by
  cases hsp : s.speculative with
  | true =>
    rw [hs.cleared hsp] at hcs
    cases hcs
  | false =>
    obtain ⟨ρ', hρ', hco, _⟩ := hs.concolics hsp
    rw [hcs] at hco
    cases hco
    exact hρ'

end

namespace Executor
structure ConsistentIn (T : Set Assignment) (x : Executor) : Prop where
  simplifier : ∀ ρ ∈ T, x.exprSimplifier.Sound ρ
  states : ∀ s ∈ x.states, s.ConsistentIn T

section
variable {A : APInt} {T : Set Assignment} {x x' : Executor}
theorem simplifyExpr_consistent (hA : A.Lawful) (h : x.simplifyExpr A depth e = .ok (e', x'))
    (hx : x.ConsistentIn T) (he : e.SteadyIn T) (hcl : x'.IsClean) :
    x'.ConsistentIn T ∧ ∀ ρ ∈ T, Simplifies ρ e e' := by
  obtain ⟨ht, _, hm⟩ := simplifyExpr_spec hA h
  have hr (ρ : Assignment) (hρ : ρ ∈ T) :=
    hm ρ (hx.simplifier ρ hρ) he.wellTyped (he.steady ρ hρ) hcl
  exact ⟨⟨fun ρ hρ => (hr ρ hρ).2, ht ▸ hx.states⟩, fun ρ hρ => (hr ρ hρ).1⟩

theorem ConsistentIn.setState (hx : x.ConsistentIn T) (hs : s.ConsistentIn T) (i : Nat) :
    (x.setState i s).ConsistentIn T := by
  refine ⟨hx.simplifier, fun s' hs' => ?_⟩
  obtain hs' | rfl := mem_or_eq_of_mem_set hs'
  · exact hx.states s' hs'
  · exact hs

theorem ConsistentIn.state {i : Nat} (hx : x.ConsistentIn T)
    (hs : x.states[i]? = some s) : s.ConsistentIn T := hx.states s (mem_of_getElem? hs)

theorem addConstraint_consistent (hA : A.Lawful) (h : x.addConstraint A depth i c = .ok x')
    (hx : x.ConsistentIn T) (hc : ∀ ρ ∈ T, c.IsCondition ρ) (hcl : x'.IsClean)
    (hho : ∀ s, x.states[i]? = some s → s.speculative = false → ∀ ρ ∈ s.concolics,
      c.eval ρ = 1) : x'.ConsistentIn T := by
  obtain ⟨s, cs, hs, ht, _, _, ha⟩ := addConstraint_spec hA h
  have hr (ρ : Assignment) (hρ : ρ ∈ T) := ha ρ (hx.simplifier ρ hρ) (hc ρ hρ) hcl
  have hs' := (hx.state hs).add (fun ρ hρ => (hr ρ hρ).1) (hho s hs)
  refine ⟨fun ρ hρ => (hr ρ hρ).2, ?_⟩
  rw [ht]
  exact (hx.setState hs' i).states

section
variable (hA : A.Signed)
include hA
theorem branchCondition_taken (hc : c.IsCondition ρ) :
    (branchCondition (decide (c.evaluate A ρ = 1)) c).eval ρ = 1 := by
  rw [branchCondition_eval _ hc, decide_eq_true_eq, evaluate_eq_eval hA ρ c hc.steady]

theorem takeBranch_consistent (hs : x.states[i]? = some s) (hcs : s.concolics = some ρ) (hρ : ρ ∈ T)
    (h : x.takeBranch A depth i c (decide (c.evaluate A ρ = 1)) = .ok (pair, x'))
    (hx : x.ConsistentIn T) (hc : ∀ ρ ∈ T, c.IsCondition ρ) (hcl : x'.IsClean) :
    x'.ConsistentIn T := by
  obtain ⟨x1, h1, h⟩ := map_ok_iff.1 h
  cases h
  apply addConstraint_consistent hA.toLawful h1 hx
    (fun ρ hρ => branchCondition_isCondition _ (hc ρ hρ)) hcl
  intro s' hs' _ ρ' hρ'
  rw [hs] at hs'
  cases hs'
  rw [hcs] at hρ'
  cases hρ'
  exact branchCondition_taken hA (hc ρ hρ)

theorem forkSpeculatively_consistent (hs : x.states[i]? = some s)
    (hcs : s.concolics = some ρ) (hρ : ρ ∈ T)
    (h : x.forkSpeculatively A depth i s c (decide (c.evaluate A ρ = 1)) = .ok (pair, x'))
    (hx : x.ConsistentIn T) (hc : ∀ ρ ∈ T, c.IsCondition ρ) (hcl : x'.IsClean) :
    x'.ConsistentIn T := by
  obtain ⟨_, _, cs, ht, _, ha⟩ := forkSpeculatively_spec hA.toLawful hs h
  have hr (ρ : Assignment) (hρ : ρ ∈ T) := ha ρ (hx.simplifier ρ hρ) (hc ρ hρ) hcl
  have hst := hx.state hs
  refine ⟨fun ρ hρ => (hr ρ hρ).2, fun s' hs' => ?_⟩
  rw [ht, mem_append, mem_singleton] at hs'
  obtain hs' | rfl := hs'
  · obtain hs' | rfl := mem_or_eq_of_mem_set hs'
    · exact hx.states s' hs'
    have had := hst.add (fun ρ hρ => (hr ρ hρ).1) fun _ ρ' hρ' => by
      rw [hcs] at hρ'
      cases hρ'
      exact branchCondition_taken hA (hc ρ hρ)
    exact ⟨had.constraints, had.speculativeCondition, had.concolics, had.cleared⟩
  · refine ⟨hst.constraints, fun _ k hk ρ hρ => ?_, nofun, fun _ => rfl⟩
    cases hk
    exact branchCondition_isCondition _ (hc ρ hρ)

theorem concolicFork_consistent (h :
    x.concolicFork A depth enableSpeculativeForking i condition solver limits =
    .ok (pair, x')) (hx : x.ConsistentIn T) (hcd : condition.SteadyIn T) (hw : condition.width =
    1) (hcl : x'.IsClean) : x'.ConsistentIn T := by
  obtain ⟨c, x1, hm, hca⟩ := concolicFork_cases h
  have hx1 (hc1 : x1.IsClean) := simplifyExpr_consistent hA.toLawful hm hx hcd hc1
  obtain ⟨w, v, rfl, _, rfl⟩ | ⟨s, ρ, hs, _, hcs, hbr⟩ := hca
  · exact (hx1 hcl).1
  have hρ (hc1 : x1.IsClean) : ρ ∈ T := ((hx1 hc1).1.state hs).mem_of_concolics hcs
  have hc (hc1 : x1.IsClean) (ρ : Assignment) (hρ : ρ ∈ T) : c.IsCondition ρ :=
    ((hx1 hc1).2 ρ hρ).isCondition hw
  cases hbr with
  | disabled _ ht =>
    have hc1 := (takeBranch_spec hA.toLawful hs ht).2.1 hcl
    exact takeBranch_consistent hA hs hcs (hρ hc1) ht (hx1 hc1).1 (hc hc1) hcl
  | both s1 hs1 _ hf =>
    have hset := getElem_setState hs s1
    have hc1 : x1.IsClean := (forkSpeculatively_spec hA.toLawful hset hf).2.1 hcl
    have hst := (hx1 hc1).1.state hs
    have hstate1 : s1.ConsistentIn T ∧ s1.concolics = some ρ := by
      obtain rfl | rfl := hs1
      · exact ⟨hst, hcs⟩
      · exact ⟨hst.forget, hcs⟩
    exact forkSpeculatively_consistent hA hset hstate1.2 (hρ hc1) hf
      ((hx1 hc1).1.setState hstate1.1 i) (hc hc1) hcl
  | infeasible _ _ _ _ hx' =>
    subst hx'
    exact (hx1 hcl).1.setState ((hx1 hcl).1.state hs).forget i

end

theorem resolveSpeculativeState_consistent
    (h : x.resolveSpeculativeState i solver = .ok (r, x')) (hx : x.ConsistentIn T)
    (hl : solver.Sound) (hv : ∀ constraints, ∀ ρ ∈ solver.getInitialValues constraints, ρ ∈ T) :
    x'.ConsistentIn T := by
  obtain ⟨s, hs, h⟩ := bind_ok_iff.1 h
  replace hs := state_ok hs
  have hst := hx.state hs
  split at h
  next k hsp hk =>
    split at h
    · obtain ⟨cs, hcs, h⟩ := bind_ok_iff.1 h
      have had (ρ : Assignment) (hρ : ρ ∈ T) : Added ρ k s.constraints cs :=
        ForkingState.addConstraint_added (hst.speculativeCondition hsp k hk ρ hρ) hcs
      have hgr := hst.add had fun hsc => by
        rw [hsp] at hsc
        cases hsc
      split at h
      · cases h
        exact hx.setState hgr i
      next ρ hρ =>
        cases h
        apply hx.setState
        refine ⟨hgr.constraints, nofun, fun _ => ?_, nofun⟩
        refine ⟨ρ, hv cs ρ hρ, ?_, hl.getInitialValues hρ⟩
        rw [hst.cleared hsp, none_or]
    · cases h
      exact hx
  · cases h

theorem toConstant_consistent (hA : A.Signed) (h : x.toConstant A depth i e = .ok (value, x'))
    (hx : x.ConsistentIn T) (he : e.SteadyIn T) (hcl : x'.IsClean) : x'.ConsistentIn T := by
  obtain ⟨e', x1, hl, hca⟩ := toConstant_cases h
  obtain ⟨hsy, hv⟩ := evaluateSimplified_cases hl
  obtain ⟨hc, rfl⟩ | ⟨hc, ha⟩ := hca
  · exact (simplifyExpr_consistent hA.toLawful hsy hx he hcl).1
  obtain ⟨_, _, _, _, _, hc1, _⟩ := addConstraint_spec hA.toLawful ha
  obtain ⟨hx1, hm⟩ := simplifyExpr_consistent hA.toLawful hsy hx he (hc1 hcl)
  obtain ⟨hco, -⟩ | ⟨-, s, ρ, hs, hcs, rfl⟩ := hv
  · rw [hc] at hco
    cases hco
  have hρ := (hx1.state hs).mem_of_concolics hcs
  have hev := evaluate_eq_eval hA ρ e' (hm ρ hρ).steady
  have hlt := e'.eval_lt ρ (hm ρ hρ).wellTyped
  rw [hev] at ha
  apply addConstraint_consistent hA.toLawful ha hx1 _ hcl
  · intro s' hs' _ ρ' hρ'
    rw [hs] at hs'
    cases hs'
    rw [hcs] at hρ'
    cases hρ'
    exact eqConstant_eval (hm ρ hρ).wellTyped (hm ρ hρ).steady
  · intro ρ' hρ'
    exact (eqConstant_means (hm ρ' hρ').wellTyped (hm ρ' hρ').steady _ hlt).isCondition

theorem concolicFork_clean (hA : A.Lawful)
    (h : x.concolicFork A depth enableSpeculativeForking i condition solver limits =
      .ok (pair, x')) (hcl : x'.IsClean) : x.IsClean := by
  obtain ⟨c, x1, hm, hca⟩ := concolicFork_cases h
  apply (simplifyExpr_spec hA hm).2.1
  obtain ⟨w, v, rfl, _, rfl⟩ | ⟨s, ρ, hs, _, hcs, hbr⟩ := hca
  · exact hcl
  cases hbr with
  | disabled _ ht => exact (takeBranch_spec hA hs ht).2.1 hcl
  | both s1 hs1 _ hf =>
    exact (forkSpeculatively_spec hA (getElem_setState hs s1) hf).2.1 hcl
  | infeasible _ _ _ _ hx' =>
    subst hx'
    exact hcl

theorem resolveSpeculativeState_clean (h : x.resolveSpeculativeState i solver = .ok (r, x'))
    (hcl : x'.IsClean) : x.IsClean := by
  obtain ⟨s, hs, h⟩ := bind_ok_iff.1 h
  split at h
  · split at h
    · obtain ⟨cs, hcs, h⟩ := bind_ok_iff.1 h
      split at h
      · cases h
        exact hcl
      · cases h
        exact hcl
    · cases h
      exact hcl
  · cases h

theorem toConstant_clean (hA : A.Lawful) (h : x.toConstant A depth i e = .ok (value, x'))
    (hcl : x'.IsClean) : x.IsClean := by
  obtain ⟨e', x1, he, hca⟩ := toConstant_cases h
  apply (simplifyExpr_spec hA (evaluateSimplified_cases he).1).2.1
  obtain ⟨-, rfl⟩ | ⟨-, ha⟩ := hca
  · exact hcl
  · obtain ⟨_, _, _, _, _, hc1, _⟩ := addConstraint_spec hA ha
    exact hc1 hcl

theorem perform_consistent (hA : A.Signed)
    (h : x.perform A depth enableSpeculativeForking op = .ok x') (hop : op.Allowed T)
    (hx : x.IsClean → x.ConsistentIn T) (hcl : x'.IsClean) : x'.ConsistentIn T := by
  cases op with
  | concolicFork i condition solver limits =>
    obtain ⟨⟨pair, x1⟩, hf, rfl⟩ := map_ok_iff.1 h
    have hx := hx (concolicFork_clean hA.toLawful hf hcl)
    exact concolicFork_consistent hA hf hx hop.1 hop.2 hcl
  | resolveSpeculativeState i solver =>
    obtain ⟨⟨r, x1⟩, hrs, rfl⟩ := map_ok_iff.1 h
    have hx := hx (resolveSpeculativeState_clean hrs hcl)
    exact resolveSpeculativeState_consistent hrs hx hop.1 hop.2
  | toConstant i e =>
    obtain ⟨⟨value, x1⟩, hc, rfl⟩ := map_ok_iff.1 h
    have hx := hx (toConstant_clean hA.toLawful hc hcl)
    exact toConstant_consistent hA hc hx hop hcl
  | toConstantSilent i e =>
    obtain ⟨⟨value, x1⟩, hl, rfl⟩ := map_ok_iff.1 h
    obtain ⟨⟨⟨e', value'⟩, x2⟩, he, hr⟩ := map_ok_iff.1 hl
    cases hr
    obtain ⟨hm, -⟩ := evaluateSimplified_cases he
    have hx := hx ((simplifyExpr_spec hA.toLawful hm).2.1 hcl)
    exact (simplifyExpr_consistent hA.toLawful hm hx hop hcl).1
  | setForkDisabled i forkDisabled =>
    obtain ⟨s, hs, rfl⟩ := map_ok_iff.1 h
    have hx := hx hcl
    have hst := hx.state (state_ok hs)
    apply hx.setState
    exact ⟨hst.constraints, hst.speculativeCondition, hst.concolics, hst.cleared⟩

structure Starts (A : APInt) (T : Set Assignment) (x : Executor) : Prop where
  simplifier : x.exprSimplifier = .init
  state : ∃ s ρ, x.states = [s] ∧ s.speculative = false ∧ s.concolics = some ρ ∧ ρ ∈ T ∧
    ∀ k ∈ s.constraints, k.SteadyIn T ∧ k.width = 1 ∧ k.evaluate A ρ = 1

theorem Starts.consistent (hA : A.Signed) (h : x.Starts A T) : x.ConsistentIn T := by
  obtain ⟨s, ρ, hss, hsp, hcs, hρ, hc⟩ := h.state
  refine ⟨fun ρ _ => h.simplifier ▸ BitfieldSimplifier.sound_init ρ, fun s' hs' => ?_⟩
  rw [hss, mem_singleton] at hs'
  subst hs'
  have hcd (ρ : Assignment) (hρ : ρ ∈ T) (k : Expr) (hk : k ∈ s'.constraints) :
      k.IsCondition ρ := by
    obtain ⟨ht, hw, _⟩ := hc k hk
    exact ⟨ht.wellTyped, hw, ht.steady ρ hρ⟩
  have hsc (h : s'.speculative = true) : False := by
    rw [hsp] at h
    cases h
  refine ⟨hcd, fun h => (hsc h).elim, fun _ => ⟨ρ, hρ, hcs, fun k hk => ?_⟩, fun h => (hsc h).elim⟩
  rw [← evaluate_eq_eval hA ρ k (hcd ρ hρ k hk).steady]
  exact (hc k hk).2.2

end

def concolicMachine (A : APInt) (depth : Nat) (enableSpeculativeForking : Bool)
    (T : Set Assignment) : Machine Executor ConcolicOp where
  init := Starts A T
  step x op x' := x.perform A depth enableSpeculativeForking op = .ok x'

theorem concolic_constraints_hold (hA : A.Signed) (T : Set Assignment)
    (h : (concolicMachine A depth enableSpeculativeForking T).Reachable
      (fun _ op => op.Allowed T) x) (hclean : x.IsClean) (hs : s ∈ x.states)
    (hspec : s.speculative = false) :
    ∃ ρ, s.concolics = some ρ ∧ ∀ k ∈ s.constraints, k.evaluate A ρ = 1 := by
  have hx : x.IsClean → x.ConsistentIn T := by
    apply h.invariant
    · intro x hst _
      exact hst.consistent hA
    · intro x op x' hx hop ht
      exact perform_consistent hA ht hop hx
  obtain ⟨ρ, hρ, hcs, hhd⟩ := ((hx hclean).states s hs).concolics hspec
  refine ⟨ρ, hcs, fun k hk => ?_⟩
  rw [evaluate_eq_eval hA ρ k (((hx hclean).states s hs).constraints ρ hρ k hk).steady]
  exact hhd k hk

open BitfieldSimplifier
def performAll (A : APInt) (depth : Nat) (enableSpeculativeForking : Bool) :
    List ConcolicOp → Executor → Except ExecutorFault Executor
  | [], x => .ok x
  | op :: ops, x => x.perform A depth enableSpeculativeForking op >>=
    performAll A depth enableSpeculativeForking ops

theorem performAll_reachable (h : (concolicMachine A depth enableSpeculativeForking T).Reachable
      (fun _ op => op.Allowed T) x) (ho : ∀ op ∈ ops, op.Allowed T)
    (hr : performAll A depth enableSpeculativeForking ops x = .ok x') :
    (concolicMachine A depth enableSpeculativeForking T).Reachable
      (fun _ op => op.Allowed T) x' := by
  induction ops generalizing x with
  | nil =>
    cases hr
    exact h
  | cons op ops ih =>
    obtain ⟨x1, ht, hr⟩ := bind_ok_iff.1 hr
    rw [forall_mem_cons] at ho
    exact ih (.step h ho.1 ht) ho.2 hr

theorem fresh_starts (T : Set Assignment) (h : (fun _ _ => 0) ∈ T) : fresh.Starts A T :=
  ⟨rfl, _, _, rfl, rfl, rfl, h, nofun⟩

def resolvedFork : List ConcolicOp :=
  [.concolicFork 0 isZeroByte (.knowing true fun _ _ => 5) .none,
    .resolveSpeculativeState 1 (.knowing true fun _ _ => 5), .toConstant 1 dataByte]

theorem resolvedFork_allowed : ∀ op ∈ resolvedFork, op.Allowed Set.univ := by
  have hb (ρ : Assignment) : dataByte.Steady ρ := dataByte_steady ρ
  rw [resolvedFork, forall_mem_cons, forall_mem_cons, forall_mem_singleton]
  exact ⟨⟨⟨by decide, fun ρ _ => ⟨trivial, hb ρ⟩⟩, rfl⟩,
    ⟨Solver.knowing_sound _ _, fun _ _ _ => trivial⟩, by decide, fun ρ _ => hb ρ⟩

theorem resolvedFork_holds :
    ∃ x s, performAll llvm 4 true resolvedFork fresh = .ok x ∧ x.states[1]? = some s ∧
      s.speculative = false ∧ s.constraints.length = 2 ∧
      ∃ ρ, s.concolics = some ρ ∧ ∀ k ∈ s.constraints, k.evaluate llvm ρ = 1 := by
  have hr : (performAll llvm 4 true resolvedFork fresh).toOption.map (fun x => (decide x.IsClean,
        x.states[1]?.map fun s => (s.speculative, s.constraints.length))) =
      some (true, some (false, 2)) := by decide +kernel
  obtain ⟨x, h, hx⟩ := ok_of_toOption_map hr
  obtain ⟨hcl, hst⟩ := Prod.ext_iff.1 hx
  obtain ⟨s, hs, hsp⟩ := map_eq_some_iff.1 hst
  obtain ⟨hsp, hl⟩ := Prod.ext_iff.1 hsp
  refine ⟨x, s, h, hs, hsp, hl, ?_⟩
  exact concolic_constraints_hold llvm_signed Set.univ
    (performAll_reachable (.init (fresh_starts _ trivial)) resolvedFork_allowed h)
    (of_decide_eq_true hcl) (mem_of_getElem? hs) hsp

def otherByte : Expr := .read ⟨0, 4, []⟩ .null (.constant 32 1)

def bitAndByte : Expr := .concat lowBit otherByte

def shiftedOut (e : Expr) : Expr := .arithmetic .lshr e (.constant e.width e.width)

/-- Shifts by the whole width make the simplifier forget masks. -/
def forgottenMasks : List ConcolicOp :=
  [.concolicFork 0 (.compare .eq (.constant 8 0) otherByte) (.knowing true fun _ _ => 0) .none,
    .resolveSpeculativeState 1 (.knowing true fun _ i => if i = 1 then 1 else 0),
    .toConstant 1 bitAndByte, .toConstant 0 (shiftedOut bitAndByte),
    .toConstant 0 (shiftedOut lowBit),
    .toConstant 0 (shiftedOut (.concat (.constant 16 0x0101) dataByte)),
    .toConstant 0 (shiftedOut maskedBytes), .toConstant 0 bitAndByte]

theorem forgottenMasks_violated : ∃ x s ρ, performAll llvm 8 true forgottenMasks fresh = .ok x ∧
      x.states[0]? = some s ∧ s.speculative = false ∧ s.concolics = some ρ ∧
      ∃ k ∈ s.constraints, k.evaluate llvm ρ ≠ 1 := by
  have hr : (performAll llvm 8 true forgottenMasks fresh).toOption.map
      (fun x => x.states[0]?.map fun s => (s.speculative, s.concolics.map fun ρ =>
        decide (∃ k ∈ s.constraints, k.evaluate llvm ρ ≠ 1))) =
      some (some (false, some true)) := by decide +kernel
  obtain ⟨x, h, hx⟩ := ok_of_toOption_map hr
  obtain ⟨s, hs, hst⟩ := map_eq_some_iff.1 hx
  obtain ⟨hsp, hcs⟩ := Prod.ext_iff.1 hst
  obtain ⟨ρ, hρ, hv⟩ := map_eq_some_iff.1 hcs
  exact ⟨x, s, ρ, h, hs, hsp, hρ, of_decide_eq_true hv⟩

end Executor
end Chef
