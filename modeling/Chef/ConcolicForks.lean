import Chef.ForkingSound

namespace Chef
open Foundations Chef.Expr List Bool BitfieldSimplifier APInt
namespace Executor
def Admits (x : Executor) (ρ : Assignment) (returned : Option Nat) : Prop :=
  ∃ j s, returned = some j ∧ x.states[j]? = some s ∧ HoldAt ρ s.constraints

section
variable {x : Executor} {ρ : Assignment}
theorem admits_some (h : x.states[j]? = some s) : x.Admits ρ (some j) ↔ HoldAt ρ s.constraints := by
  constructor
  · rintro ⟨j', s', hj, hs', hh⟩
    cases hj
    rw [h] at hs'
    cases hs'
    exact hh
  · intro hh
    exact ⟨j, s, rfl, h, hh⟩

theorem admits_unconstrained (h : x.states.map ForkingState.constraints = [[]]) (ρ : Assignment) :
    x.Admits ρ (some 0) := by
  obtain ⟨s, hs, hn⟩ := map_eq_singleton_iff.1 h
  refine ⟨0, s, rfl, by rw [hs]; rfl, ?_⟩
  rw [hn]
  exact nofun

end

def fresh : Executor := ⟨.init, [⟨[], some fun _ _ => 0, false, none, false, 0, false⟩], []⟩

def isZeroByte : Expr := .compare .eq (.constant 8 0) dataByte

end Executor

def Solver.knowing (responds : Bool) (ρ : Assignment) : Solver where
  responds := responds
  evaluate _ _ := .unknown
  mustBeTrue _ _ := false
  getValue _ e := e.eval ρ
  getInitialValues constraints :=
    if constraints.all fun k => k.eval ρ == 1 then some ρ else none

theorem Solver.knowing_sound (responds : Bool) (ρ : Assignment) : (knowing responds ρ).Sound where
  isTrue := nofun
  isFalse := nofun
  mustBeTrue := nofun
  getInitialValues {constraints ρ'} h := by
    rw [knowing] at h
    simp only at h
    split at h
    next ha =>
      cases h
      intro k hk
      exact beq_iff_eq.1 (all_eq_true.1 ha k hk)
    · cases h

def ForkLimits.none : ForkLimits := ⟨false, .none, false, 0, false, false⟩

namespace Executor
variable {A : APInt} {x x' : Executor} {condition : Expr}
def SingleFollows (x : Executor) (pair : StatePair) (condition : Expr) : Prop :=
  (∀ j, pair = (some j, none) → ∀ ρ, x.Admits ρ (some j) → condition.eval ρ = 1) ∧
    ∀ j, pair = (none, some j) → ∀ ρ, x.Admits ρ (some j) → condition.eval ρ ≠ 1

def BranchLost (enableSpeculativeForking : Bool) (s : ForkingState) (solver : Solver)
    (condition : Expr) : Prop :=
  enableSpeculativeForking = false ∧ s.forkDisabled = false ∧ solver.responds = false ∧
    ∃ ρ ρ', s.concolics = some ρ ∧ HoldAt ρ' s.constraints ∧
      ¬(condition.eval ρ' = 1 ↔ condition.eval ρ = 1)

theorem singleFollows_both (x : Executor) (i j : Nat) (condition : Expr) :
    x.SingleFollows (some i, some j) condition := by
  exact ⟨nofun, nofun⟩

theorem singleFollows_single (hs : x.states[i]? = some s) :
    x.SingleFollows (.single i taken) condition ↔
      ∀ ρ, HoldAt ρ s.constraints → (condition.eval ρ = 1 ↔ taken = true) := by
  have ha (ρ : Assignment) := admits_some (ρ := ρ) hs
  cases taken with
  | true | false => simp [SingleFollows, StatePair.single, ha]

theorem simplifyExpr_constant (h : x.simplifyExpr A depth (.constant w v) = .ok (e, x')) :
    e = .constant w v ∧ x' = x := by
  rw [simplifyExpr, simplify, isConstant, if_pos rfl] at h
  simp only at h
  rw [append_nil] at h
  cases h
  exact ⟨rfl, rfl⟩

theorem evaluateSimplified_cases (h : x.evaluateSimplified A depth i e = .ok ((e', value), x')) :
    x.simplifyExpr A depth e = .ok (e', x') ∧ (e'.isConstant = true ∧ value = e' ∨
      e'.isConstant = false ∧ ∃ s ρ, x'.states[i]? = some s ∧ s.concolics = some ρ ∧
        value = .constant e'.width (e'.evaluate A ρ)) := by
  obtain ⟨⟨e1, x1⟩, hm, h⟩ := bind_ok_iff.1 h
  simp only at h
  split at h
  next hc =>
    cases h
    exact ⟨hm, .inl ⟨hc, rfl⟩⟩
  next hc =>
    obtain ⟨s, hs, h⟩ := bind_ok_iff.1 h
    split at h
    · cases h
    next ρ hcs =>
      cases h
      exact ⟨hm, .inr ⟨eq_false_of_ne_true hc, s, ρ, state_ok hs, hcs, rfl⟩⟩

theorem toConstant_cases (h : x.toConstant A depth i e = .ok (value, x')) :
    ∃ e1 x1, x.evaluateSimplified A depth i e = .ok ((e1, value), x1) ∧
      (e1.isConstant = true ∧ x' = x1 ∨ e1.isConstant = false ∧
        x1.addConstraint A depth i (EqExpr.create e1 value) = .ok x') := by
  obtain ⟨⟨⟨e1, value'⟩, x1⟩, he, h⟩ := bind_ok_iff.1 h
  simp only at h
  split at h
  next hc =>
    cases h
    exact ⟨e1, x', he, .inl ⟨hc, rfl⟩⟩
  next hc =>
    obtain ⟨x2, ha, h⟩ := map_ok_iff.1 h
    cases h
    exact ⟨e1, x1, he, .inr ⟨eq_false_of_ne_true hc, ha⟩⟩

theorem forkOn_known (taken : Bool)
    (h : x.forkOn A depth i c limits (if taken then .isTrue else .isFalse) = .ok (pair, x')) :
    pair = .single i taken ∧ x' = x := by
  rw [forkOn.eq_def] at h
  cases hr : limits.replayPath with
  | none =>
    rw [hr] at h
    cases taken <;> cases h <;> exact ⟨rfl, rfl⟩
  | some replayed =>
    rw [hr] at h
    cases taken <;> cases replayed <;> cases h <;> exact ⟨rfl, rfl⟩

theorem fork_constant (h : x.fork A depth i (.constant w v) solver limits = .ok (pair, x')) :
    pair = .single i (decide (v % 2 ^ w = 1)) ∧ x' = x := by
  obtain ⟨⟨c, x1⟩, hs, h⟩ := bind_ok_iff.1 h
  obtain ⟨rfl, hx1⟩ := simplifyExpr_constant hs
  obtain ⟨⟨c', x2⟩, hli, h⟩ := bind_ok_iff.1 h
  rw [limitStatically, isConstant, Bool.not_true, Bool.and_false, if_neg Bool.false_ne_true] at hli
  cases hli
  obtain ⟨s, _, h⟩ := bind_ok_iff.1 h
  have hr : (if v % 2 ^ w = 1 then Validity.isTrue else .isFalse) =
      if decide (v % 2 ^ w = 1) = true then .isTrue else .isFalse := by
    simp only [decide_eq_true_eq]
  simp only [Solver.validity, hr] at h
  rw [← hx1]
  exact forkOn_known _ h

inductive ConcolicBranch (A : APInt) (depth : Nat) (enableSpeculativeForking : Bool)
    (solver : Solver) (x : Executor) (i : Nat) (s : ForkingState) (c : Expr) (taken : Bool)
    (pair : StatePair) (x' : Executor) : Prop where
  | disabled : s.forkDisabled = true → x.takeBranch A depth i c taken = .ok (pair, x') →
      ConcolicBranch A depth enableSpeculativeForking solver x i s c taken pair x'
  | both (s1 : ForkingState) : s1 = s ∨ s1 = { s with speculativeCondition := none } →
      enableSpeculativeForking = true ∨ solver.responds = true →
      (x.setState i s1).forkSpeculatively A depth i s1 c taken = .ok (pair, x') →
      ConcolicBranch A depth enableSpeculativeForking solver x i s c taken pair x'
  | infeasible : s.forkDisabled = false → enableSpeculativeForking = false →
      solver.checkSpeculativeState s.constraints (branchCondition (!taken) c) = false →
      pair = .single i taken →
      x' = x.setState i { s with speculativeCondition := none } →
      ConcolicBranch A depth enableSpeculativeForking solver x i s c taken pair x'

theorem getElem_setState (hs : x.states[i]? = some s) (s' : ForkingState) :
    (x.setState i s').states[i]? = some s' := by
  rw [setState, List.getElem?_set_self (List.getElem?_eq_some_iff.1 hs).1]

theorem setState_self (hs : x.states[i]? = some s) : x.setState i s = x := by
  obtain ⟨hi, hg⟩ := List.getElem?_eq_some_iff.1 hs
  rw [setState, ← hg, set_getElem_self]

theorem concolicFork_cases
    (h : x.concolicFork A depth enableSpeculativeForking i condition solver limits =
      .ok (pair, x')) : ∃ c x1, x.simplifyExpr A depth condition = .ok (c, x1) ∧
      ((∃ w v, c = .constant w v ∧ pair = .single i (decide (v % 2 ^ w = 1)) ∧ x' = x1) ∨
        ∃ s ρ, x1.states[i]? = some s ∧ s.speculative = false ∧ s.concolics = some ρ ∧
          ConcolicBranch A depth enableSpeculativeForking solver x1 i s c
            (decide (c.evaluate A ρ = 1)) pair x') := by
  obtain ⟨⟨c, x1⟩, hm, h⟩ := bind_ok_iff.1 h
  refine ⟨c, x1, hm, ?_⟩
  simp only at h
  cases hc : c.isConstant with
  | true =>
    cases c with
    | constant w v =>
      exact .inl ⟨w, v, rfl, fork_constant h⟩
    | _ => cases hc
  | false =>
    rw [if_neg (not_eq_true _ ▸ hc)] at h
    obtain ⟨s, hs, h⟩ := bind_ok_iff.1 h
    replace hs := state_ok hs
    split at h
    · cases h
    next hp =>
      split at h
      · cases h
      next ρ hcs =>
        refine .inr ⟨s, ρ, hs, not_eq_true _ ▸ hp, hcs, ?_⟩
        split at h
        next hd => exact .disabled hd h
        next hd =>
          split at h
          next hsp =>
            apply ConcolicBranch.both s (.inl rfl) (.inl hsp)
            rw [setState_self hs]
            exact h
          next hsp =>
            split at h
            next hh => exact .both _ (.inr rfl) (.inr (and_eq_true_iff.1 hh).1) h
            next hh =>
              cases h
              exact .infeasible (not_eq_true _ ▸ hd) (not_eq_true _ ▸ hsp)
                (not_eq_true _ ▸ hh) rfl rfl

theorem takeBranch_spec (hA : A.Lawful) (hs : x.states[i]? = some s)
    (h : x.takeBranch A depth i c taken = .ok (pair, x')) :
    pair = .single i taken ∧ (x'.IsClean → x.IsClean) ∧
      ∃ cs, x'.states = x.states.set i { s with constraints := cs } ∧ s.constraints ⊆ cs ∧
        ∀ ρ, x.exprSimplifier.Sound ρ → c.IsCondition ρ → x'.IsClean →
          Added ρ (branchCondition taken c) s.constraints cs ∧ x'.exprSimplifier.Sound ρ := by
  obtain ⟨x1, h1, h⟩ := map_ok_iff.1 h
  cases h
  obtain ⟨s', cs, hs', ht, hb, hcl, ha⟩ := addConstraint_spec hA h1
  rw [hs] at hs'
  cases hs'
  exact ⟨rfl, hcl, cs, ht, hb, fun ρ hd hc => ha ρ hd (branchCondition_isCondition taken hc)⟩

theorem forkSpeculatively_spec (hA : A.Lawful) (hs : x.states[i]? = some s)
    (h : x.forkSpeculatively A depth i s c taken = .ok (pair, x')) :
    pair = (if taken then (some i, some x.states.length) else (some x.states.length, some i)) ∧
      (x'.IsClean → x.IsClean) ∧
      ∃ cs, x'.states = x.states.set i { s with depth := s.depth + 1, constraints := cs } ++
          [{ s with
            depth := s.depth + 1
            speculative := true
            concolics := none
            speculativeCondition := some (branchCondition (!taken) c) }] ∧
        s.constraints ⊆ cs ∧
        ∀ ρ, x.exprSimplifier.Sound ρ → c.IsCondition ρ → x'.IsClean →
          Added ρ (branchCondition taken c) s.constraints cs ∧ x'.exprSimplifier.Sound ρ := by
  obtain ⟨x1, h1, h⟩ := bind_ok_iff.1 h
  cases h
  have hi := (List.getElem?_eq_some_iff.1 hs).1
  obtain ⟨s', cs, hs', ht, hb, hcl, ha⟩ := addConstraint_spec hA h1
  rw [setState, branch] at hs' ht
  simp only at hs' ht
  rw [set_append_right _ _ (Nat.le_of_eq length_set), length_set, Nat.sub_self,
    set_cons_zero] at hs' ht
  rw [getElem?_append_left (by rwa [length_set]), getElem?_set_self hi] at hs'
  cases hs'
  rw [set_append_left _ _ (by rwa [length_set]), set_set] at ht
  exact ⟨rfl, hcl, cs, ht, hb, fun ρ hd hc => ha ρ hd (branchCondition_isCondition taken hc)⟩

theorem infeasible_follows {solver : Solver} (hs : solver.Sound) (hr : solver.responds = true)
    (hh : solver.checkSpeculativeState constraints (branchCondition (!taken) c) = false)
    (hc : c.IsCondition ρ) (hhd : HoldAt ρ constraints) : c.eval ρ = 1 ↔ taken = true := by
  rw [Solver.checkSpeculativeState, hr, Bool.true_and, not_eq_false'] at hh
  have hv := hs.mustBeTrue hh hhd
  rw [createIsZero_eval (branchCondition_isCondition _ hc), Ne, branchCondition_eval _ hc] at hv
  cases taken with
  | true | false => simpa using hv

theorem takeBranch_follows (hA : A.Lawful) (hs : x.states[i]? = some s)
    (h : x.takeBranch A depth i c taken = .ok (pair, x')) (hcl : x'.IsClean)
    (hr : ∀ ρ, HoldAt ρ s.constraints →
      x.exprSimplifier.Sound ρ ∧ c.IsCondition ρ ∧ c.eval ρ = condition.eval ρ) :
    x'.SingleFollows pair condition := by
  obtain ⟨rfl, _, cs, ht, hb, ha⟩ := takeBranch_spec hA hs h
  have hs' : x'.states[i]? = some { s with constraints := cs } := by
    rw [ht, List.getElem?_set_self (List.getElem?_eq_some_iff.1 hs).1]
  rw [singleFollows_single hs']
  intro ρ hhd
  obtain ⟨hd, hc, he⟩ := hr ρ fun k hk => hhd k (hb hk)
  have had := (ha ρ hd hc hcl).1.holds.1 hhd
  rw [branchCondition_eval _ hc, he] at had
  exact had.2

theorem concolicFork_single_follows (hA : A.Signed) (hsolver : solver.Sound)
    (hs : x.states[i]? = some s) (ht : condition.WellTyped) (hw : condition.width = 1)
    (hright : ∀ ρ, HoldAt ρ s.constraints ∨ s.concolics = some ρ →
      x.exprSimplifier.Sound ρ ∧ condition.Steady ρ)
    (h : x.concolicFork A depth enableSpeculativeForking i condition solver limits =
      .ok (pair, x')) (hclean : x'.IsClean) :
    (¬BranchLost enableSpeculativeForking s solver condition → x'.SingleFollows pair condition) ∧
      ((∀ ρ, s.concolics = some ρ → HoldAt ρ s.constraints) → x'.SingleFollows pair condition →
          ¬BranchLost enableSpeculativeForking s solver condition) := by
  obtain ⟨c, x1, hsy, hca⟩ := concolicFork_cases h
  obtain ⟨hsts, _, hm⟩ := simplifyExpr_spec hA.toLawful hsy
  have hs1 : x1.states[i]? = some s := by rw [hsts, hs]
  have hg (hclean1 : x1.IsClean) (ρ : Assignment)
      (hρ : HoldAt ρ s.constraints ∨ s.concolics = some ρ) :
      Simplifies ρ condition c ∧ x1.exprSimplifier.Sound ρ :=
    hm ρ (hright ρ hρ).1 ht (hright ρ hρ).2 hclean1
  obtain ⟨w, v, rfl, rfl, rfl⟩ | ⟨s', ρ, hs', _, hcs, hbr⟩ := hca
  · have hl : x'.SingleFollows (.single i (decide (v % 2 ^ w = 1))) condition := by
      rw [singleFollows_single hs1]
      intro ρ hhd
      rw [← (hg hclean ρ (.inl hhd)).1.eval_eq, eval, decide_eq_true_eq]
    refine ⟨fun _ => hl, fun hi _ hls => ?_⟩
    obtain ⟨_, _, _, ρ, ρ', hρ, hhd, hls⟩ := hls
    apply hls
    rw [singleFollows_single hs1] at hl
    rw [hl ρ' hhd, hl ρ (hi ρ hρ)]
  · rw [hs1] at hs'
    cases hs'
    cases hbr with
    | disabled hd hk =>
      obtain ⟨_, hclean1, _⟩ := takeBranch_spec hA.toLawful hs1 hk
      refine ⟨fun _ => ?_, fun _ _ hls => ?_⟩
      · apply takeBranch_follows hA.toLawful hs1 hk hclean
        intro ρ hhd
        obtain ⟨hm, hsd⟩ := hg (hclean1 hclean) ρ (.inl hhd)
        exact ⟨hsd, hm.isCondition hw, hm.eval_eq⟩
      · rw [hls.2.1] at hd
        cases hd
    | both s1 hs1' ha hf =>
      obtain ⟨hp, _⟩ := forkSpeculatively_spec hA.toLawful (getElem_setState hs1 s1) hf
      refine ⟨fun _ => ?_, fun _ _ hls => ?_⟩
      · rw [hp]
        split <;> exact singleFollows_both x' _ _ condition
      · rw [hls.1, hls.2.2.1] at ha
        exact ha.elim false_ne_true false_ne_true
    | infeasible hd hsp hc hp hx' =>
      subst hp hx'
      have hgood' := hg hclean
      have hta : decide (c.evaluate A ρ = 1) = true ↔ condition.eval ρ = 1 := by
        have hm := (hgood' ρ (.inr hcs)).1
        rw [decide_eq_true_eq, evaluate_eq_eval hA ρ c hm.steady, hm.eval_eq]
      rw [singleFollows_single (getElem_setState hs1 _)]
      refine ⟨fun hkp ρ' hhd => ?_, fun _ hl hls => ?_⟩
      · cases hr : solver.responds with
        | true =>
          have hm := (hgood' ρ' (.inl hhd)).1
          rw [← hm.eval_eq]
          exact infeasible_follows hsolver hr hc (hm.isCondition hw) hhd
        | false =>
          rw [hta]
          by_contra hls
          exact hkp ⟨hsp, hd, hr, ρ, ρ', hcs, hhd, hls⟩
      · obtain ⟨_, _, _, ρ0, ρ', hρ0, hhd, hls⟩ := hls
        rw [hcs] at hρ0
        cases hρ0
        apply hls
        rw [hl ρ' hhd, hta]

def unforked : Executor := ⟨.init, [⟨[], some fun _ _ => 0, false, none, true, 0, false⟩], []⟩

theorem isZeroByte_followed : ∃ x', unforked.concolicFork llvm 4 false 0 isZeroByte
        (.knowing false fun _ _ => 0) .none = .ok ((some 0, none), x') ∧
      x'.SingleFollows (some 0, none) isZeroByte := by
  have hr : (unforked.concolicFork llvm 4 false 0 isZeroByte
      (.knowing false fun _ _ => 0) .none).toOption.map
        (fun r => (r.1, decide r.2.IsClean)) = some ((some 0, none), true) := by decide +kernel
  obtain ⟨⟨pair, x'⟩, h, hx'⟩ := ok_of_toOption_map hr
  cases (Prod.ext_iff.1 hx').1
  refine ⟨x', h, ?_⟩
  apply (concolicFork_single_follows llvm_signed (Solver.knowing_sound _ _) rfl
    (by decide) rfl _ h (of_decide_eq_true (Prod.ext_iff.1 hx').2)).1
  · rintro ⟨_, hd, _⟩
    cases hd
  · intro ρ _
    exact ⟨sound_init ρ, trivial, dataByte_steady ρ⟩

theorem isZeroByte_lost : ∃ x', fresh.concolicFork llvm 4 false 0 isZeroByte
        (.knowing false fun _ _ => 0) .none = .ok ((some 0, none), x') ∧
      x'.Admits (fun _ _ => 5) (some 0) ∧ isZeroByte.eval (fun _ _ => 5) ≠ 1 := by
  have hr : (fresh.concolicFork llvm 4 false 0 isZeroByte
      (.knowing false fun _ _ => 0) .none).toOption.map
        (fun r => (r.1, r.2.states.map ForkingState.constraints)) =
      some ((some 0, .none), [[]]) := by decide +kernel
  obtain ⟨⟨pair, x'⟩, h, hx'⟩ := ok_of_toOption_map hr
  obtain ⟨hp, hc⟩ := Prod.ext_iff.1 hx'
  cases hp
  exact ⟨x', h, admits_unconstrained hc _, by decide +kernel⟩

end Executor
end Chef
