import Chef.Z3Stack

namespace Chef
open Foundations Chef.Expr List Bool BitVec Z3Builder SmtTerm
theorem zero_beq_one : ((0 : Nat) == 1) = false := rfl

theorem ofNat_one_mod (v : Nat) : BitVec.ofNat 1 v = BitVec.ofNat 1 (v % 2) := by
  apply eq_of_toNat_eq
  rw [toNat_ofNat, toNat_ofNat, Nat.mod_mod]

theorem termIs_constant (b : Bool) (hv : (v % 2 == 1) = b) : TermIs N mode μ (.constant 1 v) b :=
  ⟨_, rfl, hv ▸ rfl⟩

theorem TermIs.constant_inv (h : TermIs N mode μ (.constant w v) b) : w = 1 ∧ (v % 2 == 1) = b := by
  obtain ⟨t, ht, he⟩ := h
  cases ht
  split_ifs at he with hw <;> cases he
  exact ⟨hw, rfl⟩

theorem TermIs.and (hl : TermIs N mode μ l b) (hr : TermIs N mode μ r c) :
    TermIs N mode μ (.arithmetic .and l r) (b && c) := by
  obtain ⟨tl, hml, hel⟩ := hl
  obtain ⟨tr, hmr, her⟩ := hr
  have hk : ArithmeticKind.connective .and = some .and := rfl
  refine ⟨_, ?_, eval_makeArithmetic_bool hk hel her⟩
  rw [makeExpr, hml, hmr]
  rfl

theorem TermIs.or_inv (h : TermIs N mode μ (.arithmetic .or l r) d) :
    ∃ b c, TermIs N mode μ l b ∧ TermIs N mode μ r c ∧ d = (b || c) := by
  obtain ⟨t, ht, he⟩ := h
  simp only [makeExpr, bind_some_iff] at ht
  obtain ⟨tl, hml, tr, hmr, ht⟩ := ht
  cases ht
  rw [makeArithmetic] at he
  split at he
  · simp only [SmtTerm.eval, bind_some_iff] at he
    obtain ⟨x, hx, b, hb, y, hy, c, hc, hd⟩ := he
    rw [bool?_eq_some hb] at hx
    rw [bool?_eq_some hc] at hy
    cases hd
    exact ⟨b, c, ⟨tl, hml, hx⟩, ⟨tr, hmr, hy⟩, rfl⟩
  · simp only [SmtTerm.eval, bind_some_iff] at he
    obtain ⟨x, _, y, _, hd⟩ := he
    obtain ⟨w, _, _, _, _, hd⟩ := zip?_eq_some hd
    cases hd

theorem TermIs.isZero (h : TermIs N mode μ e b) (hz : v % 2 = 0) :
    TermIs N mode μ (.compare .eq (.constant 1 v) e) (!b) := by
  obtain ⟨t, hm, he⟩ := h
  have hr : (boolVal (v % 2 == 1)).eval μ = some (.bool false) := by
    rw [hz]
    rfl
  have heq := eval_eq_bool hr he
  rw [false_beq] at heq
  refine ⟨_, ?_, heq⟩
  rw [makeExpr, hm]
  rfl

theorem TermIs.eq_inv (h : TermIs N mode μ (.compare .eq l r) b)
    (hbo : ∃ c, TermIs N mode μ l c ∨ TermIs N mode μ r c) :
    ∃ c d, TermIs N mode μ l c ∧ TermIs N mode μ r d ∧ b = (c == d) := by
  obtain ⟨t, ht, hv⟩ := h
  simp only [makeExpr, bind_some_iff] at ht
  obtain ⟨tl, hl, tr, hr, ht⟩ := ht
  cases ht
  simp only [SmtTerm.eval, bind_some_iff] at hv
  obtain ⟨x, hx, y, hy, hxy⟩ := hv
  have hso := (eq?_eq_some hxy).1
  have hbb : ∃ c d, x = .bool c ∧ y = .bool d := by
    obtain ⟨e, he | he⟩ := hbo
    · rw [termIs_iff hl, hx, Option.some.injEq] at he
      subst he
      cases y <;> first | exact ⟨_, _, rfl, rfl⟩ | cases hso
    · rw [termIs_iff hr, hy, Option.some.injEq] at he
      subst he
      cases x <;> first | exact ⟨_, _, rfl, rfl⟩ | cases hso
  obtain ⟨c, d, rfl, rfl⟩ := hbb
  cases hxy
  exact ⟨c, d, ⟨tl, hl, hx⟩, ⟨tr, hr, hy⟩, rfl⟩

section
variable (h : TermIs N mode μ e b)
include h
theorem TermIs.unique (h' : TermIs N mode μ e c) : b = c := by
  obtain ⟨t, ht, he⟩ := h
  rw [termIs_iff ht, he] at h'
  cases h'
  rfl

theorem TermIs.isIsZeroOf (h' : TermIs N mode μ e' c) (hz : e.isIsZeroOf e' = true) : b = !c := by
  rw [isIsZeroOf.eq_def] at hz
  split at hz
  next l r =>
    obtain ⟨hl, hr⟩ := and_eq_true_iff.1 hz
    rw [eq_of_beq hr] at h
    obtain ⟨d, c', hd, hc', rfl⟩ := h.eq_inv ⟨c, .inr h'⟩
    rw [hc'.unique h']
    cases l with
    | constant w v =>
      obtain ⟨rfl, hv⟩ := hd.constant_inv
      have hm : v % 2 = 0 := eq_of_beq hl
      rw [← hv, hm]
      exact false_beq c
    | _ => cases hl
  · cases hz

theorem TermIs.isNegationOf (h' : TermIs N mode μ e' c)
    (hn : e.isNegationOf e' = true) : b = !c := by
  rcases or_eq_true_iff.1 hn with hn | hn
  · exact h.isIsZeroOf h' hn
  · rw [h'.isIsZeroOf h hn, Bool.not_not]

end

theorem withoutNegation_cases (h : withoutNegation kind e e' = some x) :
    ∃ a b, e = .arithmetic kind a b ∧
      (a.isNegationOf e' = true ∧ x = b ∨ b.isNegationOf e' = true ∧ x = a) := by
  rw [withoutNegation.eq_def] at h
  split at h
  next kind' a b =>
    split at h
    next hk =>
      subst hk
      split at h
      next ha =>
        cases h
        exact ⟨a, x, rfl, .inl ⟨ha, rfl⟩⟩
      · split at h
        next hb =>
          cases h
          exact ⟨x, b, rfl, .inr ⟨hb, rfl⟩⟩
        · cases h
    · cases h
  · cases h

theorem TermIs.withoutNegation (h : TermIs N mode μ e b) (h' : TermIs N mode μ e' c)
    (hot : withoutNegation .or e e' = some x) : ∃ d, TermIs N mode μ x d ∧ b = (!c || d) := by
  obtain ⟨l, r, rfl, hn⟩ := withoutNegation_cases hot
  obtain ⟨bl, br, hl, hr, rfl⟩ := h.or_inv
  rcases hn with ⟨hn, rfl⟩ | ⟨hn, rfl⟩
  · exact ⟨br, hr, by rw [hl.isNegationOf h' hn]⟩
  · exact ⟨bl, hl, by rw [hr.isNegationOf h' hn, Bool.or_comm]⟩

theorem TermIs.createPartial (hl : TermIs N mode μ l b) (hc : TermIs N mode μ (.constant u v) c) :
    TermIs N mode μ (AndExpr.createPartial l u v) (b && c) := by
  obtain ⟨rfl, rfl⟩ := hc.constant_inv
  have hm : v % 2 ^ 1 = v % 2 := rfl
  rw [AndExpr.createPartial, hm]
  split
  next ho =>
    have hn : v % 2 = 1 := ho
    rw [hn, beq_self_eq_true, Bool.and_true]
    exact hl
  · split
    next hz =>
      rw [hz, zero_beq_one, Bool.and_false]
      exact termIs_constant false (by
        rw [hz]
        rfl)
    · exact hl.and hc

theorem TermIs.createAnd (hl : TermIs N mode μ l b) (hr : TermIs N mode μ r c) :
    TermIs N mode μ (AndExpr.create l r) (b && c) := by
  fun_induction AndExpr.create l r generalizing b c with
  | case1 u v u' v' =>
    obtain ⟨rfl, rfl⟩ := hl.constant_inv
    obtain ⟨rfl, rfl⟩ := hr.constant_inv
    apply termIs_constant
    rw [ofNat_one_mod v, ofNat_one_mod v']
    rcases Nat.mod_two_eq_zero_or_one v with hv | hv <;>
      rcases Nat.mod_two_eq_zero_or_one v' with hv' | hv' <;> rw [hv, hv'] <;> rfl
  | case2 r u v _ =>
    rw [Bool.and_comm]
    exact hr.createPartial hl
  | case3 l u v _ => exact hl.createPartial hr
  | case4 l r _ _ _ hn =>
    rw [hl.isNegationOf hr hn, Bool.not_and_self]
    exact termIs_constant false rfl
  | case5 l r _ _ _ _ x hx ih =>
    obtain ⟨d, hd, rfl⟩ := hl.withoutNegation hr hx
    have heq : ((!c || d) && c) = (d && c) := by
      cases c with
      | true => rfl
      | false => rw [Bool.and_false, Bool.and_false]
    rw [heq]
    exact ih hd hr
  | case6 l r _ _ _ _ _ x hx ih =>
    obtain ⟨d, hd, rfl⟩ := hr.withoutNegation hl hx
    have heq : (b && (!b || d)) = (b && d) := by
      cases b <;> rfl
    rw [heq]
    exact ih hl hd
  | case7 l r => exact hl.and hr

theorem TermIs.createNot (h : TermIs N mode μ e b) : TermIs N mode μ (EqExpr.createNot e) (!b) := by
  fun_induction EqExpr.createNot e generalizing b with
  | case1 u v =>
    obtain ⟨rfl, rfl⟩ := h.constant_inv
    apply termIs_constant
    rw [ofNat_one_mod v]
    rcases Nat.mod_two_eq_zero_or_one v with hv | hv <;> rw [hv] <;> rfl
  | case2 u v r hz =>
    obtain ⟨rfl, hz⟩ := hz
    obtain ⟨c, d, hc, hd, rfl⟩ := h.eq_inv ⟨_, .inl (termIs_constant _ rfl)⟩
    obtain ⟨_, rfl⟩ := hc.constant_inv
    rw [hz, zero_beq_one, false_beq, Bool.not_not]
    exact hd
  | case3 u v r hz => exact h.isZero rfl
  | case4 l r ihl ihr =>
    obtain ⟨bl, br, hl, hr, rfl⟩ := h.or_inv
    rw [Bool.not_or]
    exact (ihl hl).createAnd (ihr hr)
  | case5 e => exact h.isZero rfl

theorem createIsZero_eq_createNot (hw : e.width = 1) : createIsZero e = EqExpr.createNot e := by
  have hp : EqExpr.createPartialR 1 0 e = EqExpr.createNot e := by
    rw [EqExpr.createPartialR.eq_def, if_pos rfl]
    exact if_neg Nat.zero_ne_one
  rw [createIsZero, hw]
  cases e with
  | constant u v =>
    cases hw
    rfl
  | _ => exact hp

theorem TermIs.createIsZero (h : TermIs N mode μ e b) (hw : e.width = 1) :
    TermIs N mode μ (createIsZero e) (!b) := by
  rw [createIsZero_eq_createNot hw]
  exact h.createNot

theorem createPartial_arrays (h : root ∈ (AndExpr.createPartial l u v).arrays) :
    root ∈ l.arrays := by
  rw [AndExpr.createPartial] at h
  split at h
  · exact h
  split at h
  · cases h
  · rw [arrays, arrays, append_nil] at h
    exact h

theorem withoutNegation_arrays (h : withoutNegation kind e e' = some x) (hr : root ∈ x.arrays) :
    root ∈ e.arrays := by
  obtain ⟨a, b, rfl, ⟨_, rfl⟩ | ⟨_, rfl⟩⟩ := withoutNegation_cases h
  · exact mem_append_right _ hr
  · exact mem_append_left _ hr

theorem createAnd_arrays (h : root ∈ (AndExpr.create l r).arrays) :
    root ∈ l.arrays ∨ root ∈ r.arrays := by
  fun_induction AndExpr.create l r with
  | case1 u v u' v' => cases h
  | case2 r u v _ => exact .inr (createPartial_arrays h)
  | case3 l u v _ => exact .inl (createPartial_arrays h)
  | case4 l r _ _ _ _ => cases h
  | case5 l r _ _ _ _ x hx ih => exact (ih h).imp_left (withoutNegation_arrays hx)
  | case6 l r _ _ _ _ _ x hx ih => exact (ih h).imp_right (withoutNegation_arrays hx)
  | case7 l r => exact mem_append.1 h

theorem createNot_arrays (h : root ∈ (EqExpr.createNot e).arrays) : root ∈ e.arrays := by
  fun_induction EqExpr.createNot e with
  | case1 u v => cases h
  | case2 u v r hz => exact h
  | case3 u v r hz => exact h
  | case4 l r ihl ihr => exact mem_append.2 ((createAnd_arrays h).imp ihl ihr)
  | case5 e => exact h

theorem createIsZero_arrays (hw : e.width = 1) (h : root ∈ (createIsZero e).arrays) :
    root ∈ e.arrays := by
  rw [createIsZero_eq_createNot hw] at h
  exact createNot_arrays h

theorem Expr.CanonicalBool.negated (h : e.CanonicalBool) (N : ArrayNames) (mode : ArrayMode) :
    (∃ t, makeExpr N mode (createIsZero e) = some t ∧ t.HasSort .bool) ∧
      ∀ μ, TermIs N mode μ (createIsZero e) true ↔ TermIs N mode μ e false := by
  obtain ⟨t, ht, hso⟩ := h.makes N mode
  have hn : ∀ μ, ∃ b, TermIs N mode μ e b ∧ TermIs N mode μ (createIsZero e) (!b) := by
    intro μ
    obtain ⟨b, hb⟩ := hso.bool μ
    exact ⟨b, ⟨t, ht, hb⟩, TermIs.createIsZero ⟨t, ht, hb⟩ h.width_eq⟩
  refine ⟨?_, fun μ => ?_⟩
  · obtain ⟨_, _, t', ht', _⟩ := hn default
    refine ⟨t', ht', fun μ => ?_⟩
    obtain ⟨b, _, hb⟩ := hn μ
    exact ⟨_, (termIs_iff ht').1 hb, rfl⟩
  · obtain ⟨b, hb, hb'⟩ := hn μ
    constructor
    · intro htt
      cases b with
      | true => cases hb'.unique htt
      | false => exact hb
    · intro hf
      rw [hb.unique hf] at hb'
      exact hb'

end Chef
