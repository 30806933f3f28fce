import Chef.Z3Translation

namespace Chef
open List hiding head
open Foundations Z3Builder BitVec Bool
/-- Constants have the values of arrays, and what is asserted holds. -/
structure Interprets (N : ArrayNames) (mode : ArrayMode) (μ : SmtModel) (ρ : Assignment)
    (roots : List KArray) : Prop where
  symbolic : ∀ root ∈ roots, root.isSymbolicArray = true → ∀ i, i < root.size →
    ∃ t, getInitialRead N mode root i = some t ∧ t.eval μ = some (.bits 8 (ρ root i).toBitVec)
  asserted : mode = .asserts → ∀ root ∈ roots, root.isSymbolicArray = false →
    (getArrayAssertion root (arrayConst N root)).eval μ = some (.bool true)

theorem Interprets.subset (h : Interprets N mode μ ρ roots) (hs : ∀ root ∈ roots', root ∈ roots) :
    Interprets N mode μ ρ roots' :=
  ⟨fun root hmem => h.symbolic root (hs root hmem),
    fun hm root hmem => h.asserted hm root (hs root hmem)⟩

section
variable {root : KArray}
theorem initialValue_symbolic (h : KArray.isSymbolicArray root = true) (i : Nat) :
    root.initialValue ρ i = ρ root i := if_pos h

theorem initialValue_constant (h : KArray.isSymbolicArray root = false) (i : Nat) :
    root.initialValue ρ i = root.constantValues.getD i 0 := by
  apply if_neg
  rw [h]
  exact false_ne_true

theorem eval_constantValue (h : root.isSymbolicArray = false) (i : Nat) :
    (constantValue root i).eval μ = some (.bits 8 (root.initialValue ρ i).toBitVec) := by
  rw [constantValue, SmtTerm.eval, initialValue_constant h, UInt8.toNat, BitVec.ofNat_toNat,
    setWidth_eq]

theorem getArrayValues_getElem? (hi : i < root.size) :
    (getArrayValues N root)[i]? = some (if root.isSymbolicArray then
      .const (printed (byteText N root i)) (.bitVec 8) else constantValue root i) := by
  rw [getArrayValues, List.getElem?_map, List.getElem?_range hi]
  rfl

theorem eval_getArrayValues (h : Interprets N .ite μ ρ [root]) (hi : i < root.size) :
    ((getArrayValues N root).getD i (.bitVecVal 8 0)).eval μ =
      some (.bits 8 (root.initialValue ρ i).toBitVec) := by
  cases hs : root.isSymbolicArray with
  | true =>
    obtain ⟨t, hr, he⟩ := h.symbolic root mem_cons_self hs i hi
    rw [getInitialRead] at hr
    rw [getD_eq_getElem?_getD, hr, initialValue_symbolic hs]
    exact he
  | false =>
    rw [getD_eq_getElem?_getD, getArrayValues_getElem? hi, hs]
    exact eval_constantValue hs i

theorem ofNat_eq_iff (hi : i < 2 ^ 32) : x = BitVec.ofNat 32 i ↔ x.toNat = i := by
  rw [← toNat_inj, toNat_ofNat, Nat.mod_eq_of_lt hi]

theorem eval_getReadForInitialArray (h : Interprets N .ite μ ρ [root])
    (hs : root.size < 2 ^ 32) (hi : index.eval μ = some (.bits 32 x)) (hx : x.toNat < root.size) :
    (getReadForInitialArray N index root).eval μ =
      some (.bits 8 (root.initialValue ρ x.toNat).toBitVec) := by
  have hlp : ∀ n, n ≤ root.size →
      ((List.range n).foldl (fun tree i => SmtTerm.ite (.eq index (.bitVecVal 32 i))
        ((getArrayValues N root).getD i (.bitVecVal 8 0)) tree) (.bitVecVal 8 0)).eval μ =
      some (.bits 8 (if x.toNat < n then (root.initialValue ρ x.toNat).toBitVec else 0#8)) := by
    intro n
    induction n with
    | zero =>
      intro _
      rfl
    | succ n ih =>
      intro hn
      rw [range_succ, foldl_append, foldl_cons, foldl_nil,
        SmtTerm.eval_ite (SmtTerm.eval_eq_bits hi SmtTerm.eval_bitVecVal) (eval_getArrayValues h hn)
          (ih (by omega)) rfl]
      by_cases heq : x.toNat = n
      · have hlt : x.toNat < n + 1 := by omega
        rw [beq_iff_eq.2 ((ofNat_eq_iff (by omega)).2 heq), if_pos rfl, if_pos hlt, heq]
      · have hf : x.toNat < n ↔ x.toNat < n + 1 := by omega
        rw [beq_false_of_ne (fun h => heq ((ofNat_eq_iff (by omega)).1 h)),
          if_neg Bool.false_ne_true, if_congr hf rfl rfl]
  rw [getReadForInitialArray, hlp root.size (Nat.le_refl _), if_pos hx]

theorem eval_storeValues (hs : root.isSymbolicArray = false) (hz : root.size < 2 ^ 32)
    (ha : array.eval μ = some (.array 32 8 f)) :
    ∃ g, (storeValues root array).eval μ = some (.array 32 8 g) ∧
      ∀ i, i < root.size → g (BitVec.ofNat 32 i) = (root.initialValue ρ i).toBitVec := by
  have hlp : ∀ n, n ≤ root.size → ∃ g,
      ((List.range n).foldl (fun result i => .store result (.bitVecVal 32 i)
        (constantValue root i)) array).eval μ = some (.array 32 8 g) ∧
      ∀ i, i < n → g (BitVec.ofNat 32 i) = (root.initialValue ρ i).toBitVec := by
    intro n
    induction n with
    | zero =>
      intro _
      exact ⟨f, ha, fun i hi => absurd hi (Nat.not_lt_zero i)⟩
    | succ n ih =>
      intro hn
      obtain ⟨g, hg, hv⟩ := ih (by omega)
      rw [range_succ, foldl_append, foldl_cons, foldl_nil,
        SmtTerm.eval_store hg SmtTerm.eval_bitVecVal (eval_constantValue hs n)]
      refine ⟨_, rfl, fun i hi => ?_⟩
      have hm : (BitVec.ofNat 32 i).toNat = i := by rw [toNat_ofNat, Nat.mod_eq_of_lt (by omega)]
      by_cases heq : i = n
      · rw [heq]
        exact if_pos rfl
      · apply (if_neg ?_).trans (hv i (by omega))
        rw [ofNat_eq_iff (by omega), hm]
        exact heq
  exact hlp root.size (le_refl _)

theorem eval_getArrayAssertion (hs : root.isSymbolicArray = false)
    (hr : array.eval μ = some (.array 32 8 f)) : (getArrayAssertion root array).eval μ =
      some (.bool (decide (∀ i, i < root.size →
        f (BitVec.ofNat 32 i) = (root.initialValue ρ i).toBitVec))) := by
  have hlp : ∀ n, ((List.range n).foldl (fun result i => SmtTerm.connective .and result
        (.eq (.select array (.bitVecVal 32 i)) (constantValue root i))) (.boolVal true)).eval μ =
      some (.bool (decide (∀ i, i < n →
        f (BitVec.ofNat 32 i) = (root.initialValue ρ i).toBitVec))) := by
    intro n
    induction n with
    | zero =>
      rfl
    | succ n ih =>
      rw [range_succ, foldl_append, foldl_cons, foldl_nil,
        SmtTerm.eval_connective ih (SmtTerm.eval_eq_bits
          (SmtTerm.eval_select hr SmtTerm.eval_bitVecVal) (eval_constantValue hs n))]
      apply congrArg (fun b => some (SmtValue.bool b))
      rw [Connective.apply, Bool.eq_iff_iff, and_eq_true, beq_iff_eq, decide_eq_true_iff,
        decide_eq_true_iff]
      constructor
      · rintro ⟨ha, hn⟩ i hi
        rcases Nat.lt_succ_iff_lt_or_eq.1 hi with hi | rfl
        · exact ha i hi
        · exact hn
      · intro ha
        exact ⟨fun i hi => ha i (by omega), ha n (by omega)⟩
  exact hlp root.size

theorem eval_arrayConst (N : ArrayNames) (μ : SmtModel) (root : KArray) :
    ∃ f, (arrayConst N root).eval μ = some (.array 32 8 f) := by
  have hso := μ.sorted (printed (arrayText N root)) (.array 32 8)
  rw [arrayConst, SmtTerm.eval]
  cases hv : μ.value (printed (arrayText N root)) (.array 32 8) with
  | bool b | bits w x =>
    rw [hv] at hso
    cases hso
  | array m n f =>
    rw [hv] at hso
    cases hso
    exact ⟨f, rfl⟩

theorem getInitialRead_select (hm : mode ≠ .ite) : getInitialRead N mode root i =
      some (.select (getInitialArray N mode root) (.bitVecVal 32 i)) := by
  cases mode with
  | ite => exact absurd rfl hm
  | stores => rfl
  | asserts => rfl

theorem eval_getInitialArray (h : Interprets N mode μ ρ [root]) (hm : mode ≠ .ite)
    (hz : root.size < 2 ^ 32) : ∃ g, (getInitialArray N mode root).eval μ = some (.array 32 8 g) ∧
      ∀ i, i < root.size → g (BitVec.ofNat 32 i) = (root.initialValue ρ i).toBitVec := by
  obtain ⟨f, hf⟩ := eval_arrayConst N μ root
  cases hs : root.isSymbolicArray with
  | true =>
    have hn : getInitialArray N mode root = arrayConst N root := if_pos hs
    refine ⟨f, hn ▸ hf, fun i hi => ?_⟩
    obtain ⟨t, hr, he⟩ := h.symbolic root mem_cons_self hs i hi
    rw [getInitialRead_select hm, hn, Option.some.injEq] at hr
    have hv : (SmtTerm.bitVecVal 32 i).eval μ = some (.bits 32 (BitVec.ofNat 32 i)) := rfl
    rw [← hr, SmtTerm.eval_select hf hv, Option.some.injEq] at he
    rw [initialValue_symbolic hs]
    exact bits_injective he
  | false =>
    have hn : getInitialArray N mode root = initializeArray mode root (arrayConst N root) := by
      apply if_neg
      rw [hs]
      exact false_ne_true
    rw [hn]
    cases mode with
    | ite => exact absurd rfl hm
    | stores => exact eval_storeValues hs hz hf
    | asserts =>
      refine ⟨f, hf, ?_⟩
      have ha := h.asserted rfl root mem_cons_self hs
      rw [eval_getArrayAssertion hs hf, Option.some.injEq, SmtValue.bool.injEq,
        decide_eq_true_iff] at ha
      exact ha

end

mutual
/-- It and all expressions in it, also in updates, meet a condition. -/
def Expr.Everywhere (P : Expr → Prop) : Expr → Prop
  | .constant w v => P (.constant w v)
  | .notOptimized src => src.Everywhere P ∧ P (.notOptimized src)
  | .read root head index => head.Everywhere P ∧ index.Everywhere P ∧ P (.read root head index)
  | .select c t f => c.Everywhere P ∧ t.Everywhere P ∧ f.Everywhere P ∧ P (.select c t f)
  | .concat l r => l.Everywhere P ∧ r.Everywhere P ∧ P (.concat l r)
  | .extract e offset w => e.Everywhere P ∧ P (.extract e offset w)
  | .zext src w => src.Everywhere P ∧ P (.zext src w)
  | .sext src w => src.Everywhere P ∧ P (.sext src w)
  | .not e => e.Everywhere P ∧ P (.not e)
  | .arithmetic kind l r => l.Everywhere P ∧ r.Everywhere P ∧ P (.arithmetic kind l r)
  | .compare kind l r => l.Everywhere P ∧ r.Everywhere P ∧ P (.compare kind l r)

def UpdateNode.Everywhere (P : Expr → Prop) : UpdateNode → Prop
  | .null => True
  | .node index value next => index.Everywhere P ∧ value.Everywhere P ∧ next.Everywhere P

end

theorem Expr.Everywhere.self (h : Expr.Everywhere P e) : P e := by
  cases e with
  | constant w v => exact h
  | notOptimized src | extract e offset w | zext src w | sext src w | not e => exact h.2
  | read root head index | concat l r | arithmetic kind l r | compare kind l r => exact h.2.2
  | select c t f => exact h.2.2.2

variable {ρ : Assignment} {root : KArray}

theorem Translated.word (h : Translated N mode μ A ρ e) (hw : e.width = w) (hne : w ≠ 1) :
    ∃ t, makeExpr N mode e = some t ∧
      t.eval μ = some (.bits w (BitVec.ofNat w (e.evaluate A ρ))) := by
  subst hw
  exact h.bits hne

theorem toBitVec_ofNat (n : Nat) : (UInt8.ofNat n).toBitVec = BitVec.ofNat 8 n := rfl

theorem eval_getReadForArray (h : Interprets N .ite μ ρ [root])
    (hs : root.size < 2 ^ 32) (hi : index.eval μ = some (.bits 32 x)) (hx : x.toNat < root.size) :
    (un : UpdateNode) → un.WellTyped → un.Everywhere (Translated N .ite μ A ρ) →
      ∃ t, getReadForArray N .ite index root un = some t ∧
        t.eval μ = some (.bits 8 (un.evalRead A ρ root x.toNat).toBitVec)
  | .null, _, _ => ⟨_, rfl, eval_getReadForInitialArray h hs hi hx⟩
  | .node i v next, ht, hun => by
    obtain ⟨ti, hmi, hei⟩ := hun.1.self.word ht.2.1 (by decide)
    obtain ⟨tv, hmv, he⟩ := hun.2.1.self.word ht.2.2.2.1 (by decide)
    obtain ⟨tn, hmn, hen⟩ := eval_getReadForArray h hs hi hx next ht.2.2.2.2 hun.2.2
    have hm : getReadForArray N .ite index root (.node i v next) =
        some (.ite (.eq index ti) tv tn) := by
      rw [getReadForArray, hmi, hmv, hmn]
      rfl
    refine ⟨_, hm, ?_⟩
    rw [SmtTerm.eval_ite (SmtTerm.eval_eq_bits hi hei) he hen rfl, UpdateNode.evalRead]
    have hlt := Expr.evaluate_lt A ρ i ht.1
    rw [ht.2.1] at hlt
    by_cases heq : i.evaluate A ρ = x.toNat
    · rw [if_pos heq, beq_iff_eq.2 ((ofNat_eq_iff hlt).2 heq.symm), if_pos rfl, toBitVec_ofNat]
    · rw [if_neg heq, beq_false_of_ne (fun h => heq ((ofNat_eq_iff hlt).1 h).symm),
        if_neg Bool.false_ne_true]

theorem eval_getArrayForUpdate (h : Interprets N mode μ ρ [root]) (hm : mode ≠ .ite)
    (hs : root.size < 2 ^ 32) :
    (un : UpdateNode) → un.WellTyped → un.Everywhere (Translated N mode μ A ρ) →
      ∃ t g, getArrayForUpdate N mode root un = some t ∧ t.eval μ = some (.array 32 8 g) ∧
        ∀ i, i < root.size → g (BitVec.ofNat 32 i) = (un.evalRead A ρ root i).toBitVec
  | .null, _, _ => by
    obtain ⟨g, hg, hv⟩ := eval_getInitialArray h hm hs
    exact ⟨_, g, rfl, hg, hv⟩
  | .node i v next, ht, hun => by
    obtain ⟨ti, hmi, hei⟩ := hun.1.self.word ht.2.1 (by decide)
    obtain ⟨tv, hmv, he⟩ := hun.2.1.self.word ht.2.2.2.1 (by decide)
    obtain ⟨tn, g, hmn, hen, hv⟩ := eval_getArrayForUpdate h hm hs next ht.2.2.2.2 hun.2.2
    have hk : getArrayForUpdate N mode root (.node i v next) = some (.store tn ti tv) := by
      rw [getArrayForUpdate, hmi, hmv, hmn]
      rfl
    refine ⟨_, _, hk, SmtTerm.eval_store hen hei he, fun j hj => ?_⟩
    have hlt := Expr.evaluate_lt A ρ i ht.1
    rw [ht.2.1] at hlt
    have hd : (BitVec.ofNat 32 j).toNat = j := by rw [toNat_ofNat, Nat.mod_eq_of_lt (by omega)]
    rw [UpdateNode.evalRead]
    by_cases heq : i.evaluate A ρ = j
    · rw [if_pos heq, if_pos ((ofNat_eq_iff hlt).2 (hd.trans heq.symm)), toBitVec_ofNat]
    · rw [if_neg heq, if_neg fun h => heq (((ofNat_eq_iff hlt).1 h).symm.trans hd)]
      exact hv j hj

theorem translated_read (h : Interprets N mode μ ρ [root]) (hs : root.size < 2 ^ 32)
    (ht : head.WellTyped) (hhd : head.Everywhere (Translated N mode μ A ρ))
    (hi : Translated N mode μ A ρ index) (hw : index.width = 32)
    (hin : index.evaluate A ρ < root.size) : Translated N mode μ A ρ (.read root head index) := by
  obtain ⟨t, hm, he⟩ := hi.word hw (by decide)
  have hn : (BitVec.ofNat 32 (index.evaluate A ρ)).toNat = index.evaluate A ρ := by
    rw [toNat_ofNat, Nat.mod_eq_of_lt (by omega)]
  by_cases hd : mode = .ite
  · subst hd
    obtain ⟨tr, hmr, her⟩ := eval_getReadForArray h hs he (by omega) head ht hhd
    have hk : makeExpr N .ite (.read root head index) = some tr := by
      rw [makeExpr, hm]
      exact hmr
    apply (translated_iff_value hk her).2
    rw [Expr.width, Expr.evaluate, hn, UInt8.toNat, smtValue_toNat (by decide)]
  · obtain ⟨ta, g, hma, hea, hv⟩ := eval_getArrayForUpdate h hd hs head ht hhd
    have hk : makeExpr N mode (.read root head index) = some (.select ta t) := by
      rw [makeExpr, hm]
      cases mode with
      | ite => exact absurd rfl hd
      | stores | asserts =>
        simp only [Option.bind_eq_bind, Option.bind_some, hma]
        rfl
    apply (translated_iff_value hk (SmtTerm.eval_select hea he)).2
    rw [Expr.width, Expr.evaluate, UInt8.toNat, smtValue_toNat (by decide), hv _ hin]

end Chef
