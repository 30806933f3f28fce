import Chef.Z3Preserves
import Chef.Foundations.SmtProblems

namespace Chef
open Foundations Z3Builder List Option Chef.Expr UpdateNode
def NamedBy (N : ArrayNames) (roots : List KArray) (t : SmtTerm) : Prop :=
  ∀ c ∈ t.consts, c.2 = .bitVec 8 ∨ ∃ root ∈ roots, c = (printed (arrayText N root), .array 32 8)

theorem NamedBy.of_consts (h : t.consts = l.consts ++ r.consts) (hl : NamedBy N roots l)
    (hr : NamedBy N roots r) : NamedBy N roots t := by
  rw [NamedBy, h]
  exact forall_mem_append.2 ⟨hl, hr⟩

theorem NamedBy.ite (hc : NamedBy N roots c) (ht : NamedBy N roots t) (hf : NamedBy N roots f) :
    NamedBy N roots (.ite c t f) :=
  forall_mem_append.2 ⟨hc, forall_mem_append.2 ⟨ht, hf⟩⟩

theorem NamedBy.store (ha : NamedBy N roots a) (hi : NamedBy N roots i) (hv : NamedBy N roots v) :
    NamedBy N roots (.store a i v) :=
  forall_mem_append.2 ⟨ha, forall_mem_append.2 ⟨hi, hv⟩⟩

theorem NamedBy.bitVecVal : NamedBy N roots (.bitVecVal w n) := forall_mem_nil _

section
variable {P : SmtTerm → Prop}
theorem getInitialArray_of (hc : P (arrayConst N root))
    (hs : ∀ array i, P array → P (.store array (.bitVecVal 32 i) (constantValue root i))) :
    P (getInitialArray N mode root) := by
  rw [getInitialArray]
  split
  · exact hc
  cases mode with
  | stores =>
    exact foldlRecOn (motive := P) _ _ hc fun array ha i _ => hs array i ha
  | ite | asserts => exact hc

theorem getArrayValues_of (hc : ∀ name, P (.const name (.bitVec 8)))
    (hv : ∀ v, P (.bitVecVal 8 v)) (i : Nat) :
    P ((getArrayValues N root).getD i (.bitVecVal 8 0)) := by
  rw [getD_eq_getElem?_getD]
  by_cases hi : i < root.size
  · rw [getArrayValues_getElem? hi, getD_some]
    split
    · exact hc _
    · exact hv _
  · have hn : (getArrayValues N root).length ≤ i := by
      rw [getArrayValues, length_map, length_range]
      omega
    rw [getElem?_eq_none hn]
    exact hv 0

end

variable {N : ArrayNames} {mode : ArrayMode}
theorem consts_makeArithmetic (kind : ArithmeticKind) (l r : SmtTerm) :
    (makeArithmetic kind l r).consts = l.consts ++ r.consts := by
  cases kind with
  | and | or | xor =>
    rw [makeArithmetic]
    split <;> rfl
  | _ => rfl

theorem consts_makeCompare (h : makeCompare kind l r = some t) :
    t.consts = l.consts ++ r.consts := by
  cases kind with
  | eq | ult | ule | slt | sle =>
    cases h
    rfl
  | _ => cases h

theorem arrayConst_named (h : root ∈ roots) : NamedBy N roots (arrayConst N root) :=
  forall_mem_cons.2 ⟨.inr ⟨root, h, rfl⟩, forall_mem_nil _⟩

theorem constantValue_named : NamedBy N roots (constantValue root i) := NamedBy.bitVecVal

theorem getInitialArray_named (h : root ∈ roots) : NamedBy N roots (getInitialArray N mode root) :=
  getInitialArray_of (arrayConst_named h) fun _ _ h => h.store .bitVecVal constantValue_named

theorem getArrayAssertion_named (h : NamedBy N roots array) :
    NamedBy N roots (getArrayAssertion root array) := by
  refine foldlRecOn (motive := NamedBy N roots) _ _ (forall_mem_nil _) fun result hrs i _ => ?_
  have hs : NamedBy N roots (.select array (.bitVecVal 32 i)) := .of_consts rfl h .bitVecVal
  have heq : NamedBy N roots (.eq (.select array (.bitVecVal 32 i)) (constantValue root i)) :=
    .of_consts rfl hs constantValue_named
  exact .of_consts rfl hrs heq

theorem getArrayValues_named (i : Nat) :
    NamedBy N roots ((getArrayValues N root).getD i (.bitVecVal 8 0)) :=
  getArrayValues_of (fun _ => forall_mem_cons.2 ⟨.inl rfl, forall_mem_nil _⟩)
    (fun _ => NamedBy.bitVecVal) i

theorem getReadForInitialArray_named (h : NamedBy N roots index) :
    NamedBy N roots (getReadForInitialArray N index root) := by
  refine foldlRecOn (motive := NamedBy N roots) _ _ NamedBy.bitVecVal fun tree ht i _ => ?_
  have hat : NamedBy N roots (.eq index (.bitVecVal 32 i)) := .of_consts rfl h .bitVecVal
  exact hat.ite (getArrayValues_named i) ht

mutual
theorem makeExpr_named : (e : Expr) → (∀ root ∈ e.arrays, root ∈ roots) →
    makeExpr N mode e = some t → NamedBy N roots t
  | .constant w v, _, h => by
    cases h
    split <;> exact forall_mem_nil _
  | .notOptimized src, hs, h => by
    exact makeExpr_named src hs h
  | .read root head index, hs, h => by
    obtain ⟨hro, hs⟩ := forall_mem_cons.1 hs
    obtain ⟨hsh, hsi⟩ := forall_mem_append.1 hs
    obtain ⟨i, hi, h⟩ := bind_eq_some_iff.1 h
    have hd := makeExpr_named index hsi hi
    have hrd {u} (hu : getReadForArray N mode i root head = some u) :=
      getReadForArray_named head hsh hd hu
    have hp {u} (hu : getArrayForUpdate N mode root head = some u) :=
      getArrayForUpdate_named head hsh hro hu
    cases mode with
    | ite => exact hrd h
    | stores | asserts =>
      obtain ⟨array, ha, h⟩ := bind_eq_some_iff.1 h
      cases h
      exact .of_consts rfl (hp ha) hd
  | .select c t f, hs, h => by
    obtain ⟨hsc, hs⟩ := forall_mem_append.1 hs
    obtain ⟨hst, hsf⟩ := forall_mem_append.1 hs
    simp only [makeExpr, bind_some_iff] at h
    obtain ⟨tc, hc, tt, ht, tf, hf, h⟩ := h
    cases h
    exact (makeExpr_named c hsc hc).ite (makeExpr_named t hst ht) (makeExpr_named f hsf hf)
  | .concat l r, hs, h => by
    obtain ⟨hsl, hsr⟩ := forall_mem_append.1 hs
    simp only [makeExpr, bind_some_iff] at h
    obtain ⟨tl, hl, tr, hr, h⟩ := h
    cases h
    exact .of_consts rfl (makeExpr_named l hsl hl) (makeExpr_named r hsr hr)
  | .extract e offset w, hs, h | .zext e w, hs, h | .sext e w, hs, h | .not e, hs, h => by
    simp only [makeExpr, bind_some_iff] at h
    obtain ⟨src, hm, h⟩ := h
    have hn := makeExpr_named e hs hm
    split at h
    · cases h
      first
      | exact hn
      | exact hn.ite .bitVecVal .bitVecVal
      | exact .of_consts rfl hn .bitVecVal
    · cases h
      exact hn
  | .arithmetic kind l r, hs, h => by
    obtain ⟨hsl, hsr⟩ := forall_mem_append.1 hs
    simp only [makeExpr, bind_some_iff] at h
    obtain ⟨tl, hl, tr, hr, h⟩ := h
    cases h
    exact .of_consts (consts_makeArithmetic kind tl tr) (makeExpr_named l hsl hl)
      (makeExpr_named r hsr hr)
  | .compare kind l r, hs, h => by
    obtain ⟨hsl, hsr⟩ := forall_mem_append.1 hs
    simp only [makeExpr, bind_some_iff] at h
    obtain ⟨tl, hl, tr, hr, h⟩ := h
    exact .of_consts (consts_makeCompare h) (makeExpr_named l hsl hl) (makeExpr_named r hsr hr)

theorem getReadForArray_named : (un : UpdateNode) → (∀ root ∈ un.arrays, root ∈ roots) →
    NamedBy N roots index → getReadForArray N mode index root un = some t → NamedBy N roots t
  | .null, _, hd, h => by
    cases h
    exact getReadForInitialArray_named hd
  | .node i v next, hs, hd, h => by
    obtain ⟨hsi, hs⟩ := forall_mem_append.1 hs
    obtain ⟨hsv, hsn⟩ := forall_mem_append.1 hs
    simp only [getReadForArray, bind_some_iff] at h
    obtain ⟨ti, hi, tv, hv, tree, ht, h⟩ := h
    cases h
    have heq : NamedBy N roots (.eq index ti) := .of_consts rfl hd (makeExpr_named i hsi hi)
    exact heq.ite (makeExpr_named v hsv hv) (getReadForArray_named next hsn hd ht)

theorem getArrayForUpdate_named : (un : UpdateNode) → (∀ root ∈ un.arrays, root ∈ roots) →
    root ∈ roots → getArrayForUpdate N mode root un = some t → NamedBy N roots t
  | .null, _, hro, h => by
    rw [getArrayForUpdate] at h
    cases h
    exact getInitialArray_named hro
  | .node i v next, hs, hro, h => by
    obtain ⟨hsi, hs⟩ := forall_mem_append.1 hs
    obtain ⟨hsv, hsn⟩ := forall_mem_append.1 hs
    simp only [getArrayForUpdate, bind_some_iff] at h
    obtain ⟨array, ha, ti, hi, tv, hv, h⟩ := h
    cases h
    exact .store (getArrayForUpdate_named next hsn hro ha) (makeExpr_named i hsi hi)
      (makeExpr_named v hsv hv)

end

def smtSort (w : Nat) : SmtSort := if w = 1 then .bool else .bitVec w

theorem constantValue_sorted : (constantValue root i).HasSort (.bitVec 8) := .bitVecVal _ _

theorem getInitialArray_sorted (N : ArrayNames) (mode : ArrayMode) (root : KArray) :
    (getInitialArray N mode root).HasSort (.array 32 8) :=
  getInitialArray_of (P := (SmtTerm.HasSort · (.array 32 8))) (.const _ _)
    fun _ _ h => h.store (.bitVecVal _ _) constantValue_sorted

theorem getArrayValues_sorted (N : ArrayNames) (root : KArray) (i : Nat) :
    ((getArrayValues N root).getD i (.bitVecVal 8 0)).HasSort (.bitVec 8) :=
  getArrayValues_of (P := (SmtTerm.HasSort · (.bitVec 8))) (fun _ => .const _ _)
    (fun _ => .bitVecVal _ _) i

theorem getReadForInitialArray_sorted (h : index.HasSort (.bitVec 32)) :
    (getReadForInitialArray N index root).HasSort (.bitVec 8) := by
  refine foldlRecOn (motive := (SmtTerm.HasSort · (.bitVec 8))) _ _ (.bitVecVal _ _)
    fun tree ht i _ => ?_
  exact .ite (h.eq_bits (.bitVecVal _ _)) (getArrayValues_sorted N root i) ht

theorem makeBit_sorted (h : src.HasSort .bool) : (makeBit src w).HasSort (.bitVec w) :=
  h.ite (.bitVecVal _ _) (.bitVecVal _ _)

theorem makeArithmetic_bits (kind : ArithmeticKind) (hl : l.HasSort (.bitVec w)) (hr :
    r.HasSort (.bitVec w)) : (makeArithmetic kind l r).HasSort (.bitVec w) := by
  intro μ
  obtain ⟨x, hx⟩ := hl.bits μ
  obtain ⟨y, hy⟩ := hr.bits μ
  exact ⟨_, eval_makeArithmetic_bits hx hy, rfl⟩

theorem makeArithmetic_bool (hk : ArithmeticKind.connective kind = some op)
    (hl : l.HasSort .bool) (hr : r.HasSort .bool) : (makeArithmetic kind l r).HasSort .bool := by
  intro μ
  obtain ⟨b, hb⟩ := hl.bool μ
  obtain ⟨c, hc⟩ := hr.bool μ
  exact ⟨_, eval_makeArithmetic_bool hk hb hc, rfl⟩

theorem makeCompare_sorted (hk : CmpKind.isCanonical kind = true) (hl : l.HasSort (.bitVec w))
    (hr : r.HasSort (.bitVec w)) : ∃ t, makeCompare kind l r = some t ∧ t.HasSort .bool := by
  cases kind with
  | eq => exact ⟨_, rfl, hl.eq_bits hr⟩
  | ult | ule | slt | sle => exact ⟨_, rfl, hl.bvrel hr⟩
  | _ => cases hk

def Makes (N : ArrayNames) (mode : ArrayMode) (e : Expr) : Prop :=
  ∃ t, makeExpr N mode e = some t ∧ t.HasSort (smtSort e.width)

theorem Makes.bool (h : Makes N mode e) (hw : e.width = 1) :
    ∃ t, makeExpr N mode e = some t ∧ t.HasSort .bool := by
  rw [Makes, hw] at h
  exact h

theorem Makes.bits (h : Makes N mode e) (hw : e.width = w) (ho : w ≠ 1) :
    ∃ t, makeExpr N mode e = some t ∧ t.HasSort (.bitVec w) := by
  rw [Makes, hw, smtSort, if_neg ho] at h
  exact h

theorem makes_bits (hm : makeExpr N mode e = some t) (ht : t.HasSort (.bitVec e.width))
    (hw : e.width ≠ 1) : Makes N mode e := by
  rw [Makes, smtSort, if_neg hw]
  exact ⟨t, hm, ht⟩

theorem makes_bool (hm : makeExpr N mode e = some t) (ht : t.HasSort .bool)
    (hw : e.width = 1) : Makes N mode e := by
  rw [Makes, hw]
  exact ⟨t, hm, ht⟩

theorem makes_constant (w v : Nat) : Makes N mode (.constant w v) := by
  by_cases hw : w = 1
  · subst hw
    exact ⟨_, rfl, .boolVal _⟩
  · have hm : makeExpr N mode (.constant w v) = some (.bitVecVal w v) := by rw [makeExpr, if_neg hw]
    exact makes_bits hm (.bitVecVal w v) hw

theorem makes_select (hc : Makes N mode c) (ht : Makes N mode t) (hf : Makes N mode f)
    (hcw : c.width = 1) (hw : t.width = f.width) : Makes N mode (.select c t f) := by
  obtain ⟨tc, hmc, hsc⟩ := hc.bool hcw
  obtain ⟨tt, hmt, hst⟩ := ht
  obtain ⟨tf, hmf, hsf⟩ := hf
  rw [← hw] at hsf
  refine ⟨_, ?_, hsc.ite hst hsf⟩
  rw [makeExpr, hmc, hmt, hmf]
  rfl

theorem makes_concat (hl : Makes N mode l) (hr : Makes N mode r) (hlw : 1 < l.width)
    (hrw : 1 < r.width) : Makes N mode (.concat l r) := by
  obtain ⟨tl, hml, hsl⟩ := hl.bits rfl (Nat.ne_of_gt hlw)
  obtain ⟨tr, hmr, hsr⟩ := hr.bits rfl (Nat.ne_of_gt hrw)
  have hw : (concat l r).width ≠ 1 := by
    rw [width]
    omega
  refine makes_bits ?_ (hsl.concat hsr) hw
  rw [makeExpr, hml, hmr]
  rfl

section
variable (he : Makes N mode e)
include he
theorem makes_extract (ho : e.width ≠ 1) (hp : 0 < w)
    (hw : offset + w ≤ e.width) : Makes N mode (.extract e offset w) := by
  obtain ⟨src, hm, hs⟩ := he.bits rfl ho
  by_cases hw1 : w = 1
  · subst hw1
    refine makes_bool ?_ ((hs.extract Nat.one_pos hw).eq_bits (.bitVecVal 1 1)) rfl
    rw [makeExpr, hm]
    rfl
  · refine makes_bits ?_ (hs.extract hp hw) hw1
    rw [makeExpr, hm]
    exact if_neg hw1

theorem makes_extension (hp : 0 < e.width) (hw : e.width < w) :
    Makes N mode (.zext e w) ∧ Makes N mode (.sext e w) := by
  have hw1 : w ≠ 1 := by omega
  by_cases ho : e.width = 1
  · obtain ⟨src, hm, hs⟩ := he.bool ho
    constructor <;> refine makes_bits ?_ (makeBit_sorted hs) hw1 <;> rw [makeExpr, hm] <;>
      exact if_pos hs.isBool
  obtain ⟨src, hm, hs⟩ := he.bits rfl ho
  constructor
  · refine makes_bits ?_ (hs.zeroExtend (Nat.le_of_lt hw)) hw1
    rw [makeExpr, hm, ← hs.bvSize]
    exact if_neg hs.not_isBool
  · refine makes_bits ?_ (hs.signExtend (Nat.le_of_lt hw)) hw1
    rw [makeExpr, hm, ← hs.bvSize]
    exact if_neg hs.not_isBool

theorem makes_not : Makes N mode (.not e) := by
  by_cases ho : e.width = 1
  · obtain ⟨src, hm, hs⟩ := he.bool ho
    refine makes_bool ?_ hs.not ho
    rw [makeExpr, hm]
    exact if_pos hs.isBool
  · obtain ⟨src, hm, hs⟩ := he.bits rfl ho
    refine makes_bits ?_ hs.bvnot ho
    rw [makeExpr, hm]
    exact if_neg hs.not_isBool

end

section
variable (hl : Makes N mode l) (hr : Makes N mode r) (hw : l.width = r.width)
include hl hr hw
theorem makes_arithmetic (hk : l.width = 1 → kind.connective.isSome = true) :
    Makes N mode (.arithmetic kind l r) := by
  by_cases ho : l.width = 1
  · obtain ⟨tl, hml, hsl⟩ := hl.bool ho
    obtain ⟨tr, hmr, hsr⟩ := hr.bool (hw ▸ ho)
    obtain ⟨op, hop⟩ := isSome_iff_exists.1 (hk ho)
    refine makes_bool ?_ (makeArithmetic_bool hop hsl hsr) ho
    rw [makeExpr, hml, hmr]
    rfl
  · obtain ⟨tl, hml, hsl⟩ := hl.bits rfl ho
    obtain ⟨tr, hmr, hsr⟩ := hr.bits hw.symm ho
    refine makes_bits ?_ (makeArithmetic_bits kind hsl hsr) ho
    rw [makeExpr, hml, hmr]
    rfl

theorem makes_compare (hk : kind.isCanonical = true) (hbo : l.width = 1 → kind = .eq) :
    Makes N mode (.compare kind l r) := by
  by_cases ho : l.width = 1
  · obtain ⟨tl, hml, hsl⟩ := hl.bool ho
    obtain ⟨tr, hmr, hsr⟩ := hr.bool (hw ▸ ho)
    refine makes_bool ?_ (hsl.eq_bool hsr) rfl
    rw [makeExpr, hml, hmr, hbo ho]
    rfl
  · obtain ⟨tl, hml, hsl⟩ := hl.bits rfl ho
    obtain ⟨tr, hmr, hsr⟩ := hr.bits hw.symm ho
    obtain ⟨t, hc, hst⟩ := makeCompare_sorted hk hsl hsr
    refine makes_bool ?_ hst rfl
    rw [makeExpr, hml, hmr]
    exact hc

end

mutual
theorem makeExpr_sorted : (e : Expr) → e.WellTyped → e.Everywhere CanonicalNode → Makes N mode e
  | .constant w v, _, _ => makes_constant w v
  | .notOptimized src, ht, hc => makeExpr_sorted src ht hc.1
  | .read root head index, ht, hc => by
    obtain ⟨i, hi, hd⟩ := (makeExpr_sorted index ht.2.1 hc.2.1).bits ht.2.2 (by decide)
    obtain ⟨tree, hte, hrd⟩ := getReadForArray_sorted root head ht.1 hc.1 hd
    obtain ⟨array, ha, hs⟩ := getArrayForUpdate_sorted root head ht.1 hc.1
    have hw : (read root head index).width ≠ 1 := by
      rw [width]
      decide
    cases mode with
    | ite =>
      refine makes_bits ?_ hrd hw
      rw [makeExpr, hi]
      exact hte
    | stores | asserts =>
      refine makes_bits ?_ (hs.select hd) hw
      rw [makeExpr, hi]
      simp only [bind_eq_bind, bind_some, ha]
      rfl
  | .select c t f, ht, hc =>
    makes_select (makeExpr_sorted c ht.1 hc.1) (makeExpr_sorted t ht.2.1 hc.2.1)
      (makeExpr_sorted f ht.2.2.1 hc.2.2.1) ht.2.2.2.1 ht.2.2.2.2
  | .concat l r, ht, hc =>
    makes_concat (makeExpr_sorted l ht.1 hc.1) (makeExpr_sorted r ht.2 hc.2.1) hc.2.2.1 hc.2.2.2
  | .extract e _ _, ht, hc => makes_extract (makeExpr_sorted e ht.1 hc.1) hc.2.1 hc.2.2 ht.2
  | .zext src _, ht, hc => (makes_extension (makeExpr_sorted src ht.1 hc.1) hc.2.1 hc.2.2).1
  | .sext src _, ht, hc => (makes_extension (makeExpr_sorted src ht.1 hc.1) hc.2.1 hc.2.2).2
  | .not e, ht, hc => makes_not (makeExpr_sorted e ht hc.1)
  | .arithmetic _ l r, ht, hc =>
    makes_arithmetic (makeExpr_sorted l ht.1 hc.1) (makeExpr_sorted r ht.2.1 hc.2.1) ht.2.2 hc.2.2
  | .compare _ l r, ht, hc =>
    makes_compare (makeExpr_sorted l ht.1 hc.1) (makeExpr_sorted r ht.2.1 hc.2.1) ht.2.2
      hc.2.2.1 hc.2.2.2

theorem getReadForArray_sorted (root : KArray) : (un : UpdateNode) → un.WellTyped →
    un.Everywhere CanonicalNode → index.HasSort (.bitVec 32) →
    ∃ t, getReadForArray N mode index root un = some t ∧ t.HasSort (.bitVec 8)
  | .null, _, _, hd => ⟨_, rfl, getReadForInitialArray_sorted hd⟩
  | .node i v next, ht, hc, hd => by
    obtain ⟨ti, hi, hsi⟩ := (makeExpr_sorted i ht.1 hc.1).bits ht.2.1 (by decide)
    obtain ⟨tv, hv, hsv⟩ := (makeExpr_sorted v ht.2.2.1 hc.2.1).bits ht.2.2.2.1 (by decide)
    obtain ⟨tree, hte, hst⟩ := getReadForArray_sorted root next ht.2.2.2.2 hc.2.2 hd
    refine ⟨_, ?_, (hd.eq_bits hsi).ite hsv hst⟩
    rw [getReadForArray, hi, hv, hte]
    rfl

theorem getArrayForUpdate_sorted (root : KArray) : (un : UpdateNode) → un.WellTyped →
    un.Everywhere CanonicalNode →
    ∃ t, getArrayForUpdate N mode root un = some t ∧ t.HasSort (.array 32 8)
  | .null, _, _ => ⟨_, rfl, getInitialArray_sorted N mode root⟩
  | .node i v next, ht, hc => by
    obtain ⟨ti, hi, hsi⟩ := (makeExpr_sorted i ht.1 hc.1).bits ht.2.1 (by decide)
    obtain ⟨tv, hv, hsv⟩ := (makeExpr_sorted v ht.2.2.1 hc.2.1).bits ht.2.2.2.1 (by decide)
    obtain ⟨array, ha, hsa⟩ := getArrayForUpdate_sorted root next ht.2.2.2.2 hc.2.2
    refine ⟨_, ?_, hsa.store hsi hsv⟩
    rw [getArrayForUpdate, ha, hi, hv]
    rfl

end
end Chef
