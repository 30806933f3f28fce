import Chef.Z3Arrays

namespace Chef
open Foundations Z3Builder List Chef.Expr Nat ArrayNames APInt
/-- Canonical form of booleans and widths. -/
def Expr.CanonicalNode : Expr → Prop
  | .constant w _ => 0 < w
  | .read root _ _ => root.size < 2 ^ 32
  | .concat l r => 1 < l.width ∧ 1 < r.width
  | .extract e _ w => e.width ≠ 1 ∧ 0 < w
  | .zext src w => 0 < src.width ∧ src.width < w
  | .sext src w => 0 < src.width ∧ src.width < w
  | .arithmetic kind l _ => l.width = 1 → kind.connective.isSome = true
  | .compare kind l _ => kind.isCanonical = true ∧ (l.width = 1 → kind = .eq)
  | _ => True

/-- Divisors are not zero, and reads are in range. -/
def Expr.DefinedNode (A : APInt) (ρ : Assignment) : Expr → Prop
  | .read root _ index => index.evaluate A ρ < root.size
  | .arithmetic kind _ r => kind.isDivision = true → r.evaluate A ρ ≠ 0
  | _ => True

/-- An extended boolean is false, and a right shift leaves a bit. -/
def Expr.KeptNode (A : APInt) (ρ : Assignment) : Expr → Prop
  | .sext src _ => src.width = 1 → src.evaluate A ρ ≠ 1
  | .arithmetic kind l r => kind = .ashr →
    ShiftKept (BitVec.ofNat l.width (l.evaluate A ρ)) (BitVec.ofNat l.width (r.evaluate A ρ))
  | _ => True

section
variable (h : Interprets N mode μ ρ (roots ++ roots'))
include h
theorem Interprets.left : Interprets N mode μ ρ roots := h.subset fun _ => mem_append_left _

theorem Interprets.right : Interprets N mode μ ρ roots' := h.subset fun _ => mem_append_right _

end

section
variable (h : Interprets N mode μ ρ (root :: roots))
include h
theorem Interprets.head : Interprets N mode μ ρ [root] := by
  apply h.subset
  intro root' hm
  rw [mem_singleton.1 hm]
  exact mem_cons_self

theorem Interprets.tail : Interprets N mode μ ρ roots := h.subset fun _ => mem_cons_of_mem _

end

theorem node_iff (h : a ↔ b) (hp : a → (p ↔ q)) : a ∧ p ↔ b ∧ q :=
  (and_congr_right hp).trans (and_congr_left fun _ => h)

section
variable {N : ArrayNames}
mutual
/-- All parts are translated to their values exactly if all are kept. -/
theorem Expr.translated_iff_kept (hA : A.Shifts) :
    (e : Expr) → e.WellTyped → e.Everywhere CanonicalNode →
      e.Everywhere (DefinedNode A ρ) → Interprets N mode μ ρ e.arrays →
      (e.Everywhere (Translated N mode μ A ρ) ↔ e.Everywhere (KeptNode A ρ))
  | .constant _ _, ht, _, _, _ => iff_of_true (translated_constant ht) trivial
  | .notOptimized src, ht, hc, hd, hi =>
    node_iff (src.translated_iff_kept hA ht hc.1 hd.1 hi) fun h =>
      iff_of_true (translated_notOptimized h.self) trivial
  | .read _ head index, ht, hc, hd, hi =>
    node_iff (head.translated_iff_kept hA ht.1 hc.1 hd.1 hi.tail.left) fun hhd =>
      node_iff (index.translated_iff_kept hA ht.2.1 hc.2.1 hd.2.1 hi.tail.right) fun hix =>
        iff_of_true (translated_read hi.head hc.2.2 ht.1 hhd hix.self ht.2.2 hd.2.2) trivial
  | .select c t f, ht, hc, hd, hi =>
    node_iff (c.translated_iff_kept hA ht.1 hc.1 hd.1 hi.left) fun h1 =>
      node_iff (t.translated_iff_kept hA ht.2.1 hc.2.1 hd.2.1 hi.right.left) fun h2 =>
        node_iff (f.translated_iff_kept hA ht.2.2.1 hc.2.2.1 hd.2.2.1 hi.right.right) fun h3 =>
          iff_of_true (translated_select h1.self h2.self h3.self ht.2.2.2.1 ht.2.2.2.2) trivial
  | .concat l r, ht, hc, hd, hi =>
    node_iff (l.translated_iff_kept hA ht.1 hc.1 hd.1 hi.left) fun hl =>
      node_iff (r.translated_iff_kept hA ht.2 hc.2.1 hd.2.1 hi.right) fun hr =>
        iff_of_true (translated_concat hl.self hr.self ht.1 ht.2 hc.2.2.1 hc.2.2.2) trivial
  | .extract e _ _, ht, hc, hd, hi =>
    node_iff (e.translated_iff_kept hA ht.1 hc.1 hd.1 hi) fun h =>
      iff_of_true (translated_extract h.self ht.1 hc.2.1 hc.2.2 ht.2) trivial
  | .zext src _, ht, hc, hd, hi =>
    node_iff (src.translated_iff_kept hA ht.1 hc.1 hd.1 hi) fun h =>
      iff_of_true (translated_zext h.self ht.1 hc.2.1 hc.2.2) trivial
  | .sext src _, ht, hc, hd, hi =>
    node_iff (src.translated_iff_kept hA ht.1 hc.1 hd.1 hi) fun h =>
      translated_sext_iff h.self ht.1 hc.2.1 hc.2.2
  | .not e, ht, hc, hd, hi =>
    node_iff (e.translated_iff_kept hA ht hc.1 hd.1 hi) fun h =>
      iff_of_true (translated_not h.self ht) trivial
  | .arithmetic _ l r, ht, hc, hd, hi =>
    node_iff (l.translated_iff_kept hA ht.1 hc.1 hd.1 hi.left) fun hl =>
      node_iff (r.translated_iff_kept hA ht.2.1 hc.2.1 hd.2.1 hi.right) fun hr =>
        translated_arithmetic_iff hA hl.self hr.self ht.1 ht.2.1 ht.2.2 hc.2.2 hd.2.2
  | .compare _ l r, ht, hc, hd, hi =>
    node_iff (l.translated_iff_kept hA ht.1 hc.1 hd.1 hi.left) fun hl =>
      node_iff (r.translated_iff_kept hA ht.2.1 hc.2.1 hd.2.1 hi.right) fun hr =>
        iff_of_true (translated_compare hl.self hr.self ht.1 ht.2.1 ht.2.2 hc.2.2.1 hc.2.2.2)
          trivial

theorem UpdateNode.translated_iff_kept (hA : A.Shifts) :
    (un : UpdateNode) → un.WellTyped → un.Everywhere CanonicalNode →
      un.Everywhere (DefinedNode A ρ) → Interprets N mode μ ρ un.arrays →
      (un.Everywhere (Translated N mode μ A ρ) ↔ un.Everywhere (KeptNode A ρ))
  | .null, _, _, _, _ => Iff.rfl
  | .node index value next, ht, hc, hd, hi =>
    node_iff (index.translated_iff_kept hA ht.1 hc.1 hd.1 hi.left) fun _ =>
      node_iff (value.translated_iff_kept hA ht.2.2.1 hc.2.1 hd.2.1 hi.right.left) fun _ =>
        UpdateNode.translated_iff_kept hA next ht.2.2.2.2 hc.2.2 hd.2.2 hi.right.right

end
end

theorem append_cons_injective (h : x ++ c :: s = y ++ c :: t)
    (hs : c ∉ s) (ht : c ∉ t) : x = y ∧ s = t := by
  rcases append_eq_append_iff.1 h with ⟨z, rfl, hz⟩ | ⟨z, rfl, hz⟩
  · cases z with
    | nil =>
      cases hz
      exact ⟨(append_nil x).symm, rfl⟩
    | cons d z =>
      cases hz
      exact absurd mem_append_cons_self hs
  · cases z with
    | nil =>
      cases hz
      exact ⟨append_nil y, rfl⟩
    | cons d z =>
      cases hz
      exact absurd mem_append_cons_self ht

theorem text_injective (h : x ++ "_" ++ s = y ++ "_" ++ t)
    (hs : '_' ∉ s.toList) (ht : '_' ∉ t.toList) : x = y ∧ s = t := by
  have hl := congrArg String.toList h
  simp only [String.toList_append, append_assoc] at hl
  obtain ⟨hx, hs⟩ := append_cons_injective hl hs ht
  exact ⟨String.toList_inj.1 hx, String.toList_inj.1 hs⟩

/-- The names that the mode prints are not cut off. -/
def ArrayNames.Fits (N : ArrayNames) (mode : ArrayMode) (roots : List KArray) : Prop :=
  ∀ root ∈ roots, match mode with
    | .ite => root.isSymbolicArray = true → ∀ i, i < root.size → (byteText N root i).length ≤ 255
    | .stores | .asserts => (arrayText N root).length ≤ 255

def Identified (roots : List KArray) : Prop :=
  ∀ root ∈ roots, ∀ root' ∈ roots, root.id = root'.id → root = root'

theorem printed_of_fits (h : text.length ≤ 255) : printed text = text := by
  rw [printed, take_of_length_le (String.length_toList ▸ h), String.ofList_toList]

theorem arrayText_injective (hid : Identified roots) (hr : root ∈ roots) (hr' : root' ∈ roots)
    (h : arrayText N root = arrayText N root') : root = root' := by
  obtain ⟨_, hp⟩ := text_injective h (N.pointer_plain _) (N.pointer_plain _)
  exact hid root hr root' hr' (N.pointer_injective _ _ hp)

theorem repr_plain (i : Nat) : '_' ∉ i.repr.toList := by
  rw [toList_repr]
  exact underscore_not_in_toDigits

theorem byteText_injective (hid : Identified roots) (hr : root ∈ roots) (hr' : root' ∈ roots)
    (h : byteText N root i = byteText N root' j) : root = root' ∧ i = j := by
  obtain ⟨ha, hi⟩ := text_injective h (repr_plain i) (repr_plain j)
  have hd := congrArg (fun s => ofDigitChars 10 s.toList 0) hi
  simp only [toList_repr, ofDigitChars_ten_toDigits] at hd
  exact ⟨arrayText_injective hid hr hr' ha, hd⟩

def modelOf (N : ArrayNames) (ρ : Assignment) (roots : List KArray) : SmtModel where
  value name sort :=
    match sort with
    | .bool => .bool false
    | .bitVec w =>
      let byte := roots.findSome? fun root => (range root.size).findSome? fun i =>
        if root.isSymbolicArray ∧ printed (byteText N root i) = name then some (ρ root i).toNat
        else none
      .bits w (BitVec.ofNat w (byte.getD 0))
    | .array m n =>
      let array := roots.find? fun root => printed (arrayText N root) = name
      .array m n fun x =>
        BitVec.ofNat n ((array.map fun root => (root.initialValue ρ x.toNat).toNat).getD 0)
  sorted name sort := by
    cases sort <;> rfl

section
variable {N : ArrayNames}
theorem ofNat_toNat_byte (b : UInt8) : BitVec.ofNat 8 b.toNat = b.toBitVec := by
  rw [UInt8.toNat, BitVec.ofNat_toNat, BitVec.setWidth_eq]

variable (hid : Identified roots)
include hid
theorem modelOf_byte (hfit : N.Fits .ite roots) (hr : root ∈ roots)
    (hs : root.isSymbolicArray = true) (hi : i < root.size) :
    (modelOf N ρ roots).value (printed (byteText N root i)) (.bitVec 8) =
      .bits 8 (ρ root i).toBitVec := by
  have hf : (roots.findSome? fun root' => (range root'.size).findSome? fun j =>
      if root'.isSymbolicArray ∧ printed (byteText N root' j) = printed (byteText N root i) then
        some (ρ root' j).toNat else none) = some (ρ root i).toNat := by
    cases hv : roots.findSome? fun root' => (range root'.size).findSome? fun j =>
        if root'.isSymbolicArray ∧ printed (byteText N root' j) = printed (byteText N root i) then
          some (ρ root' j).toNat else none with
    | none =>
      have hin := List.findSome?_eq_none_iff.1 hv root hr
      have hh := List.findSome?_eq_none_iff.1 hin i (mem_range.2 hi)
      rw [if_pos ⟨hs, rfl⟩] at hh
      cases hh
    | some v =>
      obtain ⟨root', hr', hin⟩ := exists_of_findSome?_eq_some hv
      obtain ⟨j, hj, hh⟩ := exists_of_findSome?_eq_some hin
      have hj' := mem_range.1 hj
      split at hh
      next hn =>
        obtain ⟨hs', hn⟩ := hn
        rw [printed_of_fits (hfit root' hr' hs' j hj'), printed_of_fits (hfit root hr hs i hi)]
          at hn
        obtain ⟨rfl, rfl⟩ := byteText_injective hid hr' hr hn
        exact hh.symm
      · cases hh
  simp only [modelOf, hf, Option.getD_some, ofNat_toNat_byte]

theorem modelOf_array (hfit : ∀ root ∈ roots, (arrayText N root).length ≤ 255)
    (hr : root ∈ roots) : (arrayConst N root).eval (modelOf N ρ roots) =
      some (.array 32 8 fun x => (root.initialValue ρ x.toNat).toBitVec) := by
  have hf : (roots.find? fun root' => printed (arrayText N root') = printed (arrayText N root)) =
      some root := by
    cases hs : roots.find? fun root' =>
        printed (arrayText N root') = printed (arrayText N root) with
    | none =>
      have hh := List.find?_eq_none.1 hs root hr
      exact absurd (decide_eq_true rfl) hh
    | some root' =>
      have hr' := mem_of_find?_eq_some hs
      have hn := List.find?_some hs
      rw [decide_eq_true_iff, printed_of_fits (hfit root' hr'),
        printed_of_fits (hfit root hr)] at hn
      rw [arrayText_injective hid hr' hr hn]
  simp only [arrayConst, SmtTerm.eval, modelOf, hf, Option.map_some, Option.getD_some,
    ofNat_toNat_byte]

theorem modelOf_interprets (hfit : N.Fits mode roots) (hz : ∀ root ∈ roots, root.size < 2 ^ 32) :
    Interprets N mode (modelOf N ρ roots) ρ roots := by
  constructor
  · intro root hr hs i hi
    cases mode with
    | ite =>
      refine ⟨_, getArrayValues_getElem? hi, ?_⟩
      rw [if_pos hs, SmtTerm.eval, modelOf_byte hid hfit hr hs hi]
    | stores | asserts =>
      refine ⟨_, rfl, ?_⟩
      have hv : (SmtTerm.bitVecVal 32 i).eval (modelOf N ρ roots) =
          some (.bits 32 (BitVec.ofNat 32 i)) := rfl
      have hlt := hz root hr
      rw [getInitialArray, if_pos hs, SmtTerm.eval_select (modelOf_array hid hfit hr) hv,
        BitVec.toNat_ofNat, mod_eq_of_lt (by omega), initialValue_symbolic hs]
  · rintro rfl root hr hs
    rw [eval_getArrayAssertion hs (modelOf_array hid hfit hr), decide_eq_true]
    intro i hi
    have hlt := hz root hr
    rw [BitVec.toNat_ofNat, mod_eq_of_lt (by omega)]

end

mutual
theorem Expr.arrays_sized :
    (e : Expr) → e.Everywhere CanonicalNode → ∀ root ∈ e.arrays, root.size < 2 ^ 32
  | .constant _ _, _ => forall_mem_nil _
  | .notOptimized src, h | .zext src _, h | .sext src _, h | .not src, h | .extract src _ _, h =>
    src.arrays_sized h.1
  | .read _ head index, h => forall_mem_cons.2
    ⟨h.2.2, forall_mem_append.2 ⟨head.arrays_sized h.1, index.arrays_sized h.2.1⟩⟩
  | .select c t f, h => forall_mem_append.2
    ⟨c.arrays_sized h.1, forall_mem_append.2 ⟨t.arrays_sized h.2.1, f.arrays_sized h.2.2.1⟩⟩
  | .concat l r, h | .arithmetic _ l r, h | .compare _ l r, h =>
    forall_mem_append.2 ⟨l.arrays_sized h.1, r.arrays_sized h.2.1⟩

theorem UpdateNode.arrays_sized :
    (un : UpdateNode) → un.Everywhere CanonicalNode → ∀ root ∈ un.arrays, root.size < 2 ^ 32
  | .null, _ => forall_mem_nil _
  | .node index value next, h => forall_mem_append.2 ⟨index.arrays_sized h.1,
      forall_mem_append.2 ⟨value.arrays_sized h.2.1, next.arrays_sized h.2.2⟩⟩

end

/-- Terms are right unless a true boolean or a negative number loses its sign. -/
theorem makeExpr_preserves_iff (N : ArrayNames) (mode : ArrayMode) {A : APInt} (hA : A.Shifts)
    (ρ : Assignment) (e : Expr) (htyped : e.WellTyped)
    (hcan : e.Everywhere CanonicalNode) (hdef : e.Everywhere (DefinedNode A ρ))
    (hid : Identified e.arrays) (hfit : N.Fits mode e.arrays) :
    (∃ μ, Interprets N mode μ ρ e.arrays) ∧ ∀ μ, Interprets N mode μ ρ e.arrays →
        (e.Everywhere (Translated N mode μ A ρ) ↔ e.Everywhere (KeptNode A ρ)) := by
  constructor
  · exact ⟨_, modelOf_interprets hid hfit (e.arrays_sized hcan)⟩
  · intro μ hμ
    exact e.translated_iff_kept hA htyped hcan hdef hμ

def ArrayNames.numbered : ArrayNames where
  name _ := "x"
  pointer i := i.repr
  pointer_injective i j h := by
    have hdigits := congrArg (fun s => ofDigitChars 10 s.toList 0) h
    simp only [toList_repr, ofDigitChars_ten_toDigits] at hdigits
    exact hdigits
  pointer_plain := repr_plain

def firstByteZero : Expr := .compare .eq (.constant 8 0)
    (.read ⟨0, 4, []⟩ (.node (.constant 32 1) (.constant 8 7) .null) (.constant 32 0))

theorem firstByteZero_canonical : firstByteZero.Everywhere CanonicalNode := by
  simp [firstByteZero, Everywhere, UpdateNode.Everywhere, CanonicalNode, CmpKind.isCanonical, width]

theorem firstByteZero_defined (ρ : Assignment) : firstByteZero.Everywhere (DefinedNode llvm ρ) := by
  simp [firstByteZero, Everywhere, UpdateNode.Everywhere, DefinedNode, evaluate]

theorem firstByteZero_kept (ρ : Assignment) : firstByteZero.Everywhere (KeptNode llvm ρ) := by
  simp [firstByteZero, Everywhere, UpdateNode.Everywhere, KeptNode]

theorem firstByteZero_identified : Identified firstByteZero.arrays := by
  intro root hr root' hr' _
  rw [mem_singleton.1 hr, mem_singleton.1 hr']

theorem firstByteZero_fits (mode : ArrayMode) : numbered.Fits mode firstByteZero.arrays := by
  intro root hr
  rw [mem_singleton.1 hr]
  cases mode <;> decide +kernel

theorem signOfNonzero_preserved : (sext firstByteZero 8).WellTyped ∧
      ∀ mode μ, Interprets numbered mode μ (fun _ _ => 5) firstByteZero.arrays →
        (sext firstByteZero 8).Everywhere (Translated numbered mode μ llvm fun _ _ => 5) := by
  have hty : (sext firstByteZero 8).WellTyped := by decide
  refine ⟨hty, fun mode μ hμ => ?_⟩
  apply ((makeExpr_preserves_iff numbered mode llvm_shifts (fun _ _ => 5)
    (.sext firstByteZero 8) hty ⟨firstByteZero_canonical, by decide, by decide⟩
    ⟨firstByteZero_defined _, trivial⟩ firstByteZero_identified (firstByteZero_fits mode)).2 μ hμ).2
  refine ⟨firstByteZero_kept _, fun _ => ?_⟩
  decide +kernel

/-- Extending a true comparison sets all bits, but its term is one. -/
theorem signOfZero_not_preserved : (sext firstByteZero 8).WellTyped ∧
      (sext firstByteZero 8).Everywhere CanonicalNode ∧
      (sext firstByteZero 8).Everywhere (DefinedNode llvm fun _ _ => 0) ∧
      ∀ mode, ∃ μ, Interprets numbered mode μ (fun _ _ => 0) firstByteZero.arrays ∧
        ¬Translated numbered mode μ llvm (fun _ _ => 0) (.sext firstByteZero 8) := by
  refine ⟨by decide, ⟨firstByteZero_canonical, by decide, by decide⟩,
    ⟨firstByteZero_defined _, trivial⟩, fun mode => ?_⟩
  have hμ : Interprets numbered mode _ (fun _ _ => 0) firstByteZero.arrays :=
    modelOf_interprets firstByteZero_identified (firstByteZero_fits mode)
      (firstByteZero.arrays_sized firstByteZero_canonical)
  have hkp := (firstByteZero.translated_iff_kept llvm_shifts (by decide)
    firstByteZero_canonical (firstByteZero_defined _) hμ).2 (firstByteZero_kept _)
  refine ⟨_, hμ, fun h => ?_⟩
  apply (translated_sext_iff hkp.self (by decide) (by decide) (by decide)).1 h rfl
  decide +kernel

end Chef
