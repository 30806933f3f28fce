import Chef.Z3Solver
import Chef.Z3Preserves

namespace Chef
open Foundations List Z3Builder StateT
section
variable (N : ArrayNames) (mode : ArrayMode) (roots : List KArray)
def ArrayFact (a : SmtTerm) : Prop :=
  mode = .asserts ∧ ∃ root ∈ roots, root.isSymbolicArray = false ∧
    a = getArrayAssertion root (arrayConst N root)

def FactsIn (Γ : List SmtTerm) : Prop := ∀ a, ArrayFact N mode roots a → a ∈ Γ

/-- A frame holds terms of the builder for known arrays. -/
structure CacheFrame.Right (f : CacheFrame) (Γ : List SmtTerm) : Prop where
  exprs : ∀ e t, f.exprs.lookup e = some t → makeExpr N mode e = some t ∧ FactsIn N mode e.arrays Γ
  arrays : ∀ root t, f.arrays.lookup root = some t →
    getInitialArray N mode root = t ∧ FactsIn N mode [root] Γ
  updates : ∀ root un t, f.updates.lookup (root, un) = some t →
    getArrayForUpdate N mode root un = some t ∧ FactsIn N mode (root :: un.arrays) Γ
  arrayVariables : ∀ root ts, f.arrayVariables.lookup root = some ts → getArrayValues N root = ts
  reads : ∀ index root un t, f.reads.lookup (index, root, un) = some t →
    getReadForArray N mode index root un = some t ∧ FactsIn N mode un.arrays Γ

structure Z3Session.Extended (s s' : Z3Session) : Prop where
  outer : s'.outer = s.outer
  incremental : s'.incremental = s.incremental
  saved : s'.saved = s.saved
  assertions : ∀ a, a ∈ s'.assertions ↔ a ∈ s.assertions ∨ ArrayFact N mode roots a
  right : s'.frame.Right N mode s'.assertions

/-- It returns a value, and asserts at most facts about some arrays. -/
def Z3Session.Yields (s : Z3Session) (x : Z3Action α) (v : α) (roots : List KArray) : Prop :=
  ∃ s', x.run s = some (v, s') ∧ s.Extended N mode roots s'

end

theorem arrayFact_append : ArrayFact N mode (roots ++ roots') a ↔
    ArrayFact N mode roots a ∨ ArrayFact N mode roots' a := by
  constructor
  · rintro ⟨hm, root, hr, ha⟩
    rcases mem_append.1 hr with hr | hr
    · exact .inl ⟨hm, root, hr, ha⟩
    · exact .inr ⟨hm, root, hr, ha⟩
  · rintro (⟨hm, root, hr, ha⟩ | ⟨hm, root, hr, ha⟩)
    · exact ⟨hm, root, mem_append_left _ hr, ha⟩
    · exact ⟨hm, root, mem_append_right _ hr, ha⟩

theorem ArrayFact.mono (h : ArrayFact N mode roots a) (hb : ∀ root ∈ roots, root ∈ roots') :
    ArrayFact N mode roots' a := by
  obtain ⟨hm, root, hr, ha⟩ := h
  exact ⟨hm, root, hb root hr, ha⟩

theorem not_arrayFact_nil : ¬ArrayFact N mode [] a := by
  rintro ⟨_, root, hr, _⟩
  cases hr

theorem arrayFact_congr (h : ∀ root, root ∈ roots ↔ root ∈ roots') (a : SmtTerm) :
    ArrayFact N mode roots a ↔ ArrayFact N mode roots' a :=
  ⟨fun ha => ha.mono fun root => (h root).1, fun ha => ha.mono fun root => (h root).2⟩

theorem arrayFact_mode (h : mode ≠ .asserts) (roots roots' : List KArray) (a : SmtTerm) :
    ArrayFact N mode roots a ↔ ArrayFact N mode roots' a :=
  iff_of_false (fun ha => h ha.1) (fun ha => h ha.1)

theorem arrayFact_symbolic (h : KArray.isSymbolicArray root = true) (a : SmtTerm) :
    ArrayFact N mode [] a ↔ ArrayFact N mode [root] a := by
  apply iff_of_false not_arrayFact_nil
  rintro ⟨_, root', hrt, hc, _⟩
  rw [mem_singleton.1 hrt, h] at hc
  cases hc

theorem FactsIn.mono (h : FactsIn N mode roots Γ) (hb : ∀ a ∈ Γ, a ∈ Γ') :
    FactsIn N mode roots Γ' := fun a ha => hb a (h a ha)

theorem CacheFrame.Right.mono {f : CacheFrame} (h : f.Right N mode Γ) (hb : ∀ a ∈ Γ, a ∈ Γ') :
    f.Right N mode Γ' where
  exprs e t hl := (h.exprs e t hl).imp_right (·.mono hb)
  arrays root t hl := (h.arrays root t hl).imp_right (·.mono hb)
  updates root un t hl := (h.updates root un t hl).imp_right (·.mono hb)
  arrayVariables := h.arrayVariables
  reads index root un t hl := (h.reads index root un t hl).imp_right (·.mono hb)

theorem CacheFrame.empty_right (N : ArrayNames) (mode : ArrayMode) (Γ : List SmtTerm) :
    CacheFrame.empty.Right N mode Γ where
  exprs _ _ hl := nomatch hl
  arrays _ _ hl := nomatch hl
  updates _ _ _ hl := nomatch hl
  arrayVariables _ _ hl := nomatch hl
  reads _ _ _ _ hl := nomatch hl

theorem lookup_insert [BEq α] [LawfulBEq α] {l : List (α × β)}
    (h : ((a, x) :: l).lookup b = some y) : b = a ∧ y = x ∨ l.lookup b = some y := by
  rw [lookup_cons] at h
  cases hba : b == a with
  | true =>
    rw [hba] at h
    exact .inl ⟨eq_of_beq hba, (Option.some.inj h).symm⟩
  | false =>
    rw [hba] at h
    exact .inr h

namespace Z3Session
variable {s : Z3Session}
theorem Yields.pure (h : s.frame.Right N mode s.assertions) (v : α) :
    s.Yields N mode (Pure.pure v) v [] :=
  ⟨s, rfl, rfl, rfl, rfl, fun _ => (or_iff_left not_arrayFact_nil).symm, h⟩

theorem Yields.congr {x : Z3Action α} (h : s.Yields N mode x v roots)
    (hfa : ∀ a, ArrayFact N mode roots a ↔ ArrayFact N mode roots' a) :
    s.Yields N mode x v roots' := by
  obtain ⟨s', hr, he⟩ := h
  refine ⟨s', hr, he.outer, he.incremental, he.saved, fun a => ?_, he.right⟩
  rw [he.assertions, hfa]

theorem Yields.bind {x : Z3Action α} (hx : s.Yields N mode x v roots)
    (hf : ∀ s' : Z3Session, s'.frame.Right N mode s'.assertions → s'.Yields N mode (f v) w roots') :
    s.Yields N mode (x >>= f) w (roots ++ roots') := by
  obtain ⟨s', hrn, hext⟩ := hx
  obtain ⟨s'', hru, het⟩ := hf s' hext.right
  refine ⟨s'', ?_, het.outer.trans hext.outer, het.incremental.trans hext.incremental,
    het.saved.trans hext.saved, fun a => ?_, het.right⟩
  · rw [run_bind, hrn]
    exact hru
  · rw [het.assertions, hext.assertions, arrayFact_append, or_assoc]

theorem Yields.map {x : Z3Action α} (hx : s.Yields N mode x v roots) (g : α → β) :
    s.Yields N mode (x >>= fun a => Pure.pure (g a)) (g v) roots := by
  rw [← append_nil roots]
  exact hx.bind fun s' hs' => Yields.pure hs' (g v)

theorem Yields.lift (h : s.frame.Right N mode s.assertions) {o : Option α} (ho : o = some v) :
    s.Yields N mode (StateT.lift o) v [] := by
  refine ⟨s, ?_, rfl, rfl, rfl, fun _ => (or_iff_left not_arrayFact_nil).symm, h⟩
  rw [ho]
  rfl

section
variable (hs : s.frame.Right N mode s.assertions)
include hs
theorem Yields.findOrMake {insert : α → CacheFrame → CacheFrame}
    (hd : ∀ r, find s.frame = some r → r = v ∧ FactsIn N mode roots s.assertions)
    (hm : s.Yields N mode make v roots)
    (hi : ∀ f Γ, CacheFrame.Right N mode f Γ → FactsIn N mode roots Γ →
      (insert v f).Right N mode Γ) : s.Yields N mode (findOrMake find insert make) v roots := by
  cases hf : find s.frame with
  | some r =>
    obtain ⟨rfl, hfa⟩ := hd r hf
    refine ⟨s, ?_, rfl, rfl, rfl, fun a => ⟨.inl, fun h => h.elim (fun h => h) (hfa a)⟩, hs⟩
    simp only [Z3Session.findOrMake, run_bind, run_get, pure_bind, hf]
    rfl
  | none =>
    obtain ⟨s', hr, he⟩ := hm
    refine ⟨{ s' with frame := insert v s'.frame }, ?_, he.outer, he.incremental, he.saved,
      he.assertions, ?_⟩
    · simp only [Z3Session.findOrMake, run_bind, run_get, pure_bind, hf, hr]
      rfl
    · exact hi _ _ he.right fun a ha => (he.assertions a).2 (.inr ha)

theorem Yields.findOrMakeExpr
    (he : makeExpr N mode e = some t) (hm : s.Yields N mode make t e.arrays) :
    s.Yields N mode (Z3Session.findOrMakeExpr e make) t e.arrays := by
  refine Yields.findOrMake hs (fun r hr => (hs.exprs e r hr).imp_left fun hmd =>
    Option.some.inj (hmd.symm.trans he)) hm fun f Γ hf hfa => ?_
  refine { hf with exprs := fun e' t' hl => ?_ }
  rcases lookup_insert hl with ⟨rfl, rfl⟩ | hl
  · exact ⟨he, hfa⟩
  · exact hf.exprs e' t' hl

theorem Yields.findOrMakeArray
    (hm : s.Yields N mode make (Z3Builder.getInitialArray N mode root) [root]) :
    s.Yields N mode (Z3Session.findOrMakeArray root make)
      (Z3Builder.getInitialArray N mode root) [root] := by
  refine Yields.findOrMake hs (fun r hr => ?_) hm fun f Γ hf hfa => ?_
  · obtain ⟨hmd, hfa⟩ := hs.arrays root r hr
    exact ⟨hmd.symm, hfa⟩
  refine { hf with arrays := fun root' t' hl => ?_ }
  rcases lookup_insert hl with ⟨rfl, rfl⟩ | hl
  · exact ⟨rfl, hfa⟩
  · exact hf.arrays root' t' hl

theorem Yields.findOrMakeUpdate (hun : Z3Builder.getArrayForUpdate N mode root un = some t)
    (hm : s.Yields N mode make t (root :: un.arrays)) :
    s.Yields N mode (Z3Session.findOrMakeUpdate root un make) t (root :: un.arrays) := by
  refine Yields.findOrMake hs (fun r hr => (hs.updates root un r hr).imp_left fun hmd =>
    Option.some.inj (hmd.symm.trans hun)) hm fun f Γ hf hfa => ?_
  refine { hf with updates := fun root' un' t' hl => ?_ }
  rcases lookup_insert hl with ⟨hk, rfl⟩ | hl
  · cases hk
    exact ⟨hun, hfa⟩
  · exact hf.updates root' un' t' hl

theorem Yields.findOrMakeVariables
    (hm : s.Yields N mode make (Z3Builder.getArrayValues N root) []) :
    s.Yields N mode (Z3Session.findOrMakeVariables root make)
      (Z3Builder.getArrayValues N root) [] := by
  refine Yields.findOrMake hs (fun r hr => ?_) hm fun f Γ hf _ => ?_
  · exact ⟨(hs.arrayVariables root r hr).symm, fun a ha => absurd ha not_arrayFact_nil⟩
  refine { hf with arrayVariables := fun root' ts hl => ?_ }
  rcases lookup_insert hl with ⟨rfl, rfl⟩ | hl
  · rfl
  · exact hf.arrayVariables root' ts hl

theorem Yields.findOrMakeRead (hd : Z3Builder.getReadForArray N mode index root un = some t)
    (hm : s.Yields N mode make t un.arrays) :
    s.Yields N mode (Z3Session.findOrMakeRead index root un make) t un.arrays := by
  refine Yields.findOrMake hs (fun r hr => (hs.reads index root un r hr).imp_left fun hmd =>
    Option.some.inj (hmd.symm.trans hd)) hm fun f Γ hf hfa => ?_
  refine { hf with reads := fun index' root' un' t' hl => ?_ }
  rcases lookup_insert hl with ⟨hk, rfl⟩ | hl
  · cases hk
    exact ⟨hd, hfa⟩
  · exact hf.reads index' root' un' t' hl

end

theorem add_yields (hs : s.frame.Right N .asserts s.assertions)
    (hr : KArray.isSymbolicArray root = false) (v : α) : s.Yields N .asserts (do
      modify (add (getArrayAssertion root (arrayConst N root))) return v) v [root] := by
  refine ⟨_, rfl, rfl, rfl, rfl, fun a => ?_, ?_⟩
  · constructor
    · intro ha
      rcases mem_cons.1 ha with rfl | ha
      · exact .inr ⟨rfl, root, mem_cons_self, hr, rfl⟩
      · exact .inl ha
    · rintro (ha | ⟨_, root', hrt, _, rfl⟩)
      · exact mem_cons_of_mem _ ha
      · rw [mem_singleton.1 hrt]
        exact mem_cons_self
  · exact hs.mono fun a => mem_cons_of_mem _

section
variable (hs : s.frame.Right N mode s.assertions)
include hs
theorem getInitialArray_yields (root : KArray) :
    s.Yields N mode (getInitialArray N mode root) (Z3Builder.getInitialArray N mode root)
      [root] := by
  refine Yields.findOrMakeArray hs ?_
  cases hr : root.isSymbolicArray with
  | true =>
    rw [Z3Builder.getInitialArray, if_pos hr]
    exact (Yields.pure hs _).congr (arrayFact_symbolic hr)
  | false =>
    have hc : ¬root.isSymbolicArray = true := by
      rw [hr]
      exact Bool.false_ne_true
    rw [Z3Builder.getInitialArray, if_neg hc]
    cases mode with
    | ite | stores => exact (Yields.pure hs _).congr (arrayFact_mode (by decide) _ _)
    | asserts => exact add_yields hs hr _

theorem getArrayValues_yields (root : KArray) :
    s.Yields N mode (getArrayValues N root) (Z3Builder.getArrayValues N root) [] :=
  Yields.findOrMakeVariables hs (Yields.pure hs _)

theorem getReadForInitialArray_yields (index : SmtTerm) (root : KArray) :
    s.Yields N mode (getReadForInitialArray N index root)
      (Z3Builder.getReadForInitialArray N index root) [] :=
  (getArrayValues_yields hs root).map _

end

mutual
/-- The caches do not change the terms that are made. -/
theorem getOrMakeExpr_yields : (e : Expr) → {s : Z3Session} → s.frame.Right N mode s.assertions →
    Z3Builder.makeExpr N mode e = some t → s.Yields N mode (getOrMakeExpr N mode e) t e.arrays
  | .constant w v, s, hs, h => by
    cases h
    exact Yields.pure hs _
  | .notOptimized src, s, hs, h => by
    refine Yields.findOrMakeExpr hs h ?_
    exact getOrMakeExpr_yields src hs h
  | .read root head index, s, hs, hk => by
    have h := hk
    obtain ⟨i, hi, h⟩ := Option.bind_eq_some_iff.1 h
    have hd {s : Z3Session} (hs : s.frame.Right N mode s.assertions) :=
      getOrMakeExpr_yields index hs hi
    have hrd {s : Z3Session} (hs : s.frame.Right N mode s.assertions) {u}
        (hu : Z3Builder.getReadForArray N mode i root head = some u) :=
      getReadForArray_yields head hs hu
    have hp {s : Z3Session} (hs : s.frame.Right N mode s.assertions) {u}
        (hu : Z3Builder.getArrayForUpdate N mode root head = some u) :=
      getArrayForUpdate_yields head hs hu
    cases mode with
    | ite =>
      refine Yields.findOrMakeExpr hs hk ?_
      exact ((hd hs).bind fun s' hs' => hrd hs' h).congr (arrayFact_mode (by decide) _ _)
    | stores | asserts =>
      obtain ⟨array, ha, h⟩ := Option.bind_eq_some_iff.1 h
      cases h
      exact Yields.findOrMakeExpr hs hk ((hp hs ha).bind fun s' hs' => (hd hs').map _)
  | .select c t f, s, hs, h => by
    refine Yields.findOrMakeExpr hs h ?_
    simp only [Z3Builder.makeExpr, bind_some_iff] at h
    obtain ⟨tc, hc, tt, ht, tf, hf, h⟩ := h
    cases h
    exact (getOrMakeExpr_yields c hs hc).bind fun _ hs' =>
      (getOrMakeExpr_yields t hs' ht).bind fun _ hs'' => (getOrMakeExpr_yields f hs'' hf).map _
  | .concat l r, s, hs, h => by
    rw [getOrMakeExpr]
    refine Yields.findOrMakeExpr hs h ?_
    simp only [Z3Builder.makeExpr, bind_some_iff] at h
    obtain ⟨tl, hl, tr, hr, h⟩ := h
    cases h
    apply ((getOrMakeExpr_yields r hs hr).bind fun _ hs' =>
      (getOrMakeExpr_yields l hs' hl).map _).congr
    apply arrayFact_congr
    intro root
    rw [Expr.arrays, mem_append, mem_append, or_comm]
  | .extract e offset w, s, hs, h => by
    rw [getOrMakeExpr]
    refine Yields.findOrMakeExpr hs h ?_
    simp only [Z3Builder.makeExpr, bind_some_iff] at h
    obtain ⟨src, hsr, h⟩ := h
    rw [← apply_ite] at h
    cases h
    exact (getOrMakeExpr_yields e hs hsr).map fun src => if w = 1 then
      SmtTerm.eq (.extract offset offset src) (.bitVecVal 1 1)
      else .extract (offset + w - 1) offset src
  | .zext e w, s, hs, h => by
    rw [getOrMakeExpr]
    refine Yields.findOrMakeExpr hs h ?_
    simp only [Z3Builder.makeExpr, bind_some_iff] at h
    obtain ⟨src, hsr, h⟩ := h
    rw [← apply_ite] at h
    cases h
    exact (getOrMakeExpr_yields e hs hsr).map fun src => if src.isBool then
      Z3Builder.makeBit src w else .zeroExtend (w - src.bvSize) src
  | .sext e w, s, hs, h | .not e, s, hs, h => by
    rw [getOrMakeExpr]
    refine Yields.findOrMakeExpr hs h ?_
    simp only [Z3Builder.makeExpr, bind_some_iff] at h
    obtain ⟨src, hsr, h⟩ := h
    rw [← apply_ite] at h
    cases h
    exact (getOrMakeExpr_yields e hs hsr).map _
  | .arithmetic kind l r, s, hs, h => by
    rw [getOrMakeExpr]
    refine Yields.findOrMakeExpr hs h ?_
    simp only [Z3Builder.makeExpr, bind_some_iff] at h
    obtain ⟨tl, hl, tr, hr, h⟩ := h
    cases h
    exact (getOrMakeExpr_yields l hs hl).bind fun _ hs' => (getOrMakeExpr_yields r hs' hr).map _
  | .compare kind l r, s, hs, h => by
    rw [getOrMakeExpr]
    refine Yields.findOrMakeExpr hs h ?_
    simp only [Z3Builder.makeExpr, bind_some_iff] at h
    obtain ⟨tl, hl, tr, hr, h⟩ := h
    rw [Expr.arrays, ← append_nil r.arrays]
    exact (getOrMakeExpr_yields l hs hl).bind fun _ hs' =>
      (getOrMakeExpr_yields r hs' hr).bind fun _ hs'' => Yields.lift hs'' h

theorem getReadForArray_yields : (un : UpdateNode) → {s : Z3Session} →
    s.frame.Right N mode s.assertions → Z3Builder.getReadForArray N mode index root un = some t →
    s.Yields N mode (getReadForArray N mode index root un) t un.arrays
  | .null, s, hs, h => by
    rw [getReadForArray]
    refine Yields.findOrMakeRead hs h ?_
    rw [Z3Builder.getReadForArray] at h
    cases h
    exact getReadForInitialArray_yields hs index root
  | .node i v next, s, hs, h => by
    rw [getReadForArray]
    refine Yields.findOrMakeRead hs h ?_
    simp only [Z3Builder.getReadForArray, bind_some_iff] at h
    obtain ⟨ti, hi, tv, hv, tree, hr, h⟩ := h
    cases h
    exact (getOrMakeExpr_yields i hs hi).bind fun _ hs' =>
      (getOrMakeExpr_yields v hs' hv).bind fun _ hs'' =>
        (getReadForArray_yields next hs'' hr).map _

theorem getArrayForUpdate_yields : (un : UpdateNode) → {s : Z3Session} →
    s.frame.Right N mode s.assertions → Z3Builder.getArrayForUpdate N mode root un = some t →
    s.Yields N mode (getArrayForUpdate N mode root un) t (root :: un.arrays)
  | .null, s, hs, h => by
    rw [Z3Builder.getArrayForUpdate] at h
    cases h
    exact getInitialArray_yields hs root
  | .node i v next, s, hs, h => by
    rw [getArrayForUpdate]
    refine Yields.findOrMakeUpdate hs h ?_
    simp only [Z3Builder.getArrayForUpdate, bind_some_iff] at h
    obtain ⟨array, ha, ti, hi, tv, hv, h⟩ := h
    cases h
    apply ((getArrayForUpdate_yields next hs ha).bind fun _ hs' =>
      (getOrMakeExpr_yields i hs' hi).bind fun _ hs'' =>
        (getOrMakeExpr_yields v hs'' hv).map _).congr
    apply arrayFact_congr
    intro root'
    simp only [UpdateNode.arrays, mem_append, mem_cons]
    tauto

end

theorem getInitialRead_yields (hs : s.frame.Right N mode s.assertions) (hi : i < root.size) :
    ∃ t, s.Yields N mode (getInitialRead N mode root i) t [root] := by
  have ha := getInitialArray_yields hs root
  have hv := getArrayValues_yields hs root
  cases mode with
  | ite =>
    have hl := getArrayValues_getElem? (N := N) hi
    exact ⟨_, (hv.bind fun s' hs' => Yields.lift hs' hl).congr (arrayFact_mode (by decide) _ _)⟩
  | stores | asserts => exact ⟨_, ha.map _⟩

theorem forM_yields {f : α → Z3Action Unit} {l : List α} (hs : s.frame.Right N mode s.assertions)
    (hf : ∀ x ∈ l, ∀ s : Z3Session, s.frame.Right N mode s.assertions →
      ∃ used, (∀ root ∈ used, root ∈ roots x) ∧ s.Yields N mode (f x) () used) :
    ∃ used, (∀ root ∈ used, root ∈ l.flatMap roots) ∧ s.Yields N mode (l.forM f) () used := by
  induction l generalizing s with
  | nil => exact ⟨[], forall_mem_nil _, Yields.pure hs ()⟩
  | cons x l ih =>
    obtain ⟨used, hu, s', hrn, hext⟩ := hf x mem_cons_self s hs
    obtain ⟨used', hus, hlp⟩ := ih hext.right fun y hy => hf y (mem_cons_of_mem _ hy)
    refine ⟨used ++ used', ?_, ?_⟩
    · rw [flatMap_cons]
      intro root hr
      rcases mem_append.1 hr with hr | hr
      · exact mem_append_left _ (hu root hr)
      · exact mem_append_right _ (hus root hr)
    · obtain ⟨s'', hru, het⟩ := hlp
      refine ⟨s'', ?_, het.outer.trans hext.outer, het.incremental.trans hext.incremental,
        het.saved.trans hext.saved, fun a => ?_, het.right⟩
      · have hc : (x :: l).forM f = (f x >>= fun _ => l.forM f) := rfl
        rw [hc, run_bind, hrn]
        exact hru
      · rw [het.assertions, hext.assertions, arrayFact_append, or_assoc]

theorem extractModel_yields (hs : s.frame.Right N mode s.assertions) (objects : List KArray) :
    ∃ used, (∀ root ∈ used, root ∈ objects) ∧
      s.Yields N mode (extractModel N mode objects) () used := by
  have hr : ∀ root ∈ objects, ∀ s : Z3Session, s.frame.Right N mode s.assertions →
      ∃ used, (∀ root' ∈ used, root' ∈ [root]) ∧ s.Yields N mode
        ((range root.size).forM fun offset => do
          let _ ← getInitialRead N mode root offset) () used := by
    intro root _ s hs
    obtain ⟨used, hu, hy⟩ := forM_yields hs fun offset ho s' hs' => by
      obtain ⟨t, ht⟩ := getInitialRead_yields hs' (mem_range.1 ho)
      exact ⟨[root], fun _ h => h, ht.map fun _ => ()⟩
    refine ⟨used, fun root' hrt => ?_, hy⟩
    obtain ⟨_, _, hm⟩ := mem_flatMap.1 (hu root' hrt)
    exact hm
  obtain ⟨used, hu, hy⟩ := forM_yields hs hr
  refine ⟨used, fun root' hrt => ?_, hy⟩
  obtain ⟨root, hro, hm⟩ := mem_flatMap.1 (hu root' hrt)
  rw [mem_singleton.1 hm]
  exact hro

end Z3Session
end Chef
