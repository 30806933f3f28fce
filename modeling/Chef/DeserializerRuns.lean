import Chef.SentLog

namespace Chef
open Foundations Chef.Expr
open List hiding head
open ExprFrame ExprDeserializer
def Replaces (f : KArray → KArray) (log : List Entry) : Prop :=
  ∀ root m, .array root m ∈ log → f root = ⟨m.id, root.size, root.constantValues⟩

structure Rebuilt (name : KArray → String) (f : KArray → KArray) (log : List Entry)
    (d : ExprDeserializer) : Prop where
  unique : d.uniqueArrays = []
  arrays : ∀ root m, .array root m ∈ log →
    d.deserializedArrays.lookup m.id = some (f root, name root)
  lists : ∀ head m, .list head m ∈ log →
    (∃ root, d.deserializedUpdateLists.lookup m.id = some (root, head.rename f)) ∨
      d.deserializedUpdateLists.lookup m.id = none ∧ d.pendingUpdateLists.lookup m.id = some m
  exprs : ∀ e m, .expr e m ∈ log → d.deserializedExprNodes.lookup m.id = some (e.rename f) ∨
      d.deserializedExprNodes.lookup m.id = none ∧ d.pendingExprNodes.lookup m.id = some m
  others : ∀ n, (∀ x ∈ log, x.id ≠ n) →
    d.deserializedArrays.lookup n = none ∧ d.deserializedUpdateLists.lookup n = none ∧
      d.pendingUpdateLists.lookup n = none ∧ d.deserializedExprNodes.lookup n = none ∧
      d.pendingExprNodes.lookup n = none

theorem eq_of_id {log : List Entry} (h : (log.map Entry.id).Nodup) (hx : x ∈ log) (hy : y ∈ log)
    (hid : x.id = y.id) : x = y :=
  inj_on_of_nodup_map h hx hy hid

section
theorem foldl_deserializeArray (l : List Data.Array) (d : ExprDeserializer) :
    l.foldl deserializeArray d = { d with deserializedArrays := l.foldl (fun t m => insertNew t m.id
        (⟨m.id, m.size, m.contents.getD []⟩, m.name)) d.deserializedArrays } := by
  induction l generalizing d with
  | nil => rfl
  | cons m l ih => rw [foldl_cons, ih, deserializeArray, foldl_cons]

theorem foldl_addUpdateList (l : List Data.UpdateList) (d : ExprDeserializer) :
    l.foldl addUpdateList d = { d with
      pendingUpdateLists := l.foldl (fun t m => insertNew t m.id m) d.pendingUpdateLists } := by
  induction l generalizing d with
  | nil => rfl
  | cons m l ih => rw [foldl_cons, ih, addUpdateList, foldl_cons]

theorem foldl_addExprNode (l : List Data.ExprNode) (d : ExprDeserializer) :
    l.foldl addExprNode d = { d with
      pendingExprNodes := l.foldl (fun t m => insertNew t m.id m) d.pendingExprNodes } := by
  induction l generalizing d with
  | nil => rfl
  | cons m l ih => rw [foldl_cons, ih, addExprNode, foldl_cons]

variable {log new : List Entry} {d : ExprDeserializer}

theorem Written.array (h : Written name log) (hm : .array root m ∈ log) :
    root.Valid ∧ m = arrayMessage name root m.id := by
  induction log with
  | nil => exact absurd hm not_mem_nil
  | cons x log ih =>
    obtain rfl | hm := mem_cons.1 hm
    · exact h.1
    · exact ih h.2 hm

theorem KArray.Valid.contents (h : root.Valid) :
    ((arrayMessage name root n).contents.getD []) = root.constantValues := by
  rw [arrayMessage]
  split
  next hn => exact (isEmpty_iff.1 hn).symm
  next hn =>
    obtain h | h := h
    · exact absurd (isEmpty_iff.2 h) hn
    rw [Option.getD_some, ← h]
    apply ext_getElem
    · rw [length_map, length_range]
    · intro i hi hi'
      rw [getElem_map, getElem_range, getD_eq_getElem _ _ hi']

theorem Rebuilt.readFrame (h : Rebuilt name f log d) (hse : Sends data new)
    (hw : Written name (new ++ log)) (hnd : ((new ++ log).map Entry.id).Nodup)
    (hf : Replaces f (new ++ log)) : Rebuilt name f (new ++ log) (d.readFrame data) := by
  have ho : ∀ x ∈ new, ∀ y ∈ log, y.id ≠ x.id := by
    intro x hx y hy heq
    rw [map_append, nodup_append] at hnd
    exact hnd.2.2 x.id (mem_map_of_mem hx) y.id (mem_map_of_mem hy) heq.symm
  have hnew : ∀ x ∈ new, ∀ y ∈ new, y.id = x.id → y = x := fun x hx y hy heq =>
    eq_of_id hnd (mem_append_left _ hy) (mem_append_left _ hx) heq
  rw [ExprDeserializer.readFrame, foldl_deserializeArray, foldl_addUpdateList, foldl_addExprNode]
  refine ⟨h.unique, ?_, ?_, ?_, ?_⟩
  · intro root m hm
    have hv : (f root, name root) = ((⟨m.id, m.size, m.contents.getD []⟩ : KArray), m.name) := by
      obtain ⟨hvd, hs⟩ := hw.array hm
      rw [hf root m hm, hs, hvd.contents]
      rfl
    rw [hv]
    obtain hm | hm := mem_append.1 hm
    · refine lookup_foldl_insertNew ((hse.array m).2 ⟨root, hm⟩) ?_ (h.others m.id ?_).1
      · intro m' hm' hid
        obtain ⟨root', hm'⟩ := (hse.array m').1 hm'
        cases hnew _ hm _ hm' hid
        rfl
      · exact ho _ hm
    · refine (lookup_foldl_insertNew_ne ?_ _).trans ((h.arrays root m hm).trans (by rw [hv]))
      intro m' hm' hid
      obtain ⟨root', hm'⟩ := (hse.array m').1 hm'
      exact ho _ hm' _ hm hid.symm
  · intro head m hm
    obtain hm | hm := mem_append.1 hm
    · have hno := h.others m.id (ho _ hm)
      refine Or.inr ⟨hno.2.1, ?_⟩
      refine lookup_foldl_insertNew ((hse.update m).2 ⟨head, hm⟩) ?_ hno.2.2.1
      intro m' hm' hid
      obtain ⟨head', hm'⟩ := (hse.update m').1 hm'
      cases hnew _ hm _ hm' hid
      rfl
    · refine (h.lists head m hm).imp_right fun ht => ⟨ht.1, ?_⟩
      refine (lookup_foldl_insertNew_ne ?_ _).trans ht.2
      intro m' hm' hid
      obtain ⟨head', hm'⟩ := (hse.update m').1 hm'
      exact ho _ hm' _ hm hid.symm
  · intro e m hm
    obtain hm | hm := mem_append.1 hm
    · have hno := h.others m.id (ho _ hm)
      refine Or.inr ⟨hno.2.2.2.1, ?_⟩
      refine lookup_foldl_insertNew ((hse.expr m).2 ⟨e, hm⟩) ?_ hno.2.2.2.2
      intro m' hm' hid
      obtain ⟨e', hm'⟩ := (hse.expr m').1 hm'
      cases hnew _ hm _ hm' hid
      rfl
    · refine (h.exprs e m hm).imp_right fun ht => ⟨ht.1, ?_⟩
      refine (lookup_foldl_insertNew_ne ?_ _).trans ht.2
      intro m' hm' hid
      obtain ⟨e', hm'⟩ := (hse.expr m').1 hm'
      exact ho _ hm' _ hm hid.symm
  · intro n hn
    rw [forall_mem_append] at hn
    obtain ⟨ha, hl, hp, he, hnode⟩ := h.others n hn.2
    refine ⟨?_, hl, ?_, he, ?_⟩
    · refine (lookup_foldl_insertNew_ne ?_ _).trans ha
      intro m hm
      obtain ⟨root, hm⟩ := (hse.array m).1 hm
      exact hn.1 _ hm
    · refine (lookup_foldl_insertNew_ne ?_ _).trans hp
      intro m hm
      obtain ⟨head, hm⟩ := (hse.update m).1 hm
      exact hn.1 _ hm
    · refine (lookup_foldl_insertNew_ne ?_ _).trans hnode
      intro m hm
      obtain ⟨e, hm⟩ := (hse.expr m).1 hm
      exact hn.1 _ hm

end

theorem getUpdateNodeAtOffset_rename (h : getUpdateNodeAtOffset un k = .ok v) :
    getUpdateNodeAtOffset (un.rename f) k = .ok (v.rename f) := by
  fun_induction getUpdateNodeAtOffset un k with
  | case1 => cases h
  | case2 index value next =>
    cases h
    rfl
  | case3 index value next k ih => exact ih h

def GetsExprs (name : KArray → String) (f : KArray → KArray) (all log : List Entry)
    (get : Nat → ExprDeserializer → Except DeserializeFault (Expr × ExprDeserializer)) : Prop :=
  ∀ e n, ExprIn log e n → ∀ d, Rebuilt name f all d →
    ∃ d', get n d = .ok (e.rename f, d') ∧ Rebuilt name f all d'

def GetsUpdates (name : KArray → String) (f : KArray → KArray) (all log : List Entry) (get :
    KArray → Nat × Nat → ExprDeserializer →
    Except DeserializeFault (UpdateNode × ExprDeserializer)) : Prop :=
  ∀ un p, Located log un p → ∀ array d, Rebuilt name f all d →
    ∃ d', get array p d = .ok (un.rename f, d') ∧ Rebuilt name f all d'

variable {all log : List Entry} {d : ExprDeserializer}
  {getExpr : Nat → ExprDeserializer → Except DeserializeFault (Expr × ExprDeserializer)}
  {getUpdateNode : KArray → Nat × Nat → ExprDeserializer →
    Except DeserializeFault (UpdateNode × ExprDeserializer)}

section
variable (hget : GetsExprs name f all log getExpr) (hd : Rebuilt name f all d)
include hget hd
theorem GetsExprs.child (i : Nat) (hi : m.childExprId[i]? = some c) (he : ExprIn log e c) :
    ∃ d', child getExpr m i d = .ok (e.rename f, d') ∧ Rebuilt name f all d' := by
  rw [ExprDeserializer.child, hi]
  exact hget e c he d hd

theorem GetsExprs.unary (hm : List.Forall₂ (ExprIn log) [e] m.childExprId) (make : Expr → Expr) :
    ∃ d', unary getExpr make m d = .ok (make (e.rename f), d') ∧ Rebuilt name f all d' := by
  obtain ⟨c, _, he, -, hc⟩ := forall₂_cons_left_iff.1 hm
  obtain ⟨d1, h1, hd1⟩ := hget.child hd 0 (by rw [hc]; rfl) he
  exact ⟨d1, bind_ok_iff.2 ⟨_, h1, rfl⟩, hd1⟩

theorem GetsExprs.binary (hm : List.Forall₂ (ExprIn log) [l, r] m.childExprId)
    (make : Expr → Expr → Expr) :
    ∃ d', binary getExpr make m d = .ok (make (l.rename f) (r.rename f), d') ∧
      Rebuilt name f all d' := by
  obtain ⟨c, _, hl, hs, hc⟩ := forall₂_cons_left_iff.1 hm
  obtain ⟨c', _, hr, -, hc'⟩ := forall₂_cons_left_iff.1 hs
  obtain ⟨d1, h1, hd1⟩ := hget.child hd 0 (by rw [hc]; rfl) hl
  obtain ⟨d2, h2, hd2⟩ := hget.child hd1 1 (by rw [hc, hc']; rfl) hr
  exact ⟨d2, bind_ok_iff.2 ⟨_, h1, bind_ok_iff.2 ⟨_, h2, rfl⟩⟩, hd2⟩

end

theorem GetsUpdates.updateNode (hget : GetsUpdates name f all log getUpdateNode)
    (hd : Rebuilt name f all d) (hun : UpdatesIn log un position) (array : KArray) :
    ∃ d', updateNode getUpdateNode array position d = .ok (un.rename f, d') ∧
      Rebuilt name f all d' := by
  cases position with
  | none =>
    refine ⟨d, ?_, hd⟩
    rw [show un = .null from hun]
    rfl
  | some position => exact hget un position hun array d hd

theorem Rebuilt.getArray (h : Rebuilt name f all d) (hm : .array root m ∈ all) :
    d.getArray m.id = .ok (f root) := by
  rw [ExprDeserializer.getArray, h.arrays root m hm, h.unique]
  rfl

section
variable (hes : GetsExprs name f all log getExpr)
include hes
theorem deserializeExpr_spec
    (hu : GetsUpdates name f all log getUpdateNode) (ha : ∀ x ∈ log, x ∈ all)
    (hx : (Entry.expr e m).Complete name log) (hd : Rebuilt name f all d) :
    ∃ d', deserializeExpr getExpr getUpdateNode m d = .ok (e.rename f, d') ∧
      Rebuilt name f all d' := by
  obtain ⟨children, position, arrayId, hs, hks, hfs⟩ := hx
  have hk : ExprKind.ofNumber m.kind = some e.getKind := by
    rw [hs]
    exact ExprKind.ofNumber_number _
  have hm : List.Forall₂ (ExprIn log) e.operands m.childExprId := by
    rw [hs]
    exact hks
  rw [deserializeExpr, hk]
  cases e with
  | constant w v =>
    refine ⟨d, ?_, hd⟩
    rw [hs]
    simp only [getKind, exprMessage, Option.getD_some, rename]
    rw [Nat.mod_mod, Nat.mod_eq_of_lt hfs]
  | notOptimized src | not e => exact hes.unary hd hm _
  | read root head index =>
    obtain ⟨hhd, m', hm', har⟩ := hfs
    have hp : m.updateList = position := by rw [hs]; rfl
    have hid : m.arrayId = some m'.id := by rw [hs, ← har]; rfl
    obtain ⟨c, _, hi, -, hc⟩ := forall₂_cons_left_iff.1 hm
    obtain ⟨d1, h1, hd1⟩ := hu.updateNode hd hhd (f root)
    obtain ⟨d2, h2, hd2⟩ := hes.child hd1 0 (by rw [hc]; rfl) hi
    refine ⟨d2, ?_, hd2⟩
    simp only [getKind, hp, hid, Option.getD_some]
    exact bind_ok_iff.2 ⟨_, hd.getArray (ha _ hm'),
      bind_ok_iff.2 ⟨_, h1, bind_ok_iff.2 ⟨_, h2, rfl⟩⟩⟩
  | select c t g =>
    obtain ⟨c1, _, hcd, hr, hc1⟩ := forall₂_cons_left_iff.1 hm
    obtain ⟨c2, _, ht, hrs, hc2⟩ := forall₂_cons_left_iff.1 hr
    obtain ⟨c3, _, hf, -, hc3⟩ := forall₂_cons_left_iff.1 hrs
    obtain ⟨d1, h1, hd1⟩ := hes.child hd 0 (by rw [hc1]; rfl) hcd
    obtain ⟨d2, h2, hd2⟩ := hes.child hd1 1 (by rw [hc1, hc2]; rfl) ht
    obtain ⟨d3, h3, hd3⟩ := hes.child hd2 2 (by rw [hc1, hc2, hc3]; rfl) hf
    exact ⟨d3, bind_ok_iff.2 ⟨_, h1, bind_ok_iff.2 ⟨_, h2, bind_ok_iff.2 ⟨_, h3, rfl⟩⟩⟩, hd3⟩
  | concat l r =>
    have hl : m.childExprId.length = 2 := hm.length_eq.symm
    rw [if_pos hl]
    exact hes.binary hd hm _
  | extract e offset w =>
    have ho : m.offset = some offset := by rw [hs]; rfl
    have hw : m.width = some w := by rw [hs]; rfl
    simp only [getKind, ho, hw, Option.getD_some]
    exact hes.unary hd hm fun e => .extract e offset w
  | zext src w | sext src w =>
    have hw : m.width = some w := by rw [hs]; rfl
    simp only [getKind, hw, Option.getD_some]
    exact hes.unary hd hm _
  | arithmetic kind l r | compare kind l r => exact hes.binary hd hm _

theorem extendUpdates_spec (h : ListIn log un ids position) :
    ∃ tail, UpdatesIn log tail position ∧ ∀ d, Rebuilt name f all d →
      ∃ d', extendUpdates getExpr ids (tail.rename f) d = .ok (un.rename f, d') ∧
        Rebuilt name f all d' := by
  induction ids generalizing un with
  | nil => exact ⟨un, h, fun d hd => ⟨d, rfl, hd⟩⟩
  | cons ids rest ih =>
    obtain ⟨index, value, next, rfl, hi, hv, hn⟩ := h
    obtain ⟨tail, ht, hr⟩ := ih hn
    refine ⟨tail, ht, ?_⟩
    intro d hd
    obtain ⟨d1, h1, hd1⟩ := hr d hd
    obtain ⟨d2, h2, hd2⟩ := hes index ids.1 hi d1 hd1
    obtain ⟨d3, h3, hd3⟩ := hes value ids.2 hv d2 hd2
    exact ⟨d3, bind_ok_iff.2 ⟨_, h1, bind_ok_iff.2 ⟨_, h2, bind_ok_iff.2 ⟨_, h3, rfl⟩⟩⟩, hd3⟩

theorem deserializeUpdateList_spec (hu : GetsUpdates name f all log getUpdateNode)
    (hx : (Entry.list head m).Complete name log) (hd : Rebuilt name f all d) (array : KArray) :
    ∃ d', deserializeUpdateList getExpr getUpdateNode array m d = .ok (head.rename f, d') ∧
      Rebuilt name f all d' := by
  obtain ⟨ids, hi, hv, hl⟩ := hx
  obtain ⟨tail, ht, he⟩ := extendUpdates_spec hes hl
  obtain ⟨d1, h1, hd1⟩ := hu.updateNode hd ht array
  obtain ⟨d2, h2, hd2⟩ := he d1 hd1
  refine ⟨d2, bind_ok_iff.2 ⟨_, h1, ?_⟩, hd2⟩
  have hz : m.indexExprId.zip m.valueExprId = ids := by rw [hi, hv, zip_map', map_id']
  rw [hi, hv, length_map, length_map, if_neg (Nat.lt_irrefl _), ← hi, ← hv, hz]
  exact h2

end

section
variable (h : Rebuilt name f all d) (hnd : (all.map Entry.id).Nodup)
include h hnd
theorem Rebuilt.exprDone (hm : .expr e m ∈ all) : Rebuilt name f all { d with
      pendingExprNodes := d.pendingExprNodes.filter fun x => x.1 ≠ m.id
      deserializedExprNodes := insertNew d.deserializedExprNodes m.id (e.rename f) } := by
  refine { h with exprs := ?_, others := ?_ }
  · intro e' m' hm'
    rw [lookup_insertNew, lookup_filter_ne]
    by_cases hid : m'.id = m.id
    · cases eq_of_id hnd hm' hm hid
      rw [if_pos rfl]
      obtain hdo | hw := h.exprs e m hm
      · exact Or.inl (by rw [hdo, Option.getD_some])
      · exact Or.inl (by rw [hw.1, Option.getD_none])
    · rw [if_neg hid, if_neg hid]
      exact h.exprs e' m' hm'
  · intro n hn
    have hne : n ≠ m.id := fun heq => hn _ hm heq.symm
    rw [lookup_insertNew, lookup_filter_ne, if_neg hne, if_neg hne]
    exact h.others n hn

theorem Rebuilt.listDone (hm : .list head m ∈ all) (array : KArray) : Rebuilt name f all { d with
      pendingUpdateLists := d.pendingUpdateLists.filter fun x => x.1 ≠ m.id
      deserializedUpdateLists :=
        insertNew d.deserializedUpdateLists m.id (array, head.rename f) } := by
  refine { h with lists := ?_, others := ?_ }
  · intro head' m' hm'
    rw [lookup_insertNew, lookup_filter_ne]
    by_cases hid : m'.id = m.id
    · cases eq_of_id hnd hm' hm hid
      rw [if_pos rfl]
      obtain ⟨root, hdo⟩ | hw := h.lists head m hm
      · exact Or.inl ⟨root, by rw [hdo, Option.getD_some]⟩
      · exact Or.inl ⟨array, by rw [hw.1, Option.getD_none]⟩
    · rw [if_neg hid, if_neg hid]
      exact h.lists head' m' hm'
  · intro n hn
    have hne : n ≠ m.id := fun heq => hn _ hm heq.symm
    rw [lookup_insertNew, lookup_filter_ne, if_neg hne, if_neg hne]
    exact h.others n hn

end

/-- Everything that was sent can be had again. -/
theorem gets_of_written (hnd : (all.map Entry.id).Nodup) (hw : Written name log)
    (ha : ∀ x ∈ log, x ∈ all) (hde : log.length ≤ depth) :
    GetsExprs name f all log (getOrDeserializeExpr depth) ∧
      GetsUpdates name f all log (getOrDeserializeUpdateNode depth) := by
  induction log generalizing depth with
  | nil =>
    refine ⟨?_, ?_⟩
    · intro e n ⟨m, hm, _⟩
      exact absurd hm not_mem_nil
    · intro un p ⟨head, m, hm, _⟩
      exact absurd hm not_mem_nil
  | cons x log ih =>
    rw [forall_mem_cons] at ha
    cases depth with
    | zero => exact absurd hde (Nat.not_succ_le_zero _)
    | succ depth =>
      have hl : log.length ≤ depth := Nat.le_of_succ_le_succ hde
      obtain ⟨hes, hu⟩ := ih hw.2 ha.2 hl
      obtain ⟨hes', hup⟩ := ih hw.2 ha.2 (Nat.le_succ_of_le hl)
      refine ⟨?_, ?_⟩
      · intro e n ⟨m, hm, hn⟩ d hd
        obtain rfl | hm := mem_cons.1 hm
        · rw [getOrDeserializeExpr, ← hn]
          obtain hdo | ⟨hno, ht⟩ := hd.exprs e m ha.1
          · rw [hdo]
            exact ⟨d, rfl, hd⟩
          · obtain ⟨d1, h1, hd1⟩ := deserializeExpr_spec hes hu ha.2 hw.1 hd
            rw [hno, ht]
            exact ⟨_, bind_ok_iff.2 ⟨_, h1, rfl⟩, hd1.exprDone hnd ha.1⟩
        · exact hes' e n ⟨m, hm, hn⟩ d hd
      · intro un p ⟨head, m, hm, hp, hat⟩ array d hd
        obtain rfl | hm := mem_cons.1 hm
        · rw [getOrDeserializeUpdateNode, ← hp]
          have hat' := getUpdateNodeAtOffset_rename hat (f := f)
          obtain ⟨root, hdo⟩ | ⟨hno, ht⟩ := hd.lists head m ha.1
          · rw [hdo]
            exact ⟨d, map_ok_iff.2 ⟨_, hat', rfl⟩, hd⟩
          obtain ⟨d1, h1, hd1⟩ := deserializeUpdateList_spec hes hu hw.1 hd array
          rw [hno, ht]
          exact ⟨_, bind_ok_iff.2 ⟨_, h1, map_ok_iff.2 ⟨_, hat', rfl⟩⟩, hd1.listDone hnd ha.1 array⟩
        · exact hup un p ⟨head, m, hm, hp, hat⟩ array d hd

end Chef
