import Chef.SentLog

namespace Chef
open Foundations Chef.Expr UpdateNode Or Serialize
open List hiding head
open ExprFrame ExprDeserializer
def Runs (name : KArray → String) (n : Nat) (P : List Entry → Prop) (m : Serialize α)
    (Q : List Entry → α → Prop) : Prop :=
  ∀ log s, Sent name log s → LocatedBelow log s n → P log →
    ∃ a s' data new, m s = .ok (a, s', data) ∧
      Grows name (fun _ => False) log s new data s' ∧ Q (new ++ log) a

variable {k : α → Serialize β}
theorem Runs.pure (h : ∀ log, P log → Q log a) : Runs name n P (Pure.pure a : Serialize α) Q := by
  intro log s hs _ hP
  exact ⟨a, s, .empty, [], rfl, Grows.refl hs, h log hP⟩

theorem Serialize.bind_ok (h : m s = .ok (a, s1, data)) (h' : k a s1 = .ok (b, s2, data')) :
    (m >>= k) s = .ok (b, s2, data.append data') := by
  change (m s >>= fun r => (k r.1 r.2.1).map fun r' => (r'.1, r'.2.1, r.2.2.append r'.2.2)) = _
  rw [h]
  change (k a s1).map _ = _
  rw [h']
  rfl

theorem Runs.bind (hm : Runs name n P m Q) (hP : ∀ log new, P log → P (new ++ log))
    (hk : ∀ a, Runs name n (fun log => P log ∧ Q log a) (k a) R) : Runs name n P (m >>= k) R := by
  intro log s hs hb hl
  obtain ⟨a, s1, data1, new1, hru, hg1, hQ⟩ := hm log s hs hb hl
  obtain ⟨b, s2, data2, new2, hr2, hg2, hR⟩ := hk a _ s1 hg1.sent
    (hg1.locatedBelow hb) ⟨hP log new1 hl, hQ⟩
  refine ⟨b, s2, data1.append data2, new2 ++ new1, bind_ok hru hr2, ?_, ?_⟩
  · exact (hg1.trans hg2).mono fun u hu => hu.elim (fun h => h) fun h => h
  · rw [append_assoc]
    exact hR

theorem Runs.weaken (h : Runs name n P m Q) (hP : ∀ log, P' log → P log)
    (hQ : ∀ log a, Q log a → Q' log a) : Runs name n P' m Q' := by
  intro log s hs hb hl
  obtain ⟨a, s', data, new, hr, hgr, hrs⟩ := h log s hs hb (hP log hl)
  exact ⟨a, s', data, new, hr, hgr, hQ _ a hrs⟩

theorem getOrSerializeArray_runs (hvd : root.Valid) : Runs name n P (getOrSerializeArray name root)
      fun log id => ∃ m, .array root m ∈ log ∧ m.id = id := by
  intro log s hs _ _
  rw [getOrSerializeArray]
  cases hl : s.serializedArrays.lookup root with
  | some id => exact ⟨id, s, .empty, [], rfl, Grows.refl hs, (hs.arrays root id).1 hl⟩
  | none =>
    have hn : ∀ m, .array root m ∉ log := by
      intro m hm
      have hsm := (hs.arrays root m.id).2 ⟨m, hm, rfl⟩
      rw [hl] at hsm
      cases hsm
    refine ⟨_, _, _, [.array root (arrayMessage name root s.nextId)], rfl, ?_, ?_⟩
    · refine ⟨⟨⟨⟨hvd, rfl⟩, hs.written⟩, ?_, ?_, ?_, ?_⟩, ?_, Nat.le_succ _, ?_, ?_⟩
      · rw [singleton_append, map_cons, nodup_cons]
        refine ⟨?_, hs.nodup⟩
        intro hmem
        obtain ⟨y, hy, heq⟩ := mem_map.1 hmem
        exact Nat.ne_of_lt (hs.below y hy) heq
      · exact forall_mem_cons.2 ⟨Nat.lt_succ_self _, fun x hx => Nat.lt_succ_of_lt (hs.below x hx)⟩
      · exact fun e i hi => (hs.exprs e i hi).append _
      · intro root' i
        rw [lookup_cons]
        by_cases heq : root' = root
        · rw [heq, beq_self_eq_true]
          constructor
          · intro hi
            exact ⟨_, mem_cons_self, Option.some.inj hi⟩
          rintro ⟨m, hm, hid⟩
          obtain hm | hm := mem_cons.1 hm
          · cases hm
            rw [← hid]
            rfl
          · exact absurd hm (hn m)
        · rw [beq_false_of_ne heq, hs.arrays]
          refine exists_congr fun m => ?_
          rw [singleton_append, mem_cons, or_iff_right]
          rintro ⟨⟩
          exact heq rfl
      · exact forall_mem_cons.2 ⟨Nat.le_refl _, forall_mem_nil _⟩
      · refine ⟨fun m => ?_, fun m => ?_, fun m => ?_⟩ <;> simp
      · exact fun u hu => inl hu
    · exact ⟨_, mem_cons_self, rfl⟩

theorem children_runs
    (h : List.Forall₂ (fun e m => Runs name n (fun _ => True) m fun log i => ExprIn log e i)
      es ms) :
    Runs name n (fun _ => True) (children ms) fun log ids => List.Forall₂ (ExprIn log) es ids := by
  induction h with
  | nil => exact Runs.pure fun _ _ => List.Forall₂.nil
  | cons hm _ ih =>
    refine Runs.bind hm (fun _ _ _ => trivial) fun i => ?_
    refine Runs.bind (ih.weaken (fun _ _ => trivial) fun _ _ h => h) ?_ fun ids => ?_
    · exact fun log new hl => ⟨trivial, hl.2.append new⟩
    · exact Runs.pure fun log hl => List.Forall₂.cons hl.1.2 hl.2

theorem operandFields_runs
    (h : List.Forall₂ (fun e m => Runs name n (fun _ => True) m fun log i => ExprIn log e i)
      (operands e) ms) (hfs : ∀ log, FieldsIn log none none e) :
    Runs name n (fun _ => True) (operandFields ms) fun log r =>
      List.Forall₂ (ExprIn log) e.operands r.1 ∧ FieldsIn log r.2.1 r.2.2 e := by
  refine Runs.bind (children_runs h) (fun _ _ _ => trivial) fun ids => ?_
  exact Runs.pure fun log hl => ⟨hl.2, hfs log⟩

theorem getOrSerialize_runs (h : ∀ id, Runs name n (fun _ => True) (fields id) fun log r =>
      List.Forall₂ (ExprIn log) (operands e) r.1 ∧ FieldsIn log r.2.1 r.2.2 e) :
    Runs name n (fun _ => True) (getOrSerialize e fields) fun log i => ExprIn log e i := by
  intro log s hs hb _
  rw [getOrSerialize]
  cases hl : s.serializedExpr.lookup e with
  | some id => exact ⟨id, s, .empty, [], rfl, Grows.refl hs, hs.exprs e id hl⟩
  | none =>
    obtain ⟨r, s', data, new, hr, hgr, hks, hfs⟩ :=
      h s.nextId log { s with nextId := s.nextId + 1 } hs.next hb trivial
    have hn : s.nextId < s'.nextId := hgr.nextId
    have hc := hgr.sent.cons (x := .expr e (exprMessage e s.nextId r.1 r.2.1 r.2.2))
      ⟨r.1, r.2.1, r.2.2, rfl, hks, hfs⟩ (hgr.id_ne hs) hn (fun _ _ => nofun)
    refine ⟨s.nextId, { s' with serializedExpr := (e, s.nextId) :: s'.serializedExpr },
      { data with expr := exprMessage e s.nextId r.1 r.2.1 r.2.2 :: data.expr },
      .expr e (exprMessage e s.nextId r.1 r.2.1 r.2.2) :: new, ?_, ?_, ?_⟩
    · rw [serializeExpr, hr]
      rfl
    · refine ⟨{ hc with exprs := ?_ }, ?_, Nat.le_of_lt hn, hgr.sends.expr_cons, ?_⟩
      · intro e' i hi
        rw [lookup_cons] at hi
        by_cases heq : e' = e
        · rw [heq, beq_self_eq_true] at hi
          rw [heq, ← Option.some.inj hi]
          exact ⟨_, mem_cons_self, rfl⟩
        · rw [beq_false_of_ne heq] at hi
          exact hc.exprs e' i hi
      · refine forall_mem_cons.2 ⟨Nat.le_refl _, fun x hx => ?_⟩
        exact Nat.le_of_succ_le (hgr.above x hx)
      · intro u hu
        obtain hu | hu | hu := hgr.updates u hu
        · exact inl hu
        · exact inr (inl (hu.append [_]))
        · exact hu.elim
    · exact ⟨_, mem_cons_self, rfl⟩

def OwnNode (un : UpdateNode) (listId offset : Nat) (u : UpdateNode × Nat × Nat) : Prop :=
  ∃ k, u.2 = (listId, offset + k) ∧ getUpdateNodeAtOffset un k = .ok u.1

def NodesRun (name : KArray → String) (un : UpdateNode) (listId offset : Nat)
    (m : Serialize (List Nat × List Nat × Option (Nat × Nat))) : Prop :=
  ∀ log s, Sent name log s → LocatedBelow log s (sizeOf un + 1) →
    ∃ r s' data new, m s = .ok (r, s', data) ∧
      Grows name (OwnNode un listId offset) log s new data s' ∧
      ∃ ids, r.1 = ids.map Prod.fst ∧ r.2.1 = ids.map Prod.snd ∧ ListIn (new ++ log) un ids r.2.2

theorem getOrSerializeUpdateList_runs
    (hf : ∀ i t un p, find i t un = some p → (un, p) ∈ t) (hz : sizeOf head < n)
    (hnu : head ≠ .null) (h : ∀ listId, NodesRun name head listId 0 (nodes listId)) :
    Runs name n (fun _ => True) (getOrSerializeUpdateList find i head nodes)
      fun log position => Located log head position := by
  intro log s hs hb _
  rw [getOrSerializeUpdateList]
  cases hl : find i s.serializedUpdateNodes head with
  | some position =>
    refine ⟨position, s, .empty, [], rfl, Grows.refl hs, ?_⟩
    exact hb (head, position) (hf _ _ _ _ hl) hz
  | none =>
    obtain ⟨r, s', data, new, hr, hgr, ids, hi, hv, hlist⟩ :=
      h s.nextId log { s with nextId := s.nextId + 1 } hs.next (hb.mono hz)
    have hn : s.nextId < s'.nextId := hgr.nextId
    have hc := hgr.sent.cons (x := .list head ⟨s.nextId, r.1, r.2.1, r.2.2⟩)
      ⟨ids, hi, hv, hlist⟩ (hgr.id_ne hs) hn (fun _ _ => nofun)
    refine ⟨(s.nextId, 0), s', { data with update := ⟨s.nextId, r.1, r.2.1, r.2.2⟩ :: data.update },
      .list head ⟨s.nextId, r.1, r.2.1, r.2.2⟩ :: new, ?_, ?_, ?_⟩
    · rw [hr]
      rfl
    · refine ⟨hc, ?_, Nat.le_of_lt hn, hgr.sends.list_cons, ?_⟩
      · refine forall_mem_cons.2 ⟨Nat.le_refl _, fun x hx => ?_⟩
        exact Nat.le_of_succ_le (hgr.above x hx)
      intro u hu
      obtain hu | hu | ⟨k, hp, hat⟩ := hgr.updates u hu
      · exact inl hu
      · exact inr (inl (hu.append [_]))
      refine inr (inl ⟨head, _, mem_cons_self, ?_, ?_⟩)
      · rw [hp]
      · rw [hp, Nat.zero_add]
        exact hat
    · refine ⟨head, _, mem_cons_self, rfl, ?_⟩
      cases head with
      | null => exact absurd rfl hnu
      | node index value next => rfl

theorem Grows.addUpdateNode (h : Sent name log s) (un : UpdateNode) (position : Nat × Nat) :
    Grows name (fun u => u = (un, position)) log s [] .empty { s with serializedUpdateNodes :=
    (un, position) :: s.serializedUpdateNodes } where
  sent := ⟨h.written, h.nodup, h.below, h.exprs, h.arrays⟩
  above := forall_mem_nil _
  nextId := Nat.le_refl _
  sends := sends_nil
  updates u hu := by
    obtain hu | hu := mem_cons.1 hu
    · exact inr (inr hu)
    · exact inl hu


theorem nodesRun_node {next : UpdateNode} (hf : ∀ i t un p, find i t un = some p → (un, p) ∈ t)
    (hd : Runs name (sizeOf (node index value next) + 1) (fun _ => True)
      (getOrSerializeExpr name find index) fun log i => ExprIn log index i)
    (hval : Runs name (sizeOf (node index value next) + 1) (fun _ => True)
      (getOrSerializeExpr name find value) fun log i => ExprIn log value i)
    (hn : NodesRun name next listId (offset + 1)
      (serializeUpdateNodes name find next readId listId (offset + 1))) :
    NodesRun name (.node index value next) listId offset
      (serializeUpdateNodes name find (.node index value next) readId listId offset) := by
  intro log s hs hb
  rw [serializeUpdateNodes]
  cases hl : find readId s.serializedUpdateNodes (.node index value next) with
  | some position =>
    simp only [hl]
    refine ⟨([], [], some position), s, .empty, [], rfl, Grows.refl hs, [], rfl, rfl, ?_⟩
    exact hb (_, position) (hf _ _ _ _ hl) (Nat.lt_succ_self _)
  | none =>
    simp only [hl]
    obtain ⟨i, s1, data1, new1, hru, hg1, hi⟩ := hd log s hs hb trivial
    have hb1 := hg1.locatedBelow hb
    obtain ⟨v, s2, data2, new2, hr2, hg2, hv⟩ := hval _ s1 hg1.sent hb1 trivial
    have hb2 := hg2.locatedBelow hb1
    have ha := Grows.addUpdateNode hg2.sent (.node index value next) (listId, offset)
    have hlr : sizeOf next + 1 ≤ sizeOf (node index value next) := by
      rw [node.sizeOf_spec]
      omega
    obtain ⟨r, s4, data4, new4, hr4, hg4, ids, hids, his, hlist⟩ := hn _ _ ha.sent (by
        intro u hu hz
        obtain rfl | hu := mem_cons.1 hu
        · simp only at hz
          omega
        · exact hb2 u hu (by omega))
    have hr : Grows name (fun _ => False) _ s4 [] .empty s4 := Grows.refl hg4.sent
    have hgr := hg1.trans (hg2.trans (ha.trans (hg4.trans hr)))
    refine ⟨(i :: r.1, v :: r.2.1, r.2.2), s4, _, _,
      bind_ok hru (bind_ok hr2 (bind_ok rfl (bind_ok hr4 rfl))), hgr.mono ?_, (i, v) :: ids,
      ?_, ?_, ?_⟩
    · rintro u (hu | hu | rfl | ⟨k, hk, hat⟩ | hu)
      · exact hu.elim
      · exact hu.elim
      · exact ⟨0, rfl, rfl⟩
      · refine ⟨k + 1, ?_, hat⟩
        rw [hk, Nat.add_assoc, Nat.add_comm 1 k]
      · exact hu.elim
    · rw [map_cons, ← hids]
    · rw [map_cons, ← his]
    · refine ⟨index, value, next, rfl, ?_, ?_, ?_⟩
      · simp only [append_assoc, nil_append]
        exact (hi.append new2).append new4
      · simp only [append_assoc, nil_append]
        exact hv.append new4
      · simp only [append_assoc, nil_append]
        exact hlist

theorem readFields_runs (hf : ∀ i t un p, find i t un = some p → (un, p) ∈ t) (hr : root.Valid)
    (hs : sizeOf head < n) (hd : Runs name n (fun _ => True) (getOrSerializeExpr name find index)
      fun log i => ExprIn log index i) (hhd : ∀ listId, NodesRun name head listId 0
      (serializeUpdateNodes name find head readId listId 0)) : Runs name n (fun _ => True) (do
      let indexId ← getOrSerializeExpr name find index
      let position ← updateListField find readId head fun listId =>
        serializeUpdateNodes name find head readId listId 0
      let arrayId ← getOrSerializeArray name root
      return ([indexId], position, some arrayId)) fun log r =>
        List.Forall₂ (ExprIn log) (read root head index).operands r.1 ∧
          FieldsIn log r.2.1 r.2.2 (.read root head index) := by
  have hu : Runs name n (fun _ => True) (updateListField find readId head fun listId =>
        serializeUpdateNodes name find head readId listId 0)
      fun log position => UpdatesIn log head position := by
    rw [updateListField]
    split
    next hn => exact Runs.pure fun _ _ => hn
    next hn =>
      refine Runs.bind (getOrSerializeUpdateList_runs hf hs hn hhd)
        (fun _ _ _ => trivial) fun position => ?_
      exact Runs.pure fun log hl => hl.2
  refine Runs.bind hd (fun _ _ _ => trivial) fun i => ?_
  refine Runs.bind (hu.weaken (fun _ _ => trivial) fun _ _ h => h) ?_ fun position => ?_
  · exact fun log new hl => ⟨trivial, hl.2.append new⟩
  refine Runs.bind (getOrSerializeArray_runs hr) ?_ fun arrayId => ?_
  · exact fun log new hl => ⟨⟨trivial, hl.1.2.append new⟩, hl.2.append new⟩
  refine Runs.pure fun log hl => ?_
  obtain ⟨⟨⟨-, hi⟩, hp⟩, m, hm, hid⟩ := hl
  refine ⟨List.Forall₂.cons hi List.Forall₂.nil, hp, m, hm, ?_⟩
  rw [hid]

mutual
theorem getOrSerializeExpr_runs (hf : ∀ i t un p, find i t un = some p → (un, p) ∈ t) (n : Nat) :
    (e : Expr) → e.Encodable → sizeOf e ≤ n →
      Runs name n (fun _ => True) (getOrSerializeExpr name find e) fun log i => ExprIn log e i
  | .constant w v, he, _ => by
    refine getOrSerialize_runs fun _ => ?_
    rw [if_pos he.1]
    exact operandFields_runs List.Forall₂.nil fun _ => he.2
  | .notOptimized src, he, hn | .extract src _ _, he, hn | .zext src _, he, hn
  | .sext src _, he, hn | .not src, he, hn => by
    have hlt : sizeOf src ≤ n := by
      simp at hn
      omega
    exact getOrSerialize_runs fun _ => operandFields_runs
      (.cons (getOrSerializeExpr_runs hf n src he hlt) .nil) fun _ => trivial
  | .read root head index, he, hn => by
    rw [read.sizeOf_spec] at hn
    exact getOrSerialize_runs fun _ => readFields_runs hf he.1 (by omega)
      (getOrSerializeExpr_runs hf n index he.2.2 (by omega))
      fun listId => serializeUpdateNodes_runs hf head he.2.1 _ listId 0
  | .select c t f, he, hn => by
    rw [select.sizeOf_spec] at hn
    rw [getOrSerializeExpr]
    exact getOrSerialize_runs fun _ => operandFields_runs
      (.cons (getOrSerializeExpr_runs hf n c he.1 (by omega))
        (.cons (getOrSerializeExpr_runs hf n t he.2.1 (by omega))
          (.cons (getOrSerializeExpr_runs hf n f he.2.2 (by omega)) .nil))) fun _ => trivial
  | .concat l r, he, hn | .arithmetic kind l r, he, hn | .compare kind l r, he, hn => by
    simp at hn
    rw [getOrSerializeExpr]
    exact getOrSerialize_runs fun _ => operandFields_runs
      (.cons (getOrSerializeExpr_runs hf n l he.1 (by omega))
        (.cons (getOrSerializeExpr_runs hf n r he.2 (by omega)) .nil)) fun _ => trivial

theorem serializeUpdateNodes_runs (hf : ∀ i t un p, find i t un = some p → (un, p) ∈ t) :
    (un : UpdateNode) → un.Encodable → ∀ readId listId offset,
      NodesRun name un listId offset (serializeUpdateNodes name find un readId listId offset)
  | .null, _, readId, listId, offset => by
    intro log s hs _
    exact ⟨([], [], none), s, .empty, [], rfl, Grows.refl hs, [], rfl, rfl, rfl⟩
  | .node index value next, he, readId, listId, offset => by
    have hz := node.sizeOf_spec index value next
    exact nodesRun_node hf (getOrSerializeExpr_runs hf _ index he.1 (by omega))
      (getOrSerializeExpr_runs hf _ value he.2.1 (by omega))
      (serializeUpdateNodes_runs hf next he.2.2 readId listId (offset + 1))

end
end Chef
