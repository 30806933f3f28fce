import Chef.IndependentQueries
import Chef.QueryStream

namespace Chef
open Foundations List Option
open ExprFrame ExprDeserializer ConditionNode
def ArraysIn (log : List Entry) (l : List KArray) : Prop := ∀ root ∈ l, ∃ m, .array root m ∈ log

theorem ArraysIn.cons (h : ArraysIn log l) (x : Entry) : ArraysIn (x :: log) l := by
  intro root hr
  obtain ⟨m, hm⟩ := h root hr
  exact ⟨m, mem_cons_of_mem _ hm⟩

theorem ArraysIn.append (h : ArraysIn log l) (h' : ArraysIn log l') : ArraysIn log (l ++ l') :=
  forall_mem_append.2 ⟨h, h'⟩

theorem getUpdateNodeAtOffset_arrays (h : getUpdateNodeAtOffset un k = .ok v) :
    ∀ root ∈ v.arrays, root ∈ un.arrays := by
  fun_induction getUpdateNodeAtOffset un k with
  | case1 => cases h
  | case2 index value next =>
    cases h
    exact fun _ hr => hr
  | case3 index value next k ih =>
    intro root hr
    exact mem_append_right _ (mem_append_right _ (ih h root hr))

theorem UpdatesIn.arrays (h : UpdatesIn log un position)
    (hls : ∀ head m, .list head m ∈ log → ArraysIn log head.arrays) : ArraysIn log un.arrays := by
  cases position with
  | none =>
    rw [show un = .null from h]
    exact forall_mem_nil _
  | some position =>
    obtain ⟨head, m, hm, -, hat⟩ := h
    intro root hr
    exact hls head m hm root (getUpdateNodeAtOffset_arrays hat root hr)

theorem ListIn.arrays (h : ListIn log un ids position)
    (hes : ∀ e n, ExprIn log e n → ArraysIn log e.arrays)
    (hls : ∀ head m, .list head m ∈ log → ArraysIn log head.arrays) : ArraysIn log un.arrays := by
  induction ids generalizing un with
  | nil => exact UpdatesIn.arrays h hls
  | cons ids rest ih =>
    obtain ⟨index, value, next, rfl, hi, hv, hn⟩ := h
    exact (hes index _ hi).append ((hes value _ hv).append (ih hn))

theorem arrays_of_operands (h : ∀ x ∈ Expr.operands e, ArraysIn log x.arrays)
    (hd : ∀ root head index, e = .read root head index → ArraysIn log (root :: head.arrays)) :
    ArraysIn log e.arrays := by
  have hr : ∀ {x y : Expr} {l}, y ∈ x :: y :: l := mem_cons_of_mem _ mem_cons_self
  cases e with
  | constant w v => exact forall_mem_nil _
  | read root head index => exact (hd root head index rfl).append (h index mem_cons_self)
  | select c t f =>
    have hf := h f (mem_cons_of_mem _ hr)
    exact (h c mem_cons_self).append ((h t hr).append hf)
  | concat l r | arithmetic kind l r | compare kind l r =>
    exact (h l mem_cons_self).append (h r hr)
  | notOptimized src | zext src w | sext src w | extract src _ _ | not src =>
    exact h src mem_cons_self

theorem Written.arrays (h : Written name log) : (∀ e n, ExprIn log e n → ArraysIn log e.arrays) ∧
      ∀ head m, .list head m ∈ log → ArraysIn log head.arrays := by
  induction log with
  | nil =>
    refine ⟨?_, ?_⟩
    · intro e n ⟨m, hm, _⟩
      exact absurd hm not_mem_nil
    · intro head m hm
      exact absurd hm not_mem_nil
  | cons x log ih =>
    obtain ⟨hes, hls⟩ := ih h.2
    refine ⟨?_, ?_⟩
    · intro e n ⟨m, hm, hn⟩
      apply ArraysIn.cons
      obtain rfl | hm := mem_cons.1 hm
      · obtain ⟨children, position, arrayId, -, hks, hfs⟩ := h.1
        apply arrays_of_operands
        · intro x hx
          obtain ⟨i, hi⟩ := exists_of_forall₂ hks x hx
          exact hes x i hi
        · rintro root head index rfl
          obtain ⟨hhd, m', hm', -⟩ := hfs
          exact forall_mem_cons.2 ⟨⟨m', hm'⟩, hhd.arrays hls⟩
      · exact hes e n ⟨m, hm, hn⟩
    · intro head m hm
      apply ArraysIn.cons
      obtain rfl | hm := mem_cons.1 hm
      · obtain ⟨ids, -, -, hl⟩ := h.1
        exact hl.arrays hes hls
      · exact hls head m hm

/-- The array made for one of the stream; others get unused ids. -/
def replacement (s : ExprSerializer) (root : KArray) : KArray :=
  ⟨(s.serializedArrays.lookup root).getD (root.id + s.nextId), root.size, root.constantValues⟩

theorem Sent.replaces (h : Sent name log s) : Replaces (replacement s) log := by
  intro root m hm
  rw [replacement, (h.arrays root m.id).2 ⟨m, hm, rfl⟩, getD_some]

theorem Sent.replacement_injective (h : Sent name log s) : Function.Injective (replacement s) := by
  intro a b hab
  have hlt : ∀ root n, s.serializedArrays.lookup root = some n → n < s.nextId := by
    intro root n hn
    obtain ⟨m, hm, rfl⟩ := (h.arrays root n).1 hn
    exact h.below _ hm
  simp only [replacement, KArray.mk.injEq] at hab
  obtain ⟨hid, hs, hv⟩ := hab
  cases ha : s.serializedArrays.lookup a with
  | some i =>
    have hi := hlt a i ha
    rw [ha, getD_some] at hid
    cases hb : s.serializedArrays.lookup b with
    | some j =>
      rw [hb, getD_some] at hid
      obtain ⟨m, hm, rfl⟩ := (h.arrays a i).1 ha
      obtain ⟨m', hm', rfl⟩ := (h.arrays b j).1 hb
      cases eq_of_id h.nodup hm hm' hid
      rfl
    | none =>
      rw [hb, getD_none] at hid
      omega
  | none =>
    rw [ha, getD_none] at hid
    cases hb : s.serializedArrays.lookup b with
    | some j =>
      have hj := hlt b j hb
      rw [hb, getD_some] at hid
      omega
    | none =>
      rw [hb, getD_none] at hid
      have heq : a.id = b.id := by omega
      cases a
      cases b
      simp_all

structure Query.RebuiltAs (name : KArray → String) (nodes : Store ConditionNode)
    (d : QueryDeserializer) (f : KArray → KArray) (g : Nat → Nat) (q r : Query) : Prop where
  expr : r.expr = q.expr.rename f
  path : ∃ path, q.constraints.path nodes = some path ∧
    r.constraints.path d.conditions = some (path.map g) ∧
    ∀ n ∈ path, exprOf d.conditions (g n) = (exprOf nodes n).rename f ∧
      ∀ root ∈ (exprOf nodes n).arrays,
        d.exprDeserializer.deserializedArrays.lookup (f root).id = some (f root, name root)
  arrays : ∀ root ∈ q.expr.arrays,
    d.exprDeserializer.deserializedArrays.lookup (f root).id = some (f root, name root)

theorem streaming_init (name : KArray → String) : Streaming name [] .init where
  sent := ⟨trivial, nodup_nil, forall_mem_nil _, nofun, by
    intro root n
    refine ⟨nofun, ?_⟩
    rintro ⟨m, hm, _⟩
    exact absurd hm not_mem_nil⟩
  located _ _ hu := absurd hu not_mem_nil
  ids := nofun

theorem rebuilding_init (name : KArray → String) (f : KArray → KArray) (nodes :
    Store ConditionNode) : Rebuilding name f nodes [] (fun _ => none) .init (.init (.init [])) where
  exprs := ⟨rfl, fun _ _ h => absurd h not_mem_nil, fun _ _ h => absurd h not_mem_nil,
    fun _ _ h => absurd h not_mem_nil, fun _ _ => ⟨rfl, rfl, rfl, rfl, rfl⟩⟩
  copied := by
    have hg : ∀ n, (QueryDeserializer.init (.init [])).conditions.get n = default := by
      intro n
      cases n with
      | zero => rfl
      | succ n => exact Store.get_of_le _ (Nat.succ_le_succ (Nat.zero_le n))
    refine ⟨⟨?_, ?_, ?_⟩, Nat.one_pos, ?_, nofun⟩
    · intro n p hp
      rw [hg] at hp
      cases hp
    · intro n e c hc
      rw [hg] at hc
      cases hc
    · intro n e he
      rw [hg] at he
      cases he
    · rw [hg]
      rfl
  heads := ⟨nofun, fun _ _ => rfl⟩
  known := nofun
  root := rfl

namespace QueryDeserializer
/-- Every stream of queries is serialized, and rebuilt from the messages. -/
theorem deserializeAll_serializeAll {name : KArray → String} {nodes : Store ConditionNode}
    {find : Nat → List (UpdateNode × Nat × Nat) → UpdateNode → Option (Nat × Nat)}
    (hfind : ∀ i t un p, find i t un = some p → (un, p) ∈ t) (ht : ConditionTree nodes)
    {queries : List Query} (hqueries : ∀ q ∈ queries, q.Encodable nodes) :
    ∃ blobs s depth0, QuerySerializer.serializeAll name find nodes queries .init = .ok (blobs, s) ∧
      ∀ depth, depth0 ≤ depth →
        ∃ results d f g, deserializeAll depth blobs (.init (.init [])) = .ok (results, d) ∧
          Function.Injective f ∧
          (∀ root, (f root).size = root.size ∧ (f root).constantValues = root.constantValues) ∧
          Forall₂ (Query.RebuiltAs name nodes d f g) queries results := by
  obtain ⟨blobs, s, new, hrun, hs, hes, hb⟩ := stream_spec hfind ht hqueries (streaming_init name)
  rw [append_nil] at hs hes hb
  refine ⟨blobs, s, new.length, hrun, ?_⟩
  intro depth hdep
  obtain ⟨results, d, g, hrun', hd, -, hr⟩ := hb (replacement s.es) hs.sent.replaces
    depth hdep _ _ (rebuilding_init name _ nodes)
  have harrs : ∀ l, ArraysIn new l → ∀ root ∈ l,
      d.exprDeserializer.deserializedArrays.lookup (replacement s.es root).id =
        some (replacement s.es root, name root) := by
    intro l hl root hro
    obtain ⟨m, hm⟩ := hl root hro
    have hid : (replacement s.es root).id = m.id := by rw [hs.sent.replaces root m hm]
    rw [hid]
    exact hd.exprs.arrays root m hm
  refine ⟨results, d, replacement s.es, fun n => (g n).getD 0, hrun',
    hs.sent.replacement_injective, fun _ => ⟨rfl, rfl⟩, ?_⟩
  have ha : ∀ q ∈ queries, q.Encodable nodes ∧ ∃ i, ExprIn new q.expr i :=
    fun q hq => ⟨hqueries q hq, hes q hq⟩
  refine ((forall₂_and_left _ _).2 ⟨ha, hr⟩).imp ?_
  rintro q r ⟨⟨hq, i, hi⟩, he, hro, hcp⟩
  obtain ⟨path, hp, -⟩ := hq.path
  obtain ⟨hpath', hns⟩ := hd.copied.path hq.root hcp hp
  refine ⟨he, ⟨path, hp, ?_, ?_⟩, harrs _ (hs.sent.written.arrays.1 _ i hi)⟩
  · rw [← hpath', ← hro]
  intro n hn
  obtain ⟨n', hn', hcd⟩ := hns n hn
  obtain ⟨j, hj⟩ := hd.known n n' hn'
  simp only [hn', getD_some]
  exact ⟨hcd, harrs _ (hs.sent.written.arrays.1 _ j hj)⟩

open IndependentSolver in
theorem twoBytes_roundTrip : ∃ blobs s depth0,
      QuerySerializer.serializeAll (fun _ => "bytes") (fun _ t un => t.lookup un) twoBytes
        [⟨⟨0, 1⟩, firstByte.expr⟩, firstByte] .init = .ok (blobs, s) ∧
      ∀ depth, depth0 ≤ depth →
        ∃ results d f g, deserializeAll depth blobs (.init (.init [])) = .ok (results, d) ∧
          Function.Injective f ∧
          (∀ root, (f root).size = root.size ∧ (f root).constantValues = root.constantValues) ∧
          Forall₂ (Query.RebuiltAs (fun _ => "bytes") twoBytes d f g)
            [⟨⟨0, 1⟩, firstByte.expr⟩, firstByte] results := by
  have he : firstByte.expr.Encodable :=
    ⟨⟨Or.inl rfl, trivial, by decide, by decide⟩, by decide, by decide⟩
  have hf : (exprOf twoBytes 1).Encodable :=
    ⟨⟨by decide, by decide⟩, Or.inl rfl, trivial, by decide, by decide⟩
  have hs : (exprOf twoBytes 2).Encodable :=
    ⟨⟨by decide, by decide⟩, Or.inl rfl, trivial, by decide, by decide⟩
  apply deserializeAll_serializeAll
  · exact fun _ _ _ _ h => mem_of_lookup h
  · exact twoBytes_tree
  refine forall_mem_cons.2 ⟨⟨rfl, he, [1], rfl, ?_⟩, forall_mem_singleton.2
    ⟨rfl, he, [1, 2], rfl, ?_⟩⟩
  · exact forall_mem_singleton.2 hf
  · exact forall_mem_cons.2 ⟨hf, forall_mem_singleton.2 hs⟩

end QueryDeserializer
end Chef
