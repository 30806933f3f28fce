import Mathlib.Algebra.Order.BigOperators.Group.List
import Mathlib.Algebra.Order.Group.Nat
import Chef.SerializerRuns
import Chef.DeserializerRuns
import Chef.ConditionCopies

namespace Chef
open Foundations List Option QuerySerializer Runs
open ExprFrame ExprDeserializer ConditionNode
def NodesIn (nodes : Store ConditionNode) (serializedNodes : List (Nat × Nat)) (log : List Entry)
    (l ids : List Nat) (parent : Option Nat) : Prop :=
  ∃ l1 l2, l = l1 ++ l2 ∧ Forall₂ (fun n i => ExprIn log (exprOf nodes n) i) l1 ids ∧
    (l2 = [] ∧ parent = none ∨
      ∃ n rest i, l2 = n :: rest ∧ parent = some i ∧ serializedNodes.lookup n = some i)

section
variable {name : KArray → String}
  {find : Nat → List (UpdateNode × Nat × Nat) → UpdateNode → Option (Nat × Nat)}
  {nodes : Store ConditionNode}

theorem serializeNodes_runs (hf : ∀ i t un p, find i t un = some p → (un, p) ∈ t)
    (serializedNodes : List (Nat × Nat))
    (h : ∀ m ∈ l, (exprOf nodes m).Encodable ∧ sizeOf (exprOf nodes m) ≤ n) :
    Runs name n (fun _ => True) (serializeNodes name find nodes serializedNodes l)
      fun log r => NodesIn nodes serializedNodes log l r.1 r.2 := by
  induction l with
  | nil => exact pure fun log _ => ⟨[], [], rfl, .nil, Or.inl ⟨rfl, rfl⟩⟩
  | cons m l ih =>
    rw [forall_mem_cons] at h
    rw [serializeNodes]
    cases hl : serializedNodes.lookup m with
    | some i => exact pure fun log _ => ⟨[], m :: l, rfl, .nil, Or.inr ⟨m, l, i, rfl, rfl, hl⟩⟩
    | none =>
      refine bind (getOrSerializeExpr_runs hf n _ h.1.1 h.1.2) (fun _ _ _ => trivial) fun i => ?_
      refine bind ((ih h.2).weaken (fun _ _ => trivial) fun _ _ h => h) ?_ fun r => ?_
      · exact fun log new hg => ⟨trivial, hg.2.append new⟩
      refine pure fun log hg => ?_
      obtain ⟨⟨-, hi⟩, l1, l2, rfl, ha, hp⟩ := hg
      exact ⟨m :: l1, l2, rfl, .cons hi ha, hp⟩

/-- Between queries every list in the table was sent. -/
structure Streaming (name : KArray → String) (log : List Entry) (s : QuerySerializer) : Prop where
  sent : Sent name log s.es
  located : ∀ n, LocatedBelow log s.es n
  ids : ∀ n i, s.serializedNodes.lookup n = some i → i < s.nextId

/-- It has a path from a root, and small constants. -/
structure Query.Encodable (nodes : Store ConditionNode) (q : Query) : Prop where
  root : (nodes.get q.constraints.root).parent = none
  expr : q.expr.Encodable
  path : ∃ path, q.constraints.path nodes = some path ∧ ∀ n ∈ path, (exprOf nodes n).Encodable

theorem serialize_spec (hf : ∀ i t un p, find i t un = some p → (un, p) ∈ t)
    (hs : Streaming name log s) (hq : q.Encodable nodes)
    (hp : q.constraints.path nodes = some path) :
    ∃ blob s' new, serialize name find nodes q s = .ok (blob, s') ∧
      Streaming name (new ++ log) s' ∧ Sends blob.exprData new ∧ blob.id = s.nextId ∧
      s'.nextId = s.nextId + 1 ∧
      s'.serializedNodes = insertNew s.serializedNodes q.constraints.head s.nextId ∧
      ExprIn (new ++ log) q.expr blob.exprId ∧
      NodesIn nodes s.serializedNodes (new ++ log) path.reverse blob.assertExprId
        blob.parentId := by
  obtain ⟨path', hpath', hc⟩ := hq.path
  rw [hp] at hpath'
  obtain rfl := some.inj hpath'
  have hbd : ∀ m ∈ path.reverse, (exprOf nodes m).Encodable ∧ sizeOf (exprOf nodes m) ≤
      sizeOf q.expr + (path.map fun m => sizeOf (exprOf nodes m)).sum := by
    intro m hm
    rw [mem_reverse] at hm
    refine ⟨hc m hm, ?_⟩
    have hle := le_sum_of_mem (mem_map_of_mem (f := fun m => sizeOf (exprOf nodes m)) hm)
    omega
  have hn : Runs name (sizeOf q.expr + (path.map fun m => sizeOf (exprOf nodes m)).sum)
      (fun _ => True) (do
      let exprId ← getOrSerializeExpr name find q.expr
      let r ← serializeNodes name find nodes s.serializedNodes path.reverse
      return (exprId, r)) fun log r => ExprIn log q.expr r.1 ∧
        NodesIn nodes s.serializedNodes log path.reverse r.2.1 r.2.2 := by
    refine bind (getOrSerializeExpr_runs hf _ q.expr hq.expr (Nat.le_add_right _ _))
      (fun _ _ _ => trivial) fun i => ?_
    refine bind ((serializeNodes_runs hf s.serializedNodes hbd).weaken
      (fun _ _ => trivial) fun _ _ h => h) ?_ fun r => ?_
    · exact fun log new hg => ⟨trivial, hg.2.append new⟩
    · exact pure fun log hg => ⟨hg.1.2, hg.2⟩
  obtain ⟨r, es, data, new, hr, hgr, he, hns⟩ := hn log s.es hs.sent (hs.located _) trivial
  refine ⟨⟨s.nextId, r.2.2, r.1, r.2.1, data⟩,
    ⟨s.nextId + 1, es, insertNew s.serializedNodes q.constraints.head s.nextId⟩, new, ?_, ?_,
    hgr.sends, rfl, rfl, rfl, he, hns⟩
  · rw [serialize, hp]
    exact bind_ok_iff.2 ⟨_, hr, rfl⟩
  refine ⟨hgr.sent, fun n => hgr.locatedBelow (hs.located n), ?_⟩
  intro n i hi
  simp only at hi ⊢
  rw [lookup_insertNew] at hi
  split at hi
  · cases hl : s.serializedNodes.lookup q.constraints.head with
    | none =>
      rw [hl, getD_none] at hi
      rw [← some.inj hi]
      exact Nat.lt_succ_self _
    | some j =>
      rw [hl, getD_some] at hi
      rw [← some.inj hi]
      exact Nat.lt_succ_of_lt (hs.ids _ j hl)
  · exact Nat.lt_succ_of_lt (hs.ids n i hi)

end

section
variable {nodes : Store ConditionNode} {log all : List Entry}

theorem exists_of_forall₂ (h : Forall₂ R l l') : ∀ a ∈ l, ∃ b, R a b := by
  induction h with
  | nil => exact forall_mem_nil _
  | cons hab _ ih => exact forall_mem_cons.2 ⟨⟨_, hab⟩, ih⟩

theorem addConditions_spec (ht : ConditionTree nodes)
    (hg : GetsExprs name f all log (getOrDeserializeExpr depth))
    (hi : Forall₂ (fun n i => ExprIn log (exprOf nodes n) i) l ids)
    (hch : Ancestors nodes l p) (hco : Copied nodes f g conditions)
    (hseed : CopyOf nodes g p seed) (hed : Rebuilt name f all ed) :
    ∃ seed' ed' conditions' g', QueryDeserializer.addConditions depth ids seed ed conditions =
        .ok (seed', ed', conditions') ∧ Rebuilt name f all ed' ∧ Copied nodes f g' conditions' ∧
      (∀ m m', g m = some m' → g' m = some m') ∧ (∀ m m', g' m = some m' → g m = some m' ∨ m ∈ l) ∧
      CopyOf nodes g' (l.head?.getD p) seed' := by
  induction hi with
  | nil =>
    exact ⟨seed, ed, conditions, g, rfl, hed, hco, fun _ _ h => h, fun _ _ h => Or.inl h, hseed⟩
  | @cons n i l ids hn _ ih =>
    obtain ⟨seed1, ed1, conditions1, g1, hru, he1, hc1, hm1, hn1, hsd⟩ := ih hch.2
    obtain ⟨ed2, hr2, he2⟩ := hg _ i hn ed1 he1
    obtain ⟨g2, hc2, hm2, hn2, hcp⟩ := hc1.getOrCreate ht hch.1 hsd rfl
    refine ⟨_, ed2, _, g2, bind_ok_iff.2 ⟨_, hru, bind_ok_iff.2 ⟨_, hr2, rfl⟩⟩, he2, hc2,
      fun m m' hm => hm2 m m' (hm1 m m' hm), ?_, Or.inl hcp⟩
    intro m m' hm
    obtain hm | rfl := hn2 m m' hm
    · exact (hn1 m m' hm).imp_right fun hm => mem_cons_of_mem _ hm
    · exact Or.inr mem_cons_self

def HeadsCopied (nodes : Store ConditionNode) (g : Nat → Option Nat) (s : QuerySerializer)
    (d : QueryDeserializer) : Prop :=
  (∀ n i, s.serializedNodes.lookup n = some i →
    ∃ n', d.nodes.lookup i = some n' ∧ CopyOf nodes g n n') ∧
  ∀ i, s.nextId ≤ i → d.nodes.lookup i = none

structure Rebuilding (name : KArray → String) (f : KArray → KArray) (nodes : Store ConditionNode)
    (log : List Entry) (g : Nat → Option Nat) (s : QuerySerializer) (d : QueryDeserializer) :
    Prop where
  exprs : Rebuilt name f log d.exprDeserializer
  copied : Copied nodes f g d.conditions
  heads : HeadsCopied nodes g s d
  known : ∀ n n', g n = some n' → ∃ i, ExprIn log (exprOf nodes n) i
  root : d.root = 0

theorem deserialize_spec {q : Query}
    (ht : ConditionTree nodes) (hs : Streaming name (new ++ log) s')
    (h : Rebuilding name f nodes log g s d) (hq : q.Encodable nodes)
    (hp : q.constraints.path nodes = some path) (hse : Sends blob.exprData new)
    (hid : blob.id = s.nextId) (hnx : s'.nextId = s.nextId + 1)
    (hsr : s'.serializedNodes = insertNew s.serializedNodes q.constraints.head s.nextId)
    (he : ExprIn (new ++ log) q.expr blob.exprId) (hns :
      NodesIn nodes s.serializedNodes (new ++ log) path.reverse blob.assertExprId blob.parentId)
    (hf : Replaces f (new ++ log)) (hde : (new ++ log).length ≤ depth) :
    ∃ r d' g', QueryDeserializer.deserialize depth blob d = .ok (r, d') ∧
      Rebuilding name f nodes (new ++ log) g' s' d' ∧ (∀ m m', g m = some m' → g' m = some m') ∧
      r.expr = q.expr.rename f ∧ r.constraints.root = 0 ∧
      CopyOf nodes g' q.constraints.head r.constraints.head := by
  have hfr := h.exprs.readFrame hse hs.sent.written hs.sent.nodup hf
  obtain ⟨hg, -⟩ := gets_of_written (f := f) hs.sent.nodup hs.sent.written (fun x hx => hx) hde
  obtain ⟨l1, l2, hl, hd, hr⟩ := hns
  obtain ⟨hch, hhd⟩ := ancestors_of_path hp
  rw [hl] at hch hhd
  have hseed : ∃ seed, d.seed blob = .ok seed ∧
      CopyOf nodes g (l2.head?.getD q.constraints.root) seed := by
    obtain ⟨rfl, hno⟩ | ⟨n, rest, i, rfl, hm, hk⟩ := hr
    · refine ⟨0, ?_, Or.inr ⟨hq.root, rfl⟩⟩
      rw [QueryDeserializer.seed, hno, h.root]
    obtain ⟨n', hn', hcp⟩ := h.heads.1 n i hk
    refine ⟨n', ?_, hcp⟩
    rw [QueryDeserializer.seed, hm]
    simp only
    rw [hn']
  obtain ⟨seed, hrun, hcp⟩ := hseed
  obtain ⟨seed', ed, conditions, g', hrn, hed, hc, hmo, hw, hco⟩ :=
    addConditions_spec ht hg hd hch.left h.copied hcp hfr
  obtain ⟨ed', hru, hed'⟩ := hg _ _ he ed hed
  have hh : CopyOf nodes g' q.constraints.head seed' := by
    have heq : l1.head?.getD (l2.head?.getD q.constraints.root) = q.constraints.head := by
      rw [← hhd]
      cases l1 <;> rfl
    rw [← heq]
    exact hco
  refine ⟨_, _, g', bind_ok_iff.2 ⟨_, hrun, bind_ok_iff.2 ⟨_, hrn, bind_ok_iff.2
    ⟨_, hru, rfl⟩⟩⟩, ⟨hed', hc, ⟨?_, ?_⟩, ?_, h.root⟩, hmo, rfl, h.root, hh⟩
  · intro n i hi
    rw [hsr, lookup_insertNew] at hi
    rw [lookup_insertNew, hid]
    have ho : ∀ m j, s.serializedNodes.lookup m = some j →
        ∃ n', (if j = s.nextId then some ((d.nodes.lookup s.nextId).getD seed') else
          d.nodes.lookup j) = some n' ∧ CopyOf nodes g' m n' := by
      intro m j hj
      obtain ⟨n', hn', hcp⟩ := h.heads.1 m j hj
      refine ⟨n', ?_, hcp.mono hmo⟩
      rw [if_neg ?_]
      · exact hn'
      intro hjs
      rw [h.heads.2 j (Nat.le_of_eq hjs.symm)] at hn'
      cases hn'
    split at hi
    next hn =>
      cases hk : s.serializedNodes.lookup q.constraints.head with
      | none =>
        rw [hk, getD_none] at hi
        obtain rfl := some.inj hi
        refine ⟨seed', ?_, hn ▸ hh⟩
        rw [if_pos rfl, h.heads.2 _ (Nat.le_refl _), getD_none]
      | some j =>
        rw [hk, getD_some] at hi
        obtain rfl := some.inj hi
        exact ho n j (hn ▸ hk)
    · exact ho n i hi
  · intro i hi
    rw [lookup_insertNew, hid, if_neg (by omega)]
    exact h.heads.2 i (by omega)
  · intro n n' hn
    obtain hn | hn := hw n n' hn
    · obtain ⟨i, hi⟩ := h.known n n' hn
      exact ⟨i, hi.append new⟩
    · exact exists_of_forall₂ hd n hn

end

theorem stream_spec
    (hfd : ∀ i t un p, find i t un = some p → (un, p) ∈ t) (ht : ConditionTree nodes)
    (hqs : ∀ q ∈ queries, q.Encodable nodes)
    (hs : Streaming name log s) :
    ∃ blobs s' new, serializeAll name find nodes queries s = .ok (blobs, s') ∧
      Streaming name (new ++ log) s' ∧ (∀ q ∈ queries, ∃ i, ExprIn (new ++ log) q.expr i) ∧
      ∀ f, Replaces f (new ++ log) → ∀ depth, (new ++ log).length ≤ depth →
        ∀ g d, Rebuilding name f nodes log g s d →
          ∃ results d' g', QueryDeserializer.deserializeAll depth blobs d = .ok (results, d') ∧
            Rebuilding name f nodes (new ++ log) g' s' d' ∧
            (∀ m m', g m = some m' → g' m = some m') ∧
            Forall₂ (fun q r => r.expr = q.expr.rename f ∧ r.constraints.root = 0 ∧
              CopyOf nodes g' q.constraints.head r.constraints.head) queries results := by
  induction queries generalizing log s with
  | nil =>
    refine ⟨[], s, [], rfl, hs, forall_mem_nil _, ?_⟩
    intro f _ depth _ g d hd
    exact ⟨[], d, g, rfl, hd, fun _ _ h => h, .nil⟩
  | cons q queries ih =>
    rw [forall_mem_cons] at hqs
    obtain ⟨hq, hqs⟩ := hqs
    obtain ⟨path, hp, -⟩ := hq.path
    obtain ⟨blob, s1, new1, hru, hs1, hse, hid, hn, hsr, he, hns⟩ := serialize_spec hfd hs hq hp
    obtain ⟨blobs, s2, new2, hr2, hs2, hes, hb⟩ := ih hqs hs1
    rw [← append_assoc] at hs2 hes hb
    refine ⟨blob :: blobs, s2, new2 ++ new1, bind_ok_iff.2 ⟨_, hru, map_ok_iff.2
      ⟨_, hr2, rfl⟩⟩, hs2, ?_, ?_⟩
    · refine forall_mem_cons.2 ⟨⟨blob.exprId, ?_⟩, hes⟩
      rw [append_assoc]
      exact he.append new2
    intro f hf depth hdp g d hd
    have hf1 : Replaces f (new1 ++ log) := by
      intro root m hm
      apply hf root m
      rw [append_assoc]
      exact mem_append_right _ hm
    have hde : (new1 ++ log).length ≤ depth := by
      rw [append_assoc, length_append] at hdp
      omega
    obtain ⟨r, d1, g1, hr3, hd1, hm1, hep, hro, hcp⟩ := deserialize_spec ht hs1 hd hq
      hp hse hid hn hsr he hns hf1 hde
    obtain ⟨results, d2, g2, hr4, hd2, hm2, hr⟩ := hb f hf depth hdp g1 d1 hd1
    exact ⟨r :: results, d2, g2, bind_ok_iff.2 ⟨_, hr3, map_ok_iff.2 ⟨_, hr4, rfl⟩⟩, hd2,
      fun m m' hm => hm2 m m' (hm1 m m' hm), .cons ⟨hep, hro, hcp.mono hm2⟩ hr⟩

end Chef
