import Chef.ExprDeserializer

namespace Chef
open Foundations Or
open List hiding head
open ExprFrame ExprDeserializer
theorem ExprKind.ofNumber_number (k : ExprKind) : ofNumber k.number = some k := by
  cases k with
  | arithmetic kind | compare kind => cases kind <;> rfl
  | _ => rfl

def KArray.Valid (array : KArray) : Prop :=
  array.constantValues = [] ∨ array.constantValues.length = array.size

mutual
def Expr.Encodable : Expr → Prop
  | .constant w v => w ≤ 64 ∧ v < 2 ^ w
  | .notOptimized src => src.Encodable
  | .read root head index => root.Valid ∧ head.Encodable ∧ index.Encodable
  | .select c t f => c.Encodable ∧ t.Encodable ∧ f.Encodable
  | .concat l r => l.Encodable ∧ r.Encodable
  | .extract e _ _ => e.Encodable
  | .zext src _ => src.Encodable
  | .sext src _ => src.Encodable
  | .not e => e.Encodable
  | .arithmetic _ l r => l.Encodable ∧ r.Encodable
  | .compare _ l r => l.Encodable ∧ r.Encodable

def UpdateNode.Encodable : UpdateNode → Prop
  | .null => True
  | .node index value next => index.Encodable ∧ value.Encodable ∧ next.Encodable

end

mutual
def Expr.rename (f : KArray → KArray) : Expr → Expr
  | .constant w v => .constant w v
  | .notOptimized src => .notOptimized (src.rename f)
  | .read root head index => .read (f root) (head.rename f) (index.rename f)
  | .select c t g => .select (c.rename f) (t.rename f) (g.rename f)
  | .concat l r => .concat (l.rename f) (r.rename f)
  | .extract e offset w => .extract (e.rename f) offset w
  | .zext src w => .zext (src.rename f) w
  | .sext src w => .sext (src.rename f) w
  | .not e => .not (e.rename f)
  | .arithmetic kind l r => .arithmetic kind (l.rename f) (r.rename f)
  | .compare kind l r => .compare kind (l.rename f) (r.rename f)

def UpdateNode.rename (f : KArray → KArray) : UpdateNode → UpdateNode
  | .null => .null
  | .node index value next => .node (index.rename f) (value.rename f) (next.rename f)

end

/-- A message that was sent, and what it stands for. -/
inductive Entry where
  | array (array : KArray) (message : Data.Array)
  | list (head : UpdateNode) (message : Data.UpdateList)
  | expr (e : Expr) (message : Data.ExprNode)

namespace Entry
def id : Entry → Nat
  | .array _ m => m.id
  | .list _ m => m.id
  | .expr _ m => m.id

end Entry

def ExprIn (log : List Entry) (e : Expr) (id : Nat) : Prop := ∃ m, .expr e m ∈ log ∧ m.id = id

def Located (log : List Entry) (un : UpdateNode) (position : Nat × Nat) : Prop :=
  ∃ head m, .list head m ∈ log ∧ m.id = position.1 ∧ getUpdateNodeAtOffset head position.2 = .ok un

def UpdatesIn (log : List Entry) (un : UpdateNode) : Option (Nat × Nat) → Prop
  | none => un = .null
  | some position => Located log un position

def ListIn (log : List Entry) : UpdateNode → List (Nat × Nat) → Option (Nat × Nat) → Prop
  | un, [], position => UpdatesIn log un position
  | un, ids :: rest, position => ∃ index value next, un = .node index value next ∧
    ExprIn log index ids.1 ∧ ExprIn log value ids.2 ∧ ListIn log next rest position

def FieldsIn (log : List Entry) (position : Option (Nat × Nat)) (arrayId : Option Nat) : Expr → Prop
  | .read root head _ =>
    UpdatesIn log head position ∧ ∃ m, .array root m ∈ log ∧ arrayId = some m.id
  | .constant w v => v < 2 ^ w
  | _ => True

/-- It is right, and what it refers to was sent before. -/
def Entry.Complete (name : KArray → String) (log : List Entry) : Entry → Prop
  | .array root m => root.Valid ∧ m = arrayMessage name root m.id
  | .list head m => ∃ ids, m.indexExprId = ids.map Prod.fst ∧ m.valueExprId = ids.map Prod.snd ∧
    ListIn log head ids m.nextUpdate
  | .expr e m => ∃ children position arrayId, m = exprMessage e m.id children position arrayId ∧
    List.Forall₂ (ExprIn log) e.operands children ∧ FieldsIn log position arrayId e

def Written (name : KArray → String) : List Entry → Prop
  | [] => True
  | x :: log => x.Complete name log ∧ Written name log

theorem ExprIn.append (h : ExprIn log e n) (new : List Entry) : ExprIn (new ++ log) e n := by
  obtain ⟨m, hm, hid⟩ := h
  exact ⟨m, mem_append_right _ hm, hid⟩

theorem Located.append (h : Located log un position) (new : List Entry) :
    Located (new ++ log) un position := by
  obtain ⟨head, m, hm, hid, hat⟩ := h
  exact ⟨head, m, mem_append_right _ hm, hid, hat⟩

theorem UpdatesIn.append (h : UpdatesIn log un position) (new : List Entry) :
    UpdatesIn (new ++ log) un position := by
  cases position with
  | none => exact h
  | some position => exact Located.append h new

/-- What the tables say about the messages. -/
structure Sent (name : KArray → String) (log : List Entry) (s : ExprSerializer) : Prop where
  written : Written name log
  nodup : (log.map Entry.id).Nodup
  below : ∀ x ∈ log, x.id < s.nextId
  exprs : ∀ e n, s.serializedExpr.lookup e = some n → ExprIn log e n
  arrays : ∀ root n, s.serializedArrays.lookup root = some n ↔ ∃ m, .array root m ∈ log ∧ m.id = n

def LocatedBelow (log : List Entry) (s : ExprSerializer) (n : Nat) : Prop :=
  ∀ u ∈ s.serializedUpdateNodes, sizeOf u.1 < n → Located log u.1 u.2

structure Sends (data : Data.ExpressionData) (new : List Entry) : Prop where
  array : ∀ m, m ∈ data.array ↔ ∃ root, .array root m ∈ new
  update : ∀ m, m ∈ data.update ↔ ∃ head, .list head m ∈ new
  expr : ∀ m, m ∈ data.expr ↔ ∃ e, .expr e m ∈ new

theorem sends_nil : Sends .empty [] :=
  ⟨fun m => by simp [Data.ExpressionData.empty], fun m => by simp [Data.ExpressionData.empty],
    fun m => by simp [Data.ExpressionData.empty]⟩

theorem Sends.append (h : Sends data new) (h' : Sends data' new') :
    Sends (data.append data') (new' ++ new) := by
  refine ⟨fun m => ?_, fun m => ?_, fun m => ?_⟩
  · rw [Data.ExpressionData.append, mem_append, h.array, h'.array, ← exists_or]
    exact exists_congr fun root => by rw [mem_append, or_comm]
  · rw [Data.ExpressionData.append, mem_append, h.update, h'.update, ← exists_or]
    exact exists_congr fun head => by rw [mem_append, or_comm]
  · rw [Data.ExpressionData.append, mem_append, h.expr, h'.expr, ← exists_or]
    exact exists_congr fun e => by rw [mem_append, or_comm]

theorem Sends.expr_cons (h : Sends data new) :
    Sends { data with expr := m :: data.expr } (.expr e m :: new) := by
  refine ⟨fun m' => ?_, fun m' => ?_, fun m' => ?_⟩
  · simp [h.array m']
  · simp [h.update m']
  · simp [h.expr m', exists_or]

theorem Sends.list_cons (h : Sends data new) :
    Sends { data with update := m :: data.update } (.list head m :: new) := by
  refine ⟨fun m' => ?_, fun m' => ?_, fun m' => ?_⟩
  · simp [h.array m']
  · simp [h.update m', exists_or]
  · simp [h.expr m']

/-- Update nodes may come into the table before their list is sent. -/
structure Grows (name : KArray → String) (Own : UpdateNode × Nat × Nat → Prop) (log : List Entry)
    (s : ExprSerializer) (new : List Entry) (data : Data.ExpressionData) (s' : ExprSerializer) :
    Prop where
  sent : Sent name (new ++ log) s'
  above : ∀ x ∈ new, s.nextId ≤ x.id
  nextId : s.nextId ≤ s'.nextId
  sends : Sends data new
  updates : ∀ u ∈ s'.serializedUpdateNodes,
    u ∈ s.serializedUpdateNodes ∨ Located (new ++ log) u.1 u.2 ∨ Own u

variable {s s' s'' : ExprSerializer} {Own Own' : UpdateNode × Nat × Nat → Prop}

theorem Grows.refl (h : Sent name log s) : Grows name Own log s [] .empty s where
  sent := h
  above := forall_mem_nil _
  nextId := Nat.le_refl _
  sends := sends_nil
  updates _ hu := inl hu

theorem Grows.trans (h : Grows name Own log s new data s')
    (h' : Grows name Own' (new ++ log) s' new' data' s'') :
    Grows name (fun u => Own u ∨ Own' u) log s (new' ++ new) (data.append data') s'' where
  sent := by
    rw [append_assoc]
    exact h'.sent
  above := by
    intro x hx
    obtain hx | hx := mem_append.1 hx
    · exact Nat.le_trans h.nextId (h'.above x hx)
    · exact h.above x hx
  nextId := Nat.le_trans h.nextId h'.nextId
  sends := h.sends.append h'.sends
  updates := by
    intro u hu
    rw [append_assoc]
    obtain hu | hu | hu := h'.updates u hu
    · obtain hu | hu | hu := h.updates u hu
      · exact inl hu
      · exact inr (inl (hu.append new'))
      · exact inr (inr (inl hu))
    · exact inr (inl hu)
    · exact inr (inr (inr hu))

theorem Grows.mono (h : Grows name Own log s new data s') (ho : ∀ u, Own u → Own' u) :
    Grows name Own' log s new data s' :=
  { h with updates := fun u hu => (h.updates u hu).imp_right fun hl => hl.imp_right (ho u) }

theorem Grows.locatedBelow (h : Grows name (fun _ => False) log s new data s')
    (hs : LocatedBelow log s n) : LocatedBelow (new ++ log) s' n := by
  intro u hu hz
  obtain hu | hu | hu := h.updates u hu
  · exact (hs u hu hz).append new
  · exact hu
  · exact hu.elim

theorem LocatedBelow.mono (h : LocatedBelow log s n) (hn : k ≤ n) : LocatedBelow log s k :=
  fun u hu hs => h u hu (Nat.lt_of_lt_of_le hs hn)

theorem Sent.next (h : Sent name log s) : Sent name log { s with nextId := s.nextId + 1 } :=
  { h with below := fun x hx => Nat.lt_succ_of_lt (h.below x hx) }

theorem Sent.cons (h : Sent name log s) (hx : x.Complete name log) (hid : ∀ y ∈ log, y.id ≠ x.id)
    (hlt : x.id < s.nextId) (ha : ∀ root m, x ≠ .array root m) : Sent name (x :: log) s where
  written := ⟨hx, h.written⟩
  nodup := by
    rw [map_cons, nodup_cons]
    refine ⟨?_, h.nodup⟩
    intro hm
    obtain ⟨y, hy, heq⟩ := mem_map.1 hm
    exact hid y hy heq
  below := forall_mem_cons.2 ⟨hlt, h.below⟩
  exprs e n hn := (h.exprs e n hn).append [x]
  arrays root n := by
    rw [h.arrays]
    refine exists_congr fun m => ?_
    rw [mem_cons, or_iff_right fun heq => ha root m heq.symm]

theorem Grows.id_ne (h : Grows name Own log { s with nextId := s.nextId + 1 } new data s')
    (hs : Sent name log s) : ∀ y ∈ new ++ log, y.id ≠ s.nextId := by
  intro y hy heq
  obtain hy | hy := mem_append.1 hy
  · have hab := h.above y hy
    simp only at hab
    omega
  · have hb := hs.below y hy
    omega

end Chef
