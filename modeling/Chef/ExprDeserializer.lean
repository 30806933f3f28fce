import Chef.ExprSerializer

namespace Chef
open Foundations Data
/-- Failing lookups and assertions; `depth` is only of the model. -/
inductive DeserializeFault where
  | depth
  | missingExpr
  | missingUpdateList
  | missingUpdateNode
  | missingArray
  | missingChild
  | missingValue
  | missingParent
  | concatKids
  | unsupportedKind
  deriving DecidableEq

/-- The messages that wait, and what was made from the others. -/
structure ExprDeserializer where
  uniqueArrays : List (String × KArray)
  pendingUpdateLists : List (Nat × Data.UpdateList)
  pendingExprNodes : List (Nat × ExprNode)
  deserializedArrays : List (Nat × KArray × String)
  deserializedUpdateLists : List (Nat × KArray × UpdateNode)
  deserializedExprNodes : List (Nat × Expr)

namespace ExprDeserializer
def init (arrays : List (String × KArray)) : ExprDeserializer where
  uniqueArrays := arrays.foldl (fun m e => insertNew m e.1 e.2) []
  pendingUpdateLists := []
  pendingExprNodes := []
  deserializedArrays := []
  deserializedUpdateLists := []
  deserializedExprNodes := []

section
variable (d : ExprDeserializer)
def deserializeArray (serArray : Data.Array) : ExprDeserializer := { d with
    deserializedArrays := insertNew d.deserializedArrays serArray.id
      (⟨serArray.id, serArray.size, serArray.contents.getD []⟩, serArray.name) }

def addUpdateList (l : Data.UpdateList) : ExprDeserializer :=
  { d with pendingUpdateLists := insertNew d.pendingUpdateLists l.id l }

def addExprNode (node : ExprNode) : ExprDeserializer :=
  { d with pendingExprNodes := insertNew d.pendingExprNodes node.id node }

def readFrame (data : ExpressionData) : ExprDeserializer := data.expr.foldl addExprNode
    (data.update.foldl addUpdateList (data.array.foldl deserializeArray d))

def getArray (id : Nat) : Except DeserializeFault KArray :=
  match d.deserializedArrays.lookup id with
  | none => .error .missingArray
  | some r =>
    match d.uniqueArrays.lookup r.2 with
    | some array => .ok array
    | none => .ok r.1

end

def getUpdateNodeAtOffset : UpdateNode → Nat → Except DeserializeFault UpdateNode
  | .null, _ => .error .missingUpdateNode
  | .node index value next, 0 => .ok (.node index value next)
  | .node _ _ next, offset + 1 => getUpdateNodeAtOffset next offset

section
variable (getExpr : Nat → ExprDeserializer → Except DeserializeFault (Expr × ExprDeserializer))
  (getUpdateNode : KArray → Nat × Nat → ExprDeserializer →
    Except DeserializeFault (UpdateNode × ExprDeserializer))

def child (node : ExprNode) (i : Nat) (d : ExprDeserializer) :
    Except DeserializeFault (Expr × ExprDeserializer) :=
  match node.childExprId[i]? with
  | none => .error .missingChild
  | some id => getExpr id d

def unary (make : Expr → Expr) (node : ExprNode) (d : ExprDeserializer) :
    Except DeserializeFault (Expr × ExprDeserializer) :=
  child getExpr node 0 d >>= fun r => .ok (make r.1, r.2)

def binary (make : Expr → Expr → Expr) (node : ExprNode) (d : ExprDeserializer) :
    Except DeserializeFault (Expr × ExprDeserializer) :=
  child getExpr node 0 d >>= fun l => child getExpr node 1 l.2 >>= fun r => .ok (make l.1 r.1, r.2)

def updateNode (array : KArray) (position : Option (Nat × Nat)) (d : ExprDeserializer) :
    Except DeserializeFault (UpdateNode × ExprDeserializer) :=
  match position with
  | none => .ok (.null, d)
  | some position => getUpdateNode array position d

def deserializeExpr (node : ExprNode) (d : ExprDeserializer) :
    Except DeserializeFault (Expr × ExprDeserializer) :=
  match ExprKind.ofNumber node.kind with
  | none => .error .unsupportedKind
  | some .constant =>
    .ok (.constant (node.width.getD 0) (node.value.getD 0 % 2 ^ node.width.getD 0), d)
  | some .notOptimized => unary getExpr .notOptimized node d
  | some .read =>
    d.getArray (node.arrayId.getD 0) >>= fun array =>
      updateNode getUpdateNode array node.updateList d >>= fun un =>
        child getExpr node 0 un.2 >>= fun index => .ok (.read array un.1 index.1, index.2)
  | some .select =>
    child getExpr node 0 d >>= fun c =>
      child getExpr node 1 c.2 >>= fun t =>
        child getExpr node 2 t.2 >>= fun f => .ok (.select c.1 t.1 f.1, f.2)
  | some .concat =>
    if node.childExprId.length = 2 then binary getExpr .concat node d else .error .concatKids
  | some .extract =>
    unary getExpr (fun e => .extract e (node.offset.getD 0) (node.width.getD 0)) node d
  | some .zext => unary getExpr (fun e => .zext e (node.width.getD 0)) node d
  | some .sext => unary getExpr (fun e => .sext e (node.width.getD 0)) node d
  | some .not => unary getExpr .not node d
  | some (.arithmetic kind) => binary getExpr (.arithmetic kind) node d
  | some (.compare kind) => binary getExpr (.compare kind) node d

def extendUpdates : List (Nat × Nat) → UpdateNode → ExprDeserializer →
    Except DeserializeFault (UpdateNode × ExprDeserializer)
  | [], head, d => .ok (head, d)
  | ids :: rest, head, d =>
    extendUpdates rest head d >>= fun r =>
      getExpr ids.1 r.2 >>= fun index =>
        getExpr ids.2 index.2 >>= fun value => .ok (.node index.1 value.1 r.1, value.2)

def deserializeUpdateList (array : KArray) (l : Data.UpdateList) (d : ExprDeserializer) :
    Except DeserializeFault (UpdateNode × ExprDeserializer) :=
  updateNode getUpdateNode array l.nextUpdate d >>= fun r =>
    if l.valueExprId.length < l.indexExprId.length then .error .missingValue
    else extendUpdates getExpr (l.indexExprId.zip l.valueExprId) r.1 r.2

end

mutual
def getOrDeserializeExpr : Nat → Nat → ExprDeserializer →
    Except DeserializeFault (Expr × ExprDeserializer)
  | 0, _, _ => .error .depth
  | depth + 1, id, d =>
    match d.deserializedExprNodes.lookup id with
    | some e => .ok (e, d)
    | none =>
      match d.pendingExprNodes.lookup id with
      | none => .error .missingExpr
      | some node =>
        deserializeExpr (getOrDeserializeExpr depth) (getOrDeserializeUpdateNode depth) node d >>=
          fun r => .ok (r.1, { r.2 with
            pendingExprNodes := r.2.pendingExprNodes.filter fun e => e.1 ≠ id
            deserializedExprNodes := insertNew r.2.deserializedExprNodes id r.1 })

def getOrDeserializeUpdateNode : Nat → KArray → Nat × Nat → ExprDeserializer →
    Except DeserializeFault (UpdateNode × ExprDeserializer)
  | 0, _, _, _ => .error .depth
  | depth + 1, array, position, d =>
    match d.deserializedUpdateLists.lookup position.1 with
    | some ul => (getUpdateNodeAtOffset ul.2 position.2).map fun un => (un, d)
    | none =>
      match d.pendingUpdateLists.lookup position.1 with
      | none => .error .missingUpdateList
      | some l =>
        deserializeUpdateList (getOrDeserializeExpr depth) (getOrDeserializeUpdateNode depth)
          array l d >>= fun r =>
            (getUpdateNodeAtOffset r.1 position.2).map fun un => (un, { r.2 with
              pendingUpdateLists := r.2.pendingUpdateLists.filter fun e => e.1 ≠ position.1
              deserializedUpdateLists :=
                insertNew r.2.deserializedUpdateLists position.1 (array, r.1) })

end
end ExprDeserializer

/-- The rebuilt conditions, and the heads of the queries. -/
structure QueryDeserializer where
  exprDeserializer : ExprDeserializer
  nodes : List (Nat × Nat)
  conditions : Store ConditionNode
  root : Nat

namespace QueryDeserializer
def init (ed : ExprDeserializer) : QueryDeserializer := ⟨ed, [], ⟨[default]⟩, 0⟩

/-- Conditions are added in reverse order, and kept alive by the heads. -/
def addConditions (depth : Nat) : List Nat → Nat → ExprDeserializer → Store ConditionNode →
    Except DeserializeFault (Nat × ExprDeserializer × Store ConditionNode)
  | [], seed, ed, conditions => .ok (seed, ed, conditions)
  | id :: rest, seed, ed, conditions =>
    addConditions depth rest seed ed conditions >>= fun r =>
      ExprDeserializer.getOrDeserializeExpr depth id r.2.1 >>= fun e =>
        let c := ConditionNode.getOrCreate (fun _ => true) r.2.2 r.1 e.1
        .ok (c.1, e.2, c.2)

def seed (queryData : QueryData) (d : QueryDeserializer) : Except DeserializeFault Nat :=
  match queryData.parentId with
  | none => .ok d.root
  | some id =>
    match d.nodes.lookup id with
    | none => .error .missingParent
    | some node => .ok node

def deserialize (depth : Nat) (queryData : QueryData) (d : QueryDeserializer) :
    Except DeserializeFault (Query × QueryDeserializer) :=
  d.seed queryData >>= fun seed =>
    addConditions depth queryData.assertExprId seed
      (d.exprDeserializer.readFrame queryData.exprData) d.conditions >>= fun r =>
        ExprDeserializer.getOrDeserializeExpr depth queryData.exprId r.2.1 >>= fun e =>
          .ok (⟨⟨d.root, r.1⟩, e.1⟩, ⟨e.2, insertNew d.nodes queryData.id r.1, r.2.2, d.root⟩)

def deserializeAll (depth : Nat) : List QueryData → QueryDeserializer →
    Except DeserializeFault (List Query × QueryDeserializer)
  | [], d => .ok ([], d)
  | queryData :: rest, d =>
    deserialize depth queryData d >>= fun r =>
      (deserializeAll depth rest r.2).map fun r' => (r.1 :: r'.1, r'.2)

end QueryDeserializer
end Chef
