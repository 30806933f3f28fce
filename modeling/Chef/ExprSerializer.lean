import Chef.SolverQuery

namespace Chef
open Foundations
inductive ExprKind where
  | constant | notOptimized | read | select | concat | extract | zext | sext
  | arithmetic (kind : ArithmeticKind) | not | compare (kind : CmpKind)
  deriving DecidableEq

def ExprKind.number : ExprKind → Nat
  | .constant => 0
  | .notOptimized => 1
  | .read => 3
  | .select => 4
  | .concat => 5
  | .extract => 6
  | .zext => 7
  | .sext => 8
  | .arithmetic .add => 9
  | .arithmetic .sub => 10
  | .arithmetic .mul => 11
  | .arithmetic .udiv => 12
  | .arithmetic .sdiv => 13
  | .arithmetic .urem => 14
  | .arithmetic .srem => 15
  | .not => 16
  | .arithmetic .and => 17
  | .arithmetic .or => 18
  | .arithmetic .xor => 19
  | .arithmetic .shl => 20
  | .arithmetic .lshr => 21
  | .arithmetic .ashr => 22
  | .compare .eq => 23
  | .compare .ne => 24
  | .compare .ult => 25
  | .compare .ule => 26
  | .compare .ugt => 27
  | .compare .uge => 28
  | .compare .slt => 29
  | .compare .sle => 30
  | .compare .sgt => 31
  | .compare .sge => 32

def ExprKind.ofNumber : Nat → Option ExprKind
  | 0 => some .constant
  | 1 => some .notOptimized
  | 3 => some .read
  | 4 => some .select
  | 5 => some .concat
  | 6 => some .extract
  | 7 => some .zext
  | 8 => some .sext
  | 9 => some (.arithmetic .add)
  | 10 => some (.arithmetic .sub)
  | 11 => some (.arithmetic .mul)
  | 12 => some (.arithmetic .udiv)
  | 13 => some (.arithmetic .sdiv)
  | 14 => some (.arithmetic .urem)
  | 15 => some (.arithmetic .srem)
  | 16 => some .not
  | 17 => some (.arithmetic .and)
  | 18 => some (.arithmetic .or)
  | 19 => some (.arithmetic .xor)
  | 20 => some (.arithmetic .shl)
  | 21 => some (.arithmetic .lshr)
  | 22 => some (.arithmetic .ashr)
  | 23 => some (.compare .eq)
  | 24 => some (.compare .ne)
  | 25 => some (.compare .ult)
  | 26 => some (.compare .ule)
  | 27 => some (.compare .ugt)
  | 28 => some (.compare .uge)
  | 29 => some (.compare .slt)
  | 30 => some (.compare .sle)
  | 31 => some (.compare .sgt)
  | 32 => some (.compare .sge)
  | _ => none

def Expr.getKind : Expr → ExprKind
  | .constant _ _ => .constant
  | .notOptimized _ => .notOptimized
  | .read _ _ _ => .read
  | .select _ _ _ => .select
  | .concat _ _ => .concat
  | .extract _ _ _ => .extract
  | .zext _ _ => .zext
  | .sext _ _ => .sext
  | .not _ => .not
  | .arithmetic kind _ _ => .arithmetic kind
  | .compare kind _ _ => .compare kind

namespace Data
/-- The contents are missing for symbolic arrays. -/
structure Array where
  id : Nat
  name : String
  size : Nat
  contents : Option (List UInt8)

structure UpdateList where
  id : Nat
  indexExprId : List Nat
  valueExprId : List Nat
  nextUpdate : Option (Nat × Nat)

/-- The id of the update list and its offset are set together. -/
structure ExprNode where
  id : Nat
  kind : Nat
  value : Option Nat
  childExprId : List Nat
  updateList : Option (Nat × Nat)
  arrayId : Option Nat
  width : Option Nat
  offset : Option Nat

structure ExpressionData where
  array : List Array
  update : List UpdateList
  expr : List ExprNode

structure QueryData where
  id : Nat
  parentId : Option Nat
  exprId : Nat
  assertExprId : List Nat
  exprData : ExpressionData

def ExpressionData.empty : ExpressionData := ⟨[], [], []⟩

def ExpressionData.append (d d' : ExpressionData) : ExpressionData :=
  ⟨d.array ++ d'.array, d.update ++ d'.update, d.expr ++ d'.expr⟩

end Data

/-- Wide constants are not supported, and a node must have a path. -/
inductive SerializeFault where
  | wideConstant
  | danglingNode
  deriving DecidableEq

/-- What was sent before, and the positions of update nodes. -/
structure ExprSerializer where
  nextId : Nat
  serializedExpr : List (Expr × Nat)
  serializedArrays : List (KArray × Nat)
  serializedUpdateNodes : List (UpdateNode × Nat × Nat)

def ExprSerializer.init : ExprSerializer := ⟨1, [], [], []⟩

def Serialize (α : Type) : Type :=
  ExprSerializer → Except SerializeFault (α × ExprSerializer × Data.ExpressionData)

instance : Monad Serialize where
  pure a := fun s => .ok (a, s, .empty)
  bind m k := fun s =>
    m s >>= fun r => (k r.1 r.2.1).map fun r' => (r'.1, r'.2.1, r.2.2.append r'.2.2)

def Serialize.fault (f : SerializeFault) : Serialize α := fun _ => .error f

namespace ExprFrame
variable (name : KArray → String)
  (find : Nat → List (UpdateNode × Nat × Nat) → UpdateNode → Option (Nat × Nat))

def arrayMessage (array : KArray) (id : Nat) : Data.Array where
  id := id
  name := name array
  size := array.size
  contents :=
    if array.constantValues.isEmpty then none
    else some ((List.range array.size).map fun i => array.constantValues.getD i 0)

def serializeArray (array : KArray) : Serialize Nat := fun s =>
  .ok (s.nextId, { s with nextId := s.nextId + 1 }, ⟨[arrayMessage name array s.nextId], [], []⟩)

def getOrSerializeArray (array : KArray) : Serialize Nat := fun s =>
  match s.serializedArrays.lookup array with
  | some id => .ok (id, s, .empty)
  | none => (serializeArray name array s).map fun r =>
    (r.1, { r.2.1 with serializedArrays := (array, r.1) :: r.2.1.serializedArrays }, r.2.2)

def exprMessage (e : Expr) (id : Nat) (children : List Nat) (updateList : Option (Nat × Nat))
    (arrayId : Option Nat) : Data.ExprNode where
  id := id
  kind := e.getKind.number
  value := match e with
    | .constant w v => some (v % 2 ^ w)
    | _ => none
  childExprId := children
  updateList := updateList
  arrayId := arrayId
  width := match e with
    | .constant w _ => some w
    | .extract _ _ w => some w
    | .zext _ w => some w
    | .sext _ w => some w
    | _ => none
  offset := match e with
    | .extract _ offset _ => some offset
    | _ => none

/-- Its id is taken before those of its children. -/
def serializeExpr (e : Expr)
    (fields : Nat → Serialize (List Nat × Option (Nat × Nat) × Option Nat)) : Serialize Nat :=
  fun s => (fields s.nextId { s with nextId := s.nextId + 1 }).map fun r =>
    (s.nextId, r.2.1,
      { r.2.2 with expr := exprMessage e s.nextId r.1.1 r.1.2.1 r.1.2.2 :: r.2.2.expr })

def getOrSerialize (e : Expr)
    (fields : Nat → Serialize (List Nat × Option (Nat × Nat) × Option Nat)) : Serialize Nat :=
  fun s =>
    match s.serializedExpr.lookup e with
    | some id => .ok (id, s, .empty)
    | none => (serializeExpr e fields s).map fun r =>
      (r.1, { r.2.1 with serializedExpr := (e, r.1) :: r.2.1.serializedExpr }, r.2.2)

def children : List (Serialize Nat) → Serialize (List Nat)
  | [] => pure []
  | m :: rest => do
    let id ← m
    let ids ← children rest
    return id :: ids

def operandFields (l : List (Serialize Nat)) :
    Serialize (List Nat × Option (Nat × Nat) × Option Nat) := do
  let ids ← children l
  return (ids, none, none)

def addUpdateNode (un : UpdateNode) (position : Nat × Nat) : Serialize Unit := fun s =>
  .ok ((), { s with serializedUpdateNodes := (un, position) :: s.serializedUpdateNodes }, .empty)

/-- `find` looks for the object of an update node in the table. -/
def getOrSerializeUpdateList (readId : Nat) (head : UpdateNode)
    (nodes : Nat → Serialize (List Nat × List Nat × Option (Nat × Nat))) : Serialize (Nat × Nat) :=
  fun s =>
    match find readId s.serializedUpdateNodes head with
    | some position => .ok (position, s, .empty)
    | none => (nodes s.nextId { s with nextId := s.nextId + 1 }).map fun r =>
      ((s.nextId, 0), r.2.1,
        { r.2.2 with update := ⟨s.nextId, r.1.1, r.1.2.1, r.1.2.2⟩ :: r.2.2.update })

def updateListField (readId : Nat) (head : UpdateNode) (nodes : Nat →
    Serialize (List Nat × List Nat × Option (Nat × Nat))) : Serialize (Option (Nat × Nat)) :=
  if head = .null then pure none
  else some <$> getOrSerializeUpdateList find readId head nodes

mutual
def getOrSerializeExpr : Expr → Serialize Nat
  | .constant w v => getOrSerialize (.constant w v) fun _ =>
    if w ≤ 64 then operandFields [] else .fault .wideConstant
  | .notOptimized src => getOrSerialize (.notOptimized src) fun _ =>
    operandFields [getOrSerializeExpr src]
  | .read root head index => getOrSerialize (.read root head index) fun id => do
    let indexId ← getOrSerializeExpr index
    let position ← updateListField find id head fun listId => serializeUpdateNodes head id listId 0
    let arrayId ← getOrSerializeArray name root
    return ([indexId], position, some arrayId)
  | .select c t f => getOrSerialize (.select c t f) fun _ =>
    operandFields [getOrSerializeExpr c, getOrSerializeExpr t, getOrSerializeExpr f]
  | .concat l r => getOrSerialize (.concat l r) fun _ =>
    operandFields [getOrSerializeExpr l, getOrSerializeExpr r]
  | .extract e offset w => getOrSerialize (.extract e offset w) fun _ =>
    operandFields [getOrSerializeExpr e]
  | .zext src w => getOrSerialize (.zext src w) fun _ => operandFields [getOrSerializeExpr src]
  | .sext src w => getOrSerialize (.sext src w) fun _ => operandFields [getOrSerializeExpr src]
  | .not e => getOrSerialize (.not e) fun _ => operandFields [getOrSerializeExpr e]
  | .arithmetic kind l r => getOrSerialize (.arithmetic kind l r) fun _ =>
    operandFields [getOrSerializeExpr l, getOrSerializeExpr r]
  | .compare kind l r => getOrSerialize (.compare kind l r) fun _ =>
    operandFields [getOrSerializeExpr l, getOrSerializeExpr r]

def serializeUpdateNodes : UpdateNode → Nat → Nat → Nat →
    Serialize (List Nat × List Nat × Option (Nat × Nat))
  | .null, _, _, _ => pure ([], [], none)
  | .node index value next, readId, listId, offset => fun s =>
    match find readId s.serializedUpdateNodes (.node index value next) with
    | some position => .ok (([], [], some position), s, .empty)
    | none => (do
      let indexId ← getOrSerializeExpr index
      let valueId ← getOrSerializeExpr value
      addUpdateNode (.node index value next) (listId, offset)
      let rest ← serializeUpdateNodes next readId listId (offset + 1)
      return (indexId :: rest.1, valueId :: rest.2.1, rest.2.2)) s

end
end ExprFrame

structure QuerySerializer where
  nextId : Nat
  es : ExprSerializer
  serializedNodes : List (Nat × Nat)

namespace QuerySerializer
def init : QuerySerializer := ⟨1, .init, []⟩

variable (name : KArray → String)
  (find : Nat → List (UpdateNode × Nat × Nat) → UpdateNode → Option (Nat × Nat))
  (nodes : Store ConditionNode)

def serializeNodes (serializedNodes : List (Nat × Nat)) :
    List Nat → Serialize (List Nat × Option Nat)
  | [] => pure ([], none)
  | node :: rest =>
    match serializedNodes.lookup node with
    | some id => pure ([], some id)
    | none => do
      let id ← ExprFrame.getOrSerializeExpr name find (ConditionNode.exprOf nodes node)
      let r ← serializeNodes serializedNodes rest
      return (id :: r.1, r.2)

def serialize (query : Query) (s : QuerySerializer) :
    Except SerializeFault (Data.QueryData × QuerySerializer) :=
  match query.constraints.path nodes with
  | none => .error .danglingNode
  | some path =>
    (do
      let exprId ← ExprFrame.getOrSerializeExpr name find query.expr
      let r ← serializeNodes name find nodes s.serializedNodes path.reverse
      return (exprId, r) : Serialize (Nat × List Nat × Option Nat)) s.es >>= fun r =>
    .ok (⟨s.nextId, r.1.2.2, r.1.1, r.1.2.1, r.2.2⟩,
      ⟨s.nextId + 1, r.2.1, insertNew s.serializedNodes query.constraints.head s.nextId⟩)

def serializeAll : List Query → QuerySerializer →
    Except SerializeFault (List Data.QueryData × QuerySerializer)
  | [], s => .ok ([], s)
  | query :: queries, s =>
    serialize name find nodes query s >>= fun r =>
      (serializeAll queries r.2).map fun r' => (r.1 :: r'.1, r'.2)

end QuerySerializer
end Chef
