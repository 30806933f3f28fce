import Chef.ObjectState
import Chef.Foundations.Store

namespace Chef
open Foundations
/-- The children are weak references. -/
structure ConditionNode where
  parent : Option Nat
  expr : Option Expr
  children : List (Expr × Nat)

instance : Inhabited ConditionNode := ⟨⟨none, none, []⟩⟩

structure ConstraintManager where
  root : Nat
  head : Nat
  deriving DecidableEq

namespace ConditionNode
def getOrCreate (alive : Nat → Bool) (nodes : Store ConditionNode) (n : Nat) (e : Expr) :
    Nat × Store ConditionNode :=
  let create := (nodes.size, (nodes.alloc ⟨some n, some e, []⟩).modify n fun node =>
    { node with children := (e, nodes.size) :: node.children.filter fun c => c.1 ≠ e })
  match (nodes.get n).children.lookup e with
  | some c => if alive c then (c, nodes) else create
  | none => create

def exprOf (nodes : Store ConditionNode) (n : Nat) : Expr := (nodes.get n).expr.getD (.constant 1 1)

/-- The nodes from below the root down to a node. -/
def pathFrom (nodes : Store ConditionNode) (root : Nat) : Nat → Nat → Option (List Nat)
  | 0, _ => none
  | fuel + 1, n =>
    if n = root then some []
    else
      match (nodes.get n).parent with
      | none => none
      | some p => (pathFrom nodes root fuel p).map fun l => l ++ [n]

end ConditionNode

namespace ConstraintManager
def path (nodes : Store ConditionNode) (cm : ConstraintManager) : Option (List Nat) :=
  ConditionNode.pathFrom nodes cm.root (cm.head + 1) cm.head

def addConstraint (alive : Nat → Bool) : Expr → Nat → Store ConditionNode →
    Except MemoryFault (Nat × Store ConditionNode)
  | .constant w v, head, nodes =>
    if w = 1 ∧ v % 2 ^ w = 1 then .ok (head, nodes) else .error .falseConstraint
  | .arithmetic .and left right, head, nodes =>
    addConstraint alive left head nodes >>= fun r => addConstraint alive right r.1 r.2
  | e, head, nodes => .ok (ConditionNode.getOrCreate alive nodes head e)

end ConstraintManager
end Chef
