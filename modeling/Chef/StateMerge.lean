import Chef.ExecutionState

namespace Chef
open Foundations
namespace ExecutionState
def walkStacks : List StackFrame → List StackFrame → Bool
  | fa :: as, fb :: bs =>
    if fa.caller ≠ fb.caller ∨ fa.kf ≠ fb.kf then walkStacks as bs else walkStacks as bs
  | [], [] => true
  | _, _ => false

def splitShared : List Nat → List Nat → List Nat × List Nat × List Nat
  | a :: as, b :: bs =>
    if a = b then (a :: (splitShared as bs).1, (splitShared as bs).2) else ([], a :: as, b :: bs)
  | as, bs => ([], as, bs)

variable (cpu : CpuObjects) (b : ExprBuilder) (littleEndian : Bool)
def compareArchitecturalConcreteState (h : Heap) (s o : ExecutionState) : Bool :=
  let a := (h.objectStates.get s.cpuSystemObject).concreteStore
  let b := (h.objectStates.get o.cpuSystemObject).concreteStore
  (List.range cpu.commonStart).any (fun i => a i != b i) ||
    (List.range' cpu.commonEnd (cpu.cpuSystemState.size - cpu.commonEnd)).any fun i => a i != b i

def isMutated (mo : MemoryObject) (ra rb : Nat) : Bool :=
  ra != rb && !mo.isValueIgnored && mo != cpu.cpuSystemState && mo != cpu.dirtyMask

def mutatedObjects : List (MemoryObject × Nat) → List (MemoryObject × Nat) →
    Option (List MemoryObject)
  | (ma, ra) :: as, (mb, rb) :: bs =>
    if ma ≠ mb then none
    else if isMutated cpu ma ra rb then
      if ma.isSharedConcrete then none else (mutatedObjects as bs).map fun mos => ma :: mos
    else mutatedObjects as bs
  | [], [] => some []
  | _, _ => none

def conjoin (acc e : Expr) : Except MemoryFault Expr :=
  if acc.width = e.width then .ok (b.and acc e) else .error .typeMismatch

def conjunction (exprs : List Expr) : Except MemoryFault Expr :=
  exprs.foldlM (conjoin b) (.constant 1 1)

def mergeValue (inA : Expr) : Option Expr → Option Expr → Option Expr
  | some av, some bv => if av ≠ bv then some (b.select inA av bv) else some av
  | av, _ => av

def mergeLocals (inA : Expr) : List (Option Expr) → List (Option Expr) → List (Option Expr)
  | av :: as, bv :: bs => mergeValue b inA av bv :: mergeLocals inA as bs
  | as, _ => as

theorem length_mergeLocals : (mergeLocals b inA as bs).length = as.length := by
  induction as generalizing bs with
  | nil => rfl
  | cons av as ih =>
    cases bs with
    | nil => rfl
    | cons bv bs => exact congrArg Nat.succ ih

def valuesMatch : Option Expr → Option Expr → Bool
  | some av, some bv => av == bv || av.width == bv.width
  | _, _ => true

def checkLocals : List (Option Expr) → List (Option Expr) → Except MemoryFault Unit
  | av :: as, bv :: bs => if valuesMatch av bv then checkLocals as bs else .error .typeMismatch
  | [], _ => .ok ()
  | none :: as, [] => checkLocals as []
  | some _ :: _, [] => .error .outOfBounds

def mergeFrame (inA : Expr) (fa fb : StackFrame) : Except MemoryFault StackFrame :=
  (checkLocals fa.locals fb.locals).map fun _ =>
    { fa with
      locals := mergeLocals b inA fa.locals fb.locals
      cells := (length_mergeLocals b).trans fa.cells }

def mergeStacks (inA : Expr) : List StackFrame → List StackFrame →
    Except MemoryFault (List StackFrame)
  | fa :: as, fb :: bs =>
    mergeFrame b inA fa fb >>= fun f => (mergeStacks inA as bs).map fun fs => f :: fs
  | as, _ => .ok as

def mergeByte (inA : Expr) (w r : Nat) (h : Heap) (i : Nat) : Except MemoryFault Heap :=
  (h.view w).read8 b i >>= fun ra =>
    let h := h.setView w ra.2
    (h.view r).read8 b i >>= fun rb =>
      let h := h.setView r rb.2
      if ra.1 = rb.1 then .ok h
      else if ra.1.width = rb.1.width then
        ((h.view w).write b littleEndian i (b.select inA ra.1 rb.1)).map fun v => h.setView w v
      else .error .typeMismatch

def mergeObject (inA : Expr) (o : ExecutionState) (hs : Heap × ExecutionState)
    (mo : MemoryObject) : Except MemoryFault (Heap × ExecutionState) :=
  match hs.2.addressSpace.findObject mo.address, o.addressSpace.findObject mo.address with
  | some os, some otherOS =>
    hs.2.getWriteable cpu hs.1 mo os.2 >>= fun wos =>
      ((List.range mo.size).foldlM (mergeByte b littleEndian inA wos.1 otherOS.2) wos.2.1).map
        fun h => (h, wos.2.2)
  | _, _ => .error .unboundObject

def isAllConcrete (os : ObjectState) : Bool := (List.range os.size).all fun i => os.isByteConcrete i

def clearDirtyMask (h : Heap) (w r size : Nat) : Heap :=
  let other := (h.objectStates.get r).concreteStore
  { h with
    objectStates := h.objectStates.modify w fun os =>
      { os with concreteStore := fun i =>
          if i < size ∧ os.concreteStore i ≠ other i then 0 else os.concreteStore i } }

def mergeDirtyMask (o : ExecutionState) (h : Heap) (s : ExecutionState) :
    Except MemoryFault (Heap × ExecutionState) :=
  match s.addressSpace.findObject cpu.dirtyMask.address,
      o.addressSpace.findObject cpu.dirtyMask.address with
  | some os, some otherOS =>
    s.getWriteable cpu h cpu.dirtyMask os.2 >>= fun wos =>
      if isAllConcrete (wos.2.1.objectStates.get wos.1) &&
          isAllConcrete (wos.2.1.objectStates.get otherOS.2) then
        .ok (clearDirtyMask wos.2.1 wos.1 otherOS.2 cpu.dirtyMask.size, wos.2.2)
      else .error .nullExpr
  | _, _ => .error .unboundObject

variable (alive : Nat → Bool) (order : List MemoryObject → List MemoryObject)
def mergeInto (h : Heap) (s o : ExecutionState) (split : List Nat × List Nat × List Nat)
    (mutated : List MemoryObject) : Except MemoryFault (Heap × ExecutionState) :=
  conjunction b (split.2.1.map (ConditionNode.exprOf h.conditions)) >>= fun inA =>
  conjunction b (split.2.2.map (ConditionNode.exprOf h.conditions)) >>= fun inB =>
  mergeStacks b inA s.stack o.stack >>= fun stack =>
  (order mutated).foldlM (mergeObject cpu b littleEndian inA o) (h, { s with stack := stack }) >>=
    fun hs =>
  ConstraintManager.addConstraint alive (b.or inA inB) (split.1.getLast?.getD s.constraints.root)
    hs.1.conditions >>= fun c =>
  mergeDirtyMask cpu o { hs.1 with conditions := c.2 }
    { hs.2 with constraints := ⟨s.constraints.root, c.1⟩ }

def merge (h : Heap) (s o : ExecutionState) : Except MemoryFault (Bool × Heap × ExecutionState) :=
  if s.active || o.active then .error .activeState
  else if s.pc ≠ o.pc then .ok (false, h, s)
  else if s.symbolics ≠ o.symbolics then .ok (false, h, s)
  else if walkStacks s.stack o.stack = false then .ok (false, h, s)
  else
    match s.constraints.path h.conditions, o.constraints.path h.conditions with
    | some as, some bs =>
      if compareArchitecturalConcreteState cpu h s o then .ok (false, h, s)
      else
        match mutatedObjects cpu s.addressSpace.objects o.addressSpace.objects with
        | none => .ok (false, h, s)
        | some mutated =>
          (mergeInto cpu b littleEndian alive order h s o (splitShared as bs) mutated).map
            fun r => (true, r)
    | _, _ => .error .nullNode

end ExecutionState
end Chef
