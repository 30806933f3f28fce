import Chef.HighLevelExecutor

namespace Chef
open Foundations
inductive TopologyFault where
  | emptyIndex
  | notAfter
  | noCaller
  | outOfFuel
  | unknownState
  | stillOwned
  | stream (fault : Fault)
  deriving DecidableEq

namespace TopologicNode
def fresh (parent : Nat) (bb ci : Int) (cb : Bool) (next : Option Nat) : TopologicNode :=
  ⟨some parent, bb, ci, cb, next, none, []⟩

def getDown (nodes : Store TopologicNode) (n : Nat) (cb : Bool) : Nat × Store TopologicNode :=
  match (nodes.get n).down with
  | some down => (down, nodes)
  | none =>
    (nodes.size, (nodes.alloc (fresh n (-1) 0 cb none)).modify n
      fun m => { m with down := some nodes.size })

def getNextFrom (bb ci : Int) (cb : Bool) (nodes : Store TopologicNode) :
    Nat → Nat → Except TopologyFault (Nat × Store TopologicNode)
  | 0, _ => .error .outOfFuel
  | fuel + 1, previous =>
    match (nodes.get previous).next with
    | none =>
      .ok (nodes.size, (nodes.alloc (fresh previous bb ci cb none)).modify previous
        fun m => { m with next := some nodes.size })
    | some current =>
      if bb = (nodes.get current).basicBlock ∧ ci = (nodes.get current).callIndex then
        .ok (current, nodes)
      else if bb < (nodes.get current).basicBlock ∨
          bb = (nodes.get current).basicBlock ∧ ci < (nodes.get current).callIndex then
        .ok (nodes.size, ((nodes.alloc (fresh previous bb ci cb (some current))).modify previous
            fun m => { m with next := some nodes.size }).modify current
              fun m => { m with parent := some nodes.size })
      else getNextFrom bb ci cb nodes fuel current

/-- Keys grow, so chains are not longer than all nodes. -/
def getNext (nodes : Store TopologicNode) (n : Nat) (bb ci : Int) :
    Except TopologyFault (Nat × Store TopologicNode) :=
  if bb > (nodes.get n).basicBlock ∨
      bb = (nodes.get n).basicBlock ∧ ci > (nodes.get n).callIndex then
    getNextFrom bb ci (nodes.get n).isCallBase nodes (nodes.size + 1) n
  else .error .notAfter

def succIndex (ci : Int) : Int := (ci + 1).bmod (2 ^ 32)

/-- The weak pointers to a node that is destroyed. -/
def forget (n : Nat) (m : TopologicNode) : TopologicNode := { m with
    next := if m.next = some n then none else m.next
    down := if m.down = some n then none else m.down }

end TopologicNode

namespace HighLevelExecutor
open TopologicNode
section
variable (x : HighLevelExecutor σ)
def levels (l : Nat) : List Nat := (x.llStates.get l).topoIndex.reverse

def moveState (l slot : Nat) (nodes : Store TopologicNode)
    (levels : List Nat) : HighLevelExecutor σ :=
  let y := { x with nodes := nodes }.enterNode l levels.reverse
  { y with nodes := y.nodes.modify slot fun n => { n with states := n.states.erase l } }

def onStackFramePush (l : Nat) : Except TopologyFault (HighLevelExecutor σ) :=
  match x.levels l with
  | [] => .error .emptyIndex
  | slot :: outer =>
    let down := getDown x.nodes slot true
    .ok (x.moveState l slot down.2 (down.1 :: slot :: outer))

def unwindCall (nodes : Store TopologicNode) (levels : List Nat) :
    Except TopologyFault (Nat × List Nat) :=
  match levels.dropWhile fun n => !(nodes.get n).isCallBase with
  | _ :: caller :: outer => .ok (caller, outer)
  | _ => .error .noCaller

def onStackFramePopping (l : Nat) : Except TopologyFault (HighLevelExecutor σ) :=
  match x.levels l with
  | [] => .error .emptyIndex
  | slot :: outer =>
    unwindCall x.nodes (slot :: outer) >>= fun call =>
      getNext x.nodes call.1 (x.nodes.get call.1).basicBlock
          (succIndex (x.nodes.get call.1).callIndex) >>= fun next =>
        .ok (x.moveState l slot next.2 (next.1 :: call.2))

def leaveLoops (nodes : Store TopologicNode) (bb : Int) :
    List Nat → Except TopologyFault (Nat × List Nat)
  | [] => .error .emptyIndex
  | [back] => if (nodes.get back).isCallBase then .ok (back, []) else .error .emptyIndex
  | back :: slot :: outer =>
    if (nodes.get back).isCallBase then .ok (back, slot :: outer)
    else if bb ≤ (nodes.get slot).basicBlock then .ok (back, slot :: outer)
    else leaveLoops nodes bb (slot :: outer)

def stepBasicBlock (l bbIndex : Nat) : Except TopologyFault (HighLevelExecutor σ) :=
  match x.levels l with
  | [] => .error .emptyIndex
  | prevSlot :: outer =>
    if bbIndex ≤ (x.nodes.get prevSlot).basicBlock then
      let down := getDown x.nodes prevSlot false
      getNext down.2 down.1 bbIndex 0 >>= fun next =>
        .ok (x.moveState l prevSlot next.2 (next.1 :: prevSlot :: outer))
    else
      leaveLoops x.nodes bbIndex (prevSlot :: outer) >>= fun left =>
        getNext x.nodes left.1 bbIndex 0 >>= fun next =>
          .ok (x.moveState l prevSlot next.2 (next.1 :: left.2))

def Unowned (n : Nat) : Prop := (x.nodes.get n).next = none ∧ (x.nodes.get n).down = none ∧
    ∀ l ∈ x.stateMap, n ∉ (x.llStates.get l).topoIndex

end

instance (x : HighLevelExecutor σ) (n : Nat) : Decidable (x.Unowned n) :=
  inferInstanceAs (Decidable (_ ∧ _ ∧ _))

/-- A node is destroyed when nothing owns it any more. -/
def expire (x : HighLevelExecutor σ) (n : Nat) : Except TopologyFault (HighLevelExecutor σ) :=
  if x.Unowned n then .ok { x with nodes := x.nodes.map (forget n) } else .error .stillOwned

end HighLevelExecutor

/-- What moves, creates and ends low-level states. -/
inductive TopologyEvent where
  | stream (e : StreamEvent)
  | push (state : Nat)
  | pop (state : Nat)
  | basicBlock (state bbIndex : Nat)
  | expire (node : Nat)
  deriving DecidableEq

namespace HighLevelExecutor
variable (S : HighLevelStrategy σ) (order : List (UInt64 × Nat) → List (UInt64 × Nat))
def whenAlive (x : HighLevelExecutor σ) (l : Nat)
    (r : Except TopologyFault (HighLevelExecutor σ)) : Except TopologyFault (HighLevelExecutor σ) :=
  if l ∈ x.stateMap then r else .error .unknownState

def handleTopology (fuel : Nat) (x : HighLevelExecutor σ) :
    TopologyEvent → Except TopologyFault (HighLevelExecutor σ)
  | .stream e => (x.handle S order fuel e).mapError .stream
  | .push l => x.whenAlive l (x.onStackFramePush l)
  | .pop l => x.whenAlive l (x.onStackFramePopping l)
  | .basicBlock l bbIndex => x.whenAlive l (x.stepBasicBlock l bbIndex)
  | .expire n => x.expire n

def topologyMachine : Machine (HighLevelExecutor σ) TopologyEvent where
  init x := x = initial S
  step x e y := ∃ fuel, x.handleTopology S order fuel e = .ok y

end HighLevelExecutor
end Chef
