import Chef.Foundations.Store

namespace Chef
open Foundations
/-- A fork with the states it leads to, or an item that is passed on. -/
inductive TraceItem (δ : Type) where
  | fork (pc : Nat) (children : List Nat)
  | other (data : δ)
  deriving DecidableEq

structure TraceEntry (δ : Type) where
  stateId : Nat
  item : TraceItem δ
  deriving DecidableEq

structure PathFragment where
  startIndex : Nat
  endIndex : Nat
  deriving DecidableEq

def PathFragment.indices (f : PathFragment) : List Nat :=
  List.range' f.startIndex (f.endIndex + 1 - f.startIndex)

/-- A sequence of fragments terminated by a fork point. -/
structure PathSegment where
  parent : Option Nat
  stateId : Nat
  forkPc : Nat
  fragmentList : List PathFragment
  children : List Nat
  deriving DecidableEq, Inhabited

inductive BuilderFault where
  | childTwice
  | notForked
  | noSegment
  | otherState
  | fragmentShrinks
  | brokenTrace
  | stateNotEmpty
  | endless
  deriving DecidableEq

namespace PathSegment
def appendFragment (f : PathFragment) (seg : PathSegment) : PathSegment :=
  { seg with fragmentList := seg.fragmentList ++ [f] }

def setLastFragment (f : PathFragment) (seg : PathSegment) : PathSegment :=
  { seg with fragmentList := seg.fragmentList.dropLast ++ [f] }

def indices (seg : PathSegment) : List Nat := seg.fragmentList.flatMap PathFragment.indices

end PathSegment

abbrev StateToSegments := List (Nat × List Nat)

def StateToSegments.push (leaves : StateToSegments) (stateId seg : Nat) : StateToSegments :=
  match leaves.lookup stateId with
  | none => leaves ++ [(stateId, [seg])]
  | some _ => leaves.map fun e => if e.1 = stateId then (e.1, e.2 ++ [seg]) else e

/-- Segments are named in the order of their creation. -/
structure PathBuilder where
  segments : Store PathSegment
  currentSegment : Nat
  leaves : StateToSegments
  deriving DecidableEq

namespace PathBuilder
def new : PathBuilder where
  segments := Store.empty.alloc ⟨none, 0, 0, [], []⟩
  currentSegment := 0
  leaves := [(0, [0])]

variable (b : PathBuilder)
def segment (i : Nat) : PathSegment := b.segments.get i

def current : PathSegment := b.segment b.currentSegment

def modifyCurrent (f : PathSegment → PathSegment) : PathBuilder :=
  { b with segments := b.segments.modify b.currentSegment f }

def latest (stateId : Nat) : Option Nat := (b.leaves.lookup stateId).bind List.getLast?

def switchState (traceIndex stateId : Nat) (b : PathBuilder) : Except BuilderFault PathBuilder :=
  if stateId = b.current.stateId then .ok b
  else
    match b.leaves.lookup stateId with
    | none => .error .notForked
    | some segments =>
      match segments.getLast? with
      | none => .error .noSegment
      | some seg =>
        if (b.segment seg).stateId = stateId then
          .ok ({ b with currentSegment := seg }.modifyCurrent
            (PathSegment.appendFragment ⟨traceIndex, traceIndex⟩))
        else .error .otherState

def extendFragment (traceIndex : Nat) (b : PathBuilder) : Except BuilderFault PathBuilder :=
  match b.current.fragmentList.getLast? with
  | none => .ok (b.modifyCurrent (PathSegment.appendFragment ⟨traceIndex, traceIndex⟩))
  | some f =>
    if f.endIndex ≤ traceIndex then
      .ok (b.modifyCurrent (PathSegment.setLastFragment ⟨f.startIndex, traceIndex⟩))
    else .error .fragmentShrinks

def newSegment (forkPc : Nat) (b : PathBuilder) (stateId : Nat) : Except BuilderFault PathBuilder :=
  if b.current.children.any fun c => (b.segment c).stateId = stateId then .error .childTwice
  else
    .ok { b with
      segments := (b.segments.alloc ⟨some b.currentSegment, stateId, forkPc, [], []⟩).modify
        b.currentSegment fun seg => { seg with children := seg.children ++ [b.segments.size] }
      leaves := b.leaves.push stateId b.segments.size }

def followState (children : List Nat) (b : PathBuilder) : PathBuilder :=
  match children.findIdx? fun c => b.current.stateId = c with
  | none => b
  | some i => { b with currentSegment := b.current.children.getD i b.currentSegment }

def onItem (traceIndex : Nat) (entry : TraceEntry δ) (b : PathBuilder) :
    Except BuilderFault PathBuilder := do
  let b ← b.switchState traceIndex entry.stateId
  if b.current.stateId = entry.stateId then
    let b ← b.extendFragment traceIndex
    match entry.item with
    | .fork pc children =>
      let b ← children.foldlM (newSegment pc) b
      .ok (b.followState children)
    | .other _ => .ok b
  else .error .otherState

def read (items : List (TraceEntry δ)) : Except BuilderFault PathBuilder :=
  items.zipIdx.foldlM (fun b (entry, traceIndex) => b.onItem traceIndex entry) new

def getPaths : List Nat := b.leaves.map Prod.fst

def ancestors (b : PathBuilder) : Nat → Nat → Option (List Nat)
  | 0, _ => none
  | steps + 1, seg =>
    match (b.segment seg).parent with
    | none => some [seg]
    | some p => (b.ancestors steps p).map (seg :: ·)

end PathBuilder

abbrev StateMap (π σ : Type) := List (π × σ)

def StateMap.getState [DecidableEq π] (m : StateMap π σ) (processor : π) (f : σ) :
    σ × StateMap π σ :=
  match m.lookup processor with
  | some s => (s, m)
  | none => (f, m ++ [(processor, f)])

structure Listeners (δ π σ : Type) where
  onEachItem : Nat → TraceEntry δ → StateMap π σ → StateMap π σ
  clone : σ → σ

/-- A builder whose segments hold states, and what it has delivered. -/
structure PathRun (δ π σ : Type) where
  builder : PathBuilder
  segmentState : Nat → StateMap π σ
  delivered : List (Nat × TraceEntry δ)

namespace PathRun
variable {δ π σ : Type}
def fresh (b : PathBuilder) : PathRun δ π σ := ⟨b, fun _ => [], []⟩

def segment (r : PathRun δ π σ) (i : Nat) : PathSegment := r.builder.segment i

def setState (seg : Nat) (m : StateMap π σ) (r : PathRun δ π σ) : PathRun δ π σ :=
  { r with segmentState := Function.update r.segmentState seg m }

def enter (seg : Nat) (r : PathRun δ π σ) : PathRun δ π σ :=
  { r with builder := { r.builder with currentSegment := seg } }

section
variable (L : Listeners δ π σ)
def processItem (index : Nat) (entry : TraceEntry δ) (r : PathRun δ π σ) : PathRun δ π σ :=
  { r.setState r.builder.currentSegment
      (L.onEachItem index entry (r.segmentState r.builder.currentSegment)) with
    delivered := r.delivered ++ [(index, entry)] }

variable (items : List (TraceEntry δ))
def processIndex (stateId : Nat)
    (r : PathRun δ π σ) (index : Nat) : Except BuilderFault (PathRun δ π σ) :=
  match items[index]? with
  | none => .error .brokenTrace
  | some entry =>
    if entry.stateId = stateId then .ok (r.processItem L index entry) else .error .otherState

def processSegment (seg : Nat) (r : PathRun δ π σ) : Except BuilderFault (PathRun δ π σ) :=
  (r.segment seg).fragmentList.foldlM
    (fun r f => f.indices.foldlM (processIndex L items (r.segment seg).stateId) r) r

def copyState (seg : Nat) (r : PathRun δ π σ) : Except BuilderFault (PathRun δ π σ) :=
  match (r.segment seg).parent with
  | none => .ok r
  | some p =>
    if (r.segmentState seg).isEmpty then
      .ok (r.setState seg ((r.segmentState p).map fun e => (e.1, L.clone e.2)))
    else .error .stateNotEmpty

variable (r : PathRun δ π σ)
def visitSegment (seg : Nat) : Except BuilderFault (PathRun δ π σ) := do
  let r ← (r.enter seg).copyState L seg
  r.processSegment L items seg

def deleteState (seg : Nat) : PathRun δ π σ := r.setState seg []

def resetTree : PathRun δ π σ := r.builder.leaves.foldl (fun r e => e.2.foldl deleteState r) r

def processPath (pathId : Nat) (r : PathRun δ π σ) : Except BuilderFault (Bool × PathRun δ π σ) :=
  match r.resetTree.builder.leaves.lookup pathId with
  | none => .ok (false, r.resetTree)
  | some leaf =>
    match leaf.getLast? with
    | none => .error .noSegment
    | some seg =>
      match r.builder.ancestors r.builder.segments.size seg with
      | none => .error .endless
      | some segments =>
        (segments.reverse.foldlM (visitSegment L items) r.resetTree).map fun r => (true, r)

end

/-- The stack of processTree, in as many rounds as segments. -/
def processStack (L : Listeners δ π σ) (items : List (TraceEntry δ)) :
    Nat → List Nat → PathRun δ π σ → Except BuilderFault (PathRun δ π σ)
  | _, [], r => .ok r
  | 0, _ :: _, _ => .error .endless
  | rounds + 1, seg :: stack, r => do
    let r ← r.visitSegment L items seg
    r.processStack L items rounds ((r.segment seg).children.reverse ++ stack)

def processTree (L : Listeners δ π σ) (items : List (TraceEntry δ)) (r : PathRun δ π σ) :
    Except BuilderFault (PathRun δ π σ) :=
  r.processStack L items r.builder.segments.size [0]

def getState [DecidableEq π] (r : PathRun δ π σ) (processor : π) (pathId : Nat) : Option σ :=
  (r.builder.latest pathId).bind fun seg => (r.segmentState seg).lookup processor

end PathRun
end Chef
