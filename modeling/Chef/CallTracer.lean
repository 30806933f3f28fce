import Chef.Foundations.Store
import Chef.InterpreterTracer

namespace Chef
open Foundations
deriving instance Inhabited for CallStackFrame

structure FrameObject where
  parent : Option Nat
  frame : CallStackFrame
  deriving DecidableEq, Inhabited

/-- The call stack of one state, with the last frame first. -/
structure TracedStack where
  nextId : Nat
  frames : List Nat
  deriving DecidableEq, Inhabited

inductive StackSignal where
  | push (oldTop newTop : CallStackFrame)
  | popping (oldTop newTop : CallStackFrame)
  | resize (frame : CallStackFrame)
  | basicBlockEnter (top : CallStackFrame)
  deriving DecidableEq

inductive StackFault where
  | noFrame
  | invalidFrameStart
  | frameBelowRoot
  deriving DecidableEq

inductive StackEvent where
  | call (callSite function sp : UInt64)
  | stackPointer (sp : UInt64)
  | basicBlock (bbIndex loopId loopDepth : Int) (isHeader : Bool)
  deriving DecidableEq

def CallStackFrame.root (stackTop : UInt64) : CallStackFrame :=
  ⟨1, 0, 0, 0, 0, 0, false, stackTop + 8, stackTop⟩

def CallStackFrame.called (id : Nat) (callSite function sp : UInt64) (caller : CallStackFrame) :
    CallStackFrame :=
  ⟨id, callSite, function, 0, 0, 0, false, caller.bottom, sp⟩

def CallStackFrame.resized (f : CallStackFrame) (sp : UInt64) : CallStackFrame :=
  { f with bottom := sp }

def CallStackFrame.entered (f : CallStackFrame) (bbIndex loopId loopDepth : Int)
    (isHeader : Bool) : CallStackFrame :=
  { f with bbIndex := bbIndex, loopId := loopId, loopDepth := loopDepth, isHeader := isHeader }

/-- The counter of ids is an unsigned number of 64 bits. -/
def succId (id : Nat) : Nat := (id + 1) % 2 ^ 64

abbrev FrameHeap := Store FrameObject

namespace TracedStack
variable (heap : FrameHeap)
def create (stackTop : UInt64) : FrameHeap × TracedStack :=
  (heap.alloc ⟨none, .root stackTop⟩, ⟨2, [heap.size]⟩)

def cloneFrame (r : FrameHeap × TracedStack) (f : Nat) : FrameHeap × TracedStack :=
  let object := r.1.get f
  let parent :=
    match r.2.frames with
    | [] => object.parent
    | back :: _ => some back
  (r.1.alloc { object with parent := parent }, { r.2 with frames := r.1.size :: r.2.frames })

variable (s : TracedStack)
def clone (stackTop : UInt64) : FrameHeap × TracedStack :=
  let r := create heap stackTop
  s.frames.reverse.foldl cloneFrame (r.1, { r.2 with nextId := s.nextId })

abbrev Outcome := Except StackFault (FrameHeap × TracedStack × List StackSignal)

def frameAt (f : Nat) : CallStackFrame := (heap.get f).frame

def setFrame (f : Nat) (frame : CallStackFrame) : FrameHeap :=
  heap.modify f fun object => { object with frame := frame }

def newFrame (callSite function sp : UInt64) : Outcome :=
  match s.frames with
  | [] => .error .noFrame
  | old :: _ =>
    if sp < (frameAt heap old).bottom then
      let new := (frameAt heap old).called s.nextId callSite function sp
      .ok (heap.alloc ⟨some old, new⟩, ⟨succId s.nextId, heap.size :: s.frames⟩,
        [.push (frameAt heap old) new])
    else .error .invalidFrameStart

def unwind (heap : FrameHeap) (sp : UInt64) :
    List Nat → Except StackFault (List Nat × List StackSignal)
  | [] => .error .noFrame
  | [root] => if (frameAt heap root).top ≤ sp then .error .frameBelowRoot else .ok ([root], [])
  | old :: new :: rest =>
    if (frameAt heap old).top ≤ sp then
      (unwind heap sp (new :: rest)).map fun r =>
        (r.1, .popping (frameAt heap old) (frameAt heap new) :: r.2)
    else .ok (old :: new :: rest, [])

def resizeTop (sp : UInt64) : Outcome :=
  match s.frames with
  | [] => .error .noFrame
  | top :: _ =>
    if (frameAt heap top).bottom = sp then .ok (heap, s, [])
    else
      let frame := (frameAt heap top).resized sp
      .ok (setFrame heap top frame, s, [.resize frame])

def updateFrame (sp : UInt64) : Outcome := unwind heap sp s.frames >>= fun r =>
    (resizeTop heap { s with frames := r.1 } sp).map fun q => (q.1, q.2.1, r.2 ++ q.2.2)

def updateBasicBlock (bbIndex loopId loopDepth : Int) (isHeader : Bool) : Outcome :=
  match s.frames with
  | [] => .error .noFrame
  | top :: _ =>
    let frame := (frameAt heap top).entered bbIndex loopId loopDepth isHeader
    .ok (setFrame heap top frame, s, [.basicBlockEnter frame])

def handle : StackEvent → Outcome
  | .call callSite function sp => newFrame heap s callSite function sp
  | .stackPointer sp => updateFrame heap s sp
  | .basicBlock bbIndex loopId loopDepth isHeader =>
    updateBasicBlock heap s bbIndex loopId loopDepth isHeader

end TracedStack
end Chef
