import Chef.Foundations.Transition

namespace Chef
open Foundations
structure CallStackFrame where
  id : Nat
  callSite : UInt64
  function : UInt64
  bbIndex : Int
  loopId : Int
  loopDepth : Int
  isHeader : Bool
  top : UInt64
  bottom : UInt64
  deriving DecidableEq

/-- The low-level call stack, with its top frame first. -/
structure CallStack where
  nextId : Nat
  frames : List CallStackFrame
  deriving DecidableEq

structure HighLevelFrame where
  lowLevelFrameId : Nat
  hlpcPtr : UInt64
  hlpc : UInt64
  hlinst : UInt64
  deriving DecidableEq

structure InterpreterStructureParams where
  interpLoopFunction : UInt64
  hlpcUpdatePc : UInt64
  instructionFetchPc : UInt64
  deriving DecidableEq

inductive TraceFault where
  | emptyCallStack
  | invalidStackPointer
  | emptyHighLevelStack
  | unexpectedRead
  | unexpectedWrite
  deriving DecidableEq

/-- Both tracers of one state, with the top frames first. -/
structure InterpreterTracer where
  callStack : CallStack
  hlStack : List HighLevelFrame
  params : InterpreterStructureParams
  attached : Bool
  tracking : Bool
  deriving DecidableEq

structure MemoryAccess where
  pc : UInt64
  address : Option UInt64
  value : Option UInt64
  isWrite : Bool
  userMode : Bool
  deriving DecidableEq

namespace InterpreterTracer
/-- Frame 1 is the base of the tracked thread's stack. -/
def initial (stackTop : UInt64) : InterpreterTracer where
  callStack := ⟨2, [⟨1, 0, 0, 0, 0, 0, false, stackTop + 8, stackTop⟩]⟩
  hlStack := []
  params := ⟨0, 0, 0⟩
  attached := false
  tracking := false

section
variable (t : InterpreterTracer)
def isLoopFrame (f : CallStackFrame) : Bool := f.function == t.params.interpLoopFunction

def setInterpreterStructureParams (params : InterpreterStructureParams) : InterpreterTracer :=
  { t with
    params := params
    hlStack := (t.callStack.frames.filter fun f => f.function == params.interpLoopFunction).map
      fun f => ⟨f.id, 0, 0, 0⟩
    attached := true
    tracking := false }

def updateMemoryTracking (top : CallStackFrame) : InterpreterTracer :=
  { t with tracking := t.isLoopFrame top }

def onStateSwitch : Except TraceFault InterpreterTracer :=
  match t.callStack.frames with
  | [] => .error .emptyCallStack
  | top :: _ => .ok (t.updateMemoryTracking top)

def pushHighLevelFrame (top : CallStackFrame) : InterpreterTracer :=
  { t with hlStack := ⟨top.id, 0, 0, 0⟩ :: t.hlStack }

def onLowLevelStackFramePush (newTop : CallStackFrame) : InterpreterTracer :=
  let t' := t.updateMemoryTracking newTop
  if t.isLoopFrame newTop then t'.pushHighLevelFrame newTop else t'

def onLowLevelStackFramePopping (oldTop newTop : CallStackFrame) :
    Except TraceFault InterpreterTracer :=
  let t' := t.updateMemoryTracking newTop
  if t.isLoopFrame oldTop then
    match t.hlStack with
    | [] => .error .emptyHighLevelStack
    | _ :: rest => .ok { t' with hlStack := rest }
  else .ok t'

def withFrame (frame : CallStackFrame) : InterpreterTracer :=
  { t with callStack := ⟨t.callStack.nextId + 1, frame :: t.callStack.frames⟩ }

def newFrame (callSite function sp : UInt64) : Except TraceFault InterpreterTracer :=
  match t.callStack.frames with
  | [] => .error .emptyCallStack
  | old :: _ =>
    if old.bottom ≤ sp then .error .invalidStackPointer
    else
      let frame := ⟨t.callStack.nextId, callSite, function, 0, 0, 0, false, old.bottom, sp⟩
      .ok (if t.attached then (t.withFrame frame).onLowLevelStackFramePush frame
        else t.withFrame frame)

def withFrames (frames : List CallStackFrame) : InterpreterTracer :=
  { t with callStack := ⟨t.callStack.nextId, frames⟩ }

end

def unwind (sp : UInt64) : List CallStackFrame → InterpreterTracer →
    Except TraceFault InterpreterTracer
  | [], _ => .error .emptyCallStack
  | [old], t => if old.top ≤ sp then .error .emptyCallStack else .ok t
  | old :: new :: rest, t =>
    if old.top ≤ sp then
      (if t.attached then t.onLowLevelStackFramePopping old new else .ok t) >>= fun t' =>
        unwind sp (new :: rest) (t'.withFrames (new :: rest))
    else .ok t

variable (t : InterpreterTracer)
def updateTop (f : CallStackFrame → CallStackFrame) : InterpreterTracer :=
  { t with callStack := ⟨t.callStack.nextId, t.callStack.frames.modifyHead f⟩ }

def updateFrame (sp : UInt64) : Except TraceFault InterpreterTracer :=
  unwind sp t.callStack.frames t >>= fun t' => .ok (t'.updateTop fun f => { f with bottom := sp })

def updateBasicBlock (bbIndex loopId loopDepth : Int)
    (isHeader : Bool) : Except TraceFault InterpreterTracer :=
  if t.callStack.frames = [] then .error .emptyCallStack
  else .ok (t.updateTop fun f =>
    { f with bbIndex := bbIndex, loopId := loopId, loopDepth := loopDepth, isHeader := isHeader })

def updateTopFrame (f : HighLevelFrame → HighLevelFrame) : InterpreterTracer :=
  { t with hlStack := t.hlStack.modifyHead f }

def switchFrame (top : CallStackFrame) (frame : HighLevelFrame)
    (address : UInt64) : InterpreterTracer :=
  if frame.hlpcPtr = 0 then t.updateTopFrame fun f => { f with hlpcPtr := address }
  else if frame.hlpcPtr ≠ address then
    if t.hlStack.any fun f => f.hlpcPtr == address then
      { t with hlStack := t.hlStack.dropWhile fun f => f.hlpcPtr != address }
    else (t.pushHighLevelFrame top).updateTopFrame fun f => { f with hlpcPtr := address }
  else t

variable (a : MemoryAccess)
def visible : Option (UInt64 × UInt64) :=
  match a.address, a.value with
  | some address, some value =>
    if a.userMode && address < 0xc0000000 then some (address, value) else none
  | _, _ => none

def updateProgramCounter (address value : UInt64) : InterpreterTracer := t.updateTopFrame fun f =>
    if address = f.hlpcPtr ∧ a.isWrite = true then { f with hlpc := value } else f

def fetchInstruction (address : UInt64) : Except TraceFault InterpreterTracer :=
  if a.pc = t.params.instructionFetchPc then
    if a.isWrite then .error .unexpectedWrite
    else .ok (t.updateTopFrame fun f => { f with hlinst := address })
  else .ok t

def onDataMemoryAccess : Except TraceFault InterpreterTracer :=
  match visible a with
  | none => .ok t
  | some (address, value) =>
    match t.hlStack, t.callStack.frames with
    | [], _ => .error .emptyHighLevelStack
    | _, [] => .error .emptyCallStack
    | frame :: _, top :: _ =>
      if a.pc = t.params.hlpcUpdatePc then
        if a.isWrite then
          ((t.switchFrame top frame address).updateProgramCounter a address value).fetchInstruction
            a address
        else .error .unexpectedRead
      else (t.updateProgramCounter a address value).fetchInstruction a address

end InterpreterTracer

inductive TraceEvent where
  | setParams (params : InterpreterStructureParams)
  | call (callSite function sp : UInt64)
  | stackPointer (sp : UInt64)
  | basicBlock (bbIndex loopId loopDepth : Int) (isHeader : Bool)
  | access (access : MemoryAccess)
  | stateSwitch
  deriving DecidableEq

namespace InterpreterTracer
def handle (t : InterpreterTracer) : TraceEvent → Except TraceFault InterpreterTracer
  | .setParams params => .ok (t.setInterpreterStructureParams params)
  | .call callSite function sp => t.newFrame callSite function sp
  | .stackPointer sp => t.updateFrame sp
  | .basicBlock bbIndex loopId loopDepth isHeader =>
    t.updateBasicBlock bbIndex loopId loopDepth isHeader
  | .access a => if t.tracking then t.onDataMemoryAccess a else .ok t
  | .stateSwitch => t.onStateSwitch

def machine : Machine InterpreterTracer TraceEvent where
  init t := ∃ stackTop, t = initial stackTop
  step t e t' := t.handle e = .ok t'

end InterpreterTracer
end Chef
