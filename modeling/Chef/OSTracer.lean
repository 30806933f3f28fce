import Chef.Foundations.KeyedGroups
import Chef.Foundations.Store

namespace Chef
open Foundations
structure VMArea where
  name : String
  start : Nat
  finish : Nat
  readable : Bool
  writable : Bool
  executable : Bool
  deriving DecidableEq, Inhabited

/-- A thread with its own address space. -/
structure OSThread where
  tid : Int
  name : String
  stackTop : Nat
  pageTable : Nat
  memoryMap : List (Nat × VMArea)
  kernelMode : Bool
  running : Bool
  terminated : Bool
  deriving DecidableEq, Inhabited

def OSThread.setRunning (running : Bool) (t : OSThread) : OSThread := { t with running := running }

def OSThread.setKernelMode (kernelMode : Bool) (t : OSThread) : OSThread :=
  { t with kernelMode := kernelMode }

def OSThread.terminate (t : OSThread) : OSThread := { t with terminated := true }

def OSThread.addArea (area : VMArea) (t : OSThread) : OSThread :=
  { t with memoryMap := insertNew t.memoryMap area.start area }

inductive TracerFault where
  | expiredThread
  | activeNotRunning
  | nextRunning
  deriving DecidableEq

inductive OSEvent where
  | threadStart (pid : Int) (name : String) (stackTop addressSpace : Nat)
  | threadExit (tid : Int)
  | vmAlloc (pid : Int) (area : VMArea)
  | privilegeChange (current : Nat)
  | pageDirectoryChange (next : Nat)

inductive OSSignal where
  | threadCreate (t : OSThread)
  | threadExit (t : OSThread)
  | threadSwitch (old new : Option OSThread)
  | threadPrivilegeChange (t : OSThread) (kernelMode : Bool)

/-- The maps hold names of threads. Only the first entry of a page table counts. -/
structure OSTracerState where
  objects : Store OSThread
  threads : List (Int × Nat)
  addressSpaces : List (Nat × Nat)
  activeThread : Option Nat

namespace OSTracerState
def empty : OSTracerState := ⟨.empty, [], [], none⟩

def getActiveThread (s : OSTracerState) : Option OSThread := s.activeThread.map s.objects.get

def getThread (s : OSTracerState) (tid : Int) : Option OSThread :=
  match s.activeThread with
  | some r =>
    if (s.objects.get r).tid = tid then some (s.objects.get r)
    else (s.threads.lookup tid).map s.objects.get
  | none => (s.threads.lookup tid).map s.objects.get

/-- Threads are copied by id. The first copy with a page table gets it. -/
def clone (s : OSTracerState) : OSTracerState where
  objects := ⟨s.threads.map fun e => s.objects.get e.2⟩
  threads := s.threads.mapIdx fun i e => (e.1, i)
  addressSpaces := s.threads.mapIdx fun i e => ((s.objects.get e.2).pageTable, i)
  activeThread := s.threads.findIdx? fun e => s.activeThread = some e.2

def modify (s : OSTracerState) (r : Nat) (f : OSThread → OSThread) : OSTracerState :=
  { s with objects := s.objects.modify r f }

section
variable (s : OSTracerState)
def remove (tid : Int) (r : Nat) : OSTracerState := { s with
    addressSpaces := s.addressSpaces.filter fun e => e.1 ≠ (s.objects.get r).pageTable
    threads := s.threads.filter fun e => e.1 ≠ tid }

def add (t : OSThread) : OSTracerState := { s with
    objects := s.objects.alloc t
    addressSpaces := s.addressSpaces ++ [(t.pageTable, s.objects.size)]
    threads := setKey t.tid s.objects.size s.threads }

/-- A thread is kept by the map, and as the active thread. -/
def isAlive (r : Nat) : Bool := s.threads.any (fun e => e.2 = r) || s.activeThread = some r

def nextThread (next : Nat) : Except TracerFault (Option Nat) :=
  match s.addressSpaces.lookup next with
  | none => .ok none
  | some r => if s.isAlive r then .ok (some r) else .error .expiredThread

def stop : Except TracerFault OSTracerState :=
  match s.activeThread with
  | none => .ok s
  | some r =>
    if (s.objects.get r).running then .ok (s.modify r (OSThread.setRunning false))
    else .error .activeNotRunning

def resume (next : Option Nat) : Except TracerFault OSTracerState :=
  match next with
  | none => .ok s
  | some r =>
    if (s.objects.get r).running then .error .nextRunning
    else .ok (s.modify r (OSThread.setRunning true))

def onPrivilegeChange (current : Nat) : List OSSignal × OSTracerState :=
  match s.activeThread with
  | none => ([], s)
  | some r =>
    let kernelMode := current == 0
    if (s.objects.get r).kernelMode ≠ kernelMode then
      let s := s.modify r (OSThread.setKernelMode kernelMode)
      ([.threadPrivilegeChange (s.objects.get r) kernelMode], s)
    else ([], s)

def onPageDirectoryChange (next : Nat) : Except TracerFault (List OSSignal × OSTracerState) :=
  s.nextThread next >>= fun next =>
    if s.activeThread ≠ next then
      s.stop >>= fun s =>
        (s.resume next).map fun s =>
          ([.threadSwitch s.getActiveThread (next.map s.objects.get)],
            { s with activeThread := next })
    else .ok ([], s)

def handle : OSEvent → Except TracerFault (List OSSignal × OSTracerState)
  | .threadStart pid name stackTop addressSpace =>
    let t := ⟨pid, name, stackTop, addressSpace, [], true, false, false⟩
    match s.threads.lookup pid with
    | some r => .ok ([.threadExit (s.objects.get r), .threadCreate t], (s.remove pid r).add t)
    | none => .ok ([.threadCreate t], s.add t)
  | .threadExit tid =>
    match s.threads.lookup tid with
    | some r =>
      let s := s.modify r OSThread.terminate
      .ok ([.threadExit (s.objects.get r)], s.remove tid r)
    | none => .ok ([], s)
  | .vmAlloc pid area =>
    match s.threads.lookup pid with
    | some r => .ok ([], s.modify r (OSThread.addArea area))
    | none => .ok ([], s)
  | .privilegeChange current => .ok (s.onPrivilegeChange current)
  | .pageDirectoryChange next => s.onPageDirectoryChange next

end

def react (s : OSTracerState) : List OSEvent → Except TracerFault (List OSSignal × OSTracerState)
  | [] => .ok ([], s)
  | e :: events => s.handle e >>= fun r => (r.2.react events).map fun r' => (r.1 ++ r'.1, r'.2)

end OSTracerState
end Chef
