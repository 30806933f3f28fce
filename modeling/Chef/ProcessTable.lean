import Mathlib.Data.List.Basic
import Chef.Foundations.Transition

namespace Chef
open Foundations Function
inductive ForkPhase where
  | running
  | forking (newProcessIndex : BitVec 32)
  | starting (newProcessIndex : BitVec 32)
  deriving DecidableEq

structure S2EProcess where
  pid : BitVec 32
  currentProcessIndex : BitVec 32
  currentProcessId : Nat
  phase : ForkPhase
  deriving DecidableEq

/-- The shared table, the live processes, and the number of forks begun. -/
structure ProcessTable where
  currentProcessCount : BitVec 32
  lastFileId : BitVec 32
  processIds : Nat → BitVec 32
  processPids : Nat → BitVec 32
  processes : List S2EProcess
  forks : Nat

inductive ProcessFault where
  | disabled
  | noFreeSlot
  | slotNotOwned
  deriving DecidableEq

inductive ProcessEvent where
  | reserve (pid : BitVec 32)
  | forkFails (pid : BitVec 32)
  | forkSucceeds (pid child : BitVec 32)
  | allocate (pid : BitVec 32)
  | exit (pid : BitVec 32)
  | crash (pid : BitVec 32)
  | checkDeadProcesses (pid : BitVec 32)

def freeSlot : BitVec 32 := BitVec.allOnes 32

namespace ProcessTable
def initial (pid : BitVec 32) : ProcessTable where
  currentProcessCount := 1
  lastFileId := 1
  processIds := update (fun _ => freeSlot) 0 0
  processPids := update (fun _ => freeSlot) 0 pid
  processes := [⟨pid, 0, 0, .running⟩]
  forks := 0

def process (t : ProcessTable) (pid : BitVec 32) : Option S2EProcess :=
  t.processes.find? fun p => p.pid == pid

def isAlive (t : ProcessTable) (pid : BitVec 32) : Bool := t.processes.any fun p => p.pid == pid

def setProcess (t : ProcessTable) (p p' : S2EProcess) : ProcessTable :=
  { t with processes := p' :: t.processes.erase p }

variable (maxProcesses : Nat)
section
variable (t : ProcessTable) (p : S2EProcess)
def reserve : ProcessTable :=
  if t.currentProcessCount.toNat = maxProcesses then t
  else
    { t.setProcess p { p with phase := .forking t.lastFileId } with
      lastFileId := t.lastFileId + 1
      currentProcessCount := t.currentProcessCount + 1
      forks := t.forks + 1 }

def forkFails : ProcessTable := { t.setProcess p { p with phase := .running } with
    currentProcessCount := t.currentProcessCount - 1 }

/-- The child has the parent's variables and the new index. -/
def forkSucceeds (index child : BitVec 32) : ProcessTable := { t with
    processes := { p with pid := child, phase := .starting index } ::
      { p with phase := .running } :: t.processes.erase p }

def allocate (index : BitVec 32) : Except ProcessFault ProcessTable :=
  match (List.range maxProcesses).find? fun i => t.processIds i == freeSlot with
  | none => .error .noFreeSlot
  | some i =>
    .ok { t.setProcess p ⟨p.pid, index, i, .running⟩ with
      processIds := update t.processIds i index
      processPids := update t.processPids i p.pid }

def clearSlot (i : Nat) : ProcessTable := { t with
    processIds := update t.processIds i freeSlot
    processPids := update t.processPids i freeSlot
    currentProcessCount := t.currentProcessCount - 1 }

def exit : Except ProcessFault ProcessTable :=
  if t.processIds p.currentProcessId ≠ p.currentProcessIndex then .error .slotNotOwned
  else .ok { t.clearSlot p.currentProcessId with processes := t.processes.erase p }

def crash : ProcessTable := { t with processes := t.processes.erase p }

def checkSlot (i : Nat) : ProcessTable :=
  if t.processPids i = freeSlot then t
  else if t.isAlive (t.processPids i) then t
  else t.clearSlot i

def checkDeadProcesses : ProcessTable := (List.range maxProcesses).foldl checkSlot t

/-- The loop sets a variable of its own that hides the returned one. -/
def checkDeadProcessesResult : Bool × ProcessTable :=
  (List.range maxProcesses).foldl (fun s i => (s.1, s.2.checkSlot i)) (false, t)

def step : ProcessEvent → Except ProcessFault ProcessTable
  | .reserve pid =>
    match t.process pid with
    | some ⟨pid, index, id, .running⟩ => .ok (t.reserve maxProcesses ⟨pid, index, id, .running⟩)
    | _ => .error .disabled
  | .forkFails pid =>
    match t.process pid with
    | some ⟨pid, index, id, .forking n⟩ => .ok (t.forkFails ⟨pid, index, id, .forking n⟩)
    | _ => .error .disabled
  | .forkSucceeds pid child =>
    match t.process pid with
    | some ⟨pid, index, id, .forking n⟩ =>
      if t.isAlive child ∨ child = freeSlot then .error .disabled
      else .ok (t.forkSucceeds ⟨pid, index, id, .forking n⟩ n child)
    | _ => .error .disabled
  | .allocate pid =>
    match t.process pid with
    | some ⟨pid, index, id, .starting n⟩ => t.allocate maxProcesses ⟨pid, index, id, .starting n⟩ n
    | _ => .error .disabled
  | .exit pid =>
    match t.process pid with
    | some ⟨pid, index, id, .running⟩ => t.exit ⟨pid, index, id, .running⟩
    | _ => .error .disabled
  | .crash pid =>
    match t.process pid with
    | some ⟨pid, index, id, .running⟩ => .ok (t.crash ⟨pid, index, id, .running⟩)
    | _ => .error .disabled
  | .checkDeadProcesses pid =>
    match t.process pid with
    | some ⟨_, _, _, .running⟩ => .ok (t.checkDeadProcesses maxProcesses)
    | _ => .error .disabled

end

/-- Any interleaving, from the table of the first process. -/
def machine : Machine ProcessTable ProcessEvent where
  init t := ∃ pid, pid ≠ freeSlot ∧ t = initial pid
  step t e t' := step maxProcesses t e = .ok t'

end ProcessTable
end Chef
