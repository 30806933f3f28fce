import Chef.InterpreterDetector

namespace Chef
open Foundations List Option
inductive CalibrationFault where
  | alreadyRunning
  | attemptedTwice
  | notRunning
  | analysis (fault : AnalyzerFault)
  deriving DecidableEq

structure MemoryOpRecorder where
  seqCounter : Nat
  memOps : List MemoryOp

def MemoryOpRecorder.recordMemoryOp (r : MemoryOpRecorder) (op : MemoryOp) : MemoryOpRecorder :=
  ⟨r.seqCounter + 1, r.memOps ++ [{ op with seqNo := r.seqCounter }]⟩

structure InterpreterDetector where
  calibrating : Bool
  memoryRecording : MemoryOpRecorder
  minOpcodeCount : Int
  memopRange : Nat × Nat
  detectedParams : Option Instrumentation

inductive CalibrationEvent where
  | access (op : MemoryOp)
  | checkpoint (count : Nat)

namespace InterpreterDetector
variable (d : InterpreterDetector)
def startCalibration : Except CalibrationFault InterpreterDetector :=
  if d.calibrating then .error .alreadyRunning
  else if d.detectedParams.isSome then .error .attemptedTwice
  else .ok { d with
    calibrating := true
    memoryRecording := ⟨0, []⟩
    minOpcodeCount := 0
    memopRange := (0, 0) }

/-- An unsigned sum is kept as a signed number of 32 bits. -/
def checkpointCalibration (count : Nat) : Except CalibrationFault InterpreterDetector :=
  if d.calibrating then
    .ok { d with
      minOpcodeCount := (d.minOpcodeCount + count).bmod (2 ^ 32)
      memopRange := (if d.memopRange.1 = 0 then d.memoryRecording.seqCounter else d.memopRange.1,
          d.memoryRecording.seqCounter) }
  else .error .notRunning

def handle : CalibrationEvent → Except CalibrationFault InterpreterDetector
  | .access op => .ok { d with memoryRecording := d.memoryRecording.recordMemoryOp op }
  | .checkpoint count => d.checkpointCalibration count

def analyzer (pointerSize : Nat) (functionOf : Nat → Nat) : MemoryOpAnalyzer :=
  ⟨d.memoryRecording.memOps, d.minOpcodeCount, d.memopRange, pointerSize, functionOf⟩

end InterpreterDetector

namespace CalibrationEvent
def recorded (k : Nat) : List CalibrationEvent → List MemoryOp
  | [] => []
  | .access op :: events => { op with seqNo := k } :: recorded (k + 1) events
  | .checkpoint _ :: events => recorded k events

/-- How many accesses were recorded before each checkpoint. -/
def checkpoints (k : Nat) : List CalibrationEvent → List Nat
  | [] => []
  | .access _ :: events => checkpoints (k + 1) events
  | .checkpoint _ :: events => k :: checkpoints k events

def between (events : List CalibrationEvent) : List MemoryOp :=
  ((recorded 0 events).take ((checkpoints 0 events).getLast?.getD 0)).drop
    ((checkpoints 0 events).head?.getD 0)

theorem le_of_mem_checkpoints (h : p ∈ checkpoints k events) :
    k ≤ p ∧ p ≤ k + (recorded k events).length := by
  induction events generalizing k with
  | nil => cases h
  | cons e events ih =>
    cases e with
    | access op =>
      obtain ⟨hk, hp⟩ := ih h
      rw [recorded, length_cons]
      omega
    | checkpoint count =>
      obtain rfl | h := mem_cons.1 h
      · omega
      · exact ih h

theorem checkpoints_sorted (k : Nat) (events : List CalibrationEvent) :
    (checkpoints k events).Pairwise (· ≤ ·) := by
  induction events generalizing k with
  | nil => exact .nil
  | cons e events ih =>
    cases e with
    | access op => exact ih (k + 1)
    | checkpoint count => exact .cons (fun _ h => (le_of_mem_checkpoints h).1) (ih k)

theorem drop_find_eq_iff {ops : List α} {ps : List Nat} (hso : ps.Pairwise (· ≤ ·))
    (hbd : ∀ p ∈ ps, p ≤ ops.length) :
    (ops.take (ps.getLast?.getD 0)).drop ((ps.find? (· ≠ 0)).getD 0) =
        (ops.take (ps.getLast?.getD 0)).drop (ps.head?.getD 0) ↔
      (ps.head? = some 0 → ∀ p ∈ ps, p = 0) := by
  cases ps with
  | nil => exact iff_of_true rfl fun _ => forall_mem_nil _
  | cons p ps =>
    by_cases hp : p = 0
    · subst hp
      cases hf : (0 :: ps).find? (· ≠ 0) with
      | none =>
        have hz : ∀ p ∈ 0 :: ps, p = 0 := by
          intro p hp
          have hp := List.find?_eq_none.1 hf p hp
          simpa using hp
        exact iff_of_true rfl fun _ => hz
      | some q =>
        have hq : q ∈ 0 :: ps := mem_of_find?_eq_some hf
        have hne : q ≠ 0 := by simpa using List.find?_some hf
        refine iff_of_false ?_ fun h => hne (h rfl q hq)
        have hla := hso.rel_getLast hq
        have hl := hbd _ (getLast_mem (cons_ne_nil 0 ps))
        intro heq
        have heq := congrArg length heq
        rw [getLast?_eq_some_getLast (cons_ne_nil 0 ps), getD_some, getD_some,
          head?_cons, getD_some, length_drop, length_drop, length_take] at heq
        omega
    · have hf : (p :: ps).find? (· ≠ 0) = some p := List.find?_cons_of_pos (decide_eq_true hp)
      rw [hf, head?_cons]
      exact iff_of_true rfl fun h => absurd (some.inj h) hp

end CalibrationEvent

namespace InterpreterDetector
open CalibrationEvent
theorem handle_run {d : InterpreterDetector} (hd : d.calibrating = true)
    (events : List CalibrationEvent) :
    ∃ d', events.foldlM handle d = .ok d' ∧ d'.calibrating = true ∧ d'.memoryRecording.memOps =
        d.memoryRecording.memOps ++ recorded d.memoryRecording.seqCounter events ∧ d'.memopRange =
        (if d.memopRange.1 = 0 then
          ((checkpoints d.memoryRecording.seqCounter events).find? (· ≠ 0)).getD 0
        else d.memopRange.1,
        (checkpoints d.memoryRecording.seqCounter events).getLast?.getD d.memopRange.2) := by
  induction events generalizing d with
  | nil =>
    refine ⟨d, rfl, hd, (append_nil _).symm, Prod.ext ?_ rfl⟩
    split
    · assumption
    · rfl
  | cons e events ih =>
    cases e with
    | access op =>
      obtain ⟨d', hr, hd', ho, hn⟩ :=
        @ih { d with memoryRecording := d.memoryRecording.recordMemoryOp op } hd
      refine ⟨d', hr, hd', ?_, hn⟩
      rw [ho, MemoryOpRecorder.recordMemoryOp, recorded, append_assoc]
      rfl
    | checkpoint count =>
      have hs : d.handle (.checkpoint count) = .ok _ := if_pos hd
      obtain ⟨d', hr, hd', ho, hn⟩ := @ih { d with
        minOpcodeCount := (d.minOpcodeCount + count).bmod (2 ^ 32)
        memopRange := (if d.memopRange.1 = 0 then d.memoryRecording.seqCounter else d.memopRange.1,
            d.memoryRecording.seqCounter) } hd
      refine ⟨d', ?_, hd', ho, ?_⟩
      · rw [foldlM_cons, hs]
        exact hr
      rw [hn, checkpoints, List.find?_cons, getLast?_cons, getD_some]
      by_cases hf : d.memopRange.1 = 0
      · by_cases hz : d.memoryRecording.seqCounter = 0 <;> simp [hf, hz]
      · simp [hf]

/-- Operations lie between the checkpoints unless the first is too early. -/
theorem rangeOps_eq_between_iff {d : InterpreterDetector} (hidle : d.calibrating = false)
    (hnew : d.detectedParams = none) (events : List CalibrationEvent) (pointerSize : Nat)
    (functionOf : Nat → Nat) :
    ∃ d0 d1, d.startCalibration = .ok d0 ∧ events.foldlM handle d0 = .ok d1 ∧
      d1.calibrating = true ∧
      ((d1.analyzer pointerSize functionOf).rangeOps = between events ↔
        ((checkpoints 0 events).head? = some 0 → ∀ p ∈ checkpoints 0 events, p = 0)) := by
  obtain ⟨d1, hr, hd1, ho, hn⟩ := @handle_run { d with
    calibrating := true
    memoryRecording := ⟨0, []⟩
    minOpcodeCount := 0
    memopRange := (0, 0) } rfl events
  refine ⟨_, d1, ?_, hr, hd1, ?_⟩
  · rw [startCalibration, hidle, hnew]
    rfl
  rw [MemoryOpAnalyzer.rangeOps, analyzer, ho, hn, if_pos rfl, nil_append, between, ← drop_take]
  have hbd : ∀ p ∈ checkpoints 0 events, p ≤ (recorded 0 events).length := by
    intro p hp
    have hle := (le_of_mem_checkpoints hp).2
    omega
  exact drop_find_eq_iff (checkpoints_sorted 0 events) hbd

def idle : InterpreterDetector := ⟨false, ⟨0, []⟩, 0, (0, 0), none⟩

def fetch : MemoryOp := ⟨0, 16, 0, 4096, 7, 4, false⟩

theorem rangeOps_between_checkpoints : ∃ d0 d1, idle.startCalibration = .ok d0 ∧
      [.access fetch, .checkpoint 1, .access fetch, .checkpoint 1].foldlM handle d0 = .ok d1 ∧
      (d1.analyzer 4 id).rangeOps = [{ fetch with seqNo := 1 }] := by
  obtain ⟨d0, d1, hst, hr, -, hi⟩ := rangeOps_eq_between_iff (d := idle) rfl rfl
    [.access fetch, .checkpoint 1, .access fetch, .checkpoint 1] 4 id
  exact ⟨d0, d1, hst, hr, hi.2 (by decide)⟩

theorem early_checkpoint_ignored : between [.checkpoint 1, .access fetch, .checkpoint 1] = [fetch] ∧
    ∃ d0 d1, idle.startCalibration = .ok d0 ∧ [.checkpoint 1, .access fetch,
    .checkpoint 1].foldlM handle d0 = .ok d1 ∧ (d1.analyzer 4 id).rangeOps = [] :=
  ⟨rfl, _, _, rfl, rfl, rfl⟩

end InterpreterDetector
end Chef
