import Chef.TreeStreamRuns

namespace Chef
open List
open TreeStreamWriter (word readWord readWord_word)
namespace ExecutionTraceTestCase
/-- The bytes of the names and of the data of the variables. -/
abbrev ConcreteInputs := List (List UInt8 × List UInt8)

def bufsize (inputs : ConcreteInputs) : Nat :=
  inputs.foldl (fun size v => (size + 8 + v.1.length + v.2.length) % 2 ^ 32) 0

def bytes : ConcreteInputs → List UInt8
  | [] => []
  | v :: inputs => word v.1.length ++ word v.2.length ++ v.1 ++ v.2 ++ bytes inputs

def serialize (inputs : ConcreteInputs) : List UInt8 × Nat := (bytes inputs, bufsize inputs)

/-- There is no result if it reads past the buffer. -/
def deserialize (buf : List UInt8) (buflen : Nat) : Option ConcreteInputs :=
  if _h : buflen = 0 then some []
  else
    match readWord buf with
    | none => none
    | some (nameSize, a) =>
      match readWord a with
      | none => none
      | some (dataSize, a) =>
        if buflen < 8 + nameSize + dataSize ∨ a.length < nameSize + dataSize then none
        else
          (deserialize (a.drop (nameSize + dataSize)) (buflen - (8 + nameSize + dataSize))).map
            ((a.take nameSize, (a.drop nameSize).take dataSize) :: ·)
termination_by buflen

theorem length_bytes_cons (v : List UInt8 × List UInt8) (inputs : ConcreteInputs) :
    (bytes (v :: inputs)).length = 8 + v.1.length + v.2.length + (bytes inputs).length := by
  simp [bytes, word]
  omega

theorem bufsize_eq (inputs : ConcreteInputs) : bufsize inputs = (bytes inputs).length % 2 ^ 32 := by
  have hlp : ∀ size, inputs.foldl (fun size v => (size + 8 + v.1.length + v.2.length) % 2 ^ 32)
      (size % 2 ^ 32) = (size + (bytes inputs).length) % 2 ^ 32 := by
    induction inputs with
    | nil => exact fun _ => rfl
    | cons v inputs ih =>
      intro size
      rw [length_bytes_cons, foldl_cons, ← Nat.mod_mod, ih]
      omega
  rw [bufsize, ← Nat.zero_add (bytes inputs).length]
  exact hlp 0

theorem deserialize_bytes (inputs : ConcreteInputs) (h : (bytes inputs).length < 2 ^ 32) :
    deserialize (bytes inputs) (bytes inputs).length = some inputs := by
  induction inputs with
  | nil =>
    rw [deserialize]
    rfl
  | cons v inputs ih =>
    rw [length_bytes_cons] at h ⊢
    have hn : v.1.length < 2 ^ 32 := by omega
    have hd : v.2.length < 2 ^ 32 := by omega
    have hr : 8 + v.1.length + v.2.length + (bytes inputs).length -
        (8 + v.1.length + v.2.length) = (bytes inputs).length := Nat.add_sub_cancel_left ..
    have hft : ¬(8 + v.1.length + v.2.length + (bytes inputs).length < 8 + v.1.length + v.2.length ∨
        (v.1 ++ (v.2 ++ bytes inputs)).length < v.1.length + v.2.length) := by
      rw [length_append, length_append]
      omega
    rw [deserialize, dif_neg (by omega), bytes, append_assoc, append_assoc, append_assoc,
      readWord_word hn]
    simp only [readWord_word hd]
    rw [if_neg hft, hr, ← drop_drop, drop_left, drop_left, ih (by omega), take_left, take_left]
    rfl

/-- The inputs are read back. -/
theorem deserialize_serialize (inputs : ConcreteInputs) (h : (serialize inputs).1.length < 2 ^ 32) :
    deserialize (serialize inputs).1 (serialize inputs).2 = some inputs := by
  have hs : (serialize inputs).2 = (bytes inputs).length :=
    (bufsize_eq inputs).trans (Nat.mod_eq_of_lt h)
  rw [hs]
  exact deserialize_bytes inputs h

theorem deserialize_serialize_twoInputs : deserialize (serialize [([], [0]), ([0], [])]).1
    (serialize [([], [0]), ([0], [])]).2 = some [([], [0]), ([0], [])] :=
  deserialize_serialize _ (by decide)

end ExecutionTraceTestCase

namespace LogParser
def headerSize : Nat := 25

/-- The field `size` of the header. -/
def payloadSize (hdr : List UInt8) : Nat := ((readWord (hdr.drop 8)).map Prod.fst).getD 0

/-- The bytes of the item and of all before it are dropped. -/
def next (buffer : List UInt8) : List UInt8 := buffer.drop (headerSize + payloadSize buffer)

/-- The field `type` of the header. -/
def itemType (hdr : List UInt8) : Nat := ((hdr.drop 12).headD 0).toNat

/-- `TRACE_MAX`. -/
def traceMax : Nat := 19

/-- The offset and the payload's size of each item that `processItem` gets, and the result;
there is none once its assertion fails. -/
def parse (currentOffset : Nat) (buffer : List UInt8) : List (Nat × Nat) × Option Bool :=
  if _h : buffer = [] then ([], some true)
  else if buffer.length < headerSize then ([], some false)
  else
    let size := payloadSize buffer
    if 0 < size ∧ buffer.length < size then ([], some false)
    else if traceMax ≤ itemType buffer then ([(currentOffset, size)], none)
    else
      let (items, complete) := parse (currentOffset + headerSize + size) (next buffer)
      ((currentOffset, size) :: items, complete)
termination_by buffer.length
decreasing_by
  have hpos := length_pos_iff.2 _h
  rw [next, length_drop, headerSize]
  omega

/-- The file is a concatenation of complete items. -/
inductive Complete : List UInt8 → Prop
  | nil : Complete []
  | item : headerSize + payloadSize buffer ≤ buffer.length → Complete (next buffer) →
    Complete buffer

/-- After complete items of known types there is one that passes the checks of the sizes and
whose type is unknown or whose payload misses up to 25 bytes. -/
@[mk_iff]
inductive Faulty : List UInt8 → Prop
  | here : headerSize ≤ buffer.length → payloadSize buffer ≤ buffer.length →
    traceMax ≤ itemType buffer ∨ buffer.length < headerSize + payloadSize buffer → Faulty buffer
  | later : headerSize + payloadSize buffer ≤ buffer.length → itemType buffer < traceMax →
    Faulty (next buffer) → Faulty buffer

def ParsesRight (file : List UInt8) : Prop :=
  (∀ item ∈ (parse 0 file).1, item.1 + headerSize + item.2 ≤ file.length) ∧
    ∃ complete, (parse 0 file).2 = some complete ∧ (complete = true ↔ Complete file)

theorem complete_iff (h : buffer ≠ []) : Complete buffer ↔
    headerSize + payloadSize buffer ≤ buffer.length ∧ Complete (next buffer) := by
  constructor
  · rintro (_ | ⟨hle, hn⟩)
    · exact absurd rfl h
    · exact ⟨hle, hn⟩
  · exact fun h => .item h.1 h.2

theorem not_faulty_nil : ¬Faulty [] := by
  rw [faulty_iff]
  simp [headerSize]

theorem parse_spec (offset : Nat) (buffer : List UInt8) :
    (Faulty buffer → (parse offset buffer).2 = none ∨
      (parse offset buffer).2 = some true ∧ ¬Complete buffer) ∧
    (¬Faulty buffer → (∀ item ∈ (parse offset buffer).1,
      item.1 + headerSize + item.2 ≤ offset + buffer.length) ∧
        ∃ complete, (parse offset buffer).2 = some complete ∧
          (complete = true ↔ Complete buffer)) := by
  fun_induction parse offset buffer with
  | case1 => simp [not_faulty_nil, Complete.nil]
  | case2 offset buffer he hd | case3 offset buffer he hd size hz =>
    rw [faulty_iff, complete_iff he]
    simp
    omega
  | case4 offset buffer he hd size hz ht =>
    have hsize : payloadSize buffer ≤ buffer.length := by omega
    have hf : Faulty buffer := .here (Nat.not_lt.1 hd) hsize (.inl ht)
    exact ⟨fun _ => .inl rfl, fun h => absurd hf h⟩
  | case5 offset buffer he hd size hz ht items complete hx ih =>
    rw [faulty_iff, complete_iff he]
    rw [hx] at ih
    have ht : itemType buffer < traceMax := Nat.not_le.1 ht
    by_cases hle : headerSize + payloadSize buffer ≤ buffer.length
    · have hl : offset + headerSize + size + (next buffer).length = offset + buffer.length := by
        rw [next, length_drop]
        omega
      rw [hl] at ih
      simp only [hle, ht, Nat.not_lt.2 hle, Nat.not_le.2 ht, or_self, and_false, false_or,
        true_and, forall_mem_cons]
      refine ⟨ih.1, fun hs => ⟨⟨?_, (ih.2 hs).1⟩, (ih.2 hs).2⟩⟩
      omega
    · have hn : next buffer = [] := drop_eq_nil_of_le (by omega)
      rw [hn] at ih
      obtain ⟨_, c, hc, htrue⟩ := ih.2 not_faulty_nil
      rw [htrue.2 .nil] at hc
      have hh : headerSize ≤ buffer.length ∧ payloadSize buffer ≤ buffer.length ∧
          buffer.length < headerSize + payloadSize buffer := by omega
      exact ⟨fun _ => .inr ⟨hc, fun h => hle h.1⟩,
        fun h => absurd (.inl ⟨hh.1, hh.2.1, .inr hh.2.2⟩) h⟩

/-- A file is read right unless an item has an unknown type or its payload misses up to 25
bytes. -/
theorem parsesRight_iff (file : List UInt8) : ParsesRight file ↔ ¬Faulty file := by
  obtain ⟨hh, hr⟩ := parse_spec 0 file
  constructor
  · rintro ⟨_, complete, hc, hiff⟩ hf
    rw [hc] at hh
    obtain hn | ⟨ht, hnot⟩ := hh hf
    · cases hn
    · exact hnot (hiff.1 (Option.some.inj ht))
  intro h
  have hf := hr h
  rw [Nat.zero_add] at hf
  exact hf

/-- The header announces one byte of payload, and the file ends. -/
def headerOnly : List UInt8 := word 0 ++ word 0 ++ word 1 ++ replicate 13 0

theorem headerOnly_parsed : (parse 0 headerOnly).2 = some true ∧
    ∃ item ∈ (parse 0 headerOnly).1, headerOnly.length < item.1 + headerSize + item.2 := by
  have hs : payloadSize headerOnly = 1 := by decide
  have hn : next headerOnly = [] := by decide
  rw [parse, dif_neg (by decide), if_neg (by decide)]
  rw [if_neg (by decide), if_neg (by decide), parse]
  exact ⟨rfl, _, mem_cons_self, by decide⟩

end LogParser
end Chef
