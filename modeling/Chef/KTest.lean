import Mathlib.Algebra.Group.Nat.Defs
import Mathlib.Data.List.Basic
import Mathlib.Data.Option.Basic

namespace Chef
open List Option
structure KTestObject where
  name : List UInt8
  bytes : List UInt8

/-- A string is the list of its characters. -/
structure KTest where
  version : Nat
  args : List (List UInt8)
  symArgvs : Nat
  symArgvLen : Nat
  objects : List KTestObject

namespace KTest
def magic : List UInt8 := [75, 84, 69, 83, 84]

def boutMagic : List UInt8 := [66, 79, 85, 84, 10]

def currentVersion : Nat := 3

def writeUint32 (value : Nat) : List UInt8 :=
  [.ofNat (value / 2 ^ 24), .ofNat (value / 2 ^ 16), .ofNat (value / 2 ^ 8), .ofNat value]

def readUint32 : List UInt8 → Option (Nat × List UInt8)
  | a :: b :: c :: d :: f =>
    some (((a.toNat * 2 ^ 8 + b.toNat) * 2 ^ 8 + c.toNat) * 2 ^ 8 + d.toNat, f)
  | _ => none

/-- One item is written; an item of zero bytes does not count. -/
def fwrite (bytes : List UInt8) : Option (List UInt8) := if bytes = [] then none else some bytes

def fread (size : Nat) (f : List UInt8) : Option (List UInt8 × List UInt8) :=
  if size = 0 ∨ f.length < size then none else some (f.take size, f.drop size)

/-- The length is a number of 32 bits. -/
def stored (value : List UInt8) : List UInt8 := value.take (value.length % 2 ^ 32)

def writeString (value : List UInt8) : Option (List UInt8) :=
  (fwrite (stored value)).map (writeUint32 (value.length % 2 ^ 32) ++ ·)

/-- Fails where the size of the buffer wraps to zero. -/
def readString (f : List UInt8) : Option (List UInt8 × List UInt8) := do
  let (len, f) ← readUint32 f
  if len + 1 < 2 ^ 32 then fread len f else none

def writeObject (o : KTestObject) : Option (List UInt8) := do
  let name ← writeString o.name
  let bytes ← fwrite o.bytes
  some (name ++ (writeUint32 o.bytes.length ++ bytes))

def readObject (f : List UInt8) : Option (KTestObject × List UInt8) := do
  let (name, f) ← readString f
  let (numBytes, f) ← readUint32 f
  let (bytes, f) ← fread numBytes f
  some (⟨name, bytes⟩, f)

def readAll (read : List UInt8 → Option (α × List UInt8)) :
    Nat → List UInt8 → Option (List α × List UInt8)
  | 0, f => some ([], f)
  | n + 1, f => do
    let (x, f) ← read f
    let (xs, f) ← readAll read n f
    some (x :: xs, f)

def toFile (bo : KTest) : Option (List UInt8) := do
  let args ← bo.args.mapM writeString
  let objects ← bo.objects.mapM writeObject
  some (magic ++ (writeUint32 currentVersion ++ (writeUint32 bo.args.length ++ (args.flatten ++
    (writeUint32 bo.symArgvs ++ (writeUint32 bo.symArgvLen ++
      (writeUint32 bo.objects.length ++ objects.flatten)))))))

/-- A field that the first version does not have. -/
def readAdded (version : Nat) (f : List UInt8) : Option (Nat × List UInt8) :=
  if 2 ≤ version then readUint32 f else some (0, f)

def fromFile (f : List UInt8) : Option KTest := do
  let (header, f) ← fread 5 f
  guard (header = magic ∨ header = boutMagic)
  let (version, f) ← readUint32 f
  guard (version ≤ currentVersion)
  let (numArgs, f) ← readUint32 f
  let (args, f) ← readAll readString numArgs f
  let (symArgvs, f) ← readAdded version f
  let (symArgvLen, f) ← readAdded version f
  let (numObjects, f) ← readUint32 f
  let (objects, _) ← readAll readObject numObjects f
  some ⟨version, args, symArgvs, symArgvLen, objects⟩

/-- The counts are numbers of 32 bits, and strings end at a zero. -/
structure Valid (bo : KTest) : Prop where
  strings : ∀ value ∈ bo.args ++ bo.objects.map KTestObject.name, 0 ∉ value
  args : bo.args.length < 2 ^ 32
  symArgvs : bo.symArgvs < 2 ^ 32
  symArgvLen : bo.symArgvLen < 2 ^ 32
  objects : bo.objects.length < 2 ^ 32
  bytes : ∀ o ∈ bo.objects, o.bytes.length < 2 ^ 32

def Kept (value : List UInt8) : Prop := value ≠ [] ∧ value.length + 1 < 2 ^ 32

theorem readUint32_write (h : n < 2 ^ 32) (f : List UInt8) :
    readUint32 (writeUint32 n ++ f) = some (n, f) := by
  rw [writeUint32, cons_append, cons_append, cons_append, cons_append, nil_append, readUint32]
  simp only [UInt8.toNat_ofNat', some.injEq, Prod.mk.injEq, and_true]
  omega

theorem fread_append (h : bytes ≠ []) (f : List UInt8) :
    fread bytes.length (bytes ++ f) = some (bytes, f) := by
  have hl := length_pos_iff.2 h
  rw [fread, if_neg (by rw [length_append]; omega), take_left, drop_left]

theorem fwrite_eq_some_iff : fwrite bytes = some out ↔ bytes ≠ [] ∧ bytes = out := by
  rw [fwrite]
  split
  next h => exact iff_of_false nofun fun hn => hn.1 h
  next h => rw [some.injEq, and_iff_right h]

theorem stored_eq (h : value.length + 1 < 2 ^ 32) : stored value = value := by
  rw [stored, Nat.mod_eq_of_lt (Nat.lt_of_succ_lt h), take_length]

theorem readString_write (h : writeString value = some out) (hv : value.length + 1 < 2 ^ 32)
    (f : List UInt8) : readString (out ++ f) = some (value, f) := by
  obtain ⟨bytes, hb, rfl⟩ := map_eq_some_iff.1 h
  obtain ⟨hne, rfl⟩ := fwrite_eq_some_iff.1 hb
  rw [stored_eq hv] at hne ⊢
  have hlt := Nat.lt_of_succ_lt hv
  rw [readString, append_assoc, Nat.mod_eq_of_lt hlt, readUint32_write hlt]
  exact (if_pos hv).trans (fread_append hne f)

theorem readString_length (h : readString f = some (value, f')) : value.length + 1 < 2 ^ 32 := by
  obtain ⟨⟨len, f⟩, -, h⟩ := bind_eq_some_iff.1 h
  obtain ⟨hlt, h⟩ := ite_none_right_eq_some.1 h
  obtain ⟨-, he⟩ := ite_none_left_eq_some.1 h
  cases he
  rw [length_take]
  omega

theorem readObject_write (h : writeObject o = some out) (hv : o.name.length + 1 < 2 ^ 32)
    (hlt : o.bytes.length < 2 ^ 32) (f : List UInt8) : readObject (out ++ f) = some (o, f) := by
  obtain ⟨name, hn, h⟩ := bind_eq_some_iff.1 h
  obtain ⟨bytes, hb, h⟩ := bind_eq_some_iff.1 h
  obtain ⟨hne, rfl⟩ := fwrite_eq_some_iff.1 hb
  cases h
  rw [readObject, append_assoc, append_assoc, readString_write hn hv]
  simp [readUint32_write hlt, fread_append hne]

theorem readObject_length (h : readObject f = some (o, f')) : o.name.length + 1 < 2 ^ 32 := by
  obtain ⟨⟨name, f⟩, hn, h⟩ := bind_eq_some_iff.1 h
  obtain ⟨⟨n, f⟩, -, h⟩ := bind_eq_some_iff.1 h
  obtain ⟨⟨bytes, f⟩, -, h⟩ := bind_eq_some_iff.1 h
  cases h
  exact readString_length hn

theorem readAll_all {P : α → Prop} {read : List UInt8 → Option (α × List UInt8)}
    (hr : ∀ {f x f'}, read f = some (x, f') → P x)
    (h : readAll read n f = some (xs, f')) : ∀ x ∈ xs, P x := by
  induction n generalizing f xs with
  | zero =>
    cases h
    exact forall_mem_nil _
  | succ n ih =>
    obtain ⟨⟨x, f⟩, hx, h⟩ := bind_eq_some_iff.1 h
    obtain ⟨⟨xs, f⟩, hs, h⟩ := bind_eq_some_iff.1 h
    cases h
    exact forall_mem_cons.2 ⟨hr hx, ih hs⟩

theorem readAll_write {xs : List α} {read : List UInt8 → Option (α × List UInt8)}
    (h : ∀ x ∈ xs, ∀ {out}, write x = some out → ∀ f, read (out ++ f) = some (x, f))
    (hw : xs.mapM write = some outs) (f : List UInt8) :
    readAll read xs.length (outs.flatten ++ f) = some (xs, f) := by
  induction xs generalizing outs with
  | nil =>
    cases hw
    rfl
  | cons x xs ih =>
    rw [mapM_cons] at hw
    obtain ⟨out, ho, hw⟩ := bind_eq_some_iff.1 hw
    obtain ⟨outs, hs, hw⟩ := bind_eq_some_iff.1 hw
    cases hw
    obtain ⟨hx, h⟩ := forall_mem_cons.1 h
    rw [length_cons, readAll, flatten_cons, append_assoc, hx ho]
    simp [ih h hs]

theorem mapM_isSome (xs : List α) (write : α → Option β) :
    (∃ outs, xs.mapM write = some outs) ↔ ∀ x ∈ xs, ∃ out, write x = some out := by
  induction xs with
  | nil => exact iff_of_true ⟨[], rfl⟩ (forall_mem_nil _)
  | cons x xs ih =>
    rw [forall_mem_cons, ← ih, mapM_cons]
    simp [bind_eq_some_iff]

theorem fromFile_length (h : fromFile f = some bo) :
    (∀ arg ∈ bo.args, arg.length + 1 < 2 ^ 32) ∧ ∀ o ∈ bo.objects, o.name.length + 1 < 2 ^ 32 := by
  simp only [fromFile, bind_eq_bind, bind_eq_some_iff] at h
  obtain ⟨_, -, _, -, _, -, _, -, _, -, ⟨args, _⟩, ha, _, -, _, -, _, -, ⟨objects, _⟩, ho, h⟩ := h
  cases h
  exact ⟨readAll_all readString_length ha, readAll_all readObject_length ho⟩

theorem fromFile_toFile (h : Valid bo) (ha : ∀ arg ∈ bo.args, arg.length + 1 < 2 ^ 32)
    (ho : ∀ o ∈ bo.objects, o.name.length + 1 < 2 ^ 32) (hw : toFile bo = some file) :
    fromFile file = some { bo with version := currentVersion } := by
  obtain ⟨args, hwa, hw⟩ := bind_eq_some_iff.1 hw
  obtain ⟨objects, hwo, hw⟩ := bind_eq_some_iff.1 hw
  cases hw
  have hm (f : List UInt8) : fread 5 (magic ++ f) = some (magic, f) :=
    fread_append (show magic ≠ [] by decide) f
  have hv (f : List UInt8) : readUint32 (writeUint32 3 ++ f) = some (3, f) :=
    readUint32_write (by decide) f
  have hra := readAll_write (fun s hm _ hs => readString_write hs (ha s hm)) hwa
  have hro := readAll_write (fun o hm _ hs => readObject_write hs (ho o hm) (h.bytes o hm)) hwo []
  rw [append_nil] at hro
  simp [fromFile, hm, currentVersion, hv, readUint32_write h.args, hra,
    readAdded, readUint32_write h.symArgvs, readUint32_write h.symArgvLen,
    readUint32_write h.objects, hro]

theorem toFile_isSome : (∃ file, toFile bo = some file) ↔ (∀ arg ∈ bo.args, stored arg ≠ []) ∧
    ∀ o ∈ bo.objects, stored o.name ≠ [] ∧ o.bytes ≠ [] := by
  have hs (value : List UInt8) : (∃ out, writeString value = some out) ↔ stored value ≠ [] := by
    simp [writeString, fwrite]
  have ho (o : KTestObject) : (∃ out, writeObject o = some out) ↔
      stored o.name ≠ [] ∧ o.bytes ≠ [] := by
    rw [← hs]
    simp [writeObject, fwrite, bind_eq_some_iff]
  have hsa := mapM_isSome bo.args writeString
  have hso := mapM_isSome bo.objects writeObject
  simp only [hs] at hsa
  simp only [ho] at hso
  rw [← hsa, ← hso]
  simp [toFile, bind_eq_some_iff]

/-- A test case is read back exactly if nothing in it is empty or too long. -/
theorem readBack_iff (h : Valid bo) : (∃ file, toFile bo = some file ∧ fromFile file = some bo) ↔
      bo.version = currentVersion ∧ (∀ arg ∈ bo.args, Kept arg) ∧
        ∀ o ∈ bo.objects, Kept o.name ∧ o.bytes ≠ [] := by
  constructor
  · rintro ⟨file, hw, hr⟩
    obtain ⟨ha, ho⟩ := toFile_isSome.1 ⟨file, hw⟩
    obtain ⟨hla, hlo⟩ := fromFile_length hr
    have hv := congrArg version (some.inj ((fromFile_toFile h hla hlo hw).symm.trans hr))
    refine ⟨hv.symm, fun arg hm => ⟨stored_eq (hla arg hm) ▸ ha arg hm, hla arg hm⟩, fun o hm => ?_⟩
    exact ⟨⟨stored_eq (hlo o hm) ▸ (ho o hm).1, hlo o hm⟩, (ho o hm).2⟩
  · rintro ⟨hv, ha, ho⟩
    obtain ⟨file, hw⟩ := toFile_isSome.2
      ⟨fun arg hm => (stored_eq (ha arg hm).2).symm ▸ (ha arg hm).1,
        fun o hm => ⟨(stored_eq (ho o hm).1.2).symm ▸ (ho o hm).1.1, (ho o hm).2⟩⟩
    refine ⟨file, hw, (fromFile_toFile h (fun arg hm => (ha arg hm).2)
      (fun o hm => (ho o hm).1.2) hw).trans ?_⟩
    rw [← hv]

theorem readBack_iff_one : ∃ file, toFile ⟨3, [[97]], 0, 0, [⟨[98], [0]⟩]⟩ = some file ∧
    fromFile file = some ⟨3, [[97]], 0, 0, [⟨[98], [0]⟩]⟩ :=
  (readBack_iff ⟨by decide, by decide, by decide, by decide, by decide, by decide⟩).2
    ⟨rfl, by simp [Kept], by simp [Kept]⟩

/-- An object of zero bytes, or an empty argument, cannot be written. -/
theorem empty_notWritten :
    toFile ⟨3, [], 0, 0, [⟨[98], []⟩]⟩ = none ∧ toFile ⟨3, [[]], 0, 0, []⟩ = none :=
  ⟨by decide, by decide⟩

end KTest
end Chef
