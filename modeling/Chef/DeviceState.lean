import Chef.AddressSpaceCopies
import Chef.StateMerge

namespace Chef
open Foundations
abbrev Sector := Fin 512 → UInt8

def sectorSize : Nat := 512

/-- `(1024 * 1024 * 1024) * 64` is computed in `int`. -/
def blockDevAs : Nat := (Int.bmod ((1024 * 1024 * 1024) * 64) (2 ^ 32) % 2 ^ 64).toNat

inductive DiskFault where
  | memory (fault : MemoryFault)
  | nullStore
  | noSectors
  | beyondEnd
  | endless
  deriving DecidableEq

structure S2EBLKL2 where
  dirtyBitmap : Nat → Bool
  block : Nat → Sector

structure BlockDrivers where
  sectorCount : Nat → Nat
  file : Nat → Nat → Sector
  l1 : Nat → Nat → Option S2EBLKL2

/-- The device states, and the devices in the order of their first use. -/
structure DeviceStates where
  spaces : AddressSpaces
  blockDevices : List Nat

def ObjectState.getConcreteStore (os : ObjectState) : Option (Nat → UInt8) :=
  if ExecutionState.isAllConcrete os then some os.concreteStore else none

def copySector (data : Sector) : ObjectUpdate where
  apply os :=
    { os with concreteStore := fun i => if h : i < 512 then data ⟨i, h⟩ else os.concreteStore i }
  applyHost mo host := fun a =>
    if h : mo.address ≤ a ∧ a - mo.address < 512 then data ⟨a - mo.address, h.2⟩ else host a
  frame _ _ := rfl

def sectorObject (address : Nat) : MemoryObject := ⟨0, address, sectorSize, false, false, false⟩

/-- A new object state, whose store is not initialized. -/
def newObjectState (mo : MemoryObject) : ObjectState :=
  ⟨mo, 0, none, fun _ => 0, none, none, ⟨none, .null⟩, mo.size, false⟩

def sectorAddress (bstart sector : Nat) : Nat := (bstart + sector * sectorSize) % 2 ^ 64

namespace AddressSpaces
def stepDisk (s : AddressSpaces) (op : SpacesOp) : Except DiskFault AddressSpaces :=
  (s.step op).mapError .memory

def bindSector (k address : Nat) (s : AddressSpaces) : Except DiskFault AddressSpaces :=
  match s.binding k address with
  | none =>
    let mo := sectorObject address
    s.stepDisk (.onSpace k (.bindObject mo (newObjectState mo)))
  | some _ => .ok s

def writeAt (k address : Nat) (data : Sector) (s : AddressSpaces) :
    Except DiskFault AddressSpaces := do
  let s ← s.bindSector k address
  match s.binding k address with
  | none => .error .nullStore
  | some (mo, r) =>
    match (s.objectStates.get r).getConcreteStore with
    | none => .error .nullStore
    | some _ => s.stepDisk (.onSpace k (.write mo (copySector data)))

def writeSectors (k bstart : Nat) : Nat → List Sector → AddressSpaces →
    Except DiskFault AddressSpaces
  | _, [], s => .ok s
  | sector, data :: buf, s => do
    let s ← s.writeAt k (sectorAddress bstart sector) data
    s.writeSectors k bstart (sector + 1) buf

def readSectors (s : AddressSpaces) (k bstart : Nat) : Nat → Nat → Except DiskFault (List Sector)
  | _, 0 => .ok []
  | sector, count + 1 =>
    match s.binding k (sectorAddress bstart sector) with
    | none => .ok []
    | some (_, r) =>
      match (s.objectStates.get r).getConcreteStore with
      | none => .error .nullStore
      | some store =>
        (s.readSectors k bstart (sector + 1) count).map fun read => (fun i => store i) :: read

end AddressSpaces

namespace DeviceStates
def initial : DeviceStates := ⟨.initial, []⟩

def getBlockDeviceId (dev : Nat) (s : DeviceStates) : Nat × DeviceStates :=
  match s.blockDevices.idxOf? dev with
  | some id => (id, s)
  | none => (s.blockDevices.length, { s with blockDevices := s.blockDevices ++ [dev] })

def getBlockDeviceStart (dev : Nat) (s : DeviceStates) : Nat × DeviceStates :=
  let (id, s) := s.getBlockDeviceId dev
  (id * blockDevAs % 2 ^ 64, s)

def writeSector (k dev sector : Nat) (buf : List Sector) (s : DeviceStates) :
    Except DiskFault DeviceStates :=
  let (bstart, s) := s.getBlockDeviceStart dev
  (s.spaces.writeSectors k bstart sector buf).map fun spaces => { s with spaces }

def readSector (k dev sector count : Nat) (s : DeviceStates) :
    Except DiskFault (List Sector × DeviceStates) :=
  let (bstart, s) := s.getBlockDeviceStart dev
  (s.spaces.readSectors k bstart sector count).map fun read => (read, s)

def readDirty (l1 : Nat → Option S2EBLKL2) : Nat → List Sector → List Sector
  | _, [] => []
  | sector, data :: buffer =>
    (match l1 (sector / 128) with
    | none => data
    | some page => if page.dirtyBitmap (sector % 128) then page.block (sector % 128) else data) ::
      readDirty l1 (sector + 1) buffer

def readDirtyKlee (k dev : Nat) : Nat → Nat → List Sector → DeviceStates →
    Except DiskFault (List Sector × DeviceStates)
  | _, _, [], s => .ok ([], s)
  | 0, _, _ :: _, _ => .error .endless
  | rounds + 1, sector, data :: buffer, s => do
    let (read, s) ← s.readSector k dev sector (buffer.length + 1)
    match read with
    | [] =>
      let (rest, s) ← s.readDirtyKlee k dev rounds (sector + 1) buffer
      .ok (data :: rest, s)
    | _ :: _ =>
      let (rest, s) ← s.readDirtyKlee k dev rounds (sector + read.length)
        ((data :: buffer).drop read.length)
      .ok (read ++ rest, s)

def coReadv (D : BlockDrivers) (k dev sector count : Nat) (s : DeviceStates) :
    Except DiskFault (List Sector × DeviceStates) :=
  if count = 0 then .error .noSectors
  else if sector + count ≤ D.sectorCount dev then
    s.readDirtyKlee k dev count sector
      (readDirty (D.l1 dev) sector ((List.range' sector count).map (D.file dev)))
  else .error .beyondEnd

def coWritev (D : BlockDrivers) (k dev sector : Nat) (buf : List Sector) (s : DeviceStates) :
    Except DiskFault DeviceStates :=
  if buf.length = 0 then .error .noSectors
  else if sector + buf.length ≤ D.sectorCount dev then s.writeSector k dev sector buf
  else .error .beyondEnd

def fork (k : Nat) (s : DeviceStates) : Except DiskFault DeviceStates :=
  (s.spaces.stepDisk (.copy k)).map fun spaces => { s with spaces }

end DeviceStates

inductive DiskEvent where
  | writev (k dev sector : Nat) (buf : List Sector)
  | readv (k dev sector count : Nat)
  | fork (k : Nat)

namespace DeviceStates
def handle (D : BlockDrivers) (s : DeviceStates) : DiskEvent → Except DiskFault DeviceStates
  | .writev k dev sector buf => s.coWritev D k dev sector buf
  | .readv k dev sector count => (s.coReadv D k dev sector count).map Prod.snd
  | .fork k => s.fork k

def run (D : BlockDrivers) (events : List DiskEvent) : Except DiskFault DeviceStates :=
  events.foldlM (handle D) initial

end DeviceStates
end Chef
