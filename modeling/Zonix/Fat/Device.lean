import Zonix.Base.Error
import Zonix.Lib.Prog
import Zonix.Fat.Layout

/-! # The block device and the state of a mounted volume

`BlockDevice` (`kernel/block/blk.h`) as the FAT driver uses it.  Every request has a number; the
device decides by it whether the request fails, with which code, and which blocks of a failing
write reached the disk.  A failing read delivers nothing. -/

namespace Zonix.Fat

inductive DevError where
  | io | invalid | timeout | busy | noDevice
  deriving Repr, DecidableEq

def DevError.error : DevError → Error
  | .io => .io
  | .invalid => .invalid
  | .timeout => .timeout
  | .busy => .busy
  | .noDevice => .noDevice

structure Device where
  blockCount : ℕ
  readFault : ℕ → Option DevError
  writeFault : ℕ → Option (DevError × (ℕ → Bool))
  blockCount_lt : blockCount < 2 ^ 32

/-- Some read fails. -/
def Device.ReadFaulty (dev : Device) : Prop := ∃ i, (dev.readFault i).isSome = true

/-- Some request fails. -/
def Device.Faulty (dev : Device) : Prop := dev.ReadFaulty ∨ ∃ i, (dev.writeFault i).isSome = true

/-- The disk, the FAT sector cache of `FatInfo`, the out-parameter of `add_dir_entry` and a record
of the requests: their number and the failures so far. -/
structure FatState where
  disk : ℕ → Sector
  buffer : Sector
  bufferSector : ℕ
  bufferDirty : Bool
  entryMayExist : Bool
  served : ℕ
  faults : List DevError

abbrev FatM := Prog FatState Error

def Device.inRange (dev : Device) (start count : ℕ) : Prop :=
  start ≤ dev.blockCount ∧ count ≤ dev.blockCount - start

instance (dev : Device) (start count : ℕ) : Decidable (dev.inRange start count) :=
  inferInstanceAs (Decidable (_ ∧ _))

def FatState.fault (s : FatState) (e : DevError) : FatState := { s with faults := s.faults ++ [e] }

def FatState.serve (s : FatState) : FatState := { s with served := s.served + 1 }

def writeAt (disk : ℕ → Sector) (start : ℕ) (data : ℕ → Sector) (mask : ℕ → Bool) (count : ℕ) : ℕ → Sector :=
  fun lba => if start ≤ lba ∧ lba < start + count ∧ mask (lba - start) then data (lba - start) else disk lba

def Device.read (dev : Device) (start count : ℕ) : FatM (ℕ → Sector) := fun s =>
  if dev.inRange start count then
    match dev.readFault s.served with
    | none => (.ok fun i => s.disk (start + i), s.serve)
    | some e => (.error e.error, s.serve.fault e)
  else (.error .invalid, s.serve.fault .invalid)

def Device.write (dev : Device) (start : ℕ) (data : ℕ → Sector) (count : ℕ) : FatM Unit := fun s =>
  if dev.inRange start count then
    match dev.writeFault s.served with
    | none => (.ok (), { s.serve with disk := writeAt s.disk start data (fun _ => true) count })
    | some (e, reached) =>
      (.error e.error, { s.serve.fault e with disk := writeAt s.disk start data reached count })
  else (.error .invalid, s.serve.fault .invalid)

def Device.readSector (dev : Device) (lba : ℕ) : FatM Sector := do
  let data ← dev.read lba 1
  pure (data 0)

def Device.writeSector (dev : Device) (lba : ℕ) (data : Sector) : FatM Unit :=
  dev.write lba (fun _ => data) 1

/-! ## Geometry -/

def fat32Free : ℕ := 0x00000000
def fat32ReservedMin : ℕ := 0x0FFFFFF0
def fat32BadCluster : ℕ := 0x0FFFFFF7
def fat32EocMin : ℕ := 0x0FFFFFF8
def fat32EocMax : ℕ := 0x0FFFFFFF
def fat32ClusterMask : ℕ := 0x0FFFFFFF
def fatInvalidSector : ℕ := 0xFFFFFFFF
def bytesPerSector : ℕ := 512

def entOffset (cluster : ℕ) : ℕ := u32 (cluster <<< 2) % bytesPerSector

/-- The fields that `do_init_state` sets, with what `mount` has checked about them. -/
structure Geometry where
  partitionStart : ℕ
  totalSectors : ℕ
  sectorsPerCluster : ℕ
  reservedSectors : ℕ
  fatCount : ℕ
  fatSectors : ℕ
  rootCluster : ℕ
  sectorsPerCluster_pos : 0 < sectorsPerCluster
  sectorsPerCluster_le : sectorsPerCluster ≤ 128
  reserved_pos : 0 < reservedSectors
  fatCount_pos : 0 < fatCount
  fatCount_le : fatCount ≤ 2
  data_lt : reservedSectors + fatCount * fatSectors < totalSectors
  partition_lt : partitionStart + totalSectors < 2 ^ 32
  clusters_le :
    (totalSectors - (reservedSectors + fatCount * fatSectors)) / sectorsPerCluster + 2 ≤ fat32ReservedMin
  fat_fits : ((totalSectors - (reservedSectors + fatCount * fatSectors)) / sectorsPerCluster + 2) * 4 ≤
    fatSectors * bytesPerSector
  root_ge : 2 ≤ rootCluster
  root_lt : rootCluster < (totalSectors - (reservedSectors + fatCount * fatSectors)) / sectorsPerCluster + 2

namespace Geometry

variable (g : Geometry)

def fatStart : ℕ := g.reservedSectors
def dataStart : ℕ := g.fatStart + g.fatCount * g.fatSectors
def clusterCount : ℕ := (g.totalSectors - g.dataStart) / g.sectorsPerCluster
def bytesPerCluster : ℕ := bytesPerSector * g.sectorsPerCluster

def validCluster (cluster : ℕ) : Prop := 2 ≤ cluster ∧ cluster < u32 (g.clusterCount + 2)

instance (cluster : ℕ) : Decidable (g.validCluster cluster) := inferInstanceAs (Decidable (_ ∧ _))

def fatSector (cluster : ℕ) : ℕ := u32 (g.fatStart + u32 (cluster <<< 2) / bytesPerSector)

def clusterToSector (cluster : ℕ) : ℕ :=
  if cluster < 2 then 0 else u32 (g.dataStart + u32 ((cluster - 2) * g.sectorsPerCluster))

/-- The device address of a sector of the partition. -/
def lba (sector : ℕ) : ℕ := u32 (g.partitionStart + sector)

def copyLba (sector i : ℕ) : ℕ := u32 (g.partitionStart + sector + i * g.fatSectors)

/-- Every sector of the partition is on the device. -/
def Fits (dev : Device) : Prop := g.partitionStart + g.totalSectors ≤ dev.blockCount

end Geometry

/-! ## Torn writes -/

structure Torn (dev : Device) : Prop where
  reads : ¬dev.ReadFaulty
  writes : ∀ i, ∃ d reached, dev.writeFault i = some (d, reached) ∧ ∀ k, reached k = true

/-- Such a device for a volume. -/
def tornDevice (g : Geometry) : Device where
  blockCount := g.partitionStart + g.totalSectors
  readFault _ := none
  writeFault _ := some (.io, fun _ => true)
  blockCount_lt := g.partition_lt

theorem tornDevice_torn (g : Geometry) : Torn (tornDevice g) := by
  refine ⟨?_, fun _ => ⟨.io, fun _ => true, rfl, fun _ => rfl⟩⟩
  rintro ⟨i, hi⟩
  simp [tornDevice] at hi

theorem tornDevice_fits (g : Geometry) : g.Fits (tornDevice g) := Nat.le_refl _

/-- A device for a volume on which nothing fails. -/
def steadyDevice (g : Geometry) : Device where
  blockCount := g.partitionStart + g.totalSectors
  readFault _ := none
  writeFault _ := none
  blockCount_lt := g.partition_lt

theorem steadyDevice_fits (g : Geometry) : g.Fits (steadyDevice g) := Nat.le_refl _

theorem steadyDevice_steady (g : Geometry) : ¬(steadyDevice g).Faulty := by
  rintro (⟨i, hi⟩ | ⟨i, hi⟩)
  · simp [steadyDevice] at hi
  · simp [steadyDevice] at hi

end Zonix.Fat
