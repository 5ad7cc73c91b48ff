import Zonix.Fat.Device

/-! # Mounting

`FatInfo::mount` of `kernel/fs/fat/fat_core.cpp` with the partition lookup of
`include/base/mbr.h` and `include/base/gpt.h`. -/

namespace Zonix.Fat

open Prog

variable (dev : Device)

def Block.word64 {n : ℕ} (b : Block n) (off : ℕ) : ℕ := b.word32 off + 2 ^ 32 * b.word32 (off + 4)

/-! ## Partition tables -/

def mbrSignature : ℕ := 0xAA55
def gptProtectiveMbrType : Byte := 0xEE
def gptHeaderSignature : ℕ := 0x5452415020494645

/-- The bytes of `ESP_GUID` in memory. -/
def espGuid : List Byte :=
  [0x28, 0x73, 0x2A, 0xC1, 0x1F, 0xF8, 0xD2, 0x11, 0xBA, 0x4B, 0x00, 0xA0, 0xC9, 0x3E, 0xC9, 0x3B]

def gptEntriesPerSector : ℕ := 4

def gptTypeGuid (sector : Sector) (i : ℕ) : List Byte := (List.range 16).map fun k => sector.byte (128 * i + k)

def gptStartingLba (sector : Sector) (i : ℕ) : ℕ := sector.word64 (128 * i + 32)

def searchGptSector (sector : Sector) (count : ℕ) : Option ℕ :=
  ((List.range gptEntriesPerSector).take count).findSome? fun i =>
    if gptTypeGuid sector i = espGuid then some (gptStartingLba sector i) else none

/-- `find_esp_lba` from sector `i` of the entry array on, with `left` entries to go.  The result
is the 64-bit start, or nothing when the array ends or a read fails. -/
def findEspFrom (arrayLba : ℕ) : ℕ → ℕ → ℕ → FatM (Option ℕ)
  | 0, _, _ => pure none
  | fuel + 1, i, left =>
    if left = 0 then pure none
    else do
      match ← attempt (dev.readSector (u32 (arrayLba + i))) with
      | .error _ => pure none
      | .ok sector =>
        match searchGptSector sector left with
        | some start => pure (some start)
        | none => findEspFrom arrayLba fuel (i + 1) (left - gptEntriesPerSector)

def findPartitionStart : FatM ℕ := do
  let mbr ← dev.readSector 0
  ensure (mbr.word16 510 = mbrSignature) .badFs
  if mbr.byte 450 = gptProtectiveMbrType then do
    let gpt ← dev.readSector 1
    ensure (gpt.word64 0 = gptHeaderSignature) .badFs
    let entries := gpt.word32 80
    match ← findEspFrom dev (u32 (gpt.word64 72)) (entries + 1) 0 entries with
    | none => fail .notFound
    | some start => do
      -- the source converts to a signed 32-bit integer and rejects a negative one
      ensure (u32 start < 2 ^ 31) .notFound
      pure (u32 start)
  else if mbr.byte 450 = 0x0B ∨ mbr.byte 450 = 0x0C then pure (mbr.word32 454)
  else pure 0

/-! ## The boot sector -/

structure Fat32BootSector where
  bytesPerSector : ℕ
  sectorsPerCluster : ℕ
  reservedSectors : ℕ
  numFats : ℕ
  rootEntries : ℕ
  fatSize16 : ℕ
  totalSectors32 : ℕ
  fatSize32 : ℕ
  extFlags : ℕ
  fsVersion : ℕ
  rootCluster : ℕ
  bootSignature : ℕ
  bootSignatureWord : ℕ
  deriving Repr, DecidableEq

def bootSector (s : Sector) : Fat32BootSector where
  bytesPerSector := s.word16 0x0B
  sectorsPerCluster := (s.byte 0x0D).toNat
  reservedSectors := s.word16 0x0E
  numFats := (s.byte 0x10).toNat
  rootEntries := s.word16 0x11
  fatSize16 := s.word16 0x16
  totalSectors32 := s.word32 0x20
  fatSize32 := s.word32 0x24
  extFlags := s.word16 0x28
  fsVersion := s.word16 0x2A
  rootCluster := s.word32 0x2C
  bootSignature := (s.byte 0x42).toNat
  bootSignatureWord := s.word16 0x1FE

namespace Fat32BootSector

variable (bs : Fat32BootSector)

def isValid : Prop := bs.bootSignatureWord = 0xAA55 ∧ bs.bootSignature = 0x29
def isFat32 : Prop := bs.isValid ∧ bs.totalSectors32 ≠ 0
def dataStart : ℕ := bs.reservedSectors + bs.numFats * bs.fatSize32
def clusters : ℕ := (bs.totalSectors32 - bs.dataStart) / bs.sectorsPerCluster

instance : Decidable bs.isValid := inferInstanceAs (Decidable (_ ∧ _))
instance : Decidable bs.isFat32 := inferInstanceAs (Decidable (_ ∧ _))

def checks (partStart blockCount : ℕ) : List (Bool × Error) :=
  [(decide bs.isFat32, .badFs),
   (decide (bs.bytesPerSector ≠ 0), .badFs),
   (decide (bs.bytesPerSector = 512 ∨ bs.bytesPerSector = 1024 ∨ bs.bytesPerSector = 2048 ∨
      bs.bytesPerSector = 4096), .badFs),
   (decide (bs.bytesPerSector = 512), .notSupported),
   (decide (bs.sectorsPerCluster ≠ 0 ∧ bs.sectorsPerCluster ≤ 128 ∧
      bs.sectorsPerCluster &&& (bs.sectorsPerCluster - 1) = 0), .badFs),
   (decide (bs.reservedSectors ≠ 0 ∧ bs.numFats ≠ 0 ∧ bs.numFats ≤ 2 ∧ bs.fatSize32 ≠ 0 ∧
      bs.rootEntries = 0 ∧ bs.fatSize16 = 0), .badFs),
   (decide (bs.fsVersion = 0 ∧ bs.extFlags &&& 0x80 = 0), .notSupported),
   (decide (bs.dataStart < bs.totalSectors32), .badFs),
   (decide (partStart + bs.totalSectors32 ≤ blockCount), .badFs),
   (decide (bs.clusters ≠ 0 ∧ bs.clusters + 2 ≤ fat32ReservedMin), .badFs),
   (decide ((bs.clusters + 2) * 4 ≤ bs.fatSize32 * bs.bytesPerSector), .badFs),
   (decide (2 ≤ bs.rootCluster ∧ bs.rootCluster < bs.clusters + 2), .badFs)]

def reject (partStart blockCount : ℕ) : Option Error :=
  ((bs.checks partStart blockCount).find? fun c => !c.1).map Prod.snd

structure Accepted (partStart blockCount : ℕ) : Prop where
  bytes : bs.bytesPerSector = 512
  sectors : bs.sectorsPerCluster ≠ 0 ∧ bs.sectorsPerCluster ≤ 128
  counts : bs.reservedSectors ≠ 0 ∧ bs.numFats ≠ 0 ∧ bs.numFats ≤ 2
  data : bs.dataStart < bs.totalSectors32
  part : partStart + bs.totalSectors32 ≤ blockCount
  clusters : bs.clusters + 2 ≤ fat32ReservedMin
  fat : (bs.clusters + 2) * 4 ≤ bs.fatSize32 * bs.bytesPerSector
  root : 2 ≤ bs.rootCluster ∧ bs.rootCluster < bs.clusters + 2

theorem accepted {partStart blockCount : ℕ} (h : bs.reject partStart blockCount = none) :
    bs.Accepted partStart blockCount := by
  simp only [reject, Option.map_eq_none_iff, List.find?_eq_none, checks, List.forall_mem_cons,
    Bool.not_eq_true', Bool.not_eq_false, decide_eq_true_eq] at h
  obtain ⟨-, -, -, hbytes, hspc, hcounts, -, hdata, hpart, hclusters, hfat, hroot, -⟩ := h
  exact ⟨hbytes, ⟨hspc.1, hspc.2.1⟩, ⟨hcounts.1, hcounts.2.1, hcounts.2.2.1⟩, hdata, hpart, hclusters.2,
    hfat, hroot⟩

/-- `do_init_state` of an accepted boot sector. -/
def geometry (partStart blockCount : ℕ) (hb : blockCount < 2 ^ 32)
    (h : bs.reject partStart blockCount = none) : Geometry where
  partitionStart := partStart
  totalSectors := bs.totalSectors32
  sectorsPerCluster := bs.sectorsPerCluster
  reservedSectors := bs.reservedSectors
  fatCount := bs.numFats
  fatSectors := bs.fatSize32
  rootCluster := bs.rootCluster
  sectorsPerCluster_pos := Nat.pos_of_ne_zero (bs.accepted h).sectors.1
  sectorsPerCluster_le := (bs.accepted h).sectors.2
  reserved_pos := Nat.pos_of_ne_zero (bs.accepted h).counts.1
  fatCount_pos := Nat.pos_of_ne_zero (bs.accepted h).counts.2.1
  fatCount_le := (bs.accepted h).counts.2.2
  data_lt := (bs.accepted h).data
  partition_lt := Nat.lt_of_le_of_lt (bs.accepted h).part hb
  clusters_le := (bs.accepted h).clusters
  fat_fits := by
    have hfat := (bs.accepted h).fat
    rwa [(bs.accepted h).bytes] at hfat
  root_ge := (bs.accepted h).root.1
  root_lt := (bs.accepted h).root.2

theorem geometry_fits {partStart : ℕ} (h : bs.reject partStart dev.blockCount = none) :
    (bs.geometry partStart dev.blockCount dev.blockCount_lt h).Fits dev := (bs.accepted h).part

end Fat32BootSector

def mount : FatM Geometry := do
  let partStart ← findPartitionStart dev
  let sector ← dev.readSector partStart
  match h : (bootSector sector).reject partStart dev.blockCount with
  | some e => fail e
  | none => do
    update fun s => { s with bufferSector := fatInvalidSector }
    pure ((bootSector sector).geometry partStart dev.blockCount dev.blockCount_lt h)

end Zonix.Fat
