import Zonix.Fat.Mount

/-! # Looking for the EFI system partition

What `find_partition_start` of `kernel/fs/fat/fat_core.cpp` and `find_esp_lba` of `include/base/gpt.h` find on a disk with
a GPT, against the partition array as its header describes it. -/

namespace Zonix.Fat

open Prog

/-! ## The partition array -/

def diskByte (disk : ℕ → Sector) (p : ℕ) : Byte := (disk (p / 512)).byte (p % 512)

def typeGuidAt (disk : ℕ → Sector) (p : ℕ) : List Byte := (List.range 16).map fun k => diskByte disk (p + k)

def word32At (disk : ℕ → Sector) (p : ℕ) : ℕ :=
  (diskByte disk p).toNat + 2 ^ 8 * (diskByte disk (p + 1)).toNat + 2 ^ 16 * (diskByte disk (p + 2)).toNat +
    2 ^ 24 * (diskByte disk (p + 3)).toNat

/-- `starting_lba` of the entry at offset `p`. -/
def startingLbaAt (disk : ℕ → Sector) (p : ℕ) : ℕ := word32At disk (p + 32) + 2 ^ 32 * word32At disk (p + 36)

def firstEsp (disk : ℕ → Sector) (size p num : ℕ) : Option ℕ :=
  (List.range num).findSome? fun i =>
    if typeGuidAt disk (p + i * size) = espGuid then some (startingLbaAt disk (p + i * size)) else none

def partitionEntryLba (disk : ℕ → Sector) : ℕ := (disk 1).word64 72
def numPartitionEntries (disk : ℕ → Sector) : ℕ := (disk 1).word32 80
def partitionEntrySize (disk : ℕ → Sector) : ℕ := (disk 1).word32 84

/-- A disk with a protective MBR and a GPT whose array lies on the device. -/
structure GptDisk (dev : Device) (disk : ℕ → Sector) : Prop where
  blocks : 2 ≤ dev.blockCount
  signature : (disk 0).word16 510 = mbrSignature
  protective : (disk 0).byte 450 = gptProtectiveMbrType
  header : (disk 1).word64 0 = gptHeaderSignature
  size : ∃ k, partitionEntrySize disk = 128 * 2 ^ k
  array : ∀ i < numPartitionEntries disk,
    512 * partitionEntryLba disk + (i + 1) * partitionEntrySize disk ≤ 512 * dev.blockCount

/-- The EFI system partition that the header's array has. -/
def espStart (disk : ℕ → Sector) : Option ℕ :=
  firstEsp disk (partitionEntrySize disk) (512 * partitionEntryLba disk) (numPartitionEntries disk)

/-! ## The search -/

variable {dev : Device} {s : FatState}

theorem gptTypeGuid_eq (disk : ℕ → Sector) (lba : ℕ) {i : ℕ} (hi : i < 4) :
    gptTypeGuid (disk lba) i = typeGuidAt disk (512 * lba + i * 128) := by
  refine List.map_congr_left fun k hk => ?_
  rw [List.mem_range] at hk
  rw [diskByte, show (512 * lba + i * 128 + k) / 512 = lba by omega,
    show (512 * lba + i * 128 + k) % 512 = 128 * i + k by omega]

theorem gptStartingLba_eq (disk : ℕ → Sector) (lba : ℕ) {i : ℕ} (hi : i < 4) :
    gptStartingLba (disk lba) i = startingLbaAt disk (512 * lba + i * 128) := by
  have hbyte : ∀ k < 128, diskByte disk (512 * lba + i * 128 + k) = (disk lba).byte (128 * i + k) := by
    intro k hk
    rw [diskByte, show (512 * lba + i * 128 + k) / 512 = lba by omega,
      show (512 * lba + i * 128 + k) % 512 = 128 * i + k by omega]
  have hword : ∀ k, k + 3 < 128 → word32At disk (512 * lba + i * 128 + k) = (disk lba).word32 (128 * i + k) := by
    intro k hk
    rw [word32At, Block.word32, hbyte k (by omega), Nat.add_assoc _ k 1, Nat.add_assoc _ k 2, Nat.add_assoc _ k 3,
      hbyte (k + 1) (by omega), hbyte (k + 2) (by omega), hbyte (k + 3) (by omega)]
    rfl
  rw [gptStartingLba, Block.word64, startingLbaAt, hword 32 (by omega), hword 36 (by omega)]

theorem findSome_congr {α β : Type} {f g : α → Option β} {l : List α} (h : ∀ x ∈ l, f x = g x) :
    l.findSome? f = l.findSome? g := by
  induction l with
  | nil => rfl
  | cons a l ih =>
    rw [List.findSome?_cons, List.findSome?_cons, h a List.mem_cons_self,
      ih fun x hx => h x (List.mem_cons_of_mem a hx)]

theorem searchGptSector_eq (disk : ℕ → Sector) (lba count : ℕ) :
    searchGptSector (disk lba) count = firstEsp disk 128 (512 * lba) (min count 4) := by
  rw [searchGptSector, firstEsp, gptEntriesPerSector, List.take_range]
  refine findSome_congr fun i hi => ?_
  rw [List.mem_range] at hi
  rw [gptTypeGuid_eq disk lba (by omega), gptStartingLba_eq disk lba (by omega)]

theorem firstEsp_add (disk : ℕ → Sector) (size p m n : ℕ) :
    firstEsp disk size p (m + n) = (firstEsp disk size p m).or (firstEsp disk size (p + m * size) n) := by
  have hshift : ∀ i, p + (m + i) * size = p + m * size + i * size := fun i => by
    rw [Nat.add_mul, Nat.add_assoc]
  rw [firstEsp, List.range_add, List.findSome?_append, List.findSome?_map, firstEsp, firstEsp]
  congr 1
  refine findSome_congr fun i _ => ?_
  simp only [Function.comp_apply, hshift]

theorem readSector_eq (hf : ¬dev.ReadFaulty) (lba : ℕ) (hr : dev.inRange lba 1) (s : FatState) :
    dev.readSector lba s = (.ok (s.disk lba), s.serve) := by
  have hnone : dev.readFault s.served = none := by
    by_contra h
    exact hf ⟨s.served, Option.isSome_iff_ne_none.2 h⟩
  rw [Device.readSector, bind_apply, Device.read, if_pos hr, hnone]
  rfl

theorem firstEsp_sector (disk : ℕ → Sector) (lba left : ℕ) :
    firstEsp disk 128 (512 * lba) left =
      (firstEsp disk 128 (512 * lba) (min left 4)).or (firstEsp disk 128 (512 * (lba + 1)) (left - 4)) := by
  by_cases h4 : left ≤ 4
  · rw [Nat.min_eq_left h4, Nat.sub_eq_zero_of_le h4]
    exact Option.or_none.symm
  · rw [Nat.min_eq_right (by omega), show 512 * (lba + 1) = 512 * lba + 4 * 128 by omega, ← firstEsp_add,
      show 4 + (left - 4) = left by omega]

theorem findEspFrom_eq (hf : ¬dev.ReadFaulty) (lba fuel i left : ℕ) (s : FatState) (hfuel : left < fuel)
    (hin : left ≠ 0 → 512 * (lba + i) + left * 128 ≤ 512 * dev.blockCount) :
    ∃ n, findEspFrom dev lba fuel i left s =
      (.ok (firstEsp s.disk 128 (512 * (lba + i)) left), { s with served := n }) := by
  induction fuel generalizing i left s with
  | zero => omega
  | succ fuel ih =>
    rw [findEspFrom]
    by_cases hleft : left = 0
    · rw [if_pos hleft, hleft]
      exact ⟨s.served, rfl⟩
    · have hlt := dev.blockCount_lt
      have hspan := hin hleft
      have hlba : u32 (lba + i) = lba + i := by
        rw [u32]
        omega
      have hread := readSector_eq hf (lba + i) ⟨by omega, by omega⟩ s
      rw [if_neg hleft, hlba, bind_apply, attempt, hread]
      simp only
      rw [searchGptSector_eq, firstEsp_sector s.disk (lba + i) left]
      cases firstEsp s.disk 128 (512 * (lba + i)) (min left 4) with
      | some start => exact ⟨s.served + 1, rfl⟩
      | none => exact ih (i + 1) (left - 4) s.serve (by omega) (by omega)

/-- The start that the search of 128-byte entries gives. -/
def slotStart (disk : ℕ → Sector) : Option ℕ :=
  firstEsp disk 128 (512 * partitionEntryLba disk) (numPartitionEntries disk)

theorem GptDisk.le_size {disk : ℕ → Sector} (hg : GptDisk dev disk) : 128 ≤ partitionEntrySize disk := by
  obtain ⟨k, hk⟩ := hg.size
  rw [hk]
  exact Nat.le_mul_of_pos_right 128 (Nat.two_pow_pos k)

theorem GptDisk.slots {disk : ℕ → Sector} (hg : GptDisk dev disk) (hn : numPartitionEntries disk ≠ 0) :
    512 * partitionEntryLba disk + numPartitionEntries disk * 128 ≤ 512 * dev.blockCount := by
  have hlast := hg.array (numPartitionEntries disk - 1) (by omega)
  rw [Nat.sub_add_cancel (by omega)] at hlast
  have hmul := Nat.mul_le_mul_left (numPartitionEntries disk) hg.le_size
  omega

theorem findPartitionStart_gpt (hf : ¬dev.ReadFaulty) (hg : GptDisk dev s.disk) :
    (findPartitionStart dev s).1 = match slotStart s.disk with
      | none => .error .notFound
      | some start => if u32 start < 2 ^ 31 then .ok (u32 start) else .error .notFound := by
  have hblocks := hg.blocks
  have hlt := dev.blockCount_lt
  have hloop : ∃ n, findEspFrom dev (u32 (partitionEntryLba s.disk)) (numPartitionEntries s.disk + 1) 0
      (numPartitionEntries s.disk) s.serve.serve = (.ok (slotStart s.disk), { s with served := n }) := by
    by_cases hn : numPartitionEntries s.disk = 0
    · rw [slotStart, hn]
      exact ⟨s.served + 2, rfl⟩
    · have hslots := hg.slots hn
      have hlba : u32 (partitionEntryLba s.disk) = partitionEntryLba s.disk := by
        rw [u32]
        omega
      rw [hlba]
      exact findEspFrom_eq hf _ _ 0 _ s.serve.serve (by omega) (by omega)
  obtain ⟨n, hn⟩ := hloop
  rw [findPartitionStart, bind_of_ok (readSector_eq hf 0 ⟨by omega, by omega⟩ s), bind_of_ok (ensure_of hg.signature _),
    if_pos hg.protective, bind_of_ok (readSector_eq hf 1 ⟨by omega, by omega⟩ s.serve)]
  refine (congrArg Prod.fst (bind_of_ok (ensure_of hg.header _) _)).trans ?_
  refine (congrArg Prod.fst (bind_of_ok hn _)).trans ?_
  cases slotStart s.disk with
  | none => rfl
  | some start =>
    simp only
    by_cases hsign : u32 start < 2 ^ 31
    · rw [if_pos hsign, bind_of_ok (ensure_of hsign _)]
      rfl
    · rw [if_neg hsign, ensure, if_neg hsign]
      rfl

/-! ## The result -/

/-- A disk whose GPT has two entries of `size` bytes at sector 2, the second one an EFI system partition at `start`. -/
def gptSample (size start : ℕ) : ℕ → Sector
  | 0 => Block.ofBytes fun i => if i = 450 then 0xEE else if i = 510 then 0x55 else if i = 511 then 0xAA else 0
  | 1 => Block.ofBytes fun i =>
    if i < 8 then byteOf gptHeaderSignature i else if i = 72 then 2 else if i = 80 then 2
    else if 84 ≤ i ∧ i < 88 then byteOf size (i - 84) else 0
  | 2 => Block.ofBytes fun i =>
    if size ≤ i ∧ i < size + 16 then espGuid.getD (i - size) 0
    else if size + 32 ≤ i ∧ i < size + 40 then byteOf start (i - (size + 32)) else 0
  | _ => Block.zero

def gptSampleDevice : Device := ⟨4096, fun _ => none, fun _ => none, by decide⟩

def gptSampleState (size start : ℕ) : FatState := ⟨gptSample size start, Block.zero, fatInvalidSector, false, false, 0, []⟩

theorem gptSampleDevice_quiet : ¬gptSampleDevice.ReadFaulty := by
  rintro ⟨i, hi⟩
  simp [gptSampleDevice] at hi

end Zonix.Fat
