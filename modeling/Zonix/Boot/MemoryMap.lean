import Mathlib
import Zonix.Lib.Coalesce

/-!
# The boot memory map

`uefi_get_memory_map` of `boot/uefi_boot.cpp`: the firmware's descriptors are translated into the table of
`BootMemEntry` at `memory_map_pa`, and neighbours of one type are merged there in place.
-/

namespace Zonix.Boot

open Coalesce

/-- `BOOT_MEM_*` of `kernel/boot_info.h`. -/
inductive BootMemType where
  | available
  | reserved
  | acpi
  | nvs
  | bad
deriving DecidableEq, Repr

structure BootMemEntry where
  basePa : UInt64
  sizeBytes : UInt64
  type : BootMemType
deriving DecidableEq, Repr

structure BootInfo where
  lowerMemoryKib : UInt32
  upperMemoryKib : UInt32
  mmapCount : UInt32
  mmapPa : UInt64
deriving DecidableEq, Repr

structure EfiMemoryDescriptor where
  type : UInt32
  physicalStart : UInt64
  numberOfPages : UInt64
deriving DecidableEq, Repr

/-- The fields of `UefiBootConfig` that the memory map depends on. The table is counted in 32 bits. -/
structure UefiBootConfig where
  memoryMapPa : UInt64
  memoryMapCapacity : UInt64
  lowerMemoryKib : UInt32
  upperMemoryStartPa : UInt64
  capacity_lt : memoryMapCapacity.toNat < 2 ^ 32

def sizeofBootMemEntry : UInt64 := 20

def x86Config : UefiBootConfig := ⟨0x5100, (0x7000 - 0x5100) / sizeofBootMemEntry, 640, 0x100000, by decide⟩

def aarch64Config : UefiBootConfig :=
  ⟨0x40005100, (0x40007000 - 0x40005100) / sizeofBootMemEntry, 0, 0, by decide⟩

/-- The boards differ in `BOARD_KERNEL_PHYS`; the table lies between `BOARD_MMAP_ADDR` and the kernel. -/
def riscv64Config (kernelPhys : UInt64) : UefiBootConfig :=
  ⟨kernelPhys - 0x80000 + 0x100, (0x80000 - 0x100) / sizeofBootMemEntry, 0, 0, by decide⟩

abbrev EfiStatus := UInt64

def efiSuccess : EfiStatus := 0
def efiBufferTooSmall : EfiStatus := 0x8000000000000005

/-- `EFI_ERROR`: the top bit is set. -/
def efiError (status : EfiStatus) : Bool := decide (2 ^ 63 ≤ status.toNat)

/-- What the three calls to the firmware answer; `descriptors` are those of the second `GetMemoryMap`, found at
strides of `desc_size_bytes`. -/
structure Firmware where
  sizeStatus : EfiStatus
  allocateStatus : EfiStatus
  mapStatus : EfiStatus
  descriptors : List EfiMemoryDescriptor

structure BootState where
  info : BootInfo
  mmap : ℕ → BootMemEntry

def bootMemType (type : UInt32) : BootMemType :=
  if type = 7 ∨ type = 3 ∨ type = 4 then .available
  else if type = 9 then .acpi
  else if type = 10 then .nvs
  else if type = 8 then .bad
  else .reserved

def bootMemEntry (desc : EfiMemoryDescriptor) : BootMemEntry :=
  ⟨desc.physicalStart, desc.numberOfPages * 4096, bootMemType desc.type⟩

def translateDescriptor (c : UefiBootConfig) (desc : EfiMemoryDescriptor) (s : BootState) : BootState :=
  let e := bootMemEntry desc
  let upper :=
    if e.type = .available ∧ c.upperMemoryStartPa ≤ e.basePa then
      s.info.upperMemoryKib + (e.sizeBytes / 1024).toUInt32
    else s.info.upperMemoryKib
  { info := { s.info with upperMemoryKib := upper, mmapCount := s.info.mmapCount + 1 }
    mmap := Function.update s.mmap s.info.mmapCount.toNat e }

def translateDescriptors (c : UefiBootConfig) : List EfiMemoryDescriptor → BootState → BootState
  | [], s => s
  | desc :: rest, s =>
    if c.memoryMapCapacity.toNat ≤ s.info.mmapCount.toNat then s
    else translateDescriptors c rest (translateDescriptor c desc s)

/-- The merge loop from `i` on; `mmapCount` iterations are enough. -/
def mergeAdjacent (mmapCount : UInt32) : ℕ → UInt32 → UInt32 → (ℕ → BootMemEntry) → (ℕ → BootMemEntry) × UInt32
  | 0, _, merged, mmap => (mmap, merged)
  | fuel + 1, i, merged, mmap =>
    if i < mmapCount then
      let last := mmap (merged - 1).toNat
      let e := mmap i.toNat
      if 0 < merged ∧ last.type = e.type ∧ last.basePa + last.sizeBytes = e.basePa then
        mergeAdjacent mmapCount fuel (i + 1) merged
          (Function.update mmap (merged - 1).toNat { last with sizeBytes := last.sizeBytes + e.sizeBytes })
      else
        mergeAdjacent mmapCount fuel (i + 1) (merged + 1)
          (if merged ≠ i then Function.update mmap merged.toNat e else mmap)
    else (mmap, merged)

def mergeMap (s : BootState) : BootState :=
  let r := mergeAdjacent s.info.mmapCount s.info.mmapCount.toNat 0 0 s.mmap
  { info := { s.info with mmapCount := r.2 }, mmap := r.1 }

def uefiGetMemoryMap (c : UefiBootConfig) (fw : Firmware) (s : BootState) : EfiStatus × BootState :=
  if fw.sizeStatus ≠ efiBufferTooSmall then (fw.sizeStatus, s)
  else if efiError fw.allocateStatus then (fw.allocateStatus, s)
  else if efiError fw.mapStatus then (fw.mapStatus, s)
  else
    let info : BootInfo := ⟨c.lowerMemoryKib, 0, 0, c.memoryMapPa⟩
    (efiSuccess, mergeMap (translateDescriptors c fw.descriptors ⟨info, s.mmap⟩))

/-! ## The table -/

/-- The entries the kernel is told about, in order. -/
def BootState.entries (s : BootState) : List BootMemEntry := (List.range s.info.mmapCount.toNat).map s.mmap

def BootMemEntry.covered (e : BootMemEntry) : Multiset (ℕ × BootMemType) :=
  (Multiset.Ico e.basePa.toNat (e.basePa.toNat + e.sizeBytes.toNat)).map fun pa => (pa, e.type)

def EfiMemoryDescriptor.covered (desc : EfiMemoryDescriptor) : Multiset (ℕ × BootMemType) :=
  (Multiset.Ico desc.physicalStart.toNat (desc.physicalStart.toNat + desc.numberOfPages.toNat * 4096)).map fun pa =>
    (pa, bootMemType desc.type)

def EfiMemoryDescriptor.Unwrapped (desc : EfiMemoryDescriptor) : Prop :=
  desc.physicalStart.toNat + desc.numberOfPages.toNat * 4096 < 2 ^ 64

/-- The second entry is of the first one's type and starts at its end. -/
def Adjacent (first second : BootMemEntry) : Prop :=
  first.type = second.type ∧ first.basePa.toNat + first.sizeBytes.toNat = second.basePa.toNat

/-! ## Translation -/

theorem bootMemEntry_size {desc : EfiMemoryDescriptor} (h : desc.Unwrapped) :
    (bootMemEntry desc).sizeBytes.toNat = desc.numberOfPages.toNat * 4096 := by
  have hsize : desc.numberOfPages.toNat * 4096 < 2 ^ 64 := lt_of_le_of_lt (Nat.le_add_left _ _) h
  show (desc.numberOfPages * 4096).toNat = _
  rw [UInt64.toNat_mul]
  exact Nat.mod_eq_of_lt hsize

theorem bootMemEntry_covered {desc : EfiMemoryDescriptor} (h : desc.Unwrapped) :
    (bootMemEntry desc).covered = desc.covered := by
  rw [BootMemEntry.covered, bootMemEntry_size h]
  rfl

theorem toNat_succ {n : UInt32} (h : n.toNat + 1 < 2 ^ 32) : (n + 1).toNat = n.toNat + 1 := by
  rw [UInt32.toNat_add]
  exact Nat.mod_eq_of_lt h

theorem toNat_pred {n : UInt32} (h : 0 < n.toNat) : (n - 1).toNat = n.toNat - 1 :=
  UInt32.toNat_sub_of_le n 1 (UInt32.le_iff_toNat_le.2 h)

theorem translateDescriptors_entries (c : UefiBootConfig) {descs : List EfiMemoryDescriptor} {s : BootState}
    (h : s.info.mmapCount.toNat + descs.length ≤ c.memoryMapCapacity.toNat) :
    (translateDescriptors c descs s).entries = s.entries ++ descs.map bootMemEntry := by
  induction descs generalizing s with
  | nil => exact (List.append_nil _).symm
  | cons desc rest ih =>
    rw [List.length_cons] at h
    have hcap := c.capacity_lt
    have hcount : (s.info.mmapCount + 1).toNat = s.info.mmapCount.toNat + 1 := toNat_succ (by omega)
    have hentries : (translateDescriptor c desc s).entries = s.entries ++ [bootMemEntry desc] := by
      show (List.range (s.info.mmapCount + 1).toNat).map (Function.update s.mmap s.info.mmapCount.toNat _) = _
      rw [hcount, List.range_succ, List.map_append, List.map_singleton, Function.update_self]
      congr 1
      refine List.map_congr_left fun k hk => Function.update_of_ne ?_ _ _
      exact (List.mem_range.1 hk).ne
    have hnext : (translateDescriptor c desc s).info.mmapCount.toNat + rest.length ≤ c.memoryMapCapacity.toNat := by
      show (s.info.mmapCount + 1).toNat + rest.length ≤ _
      omega
    rw [translateDescriptors, if_neg (by omega), ih hnext, hentries, List.append_assoc]
    rfl

/-! ## The merge -/

def joinEntries (last e : BootMemEntry) : Option BootMemEntry :=
  if last.type = e.type ∧ last.basePa + last.sizeBytes = e.basePa then
    some { last with sizeBytes := last.sizeBytes + e.sizeBytes }
  else none

theorem joinEntries_eq_none {last e : BootMemEntry} :
    joinEntries last e = none ↔ ¬(last.type = e.type ∧ last.basePa + last.sizeBytes = e.basePa) := by
  rw [joinEntries]
  split
  · rename_i h
    exact iff_of_false nofun (not_not.2 h)
  · rename_i h
    exact iff_of_true rfl h

theorem mergeAdjacent_step {mmapCount i : UInt32} (hi : i < mmapCount) (n : ℕ) (merged : UInt32)
    (mmap : ℕ → BootMemEntry) :
    mergeAdjacent mmapCount (n + 1) i merged mmap =
      match if 0 < merged then joinEntries (mmap (merged - 1).toNat) (mmap i.toNat) else none with
      | some z => mergeAdjacent mmapCount n (i + 1) merged (Function.update mmap (merged - 1).toNat z)
      | none =>
        mergeAdjacent mmapCount n (i + 1) (merged + 1)
          (if merged ≠ i then Function.update mmap merged.toNat (mmap i.toNat) else mmap) := by
  rw [mergeAdjacent, if_pos hi]
  by_cases hpos : 0 < merged
  · rw [if_pos hpos, joinEntries]
    by_cases hj : (mmap (merged - 1).toNat).type = (mmap i.toNat).type ∧
        (mmap (merged - 1).toNat).basePa + (mmap (merged - 1).toNat).sizeBytes = (mmap i.toNat).basePa
    · rw [if_pos hj]
      exact if_pos ⟨hpos, hj⟩
    · rw [if_neg hj]
      exact if_neg fun h => hj h.2
  · rw [if_neg hpos]
    exact if_neg fun h => hpos h.1

theorem mergeAdjacent_compact {mmapCount : UInt32} {n : ℕ} {i merged : UInt32} {mmap : ℕ → BootMemEntry}
    (hi : i.toNat + n = mmapCount.toNat) (hm : merged.toNat ≤ i.toNat) :
    (mergeAdjacent mmapCount n i merged mmap).1 = (compact joinEntries n i.toNat merged.toNat mmap).1 ∧
      (mergeAdjacent mmapCount n i merged mmap).2.toNat = (compact joinEntries n i.toNat merged.toNat mmap).2 := by
  induction n generalizing i merged mmap with
  | zero => exact ⟨rfl, rfl⟩
  | succ n ih =>
    have hcount := mmapCount.toNat_lt
    have hi' : (i + 1).toNat = i.toNat + 1 := toNat_succ (by omega)
    have hm' : (merged + 1).toNat = merged.toNat + 1 := toNat_succ (by omega)
    have hjoin : (if 0 < merged then joinEntries (mmap (merged - 1).toNat) (mmap i.toNat) else none) =
        if 0 < merged.toNat then joinEntries (mmap (merged.toNat - 1)) (mmap i.toNat) else none := by
      refine if_ctx_congr UInt32.lt_iff_toNat_lt (fun hpos => ?_) fun _ => rfl
      rw [toNat_pred hpos]
    have hne : merged ≠ i ↔ merged.toNat ≠ i.toNat := not_congr UInt32.toNat_inj.symm
    rw [mergeAdjacent_step (UInt32.lt_iff_toNat_lt.2 (by omega)), compact, hjoin]
    cases hz : if 0 < merged.toNat then joinEntries (mmap (merged.toNat - 1)) (mmap i.toNat) else none with
    | none =>
      simp only [hne, ← hi', ← hm']
      exact ih (by omega) (by omega)
    | some z =>
      have hpos : 0 < merged.toNat := by
        by_contra hnot
        rw [if_neg hnot] at hz
        cases hz
      simp only [toNat_pred hpos, ← hi']
      exact ih (by omega) (by omega)

/-- The end of the entry is a 64-bit address. -/
def BootMemEntry.Unwrapped (e : BootMemEntry) : Prop := e.basePa.toNat + e.sizeBytes.toNat < 2 ^ 64

theorem joinEntries_covered (last e z : BootMemEntry) (hlast : last.Unwrapped) (he : e.Unwrapped)
    (hz : joinEntries last e = some z) : z.Unwrapped ∧ z.covered = last.covered + e.covered := by
  rw [joinEntries] at hz
  split at hz
  · rename_i hj
    obtain ⟨htype, hend⟩ := hj
    have hadj : last.basePa.toNat + last.sizeBytes.toNat = e.basePa.toNat := by
      rw [← hend, UInt64.toNat_add]
      exact (Nat.mod_eq_of_lt hlast).symm
    have hsize : (last.sizeBytes + e.sizeBytes).toNat = last.sizeBytes.toNat + e.sizeBytes.toNat := by
      rw [BootMemEntry.Unwrapped] at he
      rw [UInt64.toNat_add]
      exact Nat.mod_eq_of_lt (by omega)
    have hrange : last.basePa.toNat + (last.sizeBytes + e.sizeBytes).toNat = e.basePa.toNat + e.sizeBytes.toNat := by
      omega
    obtain rfl := Option.some.inj hz
    refine ⟨?_, ?_⟩
    · rw [BootMemEntry.Unwrapped, hrange]
      exact he
    · simp only [BootMemEntry.covered]
      rw [hrange, hadj, ← htype, ← Multiset.map_add, Multiset.Ico_add_Ico_eq_Ico (by omega) (by omega)]
  · cases hz

theorem mergeMap_entries (s : BootState) :
    (mergeMap s).entries = (s.entries.foldl (push joinEntries) []).reverse := by
  obtain ⟨hmmap, hmerged⟩ : (mergeMap s).mmap = (compact joinEntries s.info.mmapCount.toNat 0 0 s.mmap).1 ∧
      (mergeMap s).info.mmapCount.toNat = (compact joinEntries s.info.mmapCount.toNat 0 0 s.mmap).2 :=
    mergeAdjacent_compact (Nat.zero_add _) (Nat.zero_le _)
  rw [BootState.entries, hmmap, hmerged, ← reverse_held, compact_held le_rfl, BootState.entries, List.range_eq_range']
  rfl

theorem joinEntries_headStable : HeadStable joinEntries := by
  intro y x w z hz hnone
  rw [joinEntries] at hz
  split at hz
  · obtain rfl := Option.some.inj hz
    rw [joinEntries_eq_none] at hnone ⊢
    exact hnone
  · cases hz

theorem joinEntries_none {first second : BootMemEntry} (h : joinEntries first second = none) :
    ¬Adjacent first second := by
  rintro ⟨htype, hend⟩
  have hpa : first.basePa + first.sizeBytes = second.basePa := by
    rw [← UInt64.toNat_inj, UInt64.toNat_add, hend]
    exact Nat.mod_eq_of_lt second.basePa.toNat_lt
  exact joinEntries_eq_none.1 h ⟨htype, hpa⟩

/-! ## The whole map -/

/-- The firmware handed out its descriptors. -/
structure Firmware.Answers (fw : Firmware) : Prop where
  size : fw.sizeStatus = efiBufferTooSmall
  allocate : efiError fw.allocateStatus = false
  map : efiError fw.mapStatus = false

/-- The table stands for the same memory as the descriptors, and nothing is left to merge. -/
structure Merged (descs : List EfiMemoryDescriptor) (table : List BootMemEntry) : Prop where
  covered : (table.map BootMemEntry.covered).sum = (descs.map EfiMemoryDescriptor.covered).sum
  length : table.length ≤ descs.length
  apart : table.IsChain fun first second => ¬Adjacent first second

theorem merged_foldl {descs : List EfiMemoryDescriptor} (hwrap : ∀ desc ∈ descs, desc.Unwrapped) :
    Merged descs ((descs.map bootMemEntry).foldl (push joinEntries) []).reverse := by
  have hunwrapped : ∀ e ∈ descs.map bootMemEntry, e.Unwrapped := by
    intro e he
    obtain ⟨desc, hdesc, rfl⟩ := List.mem_map.1 he
    rw [BootMemEntry.Unwrapped, bootMemEntry_size (hwrap desc hdesc)]
    exact hwrap desc hdesc
  refine ⟨?_, ?_, ?_⟩
  · rw [List.map_reverse, List.sum_reverse, foldl_push_sum joinEntries_covered (List.forall_mem_nil _) hunwrapped,
      List.map_nil, List.sum_nil, zero_add, List.map_map]
    refine congrArg List.sum (List.map_congr_left fun desc hdesc => ?_)
    exact bootMemEntry_covered (hwrap desc hdesc)
  · have hle : ((descs.map bootMemEntry).foldl (push joinEntries) []).length ≤ 0 + (descs.map bootMemEntry).length :=
      length_foldl_push_le _ []
    rw [Nat.zero_add, List.length_map] at hle
    rw [List.length_reverse]
    exact hle
  · rw [List.isChain_reverse]
    refine (foldl_push_apart joinEntries_headStable List.isChain_nil _).imp ?_
    exact fun _ _ h => joinEntries_none h

theorem memory_map_merged (c : UefiBootConfig) (fw : Firmware) (s : BootState) (hfw : fw.Answers)
    (hcap : fw.descriptors.length ≤ c.memoryMapCapacity.toNat) (hwrap : ∀ desc ∈ fw.descriptors, desc.Unwrapped) :
    (uefiGetMemoryMap c fw s).1 = efiSuccess ∧ Merged fw.descriptors (uefiGetMemoryMap c fw s).2.entries := by
  rw [uefiGetMemoryMap, if_neg (not_not.2 hfw.size), if_neg (by rw [hfw.allocate]; decide),
    if_neg (by rw [hfw.map]; decide)]
  refine ⟨rfl, ?_⟩
  have hfilled : (translateDescriptors c fw.descriptors ⟨⟨c.lowerMemoryKib, 0, 0, c.memoryMapPa⟩, s.mmap⟩).entries =
      [] ++ fw.descriptors.map bootMemEntry :=
    translateDescriptors_entries c (by rw [← Nat.zero_add fw.descriptors.length] at hcap; exact hcap)
  rw [mergeMap_entries, hfilled, List.nil_append]
  exact merged_foldl hwrap

/-- Boot services code and conventional memory side by side, then ACPI tables. -/
def threeDescriptors : Firmware :=
  ⟨efiBufferTooSmall, efiSuccess, efiSuccess, [⟨3, 0x100000, 0x10⟩, ⟨7, 0x110000, 0x20⟩, ⟨9, 0x130000, 1⟩]⟩

def blankState : BootState := ⟨⟨0, 0, 0, 0⟩, fun _ => ⟨0, 0, .reserved⟩⟩

example : (uefiGetMemoryMap x86Config threeDescriptors blankState).2.entries =
    [⟨0x100000, 0x30000, .available⟩, ⟨0x130000, 0x1000, .acpi⟩] := by decide

theorem memory_map_merged_threeDescriptors :
    (uefiGetMemoryMap x86Config threeDescriptors blankState).1 = efiSuccess ∧
      Merged threeDescriptors.descriptors (uefiGetMemoryMap x86Config threeDescriptors blankState).2.entries :=
  memory_map_merged x86Config threeDescriptors blankState ⟨rfl, by decide, by decide⟩ (by decide)
    (by unfold EfiMemoryDescriptor.Unwrapped; decide)

end Zonix.Boot
