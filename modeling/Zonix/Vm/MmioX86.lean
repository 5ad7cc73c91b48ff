import Mathlib
import Zonix.Vm.MmioInv

/-!
# The device window of x86-64

The tables that `arch/x86/kernel/head.S` sets up leave the last entry of `__boot_pdpt_high` empty, which is the whole
window from `KERNEL_DEVIO_BASE` to the end of the address space.
-/

namespace Zonix.Vm

open Zonix.Lib
open Zonix.Lib.Radix

variable {pgdir pdpt : ℕ} {m : Pmm} {s : Mmio}

/-- The kernel's tables after `vmm::init`: `PML4[511]` has `__boot_pdpt_high`, which has `__boot_pd_high` at 510 and
nothing at 511. -/
structure X86Booted (pgdir pdpt : ℕ) (m : Pmm) : Prop where
  tree : Tree .x86 (fun k w => Arch.x86.WellFormed w k) m 3 pgdir
  tight : Tight Arch.x86.tableOf m.mem 3 (fun _ => False) pgdir
  nodup : m.free.Nodup
  unused : ∀ t ∈ m.free, t < m.pageCount ∧ m.refCount t = 0
  count : m.pageCount ≤ 2 ^ 32
  pml4 : Arch.x86.tableOf (m.mem pgdir 511) = some pdpt
  high : m.mem pdpt 510 ≠ 0
  window : m.mem pdpt 511 = 0

theorem x86_window_index {va : ℕ} (h1 : Arch.x86.kernelDevioBase ≤ va) (h2 : va < 2 ^ 64) :
    levelIndex va 3 = 511 ∧ levelIndex va 2 = 511 := by
  have hbase : Arch.x86.kernelDevioBase = 0xFFFFFFFFC0000000 := rfl
  rw [hbase] at h1
  constructor <;> apply Fin.ext <;> rw [levelIndex_val] <;> simp only [levelShift] <;> norm_num <;> omega

theorem X86Booted.entry_none (hb : X86Booted pgdir pdpt m) {p : ℕ → Fin 512} (hp : p 3 = 511 ∧ p 2 = 511) :
    kernelEntry .x86 pgdir m p = none := by
  show content Arch.x86.tableOf m.mem p 3 pgdir = none
  rw [content_child (g := pdpt) (by rw [hp.1]; exact hb.pml4),
    content_end (by rw [hp.2, hb.window]; exact tableOf_zero _), hp.2, if_pos hb.window]

theorem X86Booted.inv (hb : X86Booted pgdir pdpt m) : MmioInv .x86 (2 ^ 64) pgdir ⟨m, some pgdir, []⟩ := by
  have hwin : ∀ p, DevWindow .x86 (2 ^ 64) p → p 3 = 511 ∧ p 2 = 511 := by
    rintro p ⟨va, h1, h2, rfl⟩
    exact x86_window_index h1 h2
  refine ⟨rfl, ⟨hb.tree, ⟨hb.nodup, fun t ht => lt_of_lt_of_le (hb.unused t ht).1 hb.count⟩, hb.unused, hb.count,
    hb.tight, fun p hp => ?_, fun p hp e he => ?_⟩, trivial, fun x hx => absurd hx List.not_mem_nil,
    fun va h1 h2 _ => hb.entry_none (x86_window_index h1 h2), List.nodup_nil, fun x hx => absurd hx List.not_mem_nil⟩
  · intro g hg
    rw [(hwin p hp).1, hb.pml4] at hg
    obtain rfl := Option.some.inj hg
    refine ⟨Or.inr ⟨510, hb.high, fun q hq h510 => ?_⟩, fun g' hg' => ?_⟩
    · rw [(hwin q hq).2] at h510
      exact absurd h510 (by decide)
    · rw [(hwin p hp).2, hb.window, tableOf_zero] at hg'
      cases hg'
  · rw [hb.entry_none (hwin p hp)] at he
    cases he

/-- What a client of the allocator can see is as before. -/
structure Unchanged (a : Arch) (pgdir : ℕ) (s s' : Mmio) : Prop where
  translate : ∀ va, translate a s'.pmm.mem pgdir va = translate a s.pmm.mem pgdir va
  mappings : s'.mappings = s.mappings
  free : s'.pmm.free.card = s.pmm.free.card

theorem MmioAnswer.unchanged {a : Arch} {hi pa byteCount : ℕ} {perm : VmFlags} {r : Except Error MmioMapping × Mmio}
    (h : MmioAnswer a hi pgdir pa byteCount perm s r) :
    (∀ e, r.1 = .error e → Unchanged a pgdir s r.2) ∧ ∀ x, r.1 = .ok x → Unchanged a pgdir s (r.2.release a x) := by
  cases h with
  | failed e s' _ hlist hback _ =>
    refine ⟨fun _ _ => ⟨hback.translate, hlist, hback.free⟩, fun x hx => ?_⟩
    cases hx
  | mapped x s' _ _ _ _ _ _ _ _ _ _ hundone hback =>
    refine ⟨fun e he => ?_, fun y hy => ?_⟩
    · cases he
    · cases hy
      exact ⟨hback.translate, hundone, hback.free⟩

/-- A request that fails leaves everything as it was, and so does one that succeeds and is released. -/
theorem map_mmio_rolls_back (hb : X86Booted pgdir pdpt m)
    (hs : MmioReach .x86 (fun _ _ _ => True) ⟨m, some pgdir, []⟩ s) (E : Env) (pa byteCount : ℕ) (perm : VmFlags) :
    (∀ e, (s.map .x86 E pa byteCount perm).1 = .error e → Unchanged .x86 pgdir s (s.map .x86 E pa byteCount perm).2) ∧
      ∀ x, (s.map .x86 E pa byteCount perm).1 = .ok x →
        Unchanged .x86 pgdir s ((s.map .x86 E pa byteCount perm).2.release .x86 x) := by
  have hwidth : (2 : ℕ) ^ 64 ≤ Arch.x86.kernelDevioBase + 2 ^ 30 := by decide
  obtain ⟨hI, -⟩ := hs.inv hwidth (fun _ _ _ _ h => Nat.le_of_lt h) hb.inv
  exact (hI.map E pa byteCount perm hwidth fun h => Nat.le_of_lt h).unchanged

/-! ## The boot tables -/

/-- The tables of `head.S`, with `__kernel_pg_dir` in frame 1. -/
def bootTables : Heap 512 Word := fun f i =>
  if f = 1 then (if i = 0 then 0x2003 else if i = 511 then 0x3003 else 0)
  else if f = 2 then (if i = 0 then 0x4003 else 0)
  else if f = 3 then (if i = 510 then 0x5003 else 0)
  else if f = 4 ∨ f = 5 then BitVec.ofNat 64 (i.val * 0x200000 + 0x83)
  else 0

def bootPmm (free : Multiset ℕ) : Pmm where
  mem := bootTables
  free := free
  refCount _ := 0
  pageTable _ := false
  reserved f := decide (f < 6)
  blockPages _ := 0
  pageCount := 32
  clock := 0
  panicked := false

theorem bootTables_above :
    (∀ i, Arch.x86.tableOf (bootTables 1 i) = if i = 0 then some 2 else if i = 511 then some 3 else none) ∧
      (∀ i, Arch.x86.tableOf (bootTables 2 i) = if i = 0 then some 4 else none) ∧
      (∀ i, Arch.x86.tableOf (bootTables 3 i) = if i = 510 then some 5 else none) ∧
      ∀ f, f = 1 ∨ f = 2 ∨ f = 3 → ∀ i k, Arch.x86.WellFormed (bootTables f i) k := by
  refine ⟨by decide +kernel, by decide +kernel, by decide +kernel, ?_⟩
  have hall : ∀ f < 4, ∀ i, (Arch.x86.ptePresent (bootTables f i) && Arch.x86.pteIsBlock (bootTables f i)) = false := by
    decide +kernel
  intro f hf i k hp hb
  have := hall f (by omega) i
  rw [hp, hb] at this
  cases this

theorem bootTables_large {f : ℕ} (hf : f = 4 ∨ f = 5) (i : Fin 512) :
    Arch.x86.tableOf (bootTables f i) = none ∧ Arch.x86.WellFormed (bootTables f i) 1 := by
  have hw : bootTables f i = BitVec.ofNat 64 (i.val * 0x200000 + 0x83) := by
    obtain rfl | rfl := hf <;> rfl
  have hall : ∀ i : Fin 512, Arch.x86.tableOf (BitVec.ofNat 64 (i.val * 0x200000 + 0x83)) = none ∧
      Arch.x86.pteAddr (BitVec.ofNat 64 (i.val * 0x200000 + 0x83)) &&& ~~~X86.ptePatLarge =
        Arch.x86.leafBase (BitVec.ofNat 64 (i.val * 0x200000 + 0x83)) 1 := by
    decide +kernel
  rw [hw]
  exact ⟨(hall i).1, fun _ _ _ => ⟨by decide, (hall i).2⟩⟩

theorem nodes_bootTables : nodes Arch.x86.tableOf bootTables 3 1 = {1} + (({2} + {4}) + ({3} + {5})) := by
  obtain ⟨h1, h2, h3, -⟩ := bootTables_above
  have hlow : nodes Arch.x86.tableOf bootTables 2 2 = {2} + {4} := by
    rw [nodes_only (i := 0) (g := 4) (by rw [h2, if_pos rfl]) fun k hk => by rw [h2, if_neg hk],
      nodes_bare fun i => (bootTables_large (Or.inl rfl) i).1]
  have hhigh : nodes Arch.x86.tableOf bootTables 2 3 = {3} + {5} := by
    rw [nodes_only (i := 510) (g := 5) (by rw [h3, if_pos rfl]) fun k hk => by rw [h3, if_neg hk],
      nodes_bare fun i => (bootTables_large (Or.inr rfl) i).1]
  rw [nodes_two (i := 0) (j := 511) (g := 2) (by decide) (by rw [h1, if_pos rfl])
    (by rw [h1, if_neg (by decide), if_pos rfl]) fun k hk hk' => by rw [h1, if_neg hk, if_neg hk'], hlow, hhigh]

theorem bootTables_tight : Inner Arch.x86.tableOf (fun k w => Arch.x86.WellFormed w k) bootTables 3 1 ∧
    Tight Arch.x86.tableOf bootTables 3 (fun _ => False) 1 := by
  obtain ⟨h1, h2, h3, hwf⟩ := bootTables_above
  have hleaf : ∀ f, f = 4 ∨ f = 5 → Inner Arch.x86.tableOf (fun k w => Arch.x86.WellFormed w k) bootTables 1 f ∧
      ∀ off, Tight Arch.x86.tableOf bootTables 1 off f := by
    intro f hf
    refine ⟨inner_bare (fun _ i => (bootTables_large hf i).1) fun _ i => (bootTables_large hf i).2, fun off i g hg => ?_⟩
    rw [(bootTables_large hf i).1] at hg
    cases hg
  have hmid : ∀ f, f = 2 ∨ f = 3 → Inner Arch.x86.tableOf (fun k w => Arch.x86.WellFormed w k) bootTables 2 f ∧
      ∀ off, Tight Arch.x86.tableOf bootTables 2 off f := by
    intro f hf
    have hchild : ∀ i g, Arch.x86.tableOf (bootTables f i) = some g → g = 4 ∨ g = 5 := by
      intro i g hg
      obtain rfl | rfl := hf
      · rw [h2] at hg
        split at hg
        · exact Or.inl (Option.some.inj hg).symm
        · cases hg
      · rw [h3] at hg
        split at hg
        · exact Or.inr (Option.some.inj hg).symm
        · cases hg
    refine ⟨fun i => ⟨hwf f (Or.inr hf) i 2, fun g hg => (hleaf g (hchild i g hg)).1⟩, fun off i g hg =>
      ⟨Or.inl ⟨0, ?_⟩, (hleaf g (hchild i g hg)).2 _⟩⟩
    obtain rfl | rfl := hchild i g hg <;> decide +kernel
  have hroot : ∀ i g, Arch.x86.tableOf (bootTables 1 i) = some g → g = 2 ∨ g = 3 := by
    intro i g hg
    rw [h1] at hg
    split at hg
    · exact Or.inl (Option.some.inj hg).symm
    · split at hg
      · exact Or.inr (Option.some.inj hg).symm
      · cases hg
  refine ⟨fun i => ⟨hwf 1 (Or.inl rfl) i 3, fun g hg => (hmid g (hroot i g hg)).1⟩, fun i g hg =>
    ⟨Or.inl ?_, (hmid g (hroot i g hg)).2 _⟩⟩
  obtain rfl | rfl := hroot i g hg
  · exact ⟨0, by decide +kernel⟩
  · exact ⟨510, by decide +kernel⟩

theorem x86_booted (free : Multiset ℕ) (hnd : free.Nodup) (hfree : ∀ t ∈ free, 6 ≤ t ∧ t < 32) :
    X86Booted 1 3 (bootPmm free) := by
  obtain ⟨hinner, htight⟩ := bootTables_tight
  have hmem : (bootPmm free).mem = bootTables := rfl
  have hcount : (bootPmm free).pageCount = 32 := rfl
  refine ⟨⟨?_, hinner, fun g hg hf => ?_⟩, htight, hnd, fun t ht => ⟨(hfree t ht).2, rfl⟩, ?_, ?_, ?_, ?_⟩
  · rw [hmem, nodes_bootTables]
    decide
  · rw [hmem, nodes_bootTables] at hg
    have := (hfree g hf).1
    simp only [Multiset.mem_add, Multiset.mem_singleton] at hg
    omega
  · rw [hcount]
    norm_num
  · rw [hmem]
    decide +kernel
  · rw [hmem]
    decide +kernel
  · rw [hmem]
    decide +kernel

theorem map_mmio_rolls_back_boot :
    (Mmio.map .x86 bump 0xFEBC0010 0x20 ⟨true, false, true, true⟩ ⟨bootPmm {10, 11}, some 1, []⟩).1 = .error .noMem ∧
      Unchanged .x86 1 ⟨bootPmm {10, 11}, some 1, []⟩
        (Mmio.map .x86 bump 0xFEBC0010 0x20 ⟨true, false, true, true⟩ ⟨bootPmm {10, 11}, some 1, []⟩).2 :=
  ⟨rfl, (map_mmio_rolls_back (x86_booted {10, 11} (by decide) (by decide)) .start bump 0xFEBC0010 0x20
    ⟨true, false, true, true⟩).1 .noMem rfl⟩

end Zonix.Vm
