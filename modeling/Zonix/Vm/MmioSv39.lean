import Mathlib
import Zonix.Vm.MmioInv

/-!
# The device window of Sv39

The window starts 1 GiB above `KERNEL_BASE` (`arch/riscv64/include/asm/memlayout.h`), and 1 GiB above it `head.S` maps
RAM by a gigapage. Nothing bounds the window there.
-/

namespace Zonix.Vm

open Zonix.Lib
open Zonix.Lib.Radix

variable {a : Arch} {pgdir va : ℕ} {m m' : Pmm} {s : Mmio}

/-! ## The assertion of `map` -/

variable {l f pa : ℕ} {perm : VmFlags}

theorem translateWith_absent (lim : Word → Limits) {h : Heap 512 Word} {e : ℕ × Fin 512}
    (hs : slot a.tableOf h (levelIndex va) l f = some e) (habs : a.ptePresent (h e.1 e.2) = false) :
    translateWith a lim h va l f = none := by
  induction l generalizing f with
  | zero =>
    cases hs
    rw [translateWith]
    simp only [habs]
    rfl
  | succ l ih =>
    cases hg : a.tableOf (h f (levelIndex va (l + 1))) with
    | none => simp [slot, hg] at hs
    | some g =>
      simp only [slot, hg, Option.elim_some] at hs
      rw [translateWith_child hg, ih hs]
      rfl

theorem getPte_present (E : Env) (hT : Tree a (fun k w => a.WellFormed w k) m (a.ptWalkLevels - 1) pgdir) (hP : Pool m)
    (htr : translate a m.mem pgdir va ≠ none) {e : ℕ × Fin 512} (h : (getPte a E pgdir va true m).1 = some e) :
    a.ptePresent ((getPte a E pgdir va true m).2.mem e.1 e.2) = true := by
  obtain ⟨new, hw⟩ := getPteFrom_walked (shape_wellFormed a) E va hT hP
  rw [← getPte] at hw
  by_contra hne
  rw [Bool.not_eq_true] at hne
  apply htr
  rw [← translateWith_absent a.limits (hw.found e h) hne]
  exact (hw.same a.limits (neutral_limits a) va).symm

theorem getPteFrom_panicked (a : Arch) (E : Env) (va l f : ℕ) (m : Pmm) : (getPteFrom a E true va l f m).2.panicked = m.panicked := by
  induction l generalizing f m with
  | zero => rfl
  | succ l ih =>
    obtain ⟨g, -, hd⟩ | ⟨-, hd | ⟨t, -, hd⟩⟩ := descendLevel_cases a E (f, levelIndex va (l + 1)) l m
    · rw [getPteFrom, hd]
      exact ih g m
    · rw [getPteFrom, hd]
    · rw [getPteFrom, hd]
      exact ih t _

theorem mapPages_panicked (E : Env) (pa : ℕ) (perm : VmFlags) (n mapped : ℕ) (h : m.panicked = true) :
    (mapPages a E pgdir va pa perm n mapped m).2.panicked = true := by
  induction n generalizing mapped m with
  | zero => exact h
  | succ n ih =>
    have hget := getPteFrom_panicked a E (va + mapped) (a.ptWalkLevels - 1) pgdir m
    rw [← getPte, h] at hget
    rw [mapPages]
    generalize getPte a E pgdir (va + mapped) true m = r at hget ⊢
    obtain ⟨_ | e, m₁⟩ := r
    · exact hget
    · apply ih
      show (m₁.panicked || _) = true
      rw [show m₁.panicked = true from hget, Bool.true_or]

theorem mapPages_add (E : Env) (pa : ℕ) (perm : VmFlags) (n k mapped : ℕ) (m : Pmm) :
    mapPages a E pgdir va pa perm (n + k) mapped m =
      match mapPages a E pgdir va pa perm n mapped m with
      | (none, m) => mapPages a E pgdir va pa perm k (mapped + n * pgSize) m
      | (some x, m) => (some x, m) := by
  induction n generalizing mapped m with
  | zero =>
    rw [Nat.zero_add, Nat.zero_mul, Nat.add_zero]
    rfl
  | succ n ih =>
    rw [show n + 1 + k = n + k + 1 by omega, mapPages, mapPages]
    generalize getPte a E pgdir (va + mapped) true m = r
    obtain ⟨_ | e, m₁⟩ := r
    · rfl
    · simp only
      rw [ih, show mapped + pgSize + n * pgSize = mapped + (n + 1) * pgSize by ring]

theorem mapPages_collides (E : Env) (pa : ℕ) (perm : VmFlags) (n mapped : ℕ)
    (hT : Tree a (fun k w => a.WellFormed w k) m (a.ptWalkLevels - 1) pgdir) (hP : Pool m)
    (htr : translate a m.mem pgdir (va + mapped) ≠ none)
    (hdone : (mapPages a E pgdir va pa perm (n + 1) mapped m).1 = none) :
    (mapPages a E pgdir va pa perm (n + 1) mapped m).2.panicked = true := by
  have hpres := fun e => getPte_present (e := e) E hT hP htr
  rw [mapPages] at hdone ⊢
  generalize getPte a E pgdir (va + mapped) true m = r at hpres hdone ⊢
  obtain ⟨_ | e, m₁⟩ := r
  · cases hdone
  · apply mapPages_panicked
    show (m₁.panicked || a.ptePresent (m₁.mem e.1 e.2)) = true
    rw [hpres e rfl, Bool.or_true]

theorem map_ok {E : Env} {byteCount : ℕ} {x : MmioMapping} (hroot : s.kernelPgdir = some pgdir)
    (h : (s.map a E pa byteCount perm).1 = .ok x) :
    byteCount ≠ 0 ∧ ∃ r ∈ s.pmm.free, ∃ n,
      mapPages a E pgdir (mmioFit a pa byteCount s) (pa - pa % pgSize) { perm with noexec := true }
        (mmioSpan pa byteCount / pgSize) 0 (s.pmm.withRecord r) = (none, n) ∧
      (s.map a E pa byteCount perm).2.pmm = n := by
  rw [Mmio.map] at h ⊢
  split at h
  · cases h
  split at h
  · cases h
  split at h
  · cases h
  split at h
  · cases h
  rename_i hne huser hsize hend
  rw [if_neg hne, if_neg huser, if_neg hsize, if_neg hend]
  refine ⟨hne, ?_⟩
  obtain hno | ⟨r, hr, hget⟩ := kmalloc_record E s.pmm
  · rw [hno] at h
    cases h
  · rw [hget] at h ⊢
    simp only at h ⊢
    rw [Mmio.mapRecord_eq E r pa byteCount _ _ hroot] at h ⊢
    by_cases hover : 2 ^ 64 ≤ mmioFit a pa byteCount s + mmioSpan pa byteCount
    · rw [if_pos hover] at h
      cases h
    · rw [if_neg hover] at h ⊢
      refine ⟨r, hr, ?_⟩
      generalize mapPages a E pgdir _ _ _ _ 0 (s.pmm.withRecord r) = res at h ⊢
      obtain ⟨_ | mapped, n⟩ := res
      · exact ⟨n, rfl, rfl⟩
      · cases h

/-! ## The layout -/

/-- Where `head.S` maps RAM: `PGD[258]`, 2 GiB above `KERNEL_BASE`. -/
def sv39DirectMap : ℕ := 0xFFFFFFC000000000 + 0x80000000

/-- The addresses of that gigapage. -/
def InDirectMap (va : ℕ) : Prop := sv39DirectMap ≤ va ∧ va < sv39DirectMap + 0x40000000

/-- The kernel's tables after `vmm::init` on a board with RAM at 0x80000000. -/
structure Sv39Booted (pgdir : ℕ) (m : Pmm) : Prop where
  tree : Tree .riscv64 (fun k w => Arch.riscv64.WellFormed w k) m 2 pgdir
  tight : Tight Arch.riscv64.tableOf m.mem 2 (fun _ => False) pgdir
  nodup : m.free.Nodup
  unused : ∀ t ∈ m.free, t < m.pageCount ∧ m.refCount t = 0
  count : m.pageCount ≤ 2 ^ 32
  window : m.mem pgdir 257 = 0
  dram : m.mem pgdir 258 = 0x200000CF
  quiet : m.panicked = false

theorem sv39_window_index (h1 : Arch.riscv64.kernelDevioBase ≤ va) (h2 : va < sv39DirectMap) : levelIndex va 2 = 257 := by
  have hbase : Arch.riscv64.kernelDevioBase = 0xFFFFFFC040000000 := rfl
  have hend : sv39DirectMap = 0xFFFFFFC080000000 := rfl
  rw [hbase] at h1
  rw [hend] at h2
  apply Fin.ext
  rw [levelIndex_val]
  simp only [levelShift]
  norm_num
  omega

theorem Sv39Booted.entry_none (hb : Sv39Booted pgdir m) {p : ℕ → Fin 512} (hp : p 2 = 257) :
    kernelEntry .riscv64 pgdir m p = none := by
  show content Arch.riscv64.tableOf m.mem p 2 pgdir = none
  rw [content_end (by rw [hp, hb.window]; exact tableOf_zero _), hp, if_pos hb.window]

theorem Sv39Booted.inv (hb : Sv39Booted pgdir m) : MmioInv .riscv64 sv39DirectMap pgdir ⟨m, some pgdir, []⟩ := by
  have hwin : ∀ p, DevWindow .riscv64 sv39DirectMap p → p 2 = 257 := by
    rintro p ⟨va, h1, h2, rfl⟩
    exact sv39_window_index h1 h2
  refine ⟨rfl, ⟨hb.tree, ⟨hb.nodup, fun t ht => lt_of_lt_of_le (hb.unused t ht).1 hb.count⟩, hb.unused, hb.count,
    hb.tight, fun p hp => ?_, fun p hp e he => ?_⟩, trivial, fun x hx => absurd hx List.not_mem_nil,
    fun va h1 h2 _ => hb.entry_none (sv39_window_index h1 h2), List.nodup_nil, fun x hx => absurd hx List.not_mem_nil⟩
  · intro g hg
    rw [hwin p hp, hb.window, tableOf_zero] at hg
    cases hg
  · rw [hb.entry_none (hwin p hp)] at he
    cases he

theorem Sv39Booted.translate_dram (hb : Sv39Booted pgdir m) : translate .riscv64 m.mem pgdir sv39DirectMap ≠ none := by
  have hidx : levelIndex sv39DirectMap 2 = 258 := by decide +kernel
  have hnone : Arch.riscv64.tableOf (0x200000CF : Word) = none := by decide +kernel
  have hpres : Arch.riscv64.ptePresent (0x200000CF : Word) = true := by decide +kernel
  show translateWith .riscv64 Arch.riscv64.limits m.mem sv39DirectMap 2 pgdir ≠ none
  rw [translateWith_missing (by rw [hidx, hb.dram]; exact hnone), hidx, hb.dram, if_pos hpres]
  exact Option.some_ne_none _

theorem not_samePage_direct {y : ℕ} (h1 : Arch.riscv64.kernelDevioBase ≤ y) (h2 : y < sv39DirectMap) :
    ¬SamePage .riscv64 y sv39DirectMap := by
  intro h
  have hidx : levelIndex sv39DirectMap 2 = 258 := by decide +kernel
  have := h 2 (by decide)
  rw [sv39_window_index h1 h2, hidx] at this
  exact absurd this (by decide)

/-! ## Requests and the direct map -/

/-- The pages that a request is given end at or below the direct map. -/
def EndsBelow (s : Mmio) (pa byteCount : ℕ) : Prop :=
  mmioFit .riscv64 pa byteCount s + mmioSpan pa byteCount ≤ sv39DirectMap

theorem sv39_width : sv39DirectMap ≤ Arch.riscv64.kernelDevioBase + 2 ^ 30 := by decide

theorem MmioInv.fit_le (hI : MmioInv .riscv64 sv39DirectMap pgdir s) (pa byteCount : ℕ) :
    Arch.riscv64.kernelDevioBase ≤ mmioFit .riscv64 pa byteCount s ∧
      mmioFit .riscv64 pa byteCount s ≤ sv39DirectMap ∧ pgSize ∣ mmioFit .riscv64 pa byteCount s ∧
      ∀ x ∈ s.mappings, x.va + x.span ≤ mmioFit .riscv64 pa byteCount s ∨
        mmioFit .riscv64 pa byteCount s + mmioSpan pa byteCount ≤ x.va := by
  obtain ⟨hlo, hdvd, hat, hapart, -⟩ := firstFit_spec (mmioSpan pa byteCount) hI.ordered
    (kernelDevioBase_aligned _).1 (kernelDevioBase_aligned _).2
  rw [← mmioFit] at hlo hdvd hat hapart
  refine ⟨hlo, ?_, hdvd, hapart⟩
  obtain hat | ⟨x, hx, hat⟩ := hat
  · rw [hat]
    decide
  · rw [hat]
    exact hI.below x hx

theorem MmioInv.map_collides {E : Env} {byteCount : ℕ} {x : MmioMapping}
    (hI : MmioInv .riscv64 sv39DirectMap pgdir s) (htr : translate .riscv64 s.pmm.mem pgdir sv39DirectMap ≠ none)
    (hnot : ¬EndsBelow s pa byteCount) (h : (s.map .riscv64 E pa byteCount perm).1 = .ok x) :
    (s.map .riscv64 E pa byteCount perm).2.pmm.panicked = true := by
  obtain ⟨hne, r, hr, n, hrun, hpmm⟩ := map_ok hI.root h
  obtain ⟨hlo, hhi, ⟨c, hc⟩, hapart⟩ := hI.fit_le pa byteCount
  obtain ⟨d, hd⟩ := mmioSpan_pages pa byteCount
  obtain ⟨b, hb⟩ : pgSize ∣ sv39DirectMap := by decide
  rw [EndsBelow, hc, hd, hb] at hnot
  rw [hc, hb] at hhi
  -- the loop goes over the pages below the direct map, and on to its first page
  obtain ⟨k, hk⟩ : ∃ k, mmioSpan pa byteCount / pgSize = (b - c) + (k + 1) := by
    refine ⟨d - (b - c) - 1, ?_⟩
    rw [hd]
    unfold pgSize at hnot hhi ⊢
    omega
  have hend : mmioFit .riscv64 pa byteCount s + (b - c) * pgSize = sv39DirectMap := by
    rw [hc, hb]
    unfold pgSize at hhi ⊢
    omega
  have hpages : (b - c) * pgSize / pgSize = b - c := Nat.mul_div_cancel _ (by decide)
  obtain ⟨hK, -⟩ := hI.kernel.withRecord hr
  obtain ⟨hin, hap⟩ := hI.picked ((b - c) * pgSize) sv39_width hlo (le_of_eq hend) fun y hy => by
    have := hapart y hy
    rw [hd, hc] at this
    rw [hc]
    unfold pgSize at this hnot hhi ⊢
    omega
  rw [hpages] at hin hap
  have hans : MapPagesAnswer .riscv64 (DevWindow .riscv64 sv39DirectMap) pgdir (mmioFit .riscv64 pa byteCount s)
      (pa - pa % pgSize) { perm with noexec := true } (b - c) 0 (s.pmm.withRecord r) _ :=
    mapPages_answers E (pa - pa % pgSize) { perm with noexec := true } (b - c) 0
      (fun y hy => (hin y hy).1) (fun y hy => (hin y hy).2) hap hK
  rw [hk, mapPages_add] at hrun
  rw [hpmm]
  generalize mapPages .riscv64 E pgdir (mmioFit .riscv64 pa byteCount s) (pa - pa % pgSize) { perm with noexec := true }
    (b - c) 0 (s.pmm.withRecord r) = res at hans hrun
  cases hans with
  | refused j m' hj hK' hch hpan => cases hrun
  | done m' hK' hch hpan hentries =>
    simp only [Nat.zero_add] at hrun
    have htr' : translate .riscv64 m'.mem pgdir (mmioFit .riscv64 pa byteCount s + (b - c) * pgSize) ≠ none := by
      rw [hend, hch.translate]
      · exact htr
      · intro y hy
        obtain ⟨j, hj, rfl⟩ := hy
        refine not_samePage_direct (by omega) ?_
        rw [← hend]
        unfold pgSize
        omega
    have hfires := mapPages_collides E (pa - pa % pgSize) { perm with noexec := true } k ((b - c) * pgSize)
      hK'.tree hK'.pool htr' (by rw [hrun])
    rw [hrun] at hfires
    exact hfires

def Generous (E : Env) : Prop := ∀ t free, free ≠ 0 → ∃ b ∈ free, E.alloc t free 1 = some b

variable {E : Env}

theorem Generous.allocPages (hE : Generous E) (hf : m.free ≠ 0) : ∃ t, (allocPages E 1 m).1 = some t := by
  obtain ⟨b, hb, halloc⟩ := hE m.clock m.free hf
  refine ⟨b, ?_⟩
  have hle : frames b 1 ≤ m.free := by
    rw [frames_one, Multiset.singleton_le]
    exact hb
  simp only [Vm.allocPages, halloc, hle, if_true]

theorem Generous.descendLevel (hE : Generous E) (hf : m.free ≠ 0) (entry : ℕ × Fin 512) (l : ℕ) :
    ∃ t, (descendLevel a E true entry l m).1 = some t := by
  obtain ⟨t, ht⟩ := hE.allocPages hf
  obtain ⟨b, m', hall⟩ : ∃ b m', Vm.allocPages E 1 m = (some b, m') := ⟨t, _, Prod.ext ht rfl⟩
  cases hp : a.ptePresent (m.mem entry.1 entry.2) <;> cases hb : a.pteIsBlock (m.mem entry.1 entry.2) <;>
    simp [Vm.descendLevel, allocTablePage, hp, hb, hall]

theorem Generous.getPteFrom_refused (hE : Generous E) (h : (getPteFrom a E true va l f m).1 = none) :
    (getPteFrom a E true va l f m).2.free = 0 := by
  induction l generalizing f m with
  | zero => cases h
  | succ l ih =>
    have hgrant := fun hf => hE.descendLevel (a := a) (m := m) hf (f, levelIndex va (l + 1)) l
    rw [getPteFrom] at h ⊢
    obtain ⟨g, -, hd⟩ | ⟨-, hd | ⟨t, -, hd⟩⟩ := descendLevel_cases a E (f, levelIndex va (l + 1)) l m
    · rw [hd] at h ⊢
      exact ih h
    · rw [hd] at hgrant ⊢
      by_contra hf
      obtain ⟨t, ht⟩ := hgrant hf
      cases ht
    · rw [hd] at h ⊢
      exact ih h

theorem Generous.getPteFrom_granted (hE : Generous E) (h : l ≤ m.free.card) :
    ∃ e, (getPteFrom a E true va l f m).1 = some e := by
  induction l generalizing f m with
  | zero => exact ⟨_, rfl⟩
  | succ l ih =>
    have hf : m.free ≠ 0 := by
      rintro hf
      rw [hf, Multiset.card_zero] at h
      omega
    obtain ⟨t', ht'⟩ := hE.descendLevel (a := a) hf (f, levelIndex va (l + 1)) l
    rw [getPteFrom]
    obtain ⟨g, -, hd⟩ | ⟨-, hd | ⟨t, ht, hd⟩⟩ := descendLevel_cases a E (f, levelIndex va (l + 1)) l m
    · rw [hd]
      exact ih (by omega)
    · rw [hd] at ht'
      cases ht'
    · rw [hd]
      apply ih
      show l ≤ (m.free.erase t).card
      rw [Multiset.card_erase_of_mem ht]
      exact Nat.le_pred_of_lt h

theorem Generous.mapPages_refused (hE : Generous E) {n mapped k : ℕ}
    (h : (mapPages a E pgdir va pa perm n mapped m).1 = some k) :
    (mapPages a E pgdir va pa perm n mapped m).2.free = 0 := by
  induction n generalizing mapped m with
  | zero => cases h
  | succ n ih =>
    have hno : (getPte a E pgdir (va + mapped) true m).1 = none → (getPte a E pgdir (va + mapped) true m).2.free = 0 :=
      hE.getPteFrom_refused
    rw [mapPages] at h ⊢
    generalize getPte a E pgdir (va + mapped) true m = r at h hno ⊢
    obtain ⟨_ | e, m₁⟩ := r
    · exact hno rfl
    · exact ih h

theorem card_kernelTables_le (hroot : ∀ i, i ≠ 257 → Arch.riscv64.tableOf (m.mem pgdir i) = none) :
    (kernelTables .riscv64 pgdir m).card ≤ 514 := by
  show (nodes Arch.riscv64.tableOf m.mem 2 pgdir).card ≤ 514
  cases hg : Arch.riscv64.tableOf (m.mem pgdir 257) with
  | none =>
    rw [nodes_bare fun i => ?_]
    · rw [Multiset.card_singleton]
      decide
    · by_cases hi : i = 257
      · rw [hi, hg]
      · exact hroot i hi
  | some g =>
    have hone : (nodes Arch.riscv64.tableOf m.mem 1 g).card ≤ 513 := card_nodes_one
    rw [nodes_only hg hroot, Multiset.card_add, Multiset.card_singleton]
    omega

theorem Sv39Booted.map_granted (hb : Sv39Booted pgdir m) (hE : Generous E) {r : ℕ} (hr : r ∈ m.free)
    (hroot : ∀ i, Arch.riscv64.tableOf (m.mem pgdir i) = none) (hfree : 517 ≤ m.free.card) (pa : ℕ) (perm : VmFlags) :
    (mapPages .riscv64 E pgdir Arch.riscv64.kernelDevioBase pa perm (2 ^ 18 + 1) 0 (m.withRecord r)).1 = none := by
  have hI := hb.inv
  obtain ⟨hK, -⟩ := hI.kernel.withRecord hr
  obtain ⟨hin, hap⟩ := hI.picked (2 ^ 18 * pgSize) sv39_width (Nat.le_refl _)
    (by decide) fun x hx => absurd hx List.not_mem_nil
  rw [Nat.mul_div_cancel _ (by decide)] at hin hap
  have hans : MapPagesAnswer .riscv64 (DevWindow .riscv64 sv39DirectMap) pgdir Arch.riscv64.kernelDevioBase pa perm
      (2 ^ 18) 0 (m.withRecord r) _ :=
    mapPages_answers E pa perm (2 ^ 18) 0 (fun y hy => (hin y hy).1) (fun y hy => (hin y hy).2) hap hK
  have hno : ∀ k, (mapPages .riscv64 E pgdir Arch.riscv64.kernelDevioBase pa perm (2 ^ 18) 0 (m.withRecord r)).1 = some k →
      (mapPages .riscv64 E pgdir Arch.riscv64.kernelDevioBase pa perm (2 ^ 18) 0 (m.withRecord r)).2.free = 0 :=
    fun k => hE.mapPages_refused
  have hcard : (m.withRecord r).free.card = m.free.card - 1 := Multiset.card_erase_of_mem hr
  have hone : (kernelTables .riscv64 pgdir (m.withRecord r)).card = 1 := by
    show (nodes Arch.riscv64.tableOf m.mem 2 pgdir).card = 1
    rw [nodes_bare hroot, Multiset.card_singleton]
  -- nothing but the tables of the window takes memory
  have hleft : ∀ {S m'}, Changes .riscv64 (DevWindow .riscv64 sv39DirectMap) pgdir S (m.withRecord r) m' →
      3 ≤ m'.free.card := by
    intro S m' hch
    have hsum := congrArg Multiset.card hch.pages
    have htab : (kernelTables .riscv64 pgdir m').card ≤ 514 := by
      refine card_kernelTables_le fun i hi => ?_
      rw [hch.root i (Or.inl ?_)]
      · exact hroot i
      · rintro p ⟨va, h1, h2, rfl⟩ hp
        exact hi (hp.symm.trans (sv39_window_index h1 h2))
    rw [Multiset.card_add, Multiset.card_add, hcard, hone] at hsum
    omega
  rw [mapPages_add]
  generalize mapPages .riscv64 E pgdir Arch.riscv64.kernelDevioBase pa perm (2 ^ 18) 0 (m.withRecord r) = res
    at hans hno ⊢
  cases hans with
  | refused k m' hk hK' hch hpan =>
    have h3 := hleft hch
    rw [show m'.free = 0 from hno _ rfl, Multiset.card_zero] at h3
    omega
  | done m' hK' hch hpan hentries =>
    have h3 := hleft hch
    obtain ⟨e, he⟩ : ∃ e, (getPte .riscv64 E pgdir (Arch.riscv64.kernelDevioBase + (0 + 2 ^ 18 * pgSize)) true m').1 =
        some e := hE.getPteFrom_granted (l := 2) (by omega)
    show (mapPages .riscv64 E pgdir Arch.riscv64.kernelDevioBase pa perm 1 (0 + 2 ^ 18 * pgSize) m').1 = none
    rw [mapPages]
    generalize getPte .riscv64 E pgdir (Arch.riscv64.kernelDevioBase + (0 + 2 ^ 18 * pgSize)) true m' = g at he ⊢
    obtain ⟨_ | _, m₁⟩ := g
    · cases he
    · rfl

theorem Generous.kmalloc (hE : Generous E) (hf : m.free ≠ 0) :
    ∃ r ∈ m.free, kmalloc E mmioMappingSize m = (some r, m.withRecord r) := by
  obtain hno | hget := kmalloc_record E m
  · obtain ⟨t, ht⟩ := hE.allocPages hf
    obtain ⟨b, m', hall⟩ : ∃ b m', Vm.allocPages E 1 m = (some b, m') := ⟨t, _, Prod.ext ht rfl⟩
    have hne : mmioMappingSize ≠ 0 := by decide
    have hone : (mmioMappingSize + pgSize - 1) / pgSize = 1 := by decide
    simp only [Vm.kmalloc, hne, hone, hall, if_false] at hno
    cases hno
  · exact hget

theorem Sv39Booted.map_fires (hb : Sv39Booted pgdir m) (hE : Generous E)
    (hroot : ∀ i, Arch.riscv64.tableOf (m.mem pgdir i) = none) (hfree : 517 ≤ m.free.card) :
    (Mmio.map .riscv64 E 0 0x40001000 ⟨true, false, true, true⟩ ⟨m, some pgdir, []⟩).2.pmm.panicked = true := by
  have hspan : mmioSpan 0 0x40001000 = 0x40001000 := by decide
  have hfit : mmioFit .riscv64 0 0x40001000 ⟨m, some pgdir, []⟩ = Arch.riscv64.kernelDevioBase := rfl
  have hne : m.free ≠ 0 := by
    rintro h0
    rw [h0, Multiset.card_zero] at hfree
    omega
  obtain ⟨r, hr, hget⟩ := hE.kmalloc hne
  have hok : (Mmio.map .riscv64 E 0 0x40001000 ⟨true, false, true, true⟩ ⟨m, some pgdir, []⟩).1 =
      .ok (mmioRegion .riscv64 r 0 0x40001000 ⟨m, some pgdir, []⟩) := by
    have hdone := hb.map_granted hE hr hroot hfree 0 ⟨true, false, true, true⟩
    rw [Mmio.map, if_neg (by decide), if_neg (by decide), if_neg (by decide), if_neg (by decide), hget]
    simp only
    rw [Mmio.mapRecord_eq (s := ⟨m, some pgdir, []⟩) E r 0 0x40001000 _ _ rfl, hfit, hspan, if_neg (by decide)]
    show (Mmio.mapEnd .riscv64 pgdir r 0 0x40001000 ⟨m, some pgdir, []⟩
      (mapPages .riscv64 E pgdir Arch.riscv64.kernelDevioBase 0 ⟨true, false, true, true⟩ (2 ^ 18 + 1) 0
        (m.withRecord r))).1 = _
    generalize mapPages .riscv64 E pgdir Arch.riscv64.kernelDevioBase 0 ⟨true, false, true, true⟩ (2 ^ 18 + 1) 0
      (m.withRecord r) = res at hdone ⊢
    obtain ⟨_ | _, m'⟩ := res
    · rfl
    · cases hdone
  refine hb.inv.map_collides hb.translate_dram ?_ hok
  rw [EndsBelow, hfit, hspan]
  decide

/-- The root that `head.S` sets up, with 64 MiB of memory free. -/
def sv39Pmm : Pmm where
  mem f i := if f = 0x80300 ∧ i = 256 then 0xCF else if f = 0x80300 ∧ i = 258 then 0x200000CF else 0
  free := frames 0x80400 0x4000
  refCount _ := 0
  pageTable _ := false
  reserved f := decide (f < 0x80400)
  blockPages _ := 0
  pageCount := 0x84400
  clock := 0
  panicked := false

theorem sv39Pmm_bare (i : Fin 512) : Arch.riscv64.tableOf (sv39Pmm.mem 0x80300 i) = none := by
  revert i
  decide +kernel

theorem sv39Pmm_booted : Sv39Booted 0x80300 sv39Pmm := by
  have hnodes : nodes Arch.riscv64.tableOf sv39Pmm.mem 2 0x80300 = {0x80300} := nodes_bare sv39Pmm_bare
  have hfree : ∀ t ∈ sv39Pmm.free, 0x80400 ≤ t ∧ t < 0x84400 := by
    intro t ht
    have hmem : t ∈ List.range' 0x80400 0x4000 := ht
    rw [List.mem_range'_1] at hmem
    omega
  refine ⟨⟨?_, ?_, fun g hg hf => ?_⟩, fun i g hg => ?_, List.nodup_range', fun t ht => ⟨(hfree t ht).2, rfl⟩, ?_, ?_, ?_,
    rfl⟩
  · rw [hnodes]
    exact Multiset.nodup_singleton _
  · refine inner_bare (fun _ => sv39Pmm_bare) fun _ i => ?_
    have hw : sv39Pmm.mem 0x80300 i = if i = 256 then 0xCF else if i = 258 then 0x200000CF else 0 := by
      simp [sv39Pmm]
    rw [hw]
    split
    · exact fun _ _ _ => ⟨le_refl 2, by decide +kernel, by decide +kernel⟩
    · split
      · exact fun _ _ _ => ⟨le_refl 2, by decide +kernel, by decide +kernel⟩
      · exact (shape_wellFormed .riscv64).zero 2
  · rw [hnodes, Multiset.mem_singleton] at hg
    have := (hfree g hf).1
    omega
  · rw [sv39Pmm_bare] at hg
    cases hg
  · show 0x84400 ≤ 2 ^ 32
    norm_num
  · decide +kernel
  · decide +kernel

/-- The allocator that hands out the lowest page. -/
def lowest : Env where
  alloc _ free _ := (free.sort (· ≤ ·)).head?

theorem lowest_generous : Generous lowest := by
  intro t free hf
  obtain ⟨b, rest, hsort⟩ : ∃ b rest, free.sort (· ≤ ·) = b :: rest := by
    apply List.exists_cons_of_ne_nil
    intro h
    apply hf
    rw [← Multiset.sort_eq free (· ≤ ·), h]
    rfl
  refine ⟨b, ?_, ?_⟩
  · rw [← Multiset.mem_sort (r := (· ≤ ·)), hsort]
    exact List.mem_cons_self
  · show (free.sort (· ≤ ·)).head? = some b
    rw [hsort]
    rfl

end Zonix.Vm
