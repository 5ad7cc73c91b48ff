import Mathlib
import Zonix.Exec.Load
import Zonix.Vm.AllocMap
import Zonix.Vm.RoundTrip

/-!
# The loaded program

The image that the loader builds is the one that the program headers describe: the pages that the segments touch, the
union of their rights, and the byte of the last segment that has one for the address.
-/

namespace Zonix.Exec

open Zonix.Vm Zonix.Lib.Radix Prog

attribute [local irreducible] leNat

variable {a : Arch} {b : Buffer} {pool : Multiset ℕ} {v : State} {r : ℕ} {img : Image} {E : Env}

def ProgramHeader.touches (ph : ProgramHeader) (n : ℕ) : Bool :=
  decide (ph.Loads ∧ ph.va < (n + 1) * pgSize ∧ n * pgSize < ph.va + ph.memsz)

def ProgramHeader.covers (ph : ProgramHeader) (va : ℕ) : Bool :=
  decide (ph.type = elfPtLoad ∧ ph.va ≤ va ∧ va < ph.va + ph.filesz)

/-- The byte of the last segment that has one, and 0 otherwise. -/
def Buffer.byteAt (b : Buffer) (phs : List ProgramHeader) (va : ℕ) : BitVec 8 :=
  match phs.reverse.find? (·.covers va) with
  | some ph => b.bytes (ph.offset + (va - ph.va))
  | none => 0

theorem ProgramHeader.touches_iff (ph : ProgramHeader) (hl : ph.Loads) (n : ℕ) :
    ph.firstPage ≤ n ∧ n < ph.endPage ↔ ph.touches n = true := by
  have hmem : 0 < ph.memsz := Nat.pos_of_ne_zero hl.2
  simp only [touches, hl, true_and, decide_eq_true_eq, firstPage, endPage, pgSize]
  omega

theorem Image.perm_loadAll (f : Option (Bool × Bool) → Bool) (g : Bool → Bool → Bool)
    (hf : ∀ w x o, f (merge w x o) = (f o || g w x)) (img : Image) (b : Buffer) (phs : List ProgramHeader) (n : ℕ) :
    f ((img.loadAll b phs).perm n) =
      (f (img.perm n) || phs.any fun ph => ph.touches n && g ph.writable ph.executable) := by
  induction phs generalizing img with
  | nil => simp [loadAll]
  | cons ph phs ih =>
    have hone : f ((img.load b ph).perm n) = (f (img.perm n) || ph.touches n && g ph.writable ph.executable) := by
      by_cases hl : ph.Loads
      · simp only [Image.load, hl, if_true, Image.copy, Image.touch]
        by_cases ht : ph.touches n = true
        · rw [if_pos ((ph.touches_iff hl n).2 ht), hf, ht, Bool.true_and]
        · rw [if_neg fun h => ht ((ph.touches_iff hl n).1 h), Bool.eq_false_iff.2 ht, Bool.false_and, Bool.or_false]
      · have ht : ph.touches n = false := by simp [ProgramHeader.touches, hl]
        simp only [Image.load, hl, if_false, ht, Bool.false_and, Bool.or_false]
    have hrest := ih (img.load b ph)
    rw [loadAll] at hrest ⊢
    rw [List.foldl_cons, hrest, hone, List.any_cons, Bool.or_assoc]

theorem Image.byte_loadAll (img : Image) (b : Buffer) {phs : List ProgramHeader}
    (hfile : ∀ ph ∈ phs, ph.type = elfPtLoad → ph.filesz ≤ ph.memsz) (va : ℕ) :
    (img.loadAll b phs).byte va = match phs.reverse.find? (·.covers va) with
      | some ph => b.bytes (ph.offset + (va - ph.va))
      | none => img.byte va := by
  induction phs generalizing img with
  | nil => rfl
  | cons ph phs ih =>
    have hone : (img.load b ph).byte va =
        if ph.covers va then b.bytes (ph.offset + (va - ph.va)) else img.byte va := by
      by_cases hl : ph.Loads
      · simp only [Image.load, hl, if_true, Image.copy, Image.touch, blit, ProgramHeader.covers, hl.1, true_and,
          decide_eq_true_eq]
      · have hcov : ph.covers va = false := by
          rw [ProgramHeader.covers, decide_eq_false_iff_not]
          rintro ⟨htype, hlow, hhigh⟩
          have hle := hfile ph List.mem_cons_self htype
          have hzero : ph.memsz = 0 := by
            by_contra hne
            exact hl ⟨htype, hne⟩
          omega
        simp only [Image.load, hl, if_false, hcov, Bool.false_eq_true]
    have hrest := @ih (img.load b ph) fun ph' hph' => hfile ph' (List.mem_cons_of_mem _ hph')
    rw [loadAll] at hrest ⊢
    rw [List.foldl_cons, hrest, List.reverse_cons, List.find?_append]
    cases phs.reverse.find? (·.covers va) with
    | some ph' => rfl
    | none =>
      rw [hone]
      by_cases hcov : ph.covers va = true
      · simp [hcov]
      · simp [hcov]

/-- Some segment with property `g` touches page `n`. -/
def Buffer.touched (b : Buffer) (g : ProgramHeader → Bool) (n : ℕ) : Bool :=
  b.segments.any fun ph => ph.touches n && g ph

/-- What the hardware finds at an address of the loaded program: nothing in a page that no segment touches, otherwise
the byte of the program with the rights that the segments of its page have together. -/
structure Loaded (a : Arch) (b : Buffer) (m : Pmm) (r va : ℕ) : Prop where
  unmapped : b.touched (fun _ => true) (va / pgSize) = false → translate a m.mem r va = none
  mapped : b.touched (fun _ => true) (va / pgSize) = true → ∃ x, translate a m.mem r va = some x ∧
    x.attrs.user = true ∧ x.attrs.write = b.touched (·.writable) (va / pgSize) ∧
    x.attrs.exec = b.touched (·.executable) (va / pgSize) ∧
    pageByte (m.mem (x.pa / pgSize)) (x.pa % pgSize) = b.byteAt b.segments va

theorem Buffer.image_perm (b : Buffer) (n : ℕ) :
    (b.image.perm n).isSome = b.touched (fun _ => true) n ∧
    (b.image.perm n).elim false Prod.fst = b.touched (·.writable) n ∧
    (b.image.perm n).elim false Prod.snd = b.touched (·.executable) n := by
  refine ⟨?_, ?_, ?_⟩
  · refine (Image.perm_loadAll Option.isSome (fun _ _ => true) ?_ .empty b b.segments n).trans (Bool.false_or _)
    intro w x o
    cases o <;> rfl
  · refine (Image.perm_loadAll (·.elim false Prod.fst) (fun w _ => w) ?_ .empty b b.segments n).trans (Bool.false_or _)
    intro w x o
    cases o <;> rfl
  · refine (Image.perm_loadAll (·.elim false Prod.snd) (fun _ x => x) ?_ .empty b b.segments n).trans (Bool.false_or _)
    intro w x o
    cases o <;> rfl

theorem Accepted.byte_eq (h : Accepted a b) (va : ℕ) : b.image.byte va = b.byteAt b.segments va :=
  Image.byte_loadAll .empty b (fun ph hph htype => ((h.good ph hph).file htype).1) va

theorem Holds.loaded {m : Pmm} (hH : Holds a pool v r b.image m) (hr : r ∈ v.spaces) (hacc : Accepted a b) {va : ℕ}
    (hva : va < a.userSpaceTop) : Loaded a b m r va := by
  obtain ⟨hsome, hwrite, hexec⟩ := b.image_perm (va / pgSize)
  have htrans := translate_user hH.inv hr (isUser_of_lt hva)
  change translate a m.mem r va = _ at htrans
  cases hperm : b.image.perm (va / pgSize) with
  | none =>
    rw [hperm] at hsome
    have hzero : leafWord a m.mem r va = 0 := (hH.shows.empty va hva hperm).1
    refine ⟨fun _ => ?_, fun h => absurd (hsome.trans h) (by decide)⟩
    rw [htrans, hzero, a.ptePresent_zero]
    rfl
  | some wx =>
    obtain ⟨w, x⟩ := wx
    rw [hperm] at hsome hwrite hexec
    obtain ⟨p, hp, hword, hbyte⟩ := hH.shows.page va hva w x hperm
    obtain ⟨hpa, huser, hw, hx⟩ := leafMapping_makePtePage (a := a) hp (userPagePerm w x) va
    refine ⟨fun h => absurd (hsome.trans h) (by simp), fun _ => ⟨_, ?_, huser, hw.trans hwrite, ?_, ?_⟩⟩
    · rw [htrans, hword, (a.isPage_makePtePage _ (fits_pageToPhys a p hp)).present, if_pos rfl]
    · rw [hx, ← hexec]
      exact Bool.not_not x
    · have hmod : va % pgSize < pgSize := Nat.mod_lt _ (by decide)
      have hdiv : (p * pgSize + va % pgSize) / pgSize = p := by
        rw [Nat.mul_comm, Nat.mul_add_div (by decide), Nat.div_eq_of_lt hmod, Nat.add_zero]
      have hrem : (p * pgSize + va % pgSize) % pgSize = va % pgSize := by
        rw [Nat.mul_comm, Nat.mul_add_mod, Nat.mod_mod]
      rw [hpa, hdiv, hrem, hbyte, hacc.byte_eq]

/-- The number of frames that is enough for all segments. -/
def Buffer.enough (a : Arch) (b : Buffer) : ℕ := a.ptWalkLevels * pageVisits b.segments + 2

/-- A file that `validate` accepts, loaded into a fresh page table: with enough memory `load` succeeds, and whenever it
succeeds every user address shows the program and the entry point lies in an executable page. -/
theorem elf_image_correct (a : Arch) (E : Env) (b : Buffer) {pool : Multiset ℕ} {w v : State} {r : ℕ}
    (hI : Inv a pool w) (hnew : createUserPgdir E w = (some r, v)) (hok : (validate a b (.start v)).1 = .ok ()) :
    (E.Willing → b.enough a ≤ Multiset.card v.pmm.free →
      (load a E b r (.start v)).1 = .ok b.header.entry) ∧
    (∀ entry, (load a E b r (.start v)).1 = .ok entry →
      (∀ va < a.userSpaceTop, Loaded a b (load a E b r (.start v)).2.pmm r va) ∧
      entry = b.header.entry ∧ entry < a.userSpaceTop ∧ b.touched (·.executable) (entry / pgSize) = true) := by
  obtain ⟨hr, hH⟩ := fresh_holds hI hnew
  have hacc := (validate_ok hok).2
  have hload := load_spec (E := E) hr hok hH
  constructor
  · intro hE henough
    unfold wp at hload
    generalize load a E b r (.start v) = result at hload
    obtain ⟨e | entry, s'⟩ := result
    · obtain ⟨-, -, -, -, hsp, -, hfew⟩ := hload
      have hle := hfew hE
      change Multiset.card v.pmm.free ≤ _ at hsp
      unfold Buffer.enough at henough
      omega
    · exact congrArg Except.ok hload.1
  · intro entry hentry
    obtain ⟨heq, hH', -, -⟩ := wp_fst hload hentry
    obtain ⟨i, hi, hl, hx, hlow, hhigh⟩ := hacc.entry
    have hgood := hacc.segments i hi
    refine ⟨fun va hva => hH'.loaded hr hacc hva, heq, ?_, ?_⟩
    · have := hgood.high hl
      omega
    · rw [heq, Buffer.touched, List.any_eq_true]
      refine ⟨b.segment i, Buffer.mem_segments.2 ⟨i, hi, rfl⟩, ?_⟩
      rw [hx, Bool.and_true, ProgramHeader.touches, decide_eq_true_eq]
      refine ⟨hl, ?_, ?_⟩
      · unfold pgSize
        omega
      · unfold pgSize
        omega

theorem elf_image_correct_tinyElf :
    (load .riscv64 ascending tinyElf 10 (.start afterCreate)).1 = .ok 0x1000 ∧
      Loaded .riscv64 tinyElf (load .riscv64 ascending tinyElf 10 (.start afterCreate)).2.pmm 10 0x1001 ∧
      tinyElf.byteAt tinyElf.segments 0x1001 = 0x45 := by
  have hok : (validate .riscv64 tinyElf (.start afterCreate)).1 = .ok () := by decide +kernel
  have hnew : createUserPgdir ascending booted = (some 10, afterCreate) := Prod.ext (by decide +kernel) rfl
  have hrun : (load .riscv64 ascending tinyElf 10 (.start afterCreate)).1 = .ok 0x1000 := by decide +kernel
  refine ⟨hrun, ?_, by decide +kernel⟩
  exact ((elf_image_correct .riscv64 ascending tinyElf (booted_fresh.inv .riscv64) hnew hok).2 0x1000 hrun).1 0x1001
    (by decide)

end Zonix.Exec
