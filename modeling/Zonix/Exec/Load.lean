import Mathlib
import Zonix.Exec.Image
import Zonix.Exec.Validate

/-!
# Loading what was accepted

`elf::load` on a fresh page table and `setup_user_stack` after it: the page table shows the image of the segments, and
the only thing that can go wrong is that there are no pages left.
-/

namespace Zonix.Exec

open Zonix.Vm Zonix.Lib.Radix Prog

attribute [local irreducible] leNat

variable {a : Arch} {b : Buffer} {pool : Multiset ℕ} {v : State} {r : ℕ} {img : Image} {s : LoadState} {E : Env}

/-! ## Loops over pages -/

variable {j n k : ℕ} {ph : ProgramHeader} {P : ℕ → Prop}

theorem pageLoop_spec {P : ℕ → LoadState → Prop} {R : Stop → LoadState → Prop} {f : ℕ → Load Unit}
    (hj : j * pgSize < 2 ^ 64)
    (hf : ∀ n s, n < j → P n s → wp (f (n * pgSize)) (fun _ s' => P (n + 1) s') R s) (fuel n : ℕ) (hn : n ≤ j)
    (hfuel : j < n + fuel) (hP : P n s) :
    wp (pageLoop f fuel (n * pgSize) (j * pgSize)) (fun _ s' => P j s') R s := by
  induction fuel generalizing n s with
  | zero => omega
  | succ fuel ih =>
    rw [pageLoop]
    by_cases hlt : n < j
    · have hstep : n * pgSize + pgSize = (n + 1) * pgSize := by ring
      have hle : (n + 1) * pgSize ≤ j * pgSize := Nat.mul_le_mul_right _ hlt
      rw [if_pos (Nat.mul_lt_mul_of_pos_right hlt (by decide))]
      simp only [wp_bind]
      refine wp_mono (hf n s hlt hP) (fun _ s' hs' => ?_) fun _ _ h => h
      refine (wp_add64 (by omega)).2 ?_
      rw [hstep]
      exact ih (n + 1) (by omega) (by omega) hs'
    · obtain rfl : n = j := by omega
      rw [if_neg (lt_irrefl _)]
      exact hP

def SameLog (s s' : LoadState) : Prop := s'.reads = s.reads ∧ s'.wrapped = s.wrapped

theorem SameLog.clean {s' : LoadState} (h : SameLog s s') (hc : Clean b s) : Clean b s' :=
  ⟨by rw [h.1]; exact hc.reads, by rw [h.2]; exact hc.wrapped⟩

def Spent (k : ℕ) (s s' : LoadState) : Prop := Multiset.card s.pmm.free ≤ Multiset.card s'.pmm.free + k

def NoPages (E : Env) (e : Stop) (s : LoadState) : Prop :=
  e = .error .noMem ∧ (E.Willing → Multiset.card s.pmm.free ≤ 1)

theorem mapZeroed_spec (hH : Holds a pool v r img s.pmm) (hr : r ∈ v.spaces) (hn : n * pgSize < a.userSpaceTop)
    (hnone : img.perm n = none) (w x : Bool) :
    wp (mapZeroed a E r (n * pgSize) (userPagePerm w x))
      (fun _ s' => Holds a pool v r (img.touch n (n + 1) w x) s'.pmm ∧ SameLog s s' ∧ Spent a.ptWalkLevels s s')
      (fun e s' => Holds a pool v r img s'.pmm ∧ SameLog s s' ∧ Spent a.ptWalkLevels s s' ∧ NoPages E e s') s := by
  obtain ⟨hfailed, hdone⟩ := hH.mapZeroed hr E hn hnone w x
  have hcard := allocAndMapPage_card (a := a) (r := r) E (n * pgSize) (userPagePerm w x) s.pmm
  unfold wp
  rw [mapZeroed]
  generalize allocAndMapPage a E r (n * pgSize) (userPagePerm w x) s.pmm = res at hfailed hdone hcard
  obtain ⟨_ | p, m⟩ := res
  · exact ⟨(hfailed rfl).1, ⟨rfl, rfl⟩, hcard, rfl, (hfailed rfl).2⟩
  · exact ⟨hdone p rfl, ⟨rfl, rfl⟩, hcard⟩

theorem mapPage_spec (hH : Holds a pool v r img s.pmm) (hr : r ∈ v.spaces) (hn : n * pgSize < a.userSpaceTop)
    (w x : Bool) :
    wp (mapPage a E r (n * pgSize) (userPagePerm w x))
      (fun _ s' => Holds a pool v r (img.touch n (n + 1) w x) s'.pmm ∧ SameLog s s' ∧ Spent a.ptWalkLevels s s')
      (fun e s' => Holds a pool v r img s'.pmm ∧ SameLog s s' ∧ Spent a.ptWalkLevels s s' ∧ NoPages E e s') s := by
  have hlook := getPte_lookup (a := a) E (m := s.pmm) (hH.tables_nodup hr) (isUser_of_lt hn)
  cases hperm : img.perm n with
  | none =>
    have hnew := mapZeroed_spec (E := E) hH hr hn hperm w x
    have hzero : leafWord a s.pmm.mem r (n * pgSize) = 0 := (hH.shows.empty _ hn (by rw [page_div]; exact hperm)).1
    have heq : mapPage a E r (n * pgSize) (userPagePerm w x) s = mapZeroed a E r (n * pgSize) (userPagePerm w x) s := by
      rw [mapPage, hlook]
      cases hs : leafSlot a s.pmm.mem r (levelIndex (n * pgSize)) with
      | none => rfl
      | some e =>
        have habs : a.ptePresent (s.pmm.mem e.1 e.2) = false := by
          rw [← leafWord_slot hs, hzero, a.ptePresent_zero]
        simp only [habs, Bool.false_eq_true, if_false]
    unfold wp at hnew ⊢
    rw [heq]
    exact hnew
  | some wx =>
    obtain ⟨e, hs, hpresent, hnew⟩ := hH.merged hr hn hperm w x
    have heq : mapPage a E r (n * pgSize) (userPagePerm w x) s = (.ok (), { s with pmm := { s.pmm with
        mem := write s.pmm.mem e (a.makePtePage (a.pteAddr (s.pmm.mem e.1 e.2))
          (mergeUserPagePerm a (s.pmm.mem e.1 e.2) (userPagePerm w x))) } }) := by
      rw [mapPage, hlook, hs]
      simp only [hpresent, if_true]
    refine (wp_of_ok heq).2 ⟨hnew, ⟨rfl, rfl⟩, ?_⟩
    exact Nat.le_add_right _ _

/-! ## Copying the file bytes -/

theorem Image.copy_at (img : Image) (b : Buffer) (va off n : ℕ) :
    img.copy va (b.at off) 0 n = img.copy va b.bytes off n := by
  have hshift : ∀ k < n, b.at off (0 + k) = b.bytes (off + k) := fun k _ => by rw [Buffer.at, Nat.zero_add]
  rw [Image.copy, Image.copy, blit_shift hshift]

theorem Image.copy_add (img : Image) (b : Buffer) (va off n k : ℕ) :
    (img.copy va b.bytes off n).copy (va + n) b.bytes (off + n) k = img.copy va b.bytes off (n + k) := by
  simp only [Image.copy, blit_add]

theorem copyChunk_spec (hH : Holds a pool v r img s.pmm) (hr : r ∈ v.spaces) (hc : Clean b s) {va off : ℕ}
    (hva : va < a.userSpaceTop) (hpage : img.perm (va / pgSize) ≠ none) (hk : va % pgSize + k ≤ pgSize)
    (hin : off + k ≤ b.size) :
    wp (copyChunk a E b r va (b.base + off) k)
      (fun _ s' => Holds a pool v r (img.copy va b.bytes off k) s'.pmm ∧ Clean b s' ∧ s'.pmm.free = s.pmm.free)
      (fun _ _ => False) s := by
  obtain ⟨⟨w, x⟩, hperm⟩ := Option.ne_none_iff_exists'.1 hpage
  obtain ⟨e, hs, hpresent, hnew⟩ := hH.copied hr hva hperm hk (b.at off)
  have hlook := getPte_lookup (a := a) E (m := s.pmm) (hH.tables_nodup hr) (isUser_of_lt hva)
  rw [Image.copy_at] at hnew
  simp only [copyChunk, wp_bind, wp_state, hlook, hs, hpresent, if_true]
  refine wp_read hin fun s₁ hs₁ => (wp_update _).2 ⟨?_, ?_, ?_⟩
  · simp only [hs₁.pmm]
    exact hnew
  · exact ⟨(hs₁.clean hc).reads, (hs₁.clean hc).wrapped⟩
  · simp only [hs₁.pmm]

theorem copyLoop_spec (hr : r ∈ v.spaces) (fuel : ℕ) {va size off : ℕ} (hH : Holds a pool v r img s.pmm)
    (hc : Clean b s) (hfuel : size < fuel) (htop : va + size ≤ a.userSpaceTop)
    (hpages : ∀ x, va ≤ x → x < va + size → img.perm (x / pgSize) ≠ none) (hin : off + size ≤ b.size) :
    wp (copyLoop a E b r fuel va size (b.base + off))
      (fun _ s' => Holds a pool v r (img.copy va b.bytes off size) s'.pmm ∧ Clean b s' ∧ s'.pmm.free = s.pmm.free)
      (fun _ _ => False) s := by
  induction fuel generalizing va size off img s with
  | zero => omega
  | succ fuel ih =>
    have hfits := b.fits
    have h64 := userSpaceTop_lt a
    rw [copyLoop]
    by_cases hsize : size = 0
    · rw [if_pos hsize, hsize]
      refine ⟨?_, hc, rfl⟩
      rw [Image.copy, blit_zero]
      exact hH
    · rw [if_neg hsize]
      have hmod : va % pgSize < pgSize := Nat.mod_lt _ (by decide)
      obtain ⟨k, hkdef⟩ : ∃ k, k = min (pgSize - va % pgSize) size := ⟨_, rfl⟩
      have hk : 0 < k ∧ k ≤ size ∧ va % pgSize + k ≤ pgSize := by omega
      rw [← hkdef]
      simp only [wp_bind]
      refine wp_mono (copyChunk_spec hH hr hc (by omega) (hpages va le_rfl (by omega)) hk.2.2 (by omega)) ?_
        fun _ _ h => h
      rintro - s₁ ⟨hH₁, hc₁, hfree₁⟩
      refine (wp_add64 (by omega)).2 ((wp_add64 (by omega)).2 ((wp_sub64 hk.2.1 (by omega)).2 ?_))
      rw [Nat.add_assoc]
      have htop' : va + k + (size - k) ≤ a.userSpaceTop := by omega
      have hin' : off + k + (size - k) ≤ b.size := by omega
      have hrest := ih hH₁ hc₁ (by omega) htop' (fun x hlow hhigh => hpages x (by omega) (by omega)) hin'
      refine wp_mono hrest ?_ fun _ _ h => h
      rintro - s₂ ⟨hH₂, hc₂, hfree₂⟩
      rw [Image.copy_add, show k + (size - k) = size by omega] at hH₂
      exact ⟨hH₂, hc₂, hfree₂.trans hfree₁⟩

/-! ## One segment -/

def ProgramHeader.firstPage (ph : ProgramHeader) : ℕ := ph.va / pgSize
def ProgramHeader.endPage (ph : ProgramHeader) : ℕ := (ph.va + ph.memsz + pgSize - 1) / pgSize

/-- What a segment adds to an image. -/
def Image.load (img : Image) (b : Buffer) (ph : ProgramHeader) : Image :=
  if ph.Loads then
    (img.touch ph.firstPage ph.endPage ph.writable ph.executable).copy ph.va b.bytes ph.offset ph.filesz
  else img

/-- The pages that a segment makes the loader visit. -/
def ProgramHeader.pages (ph : ProgramHeader) : ℕ := if ph.Loads then ph.endPage - ph.firstPage else 0

/-- A page where a segment may be. -/
def SegmentPage (a : Arch) (n : ℕ) : Prop :=
  pgSize ≤ n * pgSize ∧ (n + 1) * pgSize ≤ a.userSpaceTop ∧
    ¬(a.userStackTop - userStackSize ≤ n * pgSize ∧ n * pgSize < a.userStackTop)

def Image.Within (img : Image) (P : ℕ → Prop) : Prop := ∀ n, img.perm n ≠ none → P n

theorem ProgramHeader.Good.page {fileSize : ℕ} (hg : ph.Good a fileSize) (hl : ph.Loads)
    (hn : ph.firstPage ≤ n ∧ n < ph.endPage) : SegmentPage a n := by
  have hlow := hg.low hl
  have hhigh := hg.high hl
  have hstack := hg.stack hl
  have hmem : 0 < ph.memsz := Nat.pos_of_ne_zero hl.2
  obtain ⟨hfirst, hend⟩ := hn
  unfold ProgramHeader.firstPage at hfirst
  unfold ProgramHeader.endPage at hend
  unfold SegmentPage
  cases a with
  | x86 =>
    simp only [Arch.userSpaceTop, Arch.userStackTop, userStackSize, pgSize] at *
    omega
  | aarch64 =>
    simp only [Arch.userSpaceTop, Arch.userStackTop, userStackSize, pgSize] at *
    omega
  | riscv64 =>
    simp only [Arch.userSpaceTop, Arch.userStackTop, userStackSize, pgSize] at *
    omega

theorem Image.Within.touch (h : img.Within P) {i : ℕ} (hP : ∀ n, i ≤ n ∧ n < j → P n) (w x : Bool) :
    (img.touch i j w x).Within P := by
  intro n hn
  by_cases hin : i ≤ n ∧ n < j
  · exact hP n hin
  · apply h n
    simpa only [Image.touch, hin, if_false] using hn

theorem Image.Within.load (h : img.Within P)
    (hP : ph.Loads → ∀ n, ph.firstPage ≤ n ∧ n < ph.endPage → P n) : (img.load b ph).Within P := by
  unfold Image.load
  split
  · rename_i hl
    exact h.touch (hP hl) _ _
  · exact h

theorem Spent.trans {s₁ s₂ : LoadState} (h : Spent j s s₁) (h' : Spent k s₁ s₂) : Spent (j + k) s s₂ := by
  unfold Spent at *
  omega

theorem Spent.mono {s' : LoadState} (h : Spent j s s') (hjk : j ≤ k) : Spent k s s' := by
  unfold Spent at *
  omega

theorem Looked.spent {s₁ s₂ : LoadState} (h : Looked b s s₁) (h' : Spent k s₁ s₂) : Spent k s s₂ := by
  unfold Spent at h' ⊢
  rw [← h.pmm]
  exact h'

/-- The pages ran out: what is mapped then is within the pages `P`, and at most `k` frames went into it. -/
def RanOut (a : Arch) (b : Buffer) (pool : Multiset ℕ) (v : State) (r : ℕ) (E : Env) (P : ℕ → Prop) (k : ℕ)
    (s : LoadState) (e : Stop) (s' : LoadState) : Prop :=
  ∃ img, Holds a pool v r img s'.pmm ∧ img.Within P ∧ Clean b s' ∧ Spent k s s' ∧ NoPages E e s'

theorem mapPages_spec (hr : r ∈ v.spaces) (hH : Holds a pool v r img s.pmm) (hw : img.Within P)
    (hc : Clean b s) {i : ℕ} (hij : i ≤ j) (htop : j * pgSize ≤ a.userSpaceTop) (hP : ∀ n, i ≤ n ∧ n < j → P n)
    (w x : Bool) :
    wp (pageLoop (mapPage a E r · (userPagePerm w x)) (j + 1) (i * pgSize) (j * pgSize))
      (fun _ s' => Holds a pool v r (img.touch i j w x) s'.pmm ∧ Clean b s' ∧ Spent (a.ptWalkLevels * (j - i)) s s')
      (RanOut a b pool v r E P (a.ptWalkLevels * (j - i)) s) s := by
  have h64 := userSpaceTop_lt a
  have hloop := pageLoop_spec (s := s) (j := j) (f := (mapPage a E r · (userPagePerm w x)))
    (P := fun n s' => i ≤ n ∧ Holds a pool v r (img.touch i n w x) s'.pmm ∧ Clean b s' ∧
      Spent (a.ptWalkLevels * (n - i)) s s')
    (R := RanOut a b pool v r E P (a.ptWalkLevels * (j - i)) s) (by omega) ?_ (j + 1) i hij (by omega) ?_
  · exact wp_mono hloop (fun _ _ h => h.2) fun _ _ h => h
  · rintro n s₁ hn ⟨hin, hH₁, hc₁, hsp⟩
    have hlt : n * pgSize < a.userSpaceTop := lt_of_lt_of_le (Nat.mul_lt_mul_of_pos_right hn (by decide)) htop
    have hcost : a.ptWalkLevels * (n - i) + a.ptWalkLevels = a.ptWalkLevels * (n + 1 - i) := by
      rw [show n + 1 - i = n - i + 1 by omega]
      ring
    refine wp_mono (mapPage_spec hH₁ hr hlt w x) ?_ ?_
    · rintro - s₂ ⟨hH₂, hlog, hspent⟩
      rw [Image.touch_touch _ hin] at hH₂
      have hall := hsp.trans hspent
      rw [hcost] at hall
      exact ⟨by omega, hH₂, hlog.clean hc₁, hall⟩
    · rintro e s₂ ⟨hH₂, hlog, hspent, hno⟩
      have hall := hsp.trans hspent
      rw [hcost] at hall
      refine ⟨_, hH₂, hw.touch (fun k hk => hP k (by omega)) w x, hlog.clean hc₁, hall.mono ?_, hno⟩
      exact Nat.mul_le_mul_left _ (by omega)
  · refine ⟨le_rfl, ?_, hc, ?_⟩
    · rw [Image.touch_none]
      exact hH
    · exact Nat.le_add_right _ _

theorem userSpaceTop_add (a : Arch) : a.userSpaceTop + pgSize < 2 ^ 64 ∧ 0 < pgSize := by
  cases a with
  | x86 => norm_num [Arch.userSpaceTop, pgSize]
  | aarch64 => norm_num [Arch.userSpaceTop, pgSize]
  | riscv64 => norm_num [Arch.userSpaceTop, pgSize]

theorem ProgramHeader.start_eq (ph : ProgramHeader) : ph.va - ph.va % pgSize = ph.firstPage * pgSize := by
  have := Nat.div_add_mod ph.va pgSize
  rw [ProgramHeader.firstPage, Nat.mul_comm]
  omega

theorem ProgramHeader.firstPage_le (ph : ProgramHeader) : ph.firstPage ≤ ph.endPage := by
  unfold ProgramHeader.firstPage ProgramHeader.endPage pgSize
  omega

theorem ProgramHeader.Good.endPage_le {fileSize : ℕ} (hg : ph.Good a fileSize) (hl : ph.Loads) :
    ph.endPage * pgSize ≤ a.userSpaceTop := by
  have hhigh := hg.high hl
  unfold ProgramHeader.endPage
  cases a with
  | x86 =>
    simp only [Arch.userSpaceTop, pgSize] at *
    omega
  | aarch64 =>
    simp only [Arch.userSpaceTop, pgSize] at *
    omega
  | riscv64 =>
    simp only [Arch.userSpaceTop, pgSize] at *
    omega

theorem loadSegment_spec (hr : r ∈ v.spaces) (hH : Holds a pool v r img s.pmm) (hw : img.Within (SegmentPage a))
    (hc : Clean b s) (hg : ph.Good a b.size) :
    wp (loadSegment a E b r ph)
      (fun _ s' => Holds a pool v r (img.load b ph) s'.pmm ∧ Clean b s' ∧ Spent (a.ptWalkLevels * ph.pages) s s')
      (RanOut a b pool v r E (SegmentPage a) (a.ptWalkLevels * ph.pages) s) s := by
  unfold loadSegment Image.load ProgramHeader.pages
  by_cases hl : ph.Loads
  · obtain ⟨hfile, hin⟩ := hg.file hl.1
    have hlow := hg.low hl
    have hhigh := hg.high hl
    have h64 := userSpaceTop_lt a
    have hfits := b.fits
    have hbig := userSpaceTop_add a
    have hskip : ¬(ph.type ≠ elfPtLoad ∨ ph.memsz = 0) := by
      rintro (h | h)
      · exact h hl.1
      · exact hl.2 h
    have hpages := ph.firstPage_le
    have hend := hg.endPage_le hl
    rw [if_neg hskip, if_pos hl, if_pos hl]
    refine (wp_bind _ _).2 ((wp_add64 (by omega)).2 ?_)
    refine (wp_bind _ _).2 ((wp_add64 (by omega)).2 ?_)
    refine (wp_bind _ _).2 ((wp_sub64 (by omega) (by omega)).2 ?_)
    refine (wp_bind _ _).2 ?_
    have hmap := mapPages_spec (E := E) hr hH hw hc hpages hend (fun n hn => hg.page hl hn) ph.writable ph.executable
    rw [ph.start_eq, ← ProgramHeader.endPage, page_div]
    refine wp_mono hmap ?_ fun _ _ h => h
    rintro - s₁ ⟨hH₁, hc₁, hsp⟩
    by_cases hsz : 0 < ph.filesz
    · rw [if_pos hsz]
      refine (wp_bind _ _).2 ((wp_add64 (by omega)).2 ?_)
      refine wp_mono (copyLoop_spec hr (ph.filesz + 1) hH₁ hc₁ (by omega) (by omega) ?_ hin) ?_
        fun _ _ h => h.elim
      · intro va hva hva'
        have hpage : ph.firstPage ≤ va / pgSize ∧ va / pgSize < ph.endPage := by
          unfold ProgramHeader.firstPage ProgramHeader.endPage pgSize
          omega
        simp only [Image.touch, hpage, and_self, if_true]
        unfold merge
        split
        · simp
        · simp
      · rintro - s₂ ⟨hH₂, hc₂, hfree⟩
        refine ⟨hH₂, hc₂, ?_⟩
        unfold Spent at hsp ⊢
        rw [hfree]
        exact hsp
    · rw [if_neg hsz]
      obtain h0 : ph.filesz = 0 := by omega
      refine ⟨?_, hc₁, hsp⟩
      rw [h0, Image.copy, blit_zero]
      exact hH₁
  · have hskip : ph.type ≠ elfPtLoad ∨ ph.memsz = 0 := by
      by_contra h
      rw [not_or, not_not] at h
      exact hl h
    rw [if_pos hskip, if_neg hl, if_neg hl]
    exact ⟨hH, hc, Nat.le_add_right _ _⟩

/-! ## All segments -/

def Buffer.segmentsFrom (b : Buffer) (i n : ℕ) : List ProgramHeader := (List.range' i n).map b.segment

def Buffer.segments (b : Buffer) : List ProgramHeader := b.segmentsFrom 0 b.header.phnum

theorem Buffer.segmentsFrom_succ (b : Buffer) (i n : ℕ) :
    b.segmentsFrom i (n + 1) = b.segment i :: b.segmentsFrom (i + 1) n := by
  rw [segmentsFrom, List.range'_succ, List.map_cons, segmentsFrom]

theorem Buffer.mem_segments : ph ∈ b.segments ↔ ∃ i < b.header.phnum, b.segment i = ph := by
  simp [segments, segmentsFrom]

def Image.loadAll (img : Image) (b : Buffer) (phs : List ProgramHeader) : Image := phs.foldl (fun img ph => img.load b ph) img

def pageVisits (phs : List ProgramHeader) : ℕ := (phs.map ProgramHeader.pages).sum

theorem readProgramHeader_spec {Q : ProgramHeader → LoadState → Prop} {R : Stop → LoadState → Prop} {i : ℕ}
    (hents : b.header.phentsize = programHeaderSize) (hin : b.header.phoff + (i + 1) * programHeaderSize ≤ b.size)
    (hQ : ∀ s', Looked b s s' → Q (b.segment i) s') : wp (readProgramHeader b b.header i) Q R s := by
  have hfits := b.fits
  have hlt : b.header.phoff + i * programHeaderSize + programHeaderSize ≤ b.size := by
    unfold programHeaderSize at hin ⊢
    omega
  simp only [readProgramHeader, wp_bind, hents]
  refine (wp_add64 (by omega)).2 ((wp_add64 (by omega)).2 (wp_read hlt hQ))

theorem loadLoop_spec (hr : r ∈ v.spaces) (hents : b.header.phentsize = programHeaderSize) (n i : ℕ)
    (hH : Holds a pool v r img s.pmm) (hw : img.Within (SegmentPage a)) (hc : Clean b s)
    (hin : b.header.phoff + (i + n) * programHeaderSize ≤ b.size)
    (hgood : ∀ ph ∈ b.segmentsFrom i n, ph.Good a b.size) :
    wp (loadLoop a E b r b.header n i)
      (fun _ s' => Holds a pool v r (img.loadAll b (b.segmentsFrom i n)) s'.pmm ∧ Clean b s' ∧
        Spent (a.ptWalkLevels * pageVisits (b.segmentsFrom i n)) s s')
      (RanOut a b pool v r E (SegmentPage a) (a.ptWalkLevels * pageVisits (b.segmentsFrom i n)) s) s := by
  induction n generalizing i img s with
  | zero => exact ⟨hH, hc, Nat.le_add_right _ _⟩
  | succ n ih =>
    rw [Buffer.segmentsFrom_succ] at hgood ⊢
    have hg := hgood (b.segment i) List.mem_cons_self
    have hvisits : a.ptWalkLevels * pageVisits (b.segment i :: b.segmentsFrom (i + 1) n) =
        a.ptWalkLevels * (b.segment i).pages + a.ptWalkLevels * pageVisits (b.segmentsFrom (i + 1) n) := by
      rw [pageVisits, List.map_cons, List.sum_cons, Nat.mul_add]
      rfl
    simp only [loadLoop, wp_bind]
    refine readProgramHeader_spec hents ?_ fun s₁ hs₁ => ?_
    · unfold programHeaderSize at hin ⊢
      omega
    have hH₁ : Holds a pool v r img s₁.pmm := by
      rw [hs₁.pmm]
      exact hH
    refine wp_mono (loadSegment_spec hr hH₁ hw (hs₁.clean hc) hg) ?_ ?_
    · rintro - s₂ ⟨hH₂, hc₂, hsp₂⟩
      have hrest := ih (i + 1) hH₂ (hw.load fun hl k hk => hg.page hl hk) hc₂
        (by rw [show i + 1 + n = i + (n + 1) by omega]; exact hin)
        (fun ph hph => hgood ph (List.mem_cons_of_mem _ hph))
      refine wp_mono hrest ?_ ?_
      · rintro - s₃ ⟨hH₃, hc₃, hsp₃⟩
        refine ⟨hH₃, hc₃, ?_⟩
        rw [hvisits]
        exact (hs₁.spent hsp₂).trans hsp₃
      · rintro e s₃ ⟨img', hH₃, hw₃, hc₃, hsp₃, hno⟩
        refine ⟨img', hH₃, hw₃, hc₃, ?_, hno⟩
        rw [hvisits]
        exact (hs₁.spent hsp₂).trans hsp₃
    · rintro e s₂ ⟨img', hH₂, hw₂, hc₂, hsp₂, hno⟩
      refine ⟨img', hH₂, hw₂, hc₂, (hs₁.spent hsp₂).mono ?_, hno⟩
      rw [hvisits]
      exact Nat.le_add_right _ _

def Buffer.image (b : Buffer) : Image := Image.empty.loadAll b b.segments

theorem Accepted.good (h : Accepted a b) : ∀ ph ∈ b.segments, ph.Good a b.size := by
  intro ph hph
  obtain ⟨i, hi, rfl⟩ := Buffer.mem_segments.1 hph
  exact h.segments i hi

theorem loadSegments_spec (hr : r ∈ v.spaces) (hacc : Accepted a b) (hH : Holds a pool v r .empty s.pmm)
    (hc : Clean b s) :
    wp (loadSegments a E b r)
      (fun entry s' => entry = b.header.entry ∧ Holds a pool v r b.image s'.pmm ∧ Clean b s' ∧
        Spent (a.ptWalkLevels * pageVisits b.segments) s s')
      (RanOut a b pool v r E (SegmentPage a) (a.ptWalkLevels * pageVisits b.segments) s) s := by
  refine (wp_bind _ _).2 (readHeader_spec hacc.header fun s₁ hs₁ => (wp_bind _ _).2 ?_)
  have hH₁ : Holds a pool v r .empty s₁.pmm := by
    rw [hs₁.pmm]
    exact hH
  have htab : b.header.phoff + (0 + b.header.phnum) * programHeaderSize ≤ b.size := by
    rw [Nat.zero_add]
    exact hacc.table
  have hempty : Image.empty.Within (SegmentPage a) := fun _ hn => absurd rfl hn
  have hloop := loadLoop_spec (E := E) hr hacc.entsize b.header.phnum 0 hH₁ hempty (hs₁.clean hc) htab hacc.good
  refine wp_mono hloop ?_ ?_
  · rintro - s₂ ⟨hH₂, hc₂, hsp⟩
    exact ⟨rfl, hH₂, hc₂, hs₁.spent hsp⟩
  · rintro e s₂ ⟨img, hH₂, hw, hc₂, hsp, hno⟩
    exact ⟨img, hH₂, hw, hc₂, hs₁.spent hsp, hno⟩

theorem Image.Within.loadAll (h : img.Within P) {phs : List ProgramHeader}
    (hP : ∀ ph ∈ phs, ph.Loads → ∀ n, ph.firstPage ≤ n ∧ n < ph.endPage → P n) : (img.loadAll b phs).Within P := by
  induction phs generalizing img with
  | nil => exact h
  | cons ph phs ih =>
    exact ih (h.load (hP ph List.mem_cons_self)) fun ph' hph' => hP ph' (List.mem_cons_of_mem _ hph')

theorem Accepted.within (h : Accepted a b) : b.image.Within (SegmentPage a) :=
  Image.Within.loadAll (fun _ hn => absurd rfl hn) fun ph hph hl _ hn => (h.good ph hph).page hl hn

/-! ## The stack -/

/-- A page of the user half other than the first. -/
def UserPage (a : Arch) (n : ℕ) : Prop := pgSize ≤ n * pgSize ∧ (n + 1) * pgSize ≤ a.userSpaceTop

def stackFirst (a : Arch) : ℕ := (a.userStackTop - userStackSize) / pgSize
def stackEnd (a : Arch) : ℕ := a.userStackTop / pgSize

theorem stack_pages (a : Arch) : stackFirst a * pgSize = a.userStackTop - userStackSize ∧
    stackEnd a * pgSize = a.userStackTop ∧ stackEnd a = stackFirst a + 4 ∧ 0 < stackFirst a ∧
    userStackSize ≤ a.userStackTop ∧ userStackSize / pgSize = 4 := by
  cases a with
  | x86 => norm_num [stackFirst, stackEnd, Arch.userStackTop, userStackSize, pgSize]
  | aarch64 => norm_num [stackFirst, stackEnd, Arch.userStackTop, userStackSize, pgSize]
  | riscv64 => norm_num [stackFirst, stackEnd, Arch.userStackTop, userStackSize, pgSize]

theorem SegmentPage.user (h : SegmentPage a n) : UserPage a n := ⟨h.1, h.2.1⟩

theorem stack_userPage (hn : stackFirst a ≤ n ∧ n < stackEnd a) : UserPage a n ∧ ¬SegmentPage a n := by
  obtain ⟨hfirst, hend, -, hpos, -, -⟩ := stack_pages a
  have htop := userStackTop_lt a
  have hlow : stackFirst a * pgSize ≤ n * pgSize := Nat.mul_le_mul_right _ hn.1
  have hhigh : n * pgSize < stackEnd a * pgSize := Nat.mul_lt_mul_of_pos_right hn.2 (by decide)
  have hsucc : (n + 1) * pgSize ≤ stackEnd a * pgSize := Nat.mul_le_mul_right _ hn.2
  have hone : 1 * pgSize ≤ n * pgSize := Nat.mul_le_mul_right _ (by omega)
  refine ⟨⟨by omega, by omega⟩, fun h => h.2.2 ⟨?_, ?_⟩⟩
  · rw [← hfirst]
    exact hlow
  · rw [← hend]
    exact hhigh

theorem setupUserStack_spec (hr : r ∈ v.spaces) (hH : Holds a pool v r img s.pmm) (hw : img.Within (SegmentPage a))
    (hc : Clean b s) :
    wp (setupUserStack a E r)
      (fun top s' => top = a.userStackTop ∧
        Holds a pool v r (img.touch (stackFirst a) (stackEnd a) true false) s'.pmm ∧ Clean b s' ∧
        Spent (a.ptWalkLevels * 4) s s')
      (RanOut a b pool v r E (UserPage a) (a.ptWalkLevels * 4) s) s := by
  obtain ⟨hfirst, hend, hfour, -, hsize, hpages⟩ := stack_pages a
  have htop := userStackTop_lt a
  have h64 := userSpaceTop_lt a
  refine (wp_bind _ _).2 ((wp_sub64 hsize (by omega)).2 ((wp_bind _ _).2 ?_))
  rw [← hfirst, ← hend, hpages]
  have hloop := pageLoop_spec (s := s) (j := stackEnd a) (f := (mapZeroed a E r · vmUserRw))
    (P := fun n s' => stackFirst a ≤ n ∧ Holds a pool v r (img.touch (stackFirst a) n true false) s'.pmm ∧ Clean b s' ∧
      Spent (a.ptWalkLevels * (n - stackFirst a)) s s')
    (R := RanOut a b pool v r E (UserPage a) (a.ptWalkLevels * 4) s) (by omega) ?_ (4 + 1) (stackFirst a) (by omega)
    (by omega) ?_
  · refine wp_mono hloop ?_ fun _ _ h => h
    rintro - s₁ ⟨-, hH₁, hc₁, hsp⟩
    rw [show stackEnd a - stackFirst a = 4 by omega] at hsp
    exact ⟨rfl, hH₁, hc₁, hsp⟩
  · rintro n s₁ hn ⟨hin, hH₁, hc₁, hsp⟩
    obtain ⟨huser, hseg⟩ := stack_userPage (a := a) ⟨hin, hn⟩
    have hlt : n * pgSize < a.userSpaceTop := by
      have := huser.2
      have := (userSpaceTop_add a).2
      rw [Nat.add_mul, Nat.one_mul] at *
      omega
    have hnone : (img.touch (stackFirst a) n true false).perm n = none := by
      have hold : img.perm n = none := by
        by_contra hne
        exact hseg (hw n hne)
      simp only [Image.touch, lt_irrefl, and_false, if_false, hold]
    have hcost : a.ptWalkLevels * (n - stackFirst a) + a.ptWalkLevels = a.ptWalkLevels * (n + 1 - stackFirst a) := by
      rw [show n + 1 - stackFirst a = n - stackFirst a + 1 by omega]
      ring
    refine wp_mono (mapZeroed_spec hH₁ hr hlt hnone true false) ?_ ?_
    · rintro - s₂ ⟨hH₂, hlog, hspent⟩
      rw [Image.touch_touch _ hin] at hH₂
      have hall := hsp.trans hspent
      rw [hcost] at hall
      exact ⟨by omega, hH₂, hlog.clean hc₁, hall⟩
    · rintro e s₂ ⟨hH₂, hlog, hspent, hno⟩
      have hall := hsp.trans hspent
      rw [hcost] at hall
      refine ⟨_, hH₂, ?_, hlog.clean hc₁, hall.mono (Nat.mul_le_mul_left _ (by omega)), hno⟩
      exact Image.Within.touch (fun k hk => (hw k hk).user) (fun k hk => (stack_userPage ⟨hk.1, by omega⟩).1) _ _
  · refine ⟨le_rfl, ?_, hc, Nat.le_add_right _ _⟩
    rw [Image.touch_none]
    exact hH

/-! ## A fresh address space -/

theorem fresh_holds {w : State} (hI : Inv a pool w) (hnew : createUserPgdir E w = (some r, v)) :
    r ∈ v.spaces ∧ Holds a pool v r .empty v.pmm := by
  obtain heq | ⟨p, hp, heq⟩ := createUserPgdir_cases E w
  · rw [heq] at hnew
    cases hnew
  · rw [heq] at hnew
    cases hnew
    refine ⟨Multiset.mem_cons_self r _, hI.created hp, ⟨?_, ?_⟩, rfl⟩
    · intro va _ _
      refine ⟨?_, rfl⟩
      rw [leafWord, leafSlot_created]
      rfl
    · intro va _ w' x hperm
      cases hperm

/-- The loader is about to start. -/
def LoadState.start (v : State) : LoadState := ⟨v.pmm, [], false⟩

theorem LoadState.start_clean (b : Buffer) (v : State) : Clean b (.start v) :=
  ⟨fun _ hx => absurd hx List.not_mem_nil, rfl⟩

/-- What a run of the loader on the page table at `r` did: it read only the buffer, computed every address without
wrapping, mapped pages of `P` only, left the kernel half alone and stopped for nothing but the lack of pages. -/
structure SafeRun {α : Type} (a : Arch) (E : Env) (b : Buffer) (v : State) (r : ℕ) (P : ℕ → Prop)
    (result : Except Stop α × LoadState) : Prop where
  reads : ∀ x ∈ result.2.reads, b.base ≤ x.1 ∧ x.1 + x.2 ≤ b.base + b.size
  wrapped : result.2.wrapped = false
  pages : ∀ va < a.userSpaceTop, leafWord a result.2.pmm.mem r va ≠ 0 → P (va / pgSize)
  kernelHalf : ∀ i, userTop i = false → result.2.pmm.mem r i = v.pmm.mem r i
  error : ∀ e, result.1 = .error e → e = .error .noMem ∧ (E.Willing → Multiset.card result.2.pmm.free ≤ 1)

theorem Holds.pages {m : Pmm} (hH : Holds a pool v r img m) (hw : img.Within P) :
    ∀ va < a.userSpaceTop, leafWord a m.mem r va ≠ 0 → P (va / pgSize) := by
  intro va hva hne
  apply hw
  intro hnone
  exact hne (hH.shows.empty va hva hnone).1

theorem Holds.kernelHalf {m : Pmm} {img' : Image} (hH : Holds a pool v r img m) (hH' : Holds a pool v r img' v.pmm)
    (hr : r ∈ v.spaces) : ∀ i, userTop i = false → m.mem r i = v.pmm.mem r i := by
  intro i hi
  have h := (hH.inv.space r hr).kernelHalf i hi
  have h' := (hH'.inv.space r hr).kernelHalf i hi
  change m.mem r i = m.mem v.kernelPgdir i at h
  change v.pmm.mem r i = v.pmm.mem v.kernelPgdir i at h'
  rw [h, h', hH.kernel]

theorem safeRun_of_wp {α : Type} {m : Load α} (hr : r ∈ v.spaces)
    (hH : Holds a pool v r .empty v.pmm)
    (hrun : wp m (fun _ s' => ∃ img, Holds a pool v r img s'.pmm ∧ img.Within P ∧ Clean b s')
      (RanOut a b pool v r E P k (.start v)) s) : SafeRun a E b v r P (m s) := by
  unfold wp at hrun
  generalize m s = result at hrun
  obtain ⟨e | x, s'⟩ := result
  · obtain ⟨img, hH', hw, hc, -, hno⟩ := hrun
    refine ⟨hc.reads, hc.wrapped, hH'.pages hw, hH'.kernelHalf hH hr, ?_⟩
    rintro e' ⟨⟩
    exact hno
  · obtain ⟨img, hH', hw, hc⟩ := hrun
    exact ⟨hc.reads, hc.wrapped, hH'.pages hw, hH'.kernelHalf hH hr, fun e h => by cases h⟩

theorem validate_ok (hok : (validate a b s).1 = .ok ()) : Looked b s (validate a b s).2 ∧ Accepted a b :=
  wp_fst (validate_spec (Q := fun _ s' => Looked b s s' ∧ Accepted a b) (E := fun _ _ => True) (fun _ _ => trivial)
    fun _ hs' hacc => ⟨hs', hacc⟩) hok

theorem validate_error (a : Arch) (b : Buffer) (s : LoadState) : (validate a b s).2.pmm = s.pmm :=
  wp_left.1 (validate_spec (fun _ hs' => hs'.pmm) fun _ hs' _ => hs'.pmm)

theorem load_spec (hr : r ∈ v.spaces) (hok : (validate a b (.start v)).1 = .ok ())
    (hH : Holds a pool v r .empty v.pmm) :
    wp (load a E b r)
      (fun entry s' => entry = b.header.entry ∧ Holds a pool v r b.image s'.pmm ∧ Clean b s' ∧
        Spent (a.ptWalkLevels * pageVisits b.segments) (.start v) s')
      (RanOut a b pool v r E (SegmentPage a) (a.ptWalkLevels * pageVisits b.segments) (.start v)) (.start v) := by
  obtain ⟨hlook, hacc⟩ := validate_ok hok
  refine (wp_bind _ _).2 ((wp_of_ok (Prod.ext hok rfl)).2 ?_)
  have hH₁ : Holds a pool v r .empty (validate a b (.start v)).2.pmm := by
    rw [hlook.pmm]
    exact hH
  refine wp_mono (loadSegments_spec hr hacc hH₁ (hlook.clean (LoadState.start_clean b v))) ?_ ?_
  · rintro entry s' ⟨hentry, hH', hc, hsp⟩
    exact ⟨hentry, hH', hc, hlook.spent hsp⟩
  · rintro e s' ⟨img, hH', hw, hc, hsp, hno⟩
    exact ⟨img, hH', hw, hc, hlook.spent hsp, hno⟩

theorem RanOut.mono {P' : ℕ → Prop} {k' : ℕ} {e : Stop} {s' : LoadState} (h : RanOut a b pool v r E P k s e s')
    (hP : ∀ n, P n → P' n) (hk : k ≤ k') : RanOut a b pool v r E P' k' s e s' := by
  obtain ⟨img, hH, hw, hc, hsp, hno⟩ := h
  exact ⟨img, hH, fun n hn => hP n (hw n hn), hc, hsp.mono hk, hno⟩

theorem loadImage_spec (hr : r ∈ v.spaces) (hok : (validate a b (.start v)).1 = .ok ())
    (hH : Holds a pool v r .empty v.pmm) :
    wp (loadImage a E b r)
      (fun result s' => result = (b.header.entry, a.userStackTop) ∧
        Holds a pool v r (b.image.touch (stackFirst a) (stackEnd a) true false) s'.pmm ∧ Clean b s' ∧
        Spent (a.ptWalkLevels * (pageVisits b.segments + 4)) (.start v) s')
      (RanOut a b pool v r E (UserPage a) (a.ptWalkLevels * (pageVisits b.segments + 4)) (.start v)) (.start v) := by
  have hin := (validate_ok hok).2.within
  refine (wp_bind _ _).2 (wp_mono (load_spec hr hok hH) ?_ ?_)
  · rintro entry s₁ ⟨rfl, hH₁, hc₁, hsp₁⟩
    refine (wp_bind _ _).2 (wp_mono (setupUserStack_spec hr hH₁ hin hc₁) ?_ ?_)
    · rintro top s₂ ⟨rfl, hH₂, hc₂, hsp₂⟩
      refine ⟨rfl, hH₂, hc₂, ?_⟩
      rw [Nat.mul_add]
      exact hsp₁.trans hsp₂
    · rintro e s₂ ⟨img, hH₂, hw, hc₂, hsp₂, hno⟩
      refine ⟨img, hH₂, hw, hc₂, ?_, hno⟩
      rw [Nat.mul_add]
      exact hsp₁.trans hsp₂
  · intro e s₁ h
    exact h.mono (fun _ hn => hn.user) (Nat.mul_le_mul_left _ (Nat.le_add_right _ _))

/-- A file that `validate` rejects changes no memory; one that it accepts is loaded safely, the stack after it, and
never a segment where the stack goes. -/
theorem elf_validate_suffices (a : Arch) (E : Env) (b : Buffer) {pool : Multiset ℕ} {w v : State} {r : ℕ}
    (hI : Inv a pool w) (hnew : createUserPgdir E w = (some r, v)) :
    (∀ e, (validate a b (.start v)).1 = .error e →
      (load a E b r (.start v)).1 = .error e ∧ (load a E b r (.start v)).2.pmm = v.pmm) ∧
    ((validate a b (.start v)).1 = .ok () →
      SafeRun a E b v r (SegmentPage a) (load a E b r (.start v)) ∧
      SafeRun a E b v r (UserPage a) (loadImage a E b r (.start v))) := by
  obtain ⟨hr, hH⟩ := fresh_holds hI hnew
  constructor
  · intro e he
    have hload : load a E b r (.start v) = (.error e, (validate a b (.start v)).2) := bind_of_error (Prod.ext he rfl) _
    rw [hload]
    exact ⟨rfl, validate_error a b (.start v)⟩
  · intro hok
    have hin := (validate_ok hok).2.within
    have hstack : (b.image.touch (stackFirst a) (stackEnd a) true false).Within (UserPage a) :=
      Image.Within.touch (fun n hn => (hin n hn).user) (fun n hn => (stack_userPage hn).1) _ _
    exact ⟨safeRun_of_wp hr hH (wp_mono (load_spec hr hok hH) (fun _ _ h => ⟨_, h.2.1, hin, h.2.2.1⟩) fun _ _ h => h),
      safeRun_of_wp hr hH (wp_mono (loadImage_spec hr hok hH) (fun _ _ h => ⟨_, h.2.1, hstack, h.2.2.1⟩) fun _ _ h => h)⟩

/-- A file with one segment: all of its 120 bytes, at the page after the first. -/
def tinyElf : Buffer where
  base := 0x80000000
  size := 120
  bytes := fun i => ([0x7f, 0x45, 0x4c, 0x46, 2, 1, 1, 0, 0, 0, 0, 0, 0, 0, 0, 0, 2, 0, 0xf3, 0, 1, 0, 0, 0,
    0x00, 0x10, 0, 0, 0, 0, 0, 0, 64, 0, 0, 0, 0, 0, 0, 0, 0, 0, 0, 0, 0, 0, 0, 0, 0, 0, 0, 0, 64, 0, 56, 0, 1, 0, 0, 0,
    0, 0, 0, 0, 1, 0, 0, 0, 5, 0, 0, 0, 0, 0, 0, 0, 0, 0, 0, 0, 0x00, 0x10, 0, 0, 0, 0, 0, 0, 0, 0, 0, 0, 0, 0, 0, 0,
    120, 0, 0, 0, 0, 0, 0, 0, 120, 0, 0, 0, 0, 0, 0, 0, 0, 0, 0, 0, 0, 0, 0, 0] : List (BitVec 8)).getD i 0
  fits := by norm_num

theorem elf_validate_suffices_tinyElf :
    (validate .riscv64 tinyElf (.start afterCreate)).1 = .ok () ∧
      (loadImage .riscv64 ascending tinyElf 10 (.start afterCreate)).1 = .ok (0x1000, 0x3fffffe000) ∧
      SafeRun .riscv64 ascending tinyElf afterCreate 10 (UserPage .riscv64)
        (loadImage .riscv64 ascending tinyElf 10 (.start afterCreate)) := by
  have hok : (validate .riscv64 tinyElf (.start afterCreate)).1 = .ok () := by decide +kernel
  have hnew : createUserPgdir ascending booted = (some 10, afterCreate) := Prod.ext (by decide +kernel) rfl
  refine ⟨hok, by decide +kernel, ?_⟩
  exact ((elf_validate_suffices .riscv64 ascending tinyElf (booted_fresh.inv .riscv64) hnew).2 hok).2

end Zonix.Exec
