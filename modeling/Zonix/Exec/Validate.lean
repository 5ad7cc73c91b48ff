import Mathlib
import Zonix.Exec.Elf

/-!
# What `elf::validate` accepts

Every check of `elf::validate`, on the headers that are in the buffer, and that checking reads nothing outside it.
-/

namespace Zonix.Exec

open Zonix.Vm Prog

attribute [local irreducible] leNat

variable {α : Type} {a : Arch} {b : Buffer} {s : LoadState} {E : Stop → LoadState → Prop}

/-! ## Arithmetic that does not wrap -/

variable {y x : ℕ} {Q : ℕ → LoadState → Prop}

theorem wp_add64 (h : x + y < 2 ^ 64) :
    wp (add64 x y) Q E s ↔ Q (x + y) s := by
  have heq : add64 x y s = (.ok (x + y), s) := by
    simp only [add64, u64_eq h, Nat.not_le.2 h, decide_false, Bool.or_false]
  exact wp_of_ok heq

theorem wp_sub64 (h : y ≤ x) (hx : x < 2 ^ 64) :
    wp (sub64 x y) Q E s ↔ Q (x - y) s := by
  have hval : u64 (x + 2 ^ 64 - y) = x - y := by
    unfold u64
    omega
  have heq : sub64 x y s = (.ok (x - y), s) := by
    simp only [sub64, hval, Nat.not_lt.2 h, decide_false, Bool.or_false]
  exact wp_of_ok heq

theorem wp_mul64 (h : x * y < 2 ^ 64) :
    wp (mul64 x y) Q E s ↔ Q (x * y) s := by
  have heq : mul64 x y s = (.ok (x * y), s) := by
    simp only [mul64, u64_eq h, Nat.not_le.2 h, decide_false, Bool.or_false]
  exact wp_of_ok heq

theorem wp_ensureValid {Q : Unit → LoadState → Prop} {c : Prop} [Decidable c] (hE : E (.error .invalid) s)
    (hQ : c → Q () s) : wp (ensureValid c) Q E s := by
  rw [ensureValid, wp_ensure]
  split
  · exact hQ ‹c›
  · exact hE

/-! ## Reads -/

structure Clean (b : Buffer) (s : LoadState) : Prop where
  reads : ∀ x ∈ s.reads, b.base ≤ x.1 ∧ x.1 + x.2 ≤ b.base + b.size
  wrapped : s.wrapped = false

structure Looked (b : Buffer) (s s' : LoadState) : Prop where
  pmm : s'.pmm = s.pmm
  clean : Clean b s → Clean b s'

theorem Looked.refl (b : Buffer) (s : LoadState) : Looked b s s := ⟨rfl, id⟩

theorem Looked.trans {s₁ s₂ : LoadState} (h : Looked b s s₁) (h' : Looked b s₁ s₂) : Looked b s s₂ :=
  ⟨h'.pmm.trans h.pmm, fun hc => h'.clean (h.clean hc)⟩

def Buffer.at (b : Buffer) (off : ℕ) : ℕ → BitVec 8 := fun i => b.bytes (off + i)

theorem wp_read {Q : (ℕ → BitVec 8) → LoadState → Prop} {off n : ℕ} (hin : off + n ≤ b.size)
    (hQ : ∀ s', Looked b s s' → Q (b.at off) s') : wp (b.read (b.base + off) n) Q E s := by
  have hlook : Looked b s { s with reads := s.reads ++ [(b.base + off, n)] } := by
    refine ⟨rfl, fun hc => ⟨?_, hc.wrapped⟩⟩
    intro x hx
    rcases List.mem_append.1 hx with hx | hx
    · exact hc.reads x hx
    · obtain rfl := List.mem_singleton.1 hx
      simp only
      omega
  have hsrc : (fun i => b.bytes (b.base + off - b.base + i)) = b.at off := by
    rw [Nat.add_sub_cancel_left]
    rfl
  have h := hQ _ hlook
  rw [← hsrc] at h
  exact h

/-! ## The headers in the buffer -/

def Buffer.header (b : Buffer) : ElfHeader := .decode (b.at 0)

def Buffer.segment (b : Buffer) (i : ℕ) : ProgramHeader := .decode (b.at (b.header.phoff + i * programHeaderSize))

theorem Buffer.phnum_lt (b : Buffer) : b.header.phnum < 2 ^ 16 := leNat_lt _ _ _

def ProgramHeader.Loads (ph : ProgramHeader) : Prop := ph.type = elfPtLoad ∧ ph.memsz ≠ 0

instance (ph : ProgramHeader) : Decidable ph.Loads := inferInstanceAs (Decidable (_ ∧ _))

structure ProgramHeader.Good (a : Arch) (fileSize : ℕ) (ph : ProgramHeader) : Prop where
  file : ph.type = elfPtLoad → ph.filesz ≤ ph.memsz ∧ ph.offset + ph.filesz ≤ fileSize
  low : ph.Loads → pgSize ≤ ph.va
  high : ph.Loads → ph.va + ph.memsz ≤ a.userSpaceTop
  stack : ph.Loads → ph.va + ph.memsz ≤ a.userStackTop - userStackSize ∨ a.userStackTop ≤ ph.va

def ProgramHeader.HoldsCode (ph : ProgramHeader) (va : ℕ) : Prop :=
  ph.Loads ∧ ph.executable = true ∧ ph.va ≤ va ∧ va < ph.va + ph.memsz

structure Accepted (a : Arch) (b : Buffer) : Prop where
  header : elfHeaderSize ≤ b.size
  entsize : b.header.phentsize = programHeaderSize
  table : b.header.phoff + b.header.phnum * programHeaderSize ≤ b.size
  segments : ∀ i < b.header.phnum, (b.segment i).Good a b.size
  entry : ∃ i < b.header.phnum, (b.segment i).HoldsCode b.header.entry

theorem userSpaceTop_lt (a : Arch) : a.userSpaceTop < 2 ^ 64 := by cases a <;> decide

theorem userStackTop_lt (a : Arch) : a.userStackTop < a.userSpaceTop := by cases a <;> decide

/-! ## The checks -/

theorem validateSegment_spec {Q : Bool → LoadState → Prop} {eh : ElfHeader} {ph : ProgramHeader} {fileSize : ℕ}
    (hsize : fileSize < 2 ^ 64) (hE : E (.error .invalid) s)
    (hQ : ∀ found, ph.Good a fileSize → (found = true → ph.HoldsCode eh.entry) → Q found s) :
    wp (validateSegment a fileSize eh ph) Q E s := by
  have htop := userSpaceTop_lt a
  unfold validateSegment
  by_cases htype : ph.type = elfPtLoad
  · rw [if_neg (not_not.2 htype)]
    simp only [wp_bind]
    refine wp_ensureValid hE fun hfile => wp_ensureValid hE fun hoff => ?_
    refine (wp_sub64 hoff hsize).2 (wp_ensureValid hE fun hroom => ?_)
    have hin : ph.offset + ph.filesz ≤ fileSize := by omega
    by_cases hmem : ph.memsz = 0
    · rw [if_pos hmem]
      have hno : ¬ph.Loads := fun h => h.2 hmem
      exact hQ false ⟨fun _ => ⟨hfile, hin⟩, fun h => absurd h hno, fun h => absurd h hno, fun h => absurd h hno⟩
        (fun h => by cases h)
    · rw [if_neg hmem]
      simp only [wp_bind]
      refine wp_ensureValid hE fun hva => ?_
      refine (wp_sub64 hva.2.le htop).2 (wp_ensureValid hE fun hspace => ?_)
      refine (wp_add64 (by omega)).2 (wp_ensureValid hE fun hstack => ?_)
      refine hQ _ ⟨fun _ => ⟨hfile, hin⟩, fun _ => hva.1, fun _ => by omega, fun _ => hstack⟩ ?_
      intro hfound
      simp only [Bool.and_eq_true, decide_eq_true_eq] at hfound
      exact ⟨⟨htype, hmem⟩, hfound.1.1, hfound.1.2, hfound.2⟩
  · rw [if_pos htype]
    have hno : ¬ph.Loads := fun h => htype h.1
    exact hQ false ⟨fun h => absurd h htype, fun h => absurd h hno, fun h => absurd h hno, fun h => absurd h hno⟩
      (fun h => by cases h)

theorem readTableEntry_spec {Q : ProgramHeader → LoadState → Prop} {i : ℕ}
    (hin : b.header.phoff + (i + 1) * programHeaderSize ≤ b.size)
    (hQ : ∀ s', Looked b s s' → Q (b.segment i) s') : wp (readTableEntry b b.header i) Q E s := by
  have hfits := b.fits
  unfold programHeaderSize at hin
  simp only [readTableEntry, wp_bind]
  refine (wp_add64 (by omega)).2 ((wp_mul64 ?_).2 ((wp_add64 ?_).2 ?_))
  · unfold programHeaderSize
    omega
  · unfold programHeaderSize
    omega
  · rw [Nat.add_assoc]
    refine wp_read ?_ hQ
    unfold programHeaderSize
    omega

theorem validateLoop_spec {Q : Bool → LoadState → Prop} (n i : ℕ) (found : Bool)
    (hin : b.header.phoff + (i + n) * programHeaderSize ≤ b.size) (hE : ∀ s', Looked b s s' → E (.error .invalid) s')
    (hQ : ∀ result s', Looked b s s' → (∀ j, i ≤ j → j < i + n → (b.segment j).Good a b.size) →
      (result = true → found = true ∨ ∃ j, i ≤ j ∧ j < i + n ∧ (b.segment j).HoldsCode b.header.entry) → Q result s') :
    wp (validateLoop a b b.header n i found) Q E s := by
  induction n generalizing i found s with
  | zero => exact hQ found s (.refl b s) (fun j _ _ => by omega) Or.inl
  | succ n ih =>
    have hsize : b.size < 2 ^ 64 := by
      have := b.fits
      omega
    simp only [validateLoop, wp_bind]
    refine readTableEntry_spec ?_ fun s₁ hs₁ => ?_
    · unfold programHeaderSize at hin ⊢
      omega
    refine validateSegment_spec hsize (hE s₁ hs₁) fun hit hgood hhit => ?_
    refine ih (i + 1) (found || hit) ?_ (fun s' hs' => hE s' (hs₁.trans hs')) fun result s' hs' hall hres => ?_
    · rw [show i + 1 + n = i + (n + 1) by omega]
      exact hin
    refine hQ result s' (hs₁.trans hs') (fun j hij hj => ?_) fun ht => ?_
    · by_cases hji : j = i
      · rw [hji]
        exact hgood
      · exact hall j (by omega) (by omega)
    · rcases hres ht with hf | ⟨j, hij, hj, hcode⟩
      · rcases Bool.or_eq_true _ _ ▸ hf with hf | hf
        · exact Or.inl hf
        · exact Or.inr ⟨i, le_rfl, by omega, hhit hf⟩
      · exact Or.inr ⟨j, by omega, by omega, hcode⟩

theorem readHeader_spec {Q : ElfHeader → LoadState → Prop} (hin : elfHeaderSize ≤ b.size)
    (hQ : ∀ s', Looked b s s' → Q b.header s') : wp (readHeader b) Q E s := by
  simp only [readHeader, wp_bind]
  exact wp_read (show 0 + elfHeaderSize ≤ b.size by omega) hQ

theorem validate_spec {Q : Unit → LoadState → Prop} (hE : ∀ s', Looked b s s' → E (.error .invalid) s')
    (hQ : ∀ s', Looked b s s' → Accepted a b → Q () s') : wp (validate a b) Q E s := by
  have hfits := b.fits
  have hnum := b.phnum_lt
  simp only [validate, wp_bind]
  refine wp_ensureValid (hE s (.refl b s)) fun hsize => readHeader_spec hsize fun s₁ hs₁ => ?_
  have hE₁ := hE s₁ hs₁
  refine wp_ensureValid hE₁ fun _ => wp_ensureValid hE₁ fun hents => wp_ensureValid hE₁ fun hoff => ?_
  have hmul : b.header.phnum * programHeaderSize < 2 ^ 64 := by
    unfold programHeaderSize
    omega
  refine (wp_mul64 hmul).2 ((wp_sub64 hoff.2 (by omega)).2 ?_)
  refine wp_ensureValid hE₁ fun htable => wp_ensureValid hE₁ fun _ => ?_
  have htab : b.header.phoff + (0 + b.header.phnum) * programHeaderSize ≤ b.size := by
    rw [Nat.zero_add]
    omega
  refine validateLoop_spec b.header.phnum 0 false htab (fun s' hs' => hE s' (hs₁.trans hs')) fun result s' hs' hall hres => ?_
  rw [Nat.zero_add] at hall hres
  refine wp_ensureValid (hE s' (hs₁.trans hs')) fun hfound => hQ s' (hs₁.trans hs') ?_
  refine ⟨hsize, hents.2, by omega, fun i hi => hall i (Nat.zero_le i) hi, ?_⟩
  rcases hres hfound with hf | ⟨j, -, hj, hcode⟩
  · cases hf
  · exact ⟨j, hj, hcode⟩

end Zonix.Exec
