import Mathlib
import Zonix.Vm.Window

/-!
# Mapping and unmapping a range of device pages

The loops of `MmioAllocator::map` and `MmioAllocator::unmap` over the page table of the kernel, for a range of pages
that nothing is mapped at.
-/

namespace Zonix.Vm

open Zonix.Lib
open Zonix.Lib.Radix

variable {a : Arch} {V off : (ℕ → Fin 512) → Prop} {pgdir va : ℕ} {m m' : Pmm}

def InRange (va n x : ℕ) : Prop := ∃ j < n, x = va + j * pgSize

theorem inRange_succ {n x : ℕ} : InRange va (n + 1) x ↔ x = va ∨ InRange (va + pgSize) n x := by
  constructor
  · rintro ⟨j, hj, rfl⟩
    cases j with
    | zero => exact Or.inl (by omega)
    | succ j => exact Or.inr ⟨j, by omega, by ring⟩
  · rintro (rfl | ⟨j, hj, rfl⟩)
    · exact ⟨0, by omega, by omega⟩
    · exact ⟨j + 1, by omega, by ring⟩

theorem Kernel.mono {off' : (ℕ → Fin 512) → Prop} (hK : Kernel a V pgdir off m) (hoff : ∀ p, off p → off' p) :
    Kernel a V pgdir off' m :=
  { hK with tight := hK.tight.mono hoff }

theorem Changes.none_stays {p : ℕ → Fin 512} (h : Changes a V pgdir (· = va) m m')
    (hva : kernelEntry a pgdir m' (levelIndex va) = none) (hp : kernelEntry a pgdir m p = none) :
    kernelEntry a pgdir m' p = none := by
  by_cases hag : ∀ k ≤ a.ptWalkLevels - 1, p k = levelIndex va k
  · rw [← hva]
    exact content_path hag
  · rw [h.entry p fun va' hva' => hva' ▸ hag, hp]

/-! ## `unmap` -/

theorem unmapPages_effect (off : (ℕ → Fin 512) → Prop) (n offset : ℕ) (hin : ∀ x, InRange (va + offset) n x → V (levelIndex x))
    (hK : Kernel a V pgdir (fun p => off p ∨ ∃ x, InRange (va + offset) n x ∧ p = levelIndex x) m) :
    Kernel a V pgdir off (unmapPages a pgdir va n offset m) ∧
      Changes a V pgdir (InRange (va + offset) n) m (unmapPages a pgdir va n offset m) ∧
      (unmapPages a pgdir va n offset m).panicked = m.panicked ∧
      (∀ p, kernelEntry a pgdir m p = none → kernelEntry a pgdir (unmapPages a pgdir va n offset m) p = none) ∧
      ∀ x, InRange (va + offset) n x → kernelEntry a pgdir (unmapPages a pgdir va n offset m) (levelIndex x) = none := by
  induction n generalizing offset m with
  | zero =>
    refine ⟨hK.mono fun p hp => ?_, .refl _, rfl, fun _ hp => hp, fun x hx => ?_⟩
    · obtain hp | ⟨x, ⟨j, hj, -⟩, -⟩ := hp
      · exact hp
      · omega
    · obtain ⟨j, hj, -⟩ := hx
      omega
  | succ n ih =>
    have hfirst : V (levelIndex (va + offset)) := hin _ (inRange_succ.2 (Or.inl rfl))
    have hnext : ∀ x, InRange (va + (offset + pgSize)) n x → InRange (va + offset) (n + 1) x := by
      intro x hx
      rw [← Nat.add_assoc] at hx
      exact inRange_succ.2 (Or.inr hx)
    have hK₁ : Kernel a V pgdir (fun p => (off p ∨ ∃ x, InRange (va + (offset + pgSize)) n x ∧ p = levelIndex x) ∨
        p = levelIndex (va + offset)) m := by
      refine hK.mono fun p hp => ?_
      obtain hp | ⟨x, hx, rfl⟩ := hp
      · exact Or.inl (Or.inl hp)
      · obtain rfl | hx := inRange_succ.1 hx
        · exact Or.inr rfl
        · rw [Nat.add_assoc] at hx
          exact Or.inl (Or.inr ⟨x, hx, rfl⟩)
    obtain ⟨hK₂, hch, hpan, hnone⟩ := hK₁.unmap hfirst
    obtain ⟨hK₃, hch', hpan', hstay, hnone'⟩ := ih (offset + pgSize) (fun x hx => hin x (hnext x hx)) hK₂
    rw [unmapPages]
    refine ⟨hK₃, ?_, hpan'.trans hpan, fun p hp => hstay p (hch.none_stays hnone hp), fun x hx => ?_⟩
    · refine (hch.mono fun x hx => inRange_succ.2 (Or.inl hx)).trans (hch'.mono hnext)
    · obtain rfl | hx := inRange_succ.1 hx
      · exact hstay _ hnone
      · rw [Nat.add_assoc] at hx
        exact hnone' x hx

/-! ## `map` -/

theorem present_makePtePage (a : Arch) (pa : Word) (perm : VmFlags) : a.ptePresent (a.makePtePage pa perm) = true := by
  rw [a.ptePresent_bit, a.makePtePage_eq, BitVec.getLsbD_or, ← a.ptePresent_bit (a.pageFlags perm),
    (a.pageFlags_read perm).1, Bool.or_true]

/-- No two pages of the range have the same entry. -/
def Apart (a : Arch) (va n : ℕ) : Prop :=
  ∀ i j, i < j → j < n → ¬SamePage a (va + i * pgSize) (va + j * pgSize)

theorem Apart.next {n : ℕ} (h : Apart a va (n + 1)) : Apart a (va + pgSize) n := by
  intro i j hij hj
  have := h (i + 1) (j + 1) (by omega) (by omega)
  rwa [show va + (i + 1) * pgSize = va + pgSize + i * pgSize by ring,
    show va + (j + 1) * pgSize = va + pgSize + j * pgSize by ring] at this

theorem Apart.first {n x : ℕ} (h : Apart a va (n + 1)) (hx : InRange (va + pgSize) n x) : ¬SamePage a va x := by
  obtain ⟨j, hj, rfl⟩ := hx
  have := h 0 (j + 1) (by omega) (by omega)
  rwa [show va + (j + 1) * pgSize = va + pgSize + j * pgSize by ring, Nat.zero_mul, Nat.add_zero] at this

inductive MapPagesAnswer (a : Arch) (V : (ℕ → Fin 512) → Prop) (pgdir va pa : ℕ) (perm : VmFlags) (n mapped : ℕ) (m : Pmm) :
    Option ℕ × Pmm → Prop where
  | done (m' : Pmm) (hK : Kernel a V pgdir (fun _ => False) m')
      (hch : Changes a V pgdir (InRange (va + mapped) n) m m') (hpan : m'.panicked = m.panicked)
      (hpages : ∀ j < n, kernelEntry a pgdir m' (levelIndex (va + mapped + j * pgSize)) =
        some (0, a.makePtePage (BitVec.ofNat 64 (pa + mapped + j * pgSize)) perm)) :
      MapPagesAnswer a V pgdir va pa perm n mapped m (none, m')
  | refused (k : ℕ) (m' : Pmm) (hk : k < n)
      (hK : Kernel a V pgdir (fun p => p = levelIndex (va + mapped + k * pgSize)) m')
      (hch : Changes a V pgdir (InRange (va + mapped) k) m m') (hpan : m'.panicked = m.panicked) :
      MapPagesAnswer a V pgdir va pa perm n mapped m (some (mapped + k * pgSize), m')

theorem MapPagesAnswer.cons {pa : ℕ} {perm : VmFlags} {n mapped : ℕ} {m₁ m₂ : Pmm} {r : Option ℕ × Pmm}
    (hch₁ : Changes a V pgdir (fun _ => False) m m₁) (hch₂ : Changes a V pgdir (· = va + mapped) m₁ m₂)
    (hpan : m₂.panicked = m.panicked) (hap : Apart a (va + mapped) (n + 1))
    (hentry : kernelEntry a pgdir m₂ (levelIndex (va + mapped)) =
      some (0, a.makePtePage (BitVec.ofNat 64 (pa + mapped)) perm))
    (h : MapPagesAnswer a V pgdir va pa perm n (mapped + pgSize) m₂ r) :
    MapPagesAnswer a V pgdir va pa perm (n + 1) mapped m r := by
  have hch : ∀ {k m'}, Changes a V pgdir (InRange (va + (mapped + pgSize)) k) m₂ m' →
      Changes a V pgdir (InRange (va + mapped) (k + 1)) m m' := by
    intro k m' hch
    refine ((hch₁.mono fun _ h => h.elim).trans (hch₂.mono fun x hx => inRange_succ.2 (Or.inl hx))).trans
      (hch.mono fun x hx => inRange_succ.2 (Or.inr ?_))
    rwa [← Nat.add_assoc] at hx
  cases h with
  | done m' hK hch' hpan' hpages =>
    refine .done m' hK (hch hch') (hpan'.trans hpan) fun j hj => ?_
    cases j with
    | zero =>
      rw [Nat.zero_mul, Nat.add_zero, Nat.add_zero, ← hentry]
      apply hch'.entry
      intro x hx hall
      rw [← Nat.add_assoc] at hx
      exact hap.first hx ((samePage_iff a _ _).2 hall)
    | succ j =>
      rw [show va + mapped + (j + 1) * pgSize = va + (mapped + pgSize) + j * pgSize by ring,
        show pa + mapped + (j + 1) * pgSize = pa + (mapped + pgSize) + j * pgSize by ring]
      exact hpages j (by omega)
  | refused k m' hk hK hch' hpan' =>
    rw [show mapped + pgSize + k * pgSize = mapped + (k + 1) * pgSize by ring]
    refine .refused (k + 1) m' (by omega) ?_ (hch hch') (hpan'.trans hpan)
    rw [show va + mapped + (k + 1) * pgSize = va + (mapped + pgSize) + k * pgSize by ring]
    exact hK

theorem mapPages_answers (E : Env) (pa : ℕ) (perm : VmFlags) (n mapped : ℕ)
    (hin : ∀ x, InRange (va + mapped) n x → V (levelIndex x))
    (hfresh : ∀ x, InRange (va + mapped) n x → kernelEntry a pgdir m (levelIndex x) = none)
    (hap : Apart a (va + mapped) n) (hK : Kernel a V pgdir (fun _ => False) m) :
    MapPagesAnswer a V pgdir va pa perm n mapped m (mapPages a E pgdir va pa perm n mapped m) := by
  induction n generalizing mapped m with
  | zero => exact .done m hK (.refl _) rfl fun j hj => absurd hj (by omega)
  | succ n ih =>
    have hfirst : InRange (va + mapped) (n + 1) (va + mapped) := inRange_succ.2 (Or.inl rfl)
    have hnext : ∀ x, InRange (va + (mapped + pgSize)) n x → InRange (va + mapped) (n + 1) x := by
      intro x hx
      rw [← Nat.add_assoc] at hx
      exact inRange_succ.2 (Or.inr hx)
    obtain ⟨hK₁, hch₁, hpan₁, hslot⟩ := hK.get E (hin _ hfirst)
    rw [mapPages]
    generalize getPte a E pgdir (va + mapped) true m = r at hK₁ hch₁ hpan₁ hslot ⊢
    obtain ⟨_ | pte, m₁⟩ := r
    · have hfail : MapPagesAnswer a V pgdir va pa perm (n + 1) mapped m (some (mapped + 0 * pgSize), m₁) :=
        .refused 0 m₁ (Nat.succ_pos n) (hK₁.mono fun p hp => by simpa using hp) (hch₁.mono fun _ h => h.elim) hpan₁
      rwa [Nat.zero_mul, Nat.add_zero] at hfail
    · have hs := hslot pte rfl
      have hsame : ∀ p, kernelEntry a pgdir m₁ p = kernelEntry a pgdir m p := fun p => hch₁.entry p fun _ h => h.elim
      -- the assertion holds: the page has no entry
      have hzero : m₁.mem pte.1 pte.2 = 0 := by
        by_contra hne
        have hentry := hsame (levelIndex (va + mapped))
        rw [hfresh _ hfirst, kernelEntry, content_slot hs, if_neg hne] at hentry
        cases hentry
      simp only [hzero, a.ptePresent_zero, Bool.or_false]
      obtain ⟨hK₂, hch₂, hentry⟩ := hK₁.put m₁.panicked (hin _ hfirst) hs
        (Arch.ne_zero_of_present (present_makePtePage a (BitVec.ofNat 64 (pa + mapped)) perm))
      refine .cons hch₁ hch₂ hpan₁ hap hentry (ih (mapped + pgSize) (fun x hx => hin x (hnext x hx)) ?_ ?_ hK₂)
      · intro x hx
        rw [hch₂.entry, hsame, hfresh x (hnext x hx)]
        rintro _ rfl hall
        rw [← Nat.add_assoc] at hx
        exact hap.first hx ((samePage_iff a _ _).2 fun k hk => (hall k hk).symm)
      · rw [← Nat.add_assoc]
        exact hap.next

/-! ## Putting a range back -/

structure Restored (a : Arch) (pgdir : ℕ) (m m' : Pmm) : Prop where
  entry : ∀ p, kernelEntry a pgdir m' p = kernelEntry a pgdir m p
  translate : ∀ va, translate a m'.mem pgdir va = translate a m.mem pgdir va
  free : m'.free.card = m.free.card

theorem translate_of_none (h : kernelEntry a pgdir m (levelIndex va) = none) : translate a m.mem pgdir va = none := by
  have hw : ∀ l f, content a.tableOf m.mem (levelIndex va) l f = none →
      translateWith a a.limits m.mem va l f = none := by
    intro l
    induction l with
    | zero =>
      intro f hc
      have h0 : m.mem f (levelIndex va 0) = 0 := by
        by_contra hne
        rw [content, found, if_neg hne] at hc
        cases hc
      rw [translateWith]
      simp only [h0, a.ptePresent_zero]
      rfl
    | succ l ih =>
      intro f hc
      cases hg : a.tableOf (m.mem f (levelIndex va (l + 1))) with
      | some g =>
        rw [content_child hg] at hc
        rw [translateWith_child hg, ih g hc]
        rfl
      | none =>
        have h0 : m.mem f (levelIndex va (l + 1)) = 0 := by
          by_contra hne
          rw [content_end hg, if_neg hne] at hc
          cases hc
        rw [translateWith_missing hg, h0, a.ptePresent_zero]
        rfl
  exact hw _ _ h

theorem Changes.restored {S : ℕ → Prop} (h : Changes a V pgdir S m m') (hK : Kernel a V pgdir (fun _ => False) m)
    (hK' : Kernel a V pgdir (fun _ => False) m')
    (hS : ∀ x, S x → kernelEntry a pgdir m (levelIndex x) = none ∧ kernelEntry a pgdir m' (levelIndex x) = none) :
    Restored a pgdir m m' := by
  have hentry : ∀ p, kernelEntry a pgdir m' p = kernelEntry a pgdir m p := by
    intro p
    by_cases hp : ∃ x, S x ∧ ∀ k ≤ a.ptWalkLevels - 1, p k = levelIndex x k
    · obtain ⟨x, hx, hag⟩ := hp
      have hm : kernelEntry a pgdir m p = kernelEntry a pgdir m (levelIndex x) := content_path hag
      have hm' : kernelEntry a pgdir m' p = kernelEntry a pgdir m' (levelIndex x) := content_path hag
      rw [hm, hm', (hS x hx).1, (hS x hx).2]
    · exact h.entry p fun x hx hag => hp ⟨x, hx, hag⟩
  refine ⟨hentry, fun x => ?_, ?_⟩
  · by_cases hx : ∃ y, S y ∧ SamePage a y x
    · obtain ⟨y, hy, hsame⟩ := hx
      have hag : ∀ k ≤ a.ptWalkLevels - 1, levelIndex x k = levelIndex y k :=
        fun k hk => ((samePage_iff a y x).1 hsame k hk).symm
      have hm : kernelEntry a pgdir m (levelIndex x) = none := by
        rw [← (hS y hy).1]
        exact content_path hag
      have hm' : kernelEntry a pgdir m' (levelIndex x) = none := by
        rw [← (hS y hy).2]
        exact content_path hag
      rw [translate_of_none hm, translate_of_none hm']
    · exact h.translate x fun y hy hsame => hx ⟨y, hy, hsame⟩
  · have hcard := congrArg Multiset.card h.pages
    rw [Multiset.card_add, Multiset.card_add, kernelTables, kernelTables,
      card_nodes_eq hK.tight hK'.tight hentry] at hcard
    omega

theorem unmapPages_restored (n : ℕ) (hin : ∀ x, InRange va n x → V (levelIndex x))
    (hfresh : ∀ x, InRange va n x → kernelEntry a pgdir m (levelIndex x) = none)
    (hK : Kernel a V pgdir (fun _ => False) m)
    (hK' : Kernel a V pgdir (fun p => ∃ x, InRange va n x ∧ p = levelIndex x) m')
    (hch : Changes a V pgdir (InRange va n) m m') :
    Kernel a V pgdir (fun _ => False) (unmapPages a pgdir va n 0 m') ∧
      Changes a V pgdir (InRange va n) m (unmapPages a pgdir va n 0 m') ∧
      Restored a pgdir m (unmapPages a pgdir va n 0 m') ∧
      (unmapPages a pgdir va n 0 m').panicked = m'.panicked := by
  obtain ⟨hK₂, hch₂, hpan, -, hnone⟩ := unmapPages_effect (fun _ => False) n 0 hin (hK'.mono fun p hp => Or.inr hp)
  have hall := hch.trans hch₂
  exact ⟨hK₂, hall, hall.restored hK hK₂ fun x hx => ⟨hfresh x hx, hnone x hx⟩, hpan⟩

theorem unmapRange_eq (n : ℕ) : unmapRange a pgdir va (n * pgSize) m = unmapPages a pgdir va n 0 m := by
  rw [unmapRange, show (n * pgSize + pgSize - 1) / pgSize = n by unfold pgSize; omega]

/-! ## Pages with the same entries -/

theorem levelIndex_page (va k : ℕ) : levelIndex va k = levelIndex (va / pgSize * pgSize) k := by
  apply Fin.ext
  rw [levelIndex_val, levelIndex_val, levelShift, pow_add, ← Nat.div_div_eq_div_mul, ← Nat.div_div_eq_div_mul,
    show (2 : ℕ) ^ 12 = pgSize from rfl, Nat.mul_div_cancel _ (by decide)]

theorem page_mod_of_agree {va va' l : ℕ} (h : ∀ k ≤ l, levelIndex va k = levelIndex va' k) :
    va / pgSize % 512 ^ (l + 1) = va' / pgSize % 512 ^ (l + 1) := by
  have hidx : ∀ x k, (levelIndex x k).val = x / pgSize / 512 ^ k % 512 := by
    intro x k
    rw [levelIndex_val, levelShift, pow_add, pow_mul, ← Nat.div_div_eq_div_mul]
    rfl
  induction l with
  | zero =>
    have h0 := congrArg Fin.val (h 0 (Nat.le_refl 0))
    simpa [hidx] using h0
  | succ l ih =>
    have hl := congrArg Fin.val (h (l + 1) (Nat.le_refl _))
    rw [hidx, hidx] at hl
    rw [pow_succ 512 (l + 1), Nat.mod_mul, Nat.mod_mul, ih fun k hk => h k (by omega), hl]

theorem page_eq_of_samePage (lo : ℕ) {x y : ℕ} (hx : lo ≤ x) (hx' : x < lo + 2 ^ 30) (hy : lo ≤ y) (hy' : y < lo + 2 ^ 30)
    (h : SamePage a x y) : x / pgSize = y / pgSize := by
  have hmod := page_mod_of_agree fun k (hk : k ≤ 2) => h k (by cases a <;> exact le_trans hk (by decide))
  unfold pgSize at hmod ⊢
  omega

end Zonix.Vm
