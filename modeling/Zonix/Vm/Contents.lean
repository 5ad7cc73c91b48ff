import Mathlib
import Zonix.Vm.Spaces

/-!
# Filling mapped pages

What a loader does to pages that an address space already maps: writing their contents and changing their rights.
Mapped pages lie in frames of their own. An allocator that refuses only when it has nothing left makes
`alloc_and_map_page` fail only then.
-/

namespace Zonix.Vm

open Zonix.Lib.Radix

variable {a : Arch} {pool : Multiset ℕ} {v : State} {r va va' p p' : ℕ} {h : Heap 512 Word}

theorem levelIndex_of_div (hdiv : va / pgSize = va' / pgSize) : levelIndex va = levelIndex va' := by
  have hlevel : ∀ x k, x / 2 ^ (12 + 9 * k) = x / pgSize / 2 ^ (9 * k) := fun x k => by
    rw [Nat.div_div_eq_div_mul, pow_add]
    rfl
  funext k
  apply Fin.ext
  show va / 2 ^ (12 + 9 * k) % 512 = va' / 2 ^ (12 + 9 * k) % 512
  rw [hlevel, hlevel, hdiv]

theorem leafWord_page (hdiv : va / pgSize = va' / pgSize) : leafWord a h r va = leafWord a h r va' := by
  rw [leafWord, leafWord, levelIndex_of_div hdiv]

theorem samePage_iff_div (hva : va < a.userSpaceTop) (hva' : va' < a.userSpaceTop) :
    SamePage a va va' ↔ va / pgSize = va' / pgSize := by
  constructor
  · intro hsame
    have hk : ∀ k ≤ a.top + 1, va / 2 ^ (12 + 9 * k) % 512 = va' / 2 ^ (12 + 9 * k) % 512 := fun k hk =>
      congrArg Fin.val (hsame k hk)
    have h0 := hk 0 (by omega)
    have h1 := hk 1 (by omega)
    unfold pgSize
    cases a with
    | riscv64 =>
      have h2 := hk 2 (by decide)
      simp only [Arch.userSpaceTop] at hva hva'
      norm_num at h0 h1 h2
      omega
    | x86 =>
      have h2 := hk 2 (by decide)
      have h3 := hk 3 (by decide)
      simp only [Arch.userSpaceTop] at hva hva'
      norm_num at h0 h1 h2 h3
      omega
    | aarch64 =>
      have h2 := hk 2 (by decide)
      have h3 := hk 3 (by decide)
      simp only [Arch.userSpaceTop] at hva hva'
      norm_num at h0 h1 h2 h3
      omega
  · intro hdiv k _
    rw [levelIndex_of_div hdiv]

/-! ## Frames of mapped pages -/

theorem makePtePage_ne_zero (hp : p < 2 ^ 32) (perm : VmFlags) : a.makePtePage (pageToPhys p) perm ≠ 0 := by
  intro hz
  have hpage := (a.isPage_makePtePage perm (fits_pageToPhys a p hp)).present
  rw [hz, a.ptePresent_zero] at hpage
  cases hpage

theorem makePtePage_frame {perm perm' : VmFlags} (hp : p < 2 ^ 32) (hp' : p' < 2 ^ 32)
    (hw : a.makePtePage (pageToPhys p) perm = a.makePtePage (pageToPhys p') perm') : p = p' := by
  have haddr := congrArg a.pteAddr hw
  rw [(a.isPage_makePtePage perm (fits_pageToPhys a p hp)).addr,
    (a.isPage_makePtePage perm' (fits_pageToPhys a p' hp')).addr] at haddr
  rw [← physToPage_pageToPhys hp, ← physToPage_pageToPhys hp', haddr]

theorem mapped_of_leafWord {perm : VmFlags} (ht : (tables a h r).Nodup) (hp : p < 2 ^ 32)
    (hw : leafWord a h r va = a.makePtePage (pageToPhys p) perm) : p ∈ mapped a h r := by
  obtain ⟨s, hs, hword⟩ := leafWord_ne_zero (by rw [hw]; exact makePtePage_ne_zero hp perm)
  have hle := pageOf_le_mapped ht hs
  rw [← hword, hw, pageOf_makePtePage a hp] at hle
  exact Multiset.singleton_le.1 hle

theorem frame_ne_of_leafWord {perm perm' : VmFlags} (hn : (owned a h r).Nodup) (hp : p < 2 ^ 32) (hp' : p' < 2 ^ 32)
    (hw : leafWord a h r va = a.makePtePage (pageToPhys p) perm)
    (hw' : leafWord a h r va' = a.makePtePage (pageToPhys p') perm') (hne : ¬ SamePage a va va') : p' ≠ p := by
  rintro rfl
  have ht := (Multiset.nodup_add.1 hn).1
  obtain ⟨s, hs, hword⟩ := leafWord_ne_zero (by rw [hw]; exact makePtePage_ne_zero hp perm)
  -- without the entry for `va` the frame would still be mapped, at `va'`
  have hW := written_of_leafSlot (w := 0) ht hs
  have hother := (leafWord_write (w := 0) ht hs).2 va' hne
  have hmem : p' ∈ mapped a (write h s 0) r :=
    mapped_of_leafWord (by rw [hW.tables_eq]; exact ht) hp' (hother.trans hw')
  have hsum := hW.mapped_add
  rw [← hword, hw, pageOf_makePtePage a hp, pageOf_zero, add_zero] at hsum
  have hmap := (Multiset.nodup_add.1 hn).2.1
  rw [← hsum, Multiset.nodup_add] at hmap
  exact Multiset.disjoint_left.1 hmap.2.2 hmem (Multiset.mem_singleton_self p')

theorem Inv.contents {mem : Heap 512 Word} (hI : Inv a pool v)
    (hmem : ∀ r ∈ v.spaces, ∀ g ∈ tables a v.pmm.mem r, mem g = v.pmm.mem g)
    (hk : mem v.kernelPgdir = v.pmm.mem v.kernelPgdir) : Inv a pool { v with pmm := { v.pmm with mem := mem } } := by
  refine ⟨hI.nodup, hI.bound, ?_, ?_, hI.refFree, ?_, hI.kernel, hI.device, hI.limit, hI.next, hI.running⟩
  · rw [← hI.conserve]
    congr 1
    exact map_sum_congr fun r hr => by rw [owned, tables_congr (hmem r hr), mapped_congr (hmem r hr), owned]
  · intro r hr
    have hS := hI.space r hr
    have ht := tables_congr (hmem r hr)
    have hm := mapped_congr (hmem r hr)
    refine ⟨?_, hS.inner.congr (userHeap_agree (hmem r hr)), ?_, ?_, ?_, hS.root, hS.queueNodup, ?_, ?_⟩
    · show (tables a mem r + mapped a mem r).Nodup
      rw [ht, hm]
      exact hS.nodup
    · intro q s hs
      change leafSlot a mem r q = some s at hs
      rw [leafSlot_congr (hmem r hr)] at hs
      show LeafWord a v.slotLimit (mem s.1 s.2)
      rw [hmem r hr s.1 (leafSlot_mem hs)]
      exact hS.leaves q s hs
    · intro f hf
      exact hS.refTable f (ht ▸ hf)
    · intro f hf
      exact hS.refPage f (hm ▸ hf)
    · intro f hf
      show f ∈ mapped a mem r
      rw [hm]
      exact hS.queued f hf
    · show ∀ i, userTop i = false → mem r i = mem v.kernelPgdir i
      rw [hk, hmem r hr r self_mem_tables]
      exact hS.kernelHalf
  · intro s h0 hs
    show (v.spaces.map (slots a mem)).sum.count s = _
    rw [map_sum_congr fun r hr => slots_congr (hmem r hr)]
    exact hI.slotCount s h0 hs

theorem Inv.mapped_apart (hI : Inv a pool v) (hr : r ∈ v.spaces) (hp : p ∈ mapped a v.pmm.mem r) :
    (∀ r' ∈ v.spaces, p ∉ tables a v.pmm.mem r') ∧ p ≠ v.kernelPgdir ∧ p ∉ v.pmm.free := by
  have hown : p ∈ owned a v.pmm.mem r := Multiset.mem_add.2 (Or.inr hp)
  refine ⟨fun r' hr' ht => ?_, fun hk => hI.kernel (hk ▸ hI.owned_mem_pool hr hown), hI.not_free hr hown⟩
  obtain ⟨rest, hrest⟩ := Multiset.exists_cons_of_mem hr
  rw [hrest, Multiset.mem_cons] at hr'
  rcases hr' with rfl | hr'
  · exact Multiset.disjoint_left.1 (Multiset.nodup_add.1 (hI.space r' hr).nodup).2.2 ht hp
  · exact (hI.apart hrest hr' (Multiset.mem_add.2 (Or.inl ht))).2 hown

theorem Inv.fillMapped (hI : Inv a pool v) (hr : r ∈ v.spaces) (hp : p ∈ mapped a v.pmm.mem r)
    (ws : Fin 512 → Word) : Inv a pool { v with pmm := { v.pmm with mem := fill v.pmm.mem p ws } } := by
  obtain ⟨htab, hk, -⟩ := hI.mapped_apart hr hp
  refine hI.contents (fun r' hr' g hg => fill_node _ _ _ ?_) (fill_node _ _ _ hk.symm)
  rintro rfl
  exact htab r' hr' hg

theorem Inv.reenter {perm : VmFlags} {q : ℕ → Fin 512} {s : ℕ × Fin 512} (hI : Inv a pool v) (hr : r ∈ v.spaces)
    (hs : leafSlot a v.pmm.mem r q = some s) (hp : p < 2 ^ 32)
    (hold : v.pmm.mem s.1 s.2 = a.makePtePage (pageToPhys p) perm) (perm' : VmFlags) :
    Inv a pool { v with pmm := { v.pmm with
      mem := write v.pmm.mem s (a.makePtePage (pageToPhys p) perm') } } := by
  have hS := hI.space r hr
  have ht := (Multiset.nodup_add.1 hS.nodup).1
  have hW := written_of_leafSlot (w := a.makePtePage (pageToPhys p) perm') ht hs
  have hmap : mapped a (write v.pmm.mem s (a.makePtePage (pageToPhys p) perm')) r = mapped a v.pmm.mem r := by
    have h := hW.mapped_add
    rw [hold, pageOf_makePtePage a hp, pageOf_makePtePage a hp] at h
    exact add_right_cancel h
  have hslots : slots a (write v.pmm.mem s (a.makePtePage (pageToPhys p) perm')) r = slots a v.pmm.mem r := by
    have h := hW.slots_add
    rw [hold, slotsOf_makePtePage a hp, slotsOf_makePtePage a hp] at h
    exact add_right_cancel h
  have hne := leafSlot_ne_root ht hs
  have hks : v.kernelPgdir ≠ s.1 := fun h =>
    hI.kernel (hI.owned_mem_pool hr (Multiset.mem_add.2 (Or.inl (h ▸ leafSlot_mem hs))))
  apply hI.step hr
  refine ⟨?_, ?_, fun _ _ _ _ => rfl, rfl, ⟨?_, ?_, ?_, ?_, ?_, hS.root, hS.queueNodup, ?_, ?_⟩, hI.refFree, ?_,
    fun _ _ => rfl, rfl, rfl, rfl, rfl, hI.next, hI.running⟩
  · show v.pmm.free + (tables a _ r + mapped a _ r) = v.pmm.free + owned a v.pmm.mem r + 0
    rw [hW.tables_eq, hmap, add_zero, owned]
  · intro g _ hgo _
    apply write_node
    rintro rfl
    exact hgo (Multiset.mem_add.2 (Or.inl (leafSlot_mem hs)))
  · show (tables a _ r + mapped a _ r).Nodup
    rw [hW.tables_eq, hmap]
    exact hS.nodup
  · show Inner _ _ (userHeap r (write v.pmm.mem s _)) _ _
    rw [userHeap_write _ _ fun h => absurd h hne]
    exact hS.inner.write ht hs
  · intro q' s' hs'
    change leafSlot a (write v.pmm.mem s _) r q' = some s' at hs'
    rw [hW.slot_eq q'] at hs'
    show LeafWord a v.slotLimit (write v.pmm.mem s _ s'.1 s'.2)
    by_cases hss : s'.1 = s.1 ∧ s'.2 = s.2
    · rw [show write v.pmm.mem s (a.makePtePage (pageToPhys p) perm') s'.1 s'.2 = a.makePtePage (pageToPhys p) perm' by
        simp [write, hss]]
      exact .page p perm' hp
    · rw [show write v.pmm.mem s (a.makePtePage (pageToPhys p) perm') s'.1 s'.2 = v.pmm.mem s'.1 s'.2 by
        simp [write, hss]]
      exact hS.leaves q' s' hs'
  · intro f hf
    exact hS.refTable f (hW.tables_eq ▸ hf)
  · intro f hf
    exact hS.refPage f (hmap ▸ hf)
  · intro f hf
    show f ∈ mapped a (write v.pmm.mem s _) r
    rw [hmap]
    exact hS.queued f hf
  · show ∀ i, userTop i = false → write v.pmm.mem s _ r i = write v.pmm.mem s _ v.kernelPgdir i
    rw [write_node _ _ _ hne.symm, write_node _ _ _ hks]
    exact hS.kernelHalf
  · intro k _ _
    show (slots a (write v.pmm.mem s _) r).count k + _ = _
    rw [hslots]

/-! ## Running out of pages -/

/-- The allocator refuses a page only when none is left. -/
def Env.Willing (E : Env) : Prop := ∀ t free, free ≠ 0 → ∃ p ∈ free, E.alloc t free 1 = some p

variable {E : Env}

theorem allocPages_exhausted (hE : E.Willing) {m : Pmm} (hno : (allocPages E 1 m).1 = none) : m.free = 0 := by
  by_contra hne
  obtain ⟨p, hp, heq⟩ := hE m.clock m.free hne
  rw [allocPages, heq] at hno
  simp only [frames_one, Multiset.singleton_le, hp, if_true] at hno
  cases hno

theorem allocPages_free_none {m : Pmm} (hno : (allocPages E 1 m).1 = none) :
    (allocPages E 1 m).2.free = m.free := by
  obtain heq | ⟨p, hp, heq⟩ := allocPages_one_cases E m
  · rw [heq]
  · rw [heq] at hno
    cases hno

theorem descendLevel_exhausted (hE : E.Willing) {e : ℕ × Fin 512} {l : ℕ} {m : Pmm}
    (hno : (descendLevel a E true e l m).1 = none) : (descendLevel a E true e l m).2.free = 0 := by
  have htable : (allocTablePage E true m).1 = none → (allocTablePage E true m).2.free = 0 := by
    intro h
    rw [allocTablePage, if_pos rfl] at h ⊢
    generalize hres : allocPages E 1 m = res at h ⊢
    obtain ⟨_ | t, m'⟩ := res
    · have hfree := allocPages_free_none (E := E) (m := m) (by rw [hres])
      rw [hres, allocPages_exhausted hE (m := m) (by rw [hres])] at hfree
      exact hfree
    · cases h
  unfold descendLevel at hno ⊢
  generalize allocTablePage E true m = res at hno htable ⊢
  obtain ⟨_ | t, m'⟩ := res
  · by_cases hp : a.ptePresent (m.mem e.1 e.2) = true
    · by_cases hb : a.pteIsBlock (m.mem e.1 e.2) = true
      · simp only [hp, hb, if_true]
        exact htable rfl
      · simp [hp, hb] at hno
    · simp only [hp, Bool.false_eq_true, if_false]
      exact htable rfl
  · by_cases hp : a.ptePresent (m.mem e.1 e.2) = true
    · by_cases hb : a.pteIsBlock (m.mem e.1 e.2) = true
      · simp [hp, hb] at hno
      · simp [hp, hb] at hno
    · simp [hp] at hno

theorem getPteFrom_exhausted (hE : E.Willing) {va l f : ℕ} {m : Pmm}
    (hno : (getPteFrom a E true va l f m).1 = none) : (getPteFrom a E true va l f m).2.free = 0 := by
  induction l generalizing f m with
  | zero => cases hno
  | succ l ih =>
    have hdesc := descendLevel_exhausted (a := a) hE (e := (f, levelIndex va (l + 1))) (l := l) (m := m)
    rw [getPteFrom] at hno ⊢
    generalize descendLevel a E true (f, levelIndex va (l + 1)) l m = res at hno hdesc ⊢
    obtain ⟨_ | t, m'⟩ := res
    · exact hdesc rfl
    · exact ih hno

theorem allocAndMapPage_exhausted (hE : E.Willing) (hI : Inv a pool v) (hr : r ∈ v.spaces)
    (hva : IsUser a va) (hzero : leafWord a v.pmm.mem r va = 0) (perm : VmFlags)
    (hno : (allocAndMapPage a E r va perm v.pmm).1 = none) :
    Multiset.card (allocAndMapPage a E r va perm v.pmm).2.free ≤ 1 := by
  obtain halloc | ⟨p, hp, halloc⟩ := allocPages_one_cases E v.pmm
  · have hfree := allocPages_exhausted hE (m := v.pmm) (by rw [halloc])
    rw [allocAndMapPage, halloc]
    simp only [hfree, Multiset.card_zero, Nat.zero_le]
  change allocPages E 1 v.pmm = (some p, (v.takePage p).pmm) at halloc
  obtain ⟨-, new, -, hext, hfound⟩ := localStep_getPte E (hI.takePage hp).1 hr hva
  have hdone : (getPte a E r va true (v.takePage p).pmm).1 = none →
      (getPte a E r va true (v.takePage p).pmm).2.free = 0 := getPteFrom_exhausted hE
  have hword := leafWord_extended hext va
  rw [allocAndMapPage, halloc] at hno ⊢
  simp only [pageInsert] at hno ⊢
  generalize getPte a E r va true (v.takePage p).pmm = res at hno hdone hfound hword ⊢
  obtain ⟨_ | s, m⟩ := res
  · have hfree : m.free = 0 := hdone rfl
    show Multiset.card (frames p 1 + m.free) ≤ 1
    rw [hfree, add_zero, frames_one, Multiset.card_singleton]
  · -- the entry is still empty, so the page was entered
    have habs : a.ptePresent (m.mem s.1 s.2) = false := by
      rw [← leafWord_slot (hfound s rfl), hword]
      exact (congrArg a.ptePresent hzero).trans a.ptePresent_zero
    simp only [habs, Bool.false_eq_true, if_false] at hno
    cases hno

theorem descendLevel_card (E : Env) (e : ℕ × Fin 512) (l : ℕ) (m : Pmm) :
    Multiset.card m.free ≤ Multiset.card (descendLevel a E true e l m).2.free + 1 := by
  obtain ⟨g, -, heq⟩ | ⟨-, heq | ⟨t, ht, heq⟩⟩ := descendLevel_cases a E e l m
  · rw [heq]
    exact Nat.le_succ _
  · rw [heq]
    exact Nat.le_succ _
  · rw [heq]
    have hcard := Multiset.card_erase_add_one ht
    simp only [Pmm.addTable]
    omega

theorem getPteFrom_card (E : Env) (va l f : ℕ) (m : Pmm) :
    Multiset.card m.free ≤ Multiset.card (getPteFrom a E true va l f m).2.free + l := by
  induction l generalizing f m with
  | zero => exact le_rfl
  | succ l ih =>
    have hdesc := descendLevel_card (a := a) E (f, levelIndex va (l + 1)) l m
    rw [getPteFrom]
    generalize descendLevel a E true (f, levelIndex va (l + 1)) l m = res at hdesc ⊢
    obtain ⟨_ | t, m'⟩ := res
    · simp only at hdesc ⊢
      omega
    · have hrest := ih t m'
      simp only at hdesc ⊢
      omega

theorem allocAndMapPage_card (E : Env) (va : ℕ) (perm : VmFlags) (m : Pmm) :
    Multiset.card m.free ≤ Multiset.card (allocAndMapPage a E r va perm m).2.free + a.ptWalkLevels := by
  have hlevels : 1 ≤ a.ptWalkLevels := by cases a <;> decide
  obtain halloc | ⟨p, hp, halloc⟩ := allocPages_one_cases E m
  · rw [allocAndMapPage, halloc]
    simp only
    omega
  · have hcard := Multiset.card_erase_add_one hp
    obtain heq | ⟨s, -, -, heq⟩ := allocAndMapPage_cases (a := a) (r := r) E va perm halloc
    · have hwalk := getPteFrom_card (a := a) E va (a.ptWalkLevels - 1) r
        { m with clock := m.clock + 1, free := m.free.erase p, reserved := fun f => if f = p then false else m.reserved f }
      rw [heq]
      change _ ≤ Multiset.card (getPte a E r va true _).2.free + _ at hwalk
      simp only [freePages, Multiset.card_add] at hwalk ⊢
      omega
    · have hwalk := getPteFrom_card (a := a) E va (a.ptWalkLevels - 1) r
        { m with clock := m.clock + 1, free := m.free.erase p, reserved := fun f => if f = p then false else m.reserved f }
      rw [heq]
      change _ ≤ Multiset.card (getPte a E r va true _).2.free + _ at hwalk
      simp only [Pmm.enter] at hwalk ⊢
      omega

end Zonix.Vm
