import Mathlib
import Zonix.Vm.Owned

/-!
# Mapping pages

`get_pte`, `page_insert` and `alloc_and_map_page` as operations on one address space.
-/

namespace Zonix.Vm

open Zonix.Lib.Radix

variable {a : Arch} {pool : Multiset ℕ} {v : State} {r : ℕ}

theorem Inv.local_nodup (hI : Inv a pool v) (hr : r ∈ v.spaces) : (v.pmm.free + owned a v.pmm.mem r).Nodup := by
  obtain ⟨rest, hrest⟩ := Multiset.exists_cons_of_mem hr
  have hn := hI.nodup
  rw [← hI.conserve, hrest, Multiset.map_cons, Multiset.sum_cons, ← add_assoc] at hn
  exact (Multiset.nodup_add.1 hn).1

theorem Inv.userTree (hI : Inv a pool v) (hr : r ∈ v.spaces) : UserTree a r v.pmm := by
  have hn := Multiset.nodup_add.1 (hI.local_nodup hr)
  have hs := hI.space r hr
  refine ⟨⟨?_, hs.inner, ?_⟩, ⟨hn.1, ?_⟩⟩
  · exact (Multiset.nodup_add.1 hs.nodup).1
  · intro g hg hf
    exact Multiset.disjoint_left.1 hn.2.2 hf (Multiset.mem_add.2 (Or.inl hg))
  · intro f hf
    exact hI.bound f (hI.free_mem_pool hf)

/-- The leaf entry of a user address of an address space, 0 where there is no table for it. -/
def leafWord (a : Arch) (h : Heap 512 Word) (r va : ℕ) : Word :=
  (leafSlot a h r (levelIndex va)).elim 0 fun s => h s.1 s.2

def IsUser (a : Arch) (va : ℕ) : Prop := userTop (levelIndex va (a.top + 1)) = true

variable {va p : ℕ} {q : ℕ → Fin 512} {h : Heap 512 Word} {s : ℕ × Fin 512}

theorem isUser_of_lt (h : va < a.userSpaceTop) : IsUser a va := by
  cases a with
  | x86 | aarch64 | riscv64 =>
    simp only [Arch.userSpaceTop] at h
    simp only [IsUser, userTop, levelIndex, Arch.top, Arch.ptWalkLevels, levelShift]
    norm_num
    omega

theorem slot_eq_leafSlot (ht : (tables a h r).Nodup)
    (hq : userTop (q (a.top + 1)) = true) : slot a.tableOf h q (a.top + 1) r = leafSlot a h r q := by
  have hw : userHeap r h r (q (a.top + 1)) = h r (q (a.top + 1)) := userHeap_user _ hq
  simp only [leafSlot, slot, hw]
  cases hg : a.tableOf (h r (q (a.top + 1))) with
  | none => rfl
  | some g =>
    simp only [Option.elim_some]
    have hr := (nodup_child ht (show a.tableOf (userHeap r h r (q (a.top + 1))) = some g by rw [hw]; exact hg)).2
    apply slot_congr
    intro k hk
    rw [userHeap_other]
    rintro rfl
    exact hr hk

theorem leafSlot_ne_root (ht : (tables a h r).Nodup)
    (hs : leafSlot a h r q = some s) : s.1 ≠ r := by
  rw [leafSlot, slot] at hs
  cases hg : a.tableOf (userHeap r h r (q (a.top + 1))) with
  | none => rw [hg] at hs; cases hs
  | some g =>
    rw [hg, Option.elim_some] at hs
    rintro rfl
    exact (nodup_child ht hg).2 (mem_nodes_of_slot hs)

variable {m : Pmm} {h' : Heap 512 Word} {w : Word} {v' : State}

theorem getPte_lookup (E : Env) (ht : (tables a m.mem r).Nodup) (hva : IsUser a va) :
    getPte a E r va false m = (leafSlot a m.mem r (levelIndex va), m) := by
  rw [getPte, ptWalkLevels_eq, getPteFrom_lookup, slot_eq_leafSlot ht hva]

theorem getPteFrom_existing (E : Env) {l f : ℕ}
    (hs : slot a.tableOf m.mem (levelIndex va) l f = some s) : getPteFrom a E true va l f m = (some s, m) := by
  induction l generalizing f with
  | zero =>
    cases hs
    rfl
  | succ l ih =>
    obtain ⟨g, hg, hd⟩ | ⟨hnone, -⟩ := descendLevel_cases a E (f, levelIndex va (l + 1)) l m
    · rw [getPteFrom, hd]
      simp only [slot, hg, Option.elim_some] at hs
      exact ih hs
    · simp [slot, hnone] at hs

/-! ## Creating the tables for an address -/

theorem userHeap_eq_of_ne {g : ℕ} (hg : g ≠ r) (he : userHeap r h' g = userHeap r h g) :
    h' g = h g := by
  rwa [userHeap_other _ hg, userHeap_other _ hg] at he

theorem pageOf_zero : pageOf a 0 = 0 := by
  rw [pageOf, a.ptePresent_zero]
  rfl

theorem slotsOf_zero : slotsOf a 0 = 0 := by simp [slotsOf]

structure Extended (a : Arch) (r : ℕ) (new : Multiset ℕ) (h h' : Heap 512 Word) : Prop where
  tables_eq : tables a h' r = tables a h r + new
  mapped_eq : mapped a h' r = mapped a h r
  slots_eq : slots a h' r = slots a h r
  keep : ∀ q s, leafSlot a h r q = some s → leafSlot a h' r q = some s ∧ h' s.1 s.2 = h s.1 s.2
  fresh : ∀ q s, leafSlot a h r q = none → leafSlot a h' r q = some s → h' s.1 s.2 = 0
  frame : ∀ g, g ∉ tables a h r → g ∉ new → h' g = h g

theorem Extended.of_walked {m' : Pmm} {res : Option (ℕ × Fin 512)} {new : Multiset ℕ}
    (hw : Walked a (· = 0) (fun _ => UserWord a) va (a.top + 1) r (m.user r) (m'.user r) res new)
    (ht : (tables a m.mem r).Nodup) (ht' : (tables a m'.mem r).Nodup) : Extended a r new m.mem m'.mem := by
  have hword : ∀ {h : Heap 512 Word} {s : ℕ × Fin 512}, s.1 ≠ r → userHeap r h s.1 s.2 = h s.1 s.2 := by
    intro h s hs
    rw [userHeap_other _ hs]
  refine ⟨hw.grows.nodes_eq, ?_, ?_, ?_, ?_, ?_⟩
  · have h := hw.grows.weight_eq (fun _ => (0 : Multiset ℕ)) (pageOf a) fun w hw => by rw [hw, pageOf_zero]
    rw [Multiset.map_const', Multiset.sum_replicate, smul_zero, add_zero] at h
    exact h
  · have h := hw.grows.weight_eq (fun _ => (0 : Multiset ℕ)) (slotsOf a) fun w hw => by rw [hw, slotsOf_zero]
    rw [Multiset.map_const', Multiset.sum_replicate, smul_zero, add_zero] at h
    exact h
  · intro q s hs
    obtain ⟨hs', hkeep⟩ := hw.grows.slot_keep q s hs
    have hne := leafSlot_ne_root ht hs
    rw [Pmm.user_mem, Pmm.user_mem, hword hne, hword hne] at hkeep
    exact ⟨hs', hkeep⟩
  · intro q s hn hs
    have h := hw.grows.slot_new q s hn hs
    rw [Pmm.user_mem, hword (leafSlot_ne_root ht' hs)] at h
    exact h
  · intro g hg hgn
    have hgr : g ≠ r := fun h => hg (h ▸ self_mem_tables)
    exact userHeap_eq_of_ne hgr (hw.grows.frame g hg hgn)

theorem localStep_getPte (E : Env) (hI : Inv a pool v) (hr : r ∈ v.spaces) (hva : IsUser a va) :
    LocalStep a r 0 v { v with pmm := (getPte a E r va true v.pmm).2 } ∧
      ∃ new ≤ v.pmm.free, Extended a r new v.pmm.mem (getPte a E r va true v.pmm).2.mem ∧
        ∀ s, (getPte a E r va true v.pmm).1 = some s →
          leafSlot a (getPte a E r va true v.pmm).2.mem r (levelIndex va) = some s := by
  have hU := hI.userTree hr
  have hs := hI.space r hr
  have hnd := hI.local_nodup hr
  obtain ⟨new, hw, hkern⟩ := getPte_user E hU hva
  generalize getPte a E r va true v.pmm = res at hw hkern ⊢
  have hfree : v.pmm.free = res.2.free + new := hw.free
  have hnodes : tables a res.2.mem r = tables a v.pmm.mem r + new := hw.grows.nodes_eq
  have ht' : (tables a res.2.mem r).Nodup := (hw.tree hU.tree ⟨hU.pool.nodup, hU.pool.bound⟩).1.nodup
  have hext := Extended.of_walked hw (Multiset.nodup_add.1 hs.nodup).1 ht'
  have hnew : ∀ g ∈ new, g ∈ v.pmm.free := fun g hg => by
    rw [hfree]
    exact Multiset.mem_add.2 (Or.inr hg)
  have hdisj := (Multiset.nodup_add.1 hnd).2.2
  have hnotnew : ∀ g ∈ owned a v.pmm.mem r, g ∉ new := fun g hg hgn =>
    Multiset.disjoint_left.1 hdisj (hnew g hgn) hg
  have hcons : res.2.free + owned a res.2.mem r = v.pmm.free + owned a v.pmm.mem r := by
    rw [owned, owned, hext.tables_eq, hext.mapped_eq, hfree]
    abel
  have hfreeNew : ∀ f ∈ res.2.free, f ∈ v.pmm.free ∧ f ∉ new := by
    intro f hf
    have hnf := hU.pool.nodup
    rw [hfree, Multiset.nodup_add] at hnf
    exact ⟨by rw [hfree]; exact Multiset.mem_add.2 (Or.inl hf), Multiset.disjoint_left.1 hnf.2.2 hf⟩
  have hrefs : ∀ g, g ∉ new → res.2.refCount g = v.pmm.refCount g := by
    intro g hg
    have := hw.refCount g
    simp only [hg, if_false] at this
    exact this
  refine ⟨⟨?_, ?_, ?_, hw.blockPages, ⟨?_, hw.inner, ?_, ?_, ?_, ?_, hs.queueNodup, ?_, ?_⟩, ?_, ?_, fun _ _ => rfl,
    rfl, rfl, rfl, rfl, hI.next, ?_⟩, new, ?_, hext, hw.found⟩
  · simpa using hcons
  · intro g hg hgo _
    exact hext.frame g (fun hgt => hgo (Multiset.mem_add.2 (Or.inl hgt))) fun hgn => hg (hnew g hgn)
  · intro g hg _ _
    exact hrefs g fun hgn => hg (hnew g hgn)
  · rw [← hcons] at hnd
    exact (Multiset.nodup_add.1 hnd).2.1
  · intro q s hqs
    cases hold : leafSlot a v.pmm.mem r q with
    | none =>
      rw [hext.fresh q s hold hqs]
      exact .empty
    | some t =>
      obtain ⟨ht, hword⟩ := hext.keep q t hold
      obtain rfl : s = t := Option.some.inj (hqs.symm.trans ht)
      rw [hword]
      exact hs.leaves q s hold
  · intro f hf
    show res.2.refCount f = _
    rw [hnodes, Multiset.mem_add] at hf
    rcases hf with hf | hf
    · rw [hrefs f (hnotnew f (Multiset.mem_add.2 (Or.inl hf)))]
      exact hs.refTable f hf
    · have hfr : f ≠ r := fun h => hnotnew r (Multiset.mem_add.2 (Or.inl self_mem_tables)) (h ▸ hf)
      have := hw.refCount f
      simp only [hf, if_true] at this
      rw [if_neg hfr]
      exact this
  · intro f hf
    show res.2.refCount f = _
    rw [hext.mapped_eq] at hf
    rw [hrefs f (hnotnew f (Multiset.mem_add.2 (Or.inr hf)))]
    exact hs.refPage f hf
  · rw [show res.2.blockPages = v.pmm.blockPages from hw.blockPages]
    exact hs.root
  · rw [hext.mapped_eq]
    exact hs.queued
  · intro i hi
    show res.2.mem r i = res.2.mem v.kernelPgdir i
    rw [hkern i hi, hs.kernelHalf i hi, hext.frame v.kernelPgdir]
    · exact fun h => hI.kernel (hI.owned_mem_pool hr (Multiset.mem_add.2 (Or.inl h)))
    · exact fun h => hI.kernel (hI.free_mem_pool (hnew _ h))
  · intro f hf
    rw [hrefs f (hfreeNew f hf).2]
    exact hI.refFree f (hfreeNew f hf).1
  · intro s _ _
    rw [hext.slots_eq]
  · rw [show res.2.panicked = v.pmm.panicked from hw.panicked]
    exact hI.running
  · rw [hfree]
    exact Multiset.le_add_left _ _

/-! ## Writing a leaf entry -/

/-- What writing a leaf entry does to the parts of an address space. -/
structure Written (a : Arch) (r : ℕ) (s : ℕ × Fin 512) (w : Word) (h h' : Heap 512 Word) : Prop where
  tables_eq : tables a h' r = tables a h r
  mapped_add : mapped a h' r + pageOf a (h s.1 s.2) = mapped a h r + pageOf a w
  slots_add : slots a h' r + slotsOf a (h s.1 s.2) = slots a h r + slotsOf a w
  slot_eq : ∀ q, leafSlot a h' r q = leafSlot a h r q

section

variable (ht : (tables a h r).Nodup) (hs : leafSlot a h r q = some s)
include ht hs

theorem written_of_leafSlot : Written a r s w h (write h s w) := by
  have hne := leafSlot_ne_root ht hs
  have hheap : userHeap r (write h s w) = write (userHeap r h) s w := userHeap_write h w fun h => absurd h hne
  have hword : userHeap r h s.1 s.2 = h s.1 s.2 := by rw [userHeap_other _ hne]
  refine ⟨?_, ?_, ?_, fun q' => ?_⟩
  · rw [tables, hheap, nodes_write ht hs, tables]
  · rw [mapped, hheap, ← hword, weight_write ht hs, mapped]
  · rw [slots, hheap, ← hword, weight_write ht hs, slots]
  · rw [leafSlot, hheap, slot_write ht hs, leafSlot]

theorem pageOf_le_mapped : pageOf a (h s.1 s.2) ≤ mapped a h r := by
  have hw := (written_of_leafSlot (w := 0) ht hs).mapped_add
  rw [pageOf_zero, add_zero] at hw
  rw [← hw]
  exact Multiset.le_add_left _ _

theorem slotsOf_le_slots : slotsOf a (h s.1 s.2) ≤ slots a h r := by
  have hw := (written_of_leafSlot (w := 0) ht hs).slots_add
  rw [slotsOf_zero, add_zero] at hw
  rw [← hw]
  exact Multiset.le_add_left _ _

end

theorem pageOf_nodup (w : Word) : (pageOf a w).Nodup := by
  unfold pageOf
  split
  · exact Multiset.nodup_singleton _
  · exact Multiset.nodup_zero

/-- Replacing the leaf entry at `s` by `w`: the frame that `w` maps is handed in, the frame that the old entry mapped
becomes free, and the slots change accordingly. -/
theorem localStep_write (hI : Inv a pool v)
    (hr : r ∈ v.spaces) (hs : leafSlot a v.pmm.mem r q = some s) (hw : LeafWord a v.slotLimit w)
    (hmem : v'.pmm.mem = write v.pmm.mem s w)
    (hfree : v'.pmm.free = v.pmm.free + pageOf a (v.pmm.mem s.1 s.2))
    (hfresh : ∀ p ∈ pageOf a w, p ∉ v.pmm.free ∧ p ∉ owned a v.pmm.mem r)
    (href : ∀ g, v'.pmm.refCount g =
      if g ∈ pageOf a w then 1 else if g ∈ pageOf a (v.pmm.mem s.1 s.2) then 0 else v.pmm.refCount g)
    (hblock : v'.pmm.blockPages = v.pmm.blockPages)
    (hocc : ∀ k, 0 < k → k < v.slotLimit → (slotsOf a w).count k + (v.occupied k).toNat =
      (slotsOf a (v.pmm.mem s.1 s.2)).count k + (v'.occupied k).toNat)
    (hqn : (v'.queue r).Nodup) (hqm : ∀ f ∈ v'.queue r, f ∈ mapped a v'.pmm.mem r)
    (hqo : ∀ r', r' ≠ r → v'.queue r' = v.queue r') (hsp : v'.spaces = v.spaces)
    (hk : v'.kernelPgdir = v.kernelPgdir) (hd : v'.device = v.device) (hl : v'.slotLimit = v.slotLimit)
    (hn : v.device = true → 0 < v'.nextSlot ∧ v'.nextSlot < v.slotLimit)
    (hp : v'.pmm.panicked = v.pmm.panicked) : LocalStep a r (pageOf a w) v v' := by
  have hS := hI.space r hr
  have ht := (Multiset.nodup_add.1 hS.nodup).1
  have hW := written_of_leafSlot (w := w) ht hs
  rw [← hmem] at hW
  have hold : ∀ f ∈ pageOf a (v.pmm.mem s.1 s.2), f ∈ mapped a v.pmm.mem r := fun f hf =>
    Multiset.mem_of_le (pageOf_le_mapped ht hs) hf
  have hown : owned a v'.pmm.mem r + pageOf a (v.pmm.mem s.1 s.2) = owned a v.pmm.mem r + pageOf a w := by
    rw [owned, owned, hW.tables_eq, add_assoc, hW.mapped_add, add_assoc]
  have hownN : (owned a v.pmm.mem r + pageOf a w).Nodup :=
    Multiset.nodup_add.2 ⟨hS.nodup, pageOf_nodup w, Multiset.disjoint_right.2 fun hf => (hfresh _ hf).2⟩
  have hdisj := (Multiset.nodup_add.1 hS.nodup).2.2
  refine ⟨?_, ?_, ?_, hblock, ⟨?_, ?_, ?_, ?_, ?_, ?_, hqn, hqm, ?_⟩, ?_, ?_, hqo, hsp, hk, hd, hl, hn, ?_⟩
  · rw [hfree, add_assoc, add_comm (pageOf a (v.pmm.mem s.1 s.2)), hown, add_assoc]
  · intro g _ hgo _
    rw [hmem, write_node]
    rintro rfl
    exact hgo (Multiset.mem_add.2 (Or.inl (leafSlot_mem hs)))
  · intro g _ hgo hgt
    rw [href, if_neg hgt, if_neg fun hg => hgo (Multiset.mem_add.2 (Or.inr (hold g hg)))]
  · rw [← hown] at hownN
    exact (Multiset.nodup_add.1 hownN).1
  · have hne := leafSlot_ne_root ht hs
    rw [hmem, userHeap_write _ _ fun h => absurd h hne]
    exact hS.inner.write ht hs
  · intro q' s' hs'
    rw [hW.slot_eq q'] at hs'
    rw [hmem, hl]
    by_cases hss : s'.1 = s.1 ∧ s'.2 = s.2
    · rw [show write v.pmm.mem s w s'.1 s'.2 = w by simp [write, hss]]
      exact hw
    · rw [show write v.pmm.mem s w s'.1 s'.2 = v.pmm.mem s'.1 s'.2 by simp [write, hss]]
      exact hS.leaves q' s' hs'
  · intro f hf
    rw [hW.tables_eq] at hf
    have h1 : f ∉ pageOf a w := fun h => (hfresh f h).2 (Multiset.mem_add.2 (Or.inl hf))
    have h2 : f ∉ pageOf a (v.pmm.mem s.1 s.2) := fun h => Multiset.disjoint_left.1 hdisj hf (hold f h)
    rw [href, if_neg h1, if_neg h2]
    exact hS.refTable f hf
  · intro f hf
    rw [href]
    by_cases h1 : f ∈ pageOf a w
    · rw [if_pos h1]
    · have hcount := congrArg (Multiset.count f) hW.mapped_add
      have hpos := Multiset.count_pos.2 hf
      have hle := Multiset.nodup_iff_count_le_one.1 (Multiset.nodup_add.1 hS.nodup).2.1 f
      rw [Multiset.count_add, Multiset.count_add, Multiset.count_eq_zero.2 h1] at hcount
      have h2 : f ∉ pageOf a (v.pmm.mem s.1 s.2) := by
        intro h
        have := Multiset.count_pos.2 h
        omega
      rw [if_neg h1, if_neg h2]
      apply hS.refPage f
      apply Multiset.count_pos.1
      omega
  · rw [hblock]
    exact hS.root
  · have hks : v.kernelPgdir ≠ s.1 := fun h =>
      hI.kernel (hI.owned_mem_pool hr (Multiset.mem_add.2 (Or.inl (h ▸ leafSlot_mem hs))))
    rw [hmem, hk, write_node _ _ _ (leafSlot_ne_root ht hs).symm, write_node _ _ _ hks]
    exact hS.kernelHalf
  · intro f hf
    rw [hfree, Multiset.mem_add] at hf
    have h1 : f ∉ pageOf a w := by
      intro h
      rcases hf with hf | hf
      · exact (hfresh f h).1 hf
      · exact (hfresh f h).2 (Multiset.mem_add.2 (Or.inr (hold f hf)))
    rw [href, if_neg h1]
    by_cases h2 : f ∈ pageOf a (v.pmm.mem s.1 s.2)
    · rw [if_pos h2]
    · rw [if_neg h2]
      exact hI.refFree f (hf.resolve_right h2)
  · intro k h0 hlt
    have hcount := congrArg (Multiset.count k) hW.slots_add
    rw [Multiset.count_add, Multiset.count_add] at hcount
    have := hocc k h0 hlt
    omega
  · rw [hp]
    exact hI.running

theorem Inv.step (hI : Inv a pool v) (hr : r ∈ v.spaces) (hl : LocalStep a r 0 v v') :
    Inv a pool v' :=
  hI.local_step hr hl (by simp) (by simp) hI.nodup hI.bound hI.kernel

theorem pageOf_makePtePage (a : Arch) (hp : p < 2 ^ 32) (perm : VmFlags) :
    pageOf a (a.makePtePage (pageToPhys p) perm) = {p} := by
  have h := a.isPage_makePtePage perm (fits_pageToPhys a p hp)
  rw [pageOf, if_pos h.present, h.addr, physToPage_pageToPhys hp]

theorem slotsOf_makePtePage (a : Arch) (hp : p < 2 ^ 32) (perm : VmFlags) :
    slotsOf a (a.makePtePage (pageToPhys p) perm) = 0 := by
  have h := a.isPage_makePtePage perm (fits_pageToPhys a p hp)
  rw [slotsOf, if_pos (Or.inl h.present)]

theorem Arch.attrs_user (w : Word) (l : ℕ) : (a.attrs w l).user = a.pteUser w := by cases a <;> rfl

theorem Arch.attrs_write (w : Word) (l : ℕ) : (a.attrs w l).write = a.pteWritable w := by cases a <;> rfl

theorem Arch.attrs_exec (w : Word) (l : ℕ) : (a.attrs w l).exec = a.pteExecutable w := by cases a <;> rfl

/-! ## `alloc_and_map_page` -/

def State.takePage (v : State) (p : ℕ) : State :=
  { v with pmm := { v.pmm with clock := v.pmm.clock + 1, free := v.pmm.free.erase p,
                               reserved := fun f => if f = p then false else v.pmm.reserved f } }

theorem Inv.takePage (hI : Inv a pool v) (hp : p ∈ v.pmm.free) :
    Inv a (pool.erase p) (v.takePage p) ∧ p ∉ pool.erase p ∧ p ∈ pool ∧ p < 2 ^ 32 ∧ v.pmm.refCount p = 0 :=
  ⟨hI.alloc hp _ _, hI.nodup.notMem_erase, hI.free_mem_pool hp, hI.bound p (hI.free_mem_pool hp), hI.refFree p hp⟩

theorem Inv.tick (hI : Inv a pool v) (c : ℕ) : Inv a pool { v with pmm := { v.pmm with clock := c } } :=
  hI.congr rfl (fun _ _ => rfl) (fun _ _ => rfl) (fun _ _ => rfl) (fun _ _ => rfl) rfl rfl rfl rfl rfl rfl hI.next rfl

theorem Inv.giveBack (hI : Inv a (pool.erase p) v) (hp : p ∈ pool) (hnd : pool.Nodup) (h32 : p < 2 ^ 32)
    (hk : p ≠ v.kernelPgdir) (href : v.pmm.refCount p = 0) :
    Inv a pool { v with pmm := freePages p 1 v.pmm } := by
  have h := hI.free hnd.notMem_erase h32 href hk
  rwa [Multiset.cons_erase hp] at h

def SamePage (a : Arch) (va va' : ℕ) : Prop := ∀ k ≤ a.top + 1, levelIndex va k = levelIndex va' k

theorem leafWord_extended {new : Multiset ℕ} (hext : Extended a r new h h') (va : ℕ) :
    leafWord a h' r va = leafWord a h r va := by
  unfold leafWord
  cases hs : leafSlot a h r (levelIndex va) with
  | none =>
    cases hs' : leafSlot a h' r (levelIndex va) with
    | none => rfl
    | some s => exact hext.fresh _ s hs hs'
  | some s =>
    obtain ⟨hs', hw⟩ := hext.keep _ s hs
    rw [hs']
    exact hw

theorem leafWord_slot (hs : leafSlot a h r (levelIndex va) = some s) :
    leafWord a h r va = h s.1 s.2 := by
  rw [leafWord, hs]
  rfl

theorem leafWord_ne_zero (hw : leafWord a h r va ≠ 0) :
    ∃ s, leafSlot a h r (levelIndex va) = some s ∧ leafWord a h r va = h s.1 s.2 := by
  unfold leafWord at hw ⊢
  cases hs : leafSlot a h r (levelIndex va) with
  | none =>
    rw [hs] at hw
    exact absurd rfl hw
  | some s => exact ⟨s, rfl, rfl⟩

theorem leafWord_congr (hh : ∀ g ∈ tables a h r, h' g = h g) :
    leafWord a h' r va = leafWord a h r va := by
  unfold leafWord
  rw [leafSlot_congr hh]
  cases hs : leafSlot a h r (levelIndex va) with
  | none => rfl
  | some s =>
    simp only [Option.elim_some]
    rw [hh s.1 (leafSlot_mem hs)]

theorem samePage_leafWord {va' : ℕ} (hsame : SamePage a va va') :
    leafWord a h r va' = leafWord a h r va := by
  unfold leafWord
  have : leafSlot a h r (levelIndex va') = leafSlot a h r (levelIndex va) :=
    slot_path fun k hk => (hsame k hk).symm
  rw [this]

theorem leafWord_write (ht : (tables a h r).Nodup)
    (hs : leafSlot a h r (levelIndex va) = some s) :
    leafWord a (write h s w) r va = w ∧
      ∀ va', ¬ SamePage a va va' → leafWord a (write h s w) r va' = leafWord a h r va' := by
  have hW := written_of_leafSlot (w := w) ht hs
  refine ⟨?_, fun va' hva' => ?_⟩
  · rw [leafWord, hW.slot_eq, hs]
    exact write_self h s w
  · unfold leafWord
    rw [hW.slot_eq]
    cases hs' : leafSlot a h r (levelIndex va') with
    | none => rfl
    | some t =>
      have hne : ¬ (t.1 = s.1 ∧ t.2 = s.2) := by
        rintro ⟨h1, h2⟩
        obtain rfl : t = s := Prod.ext h1 h2
        exact hva' fun k hk => slot_inj ht hs hs' k hk
      simp [write, hne]

def NotOut (a : Arch) (h : Heap 512 Word) (r va : ℕ) : Prop :=
  leafWord a h r va = 0 ∨ a.ptePresent (leafWord a h r va) = true

/-- What `alloc_and_map_page` did: at most new tables, or page `p` is mapped. -/
inductive MapOutcome (a : Arch) (r va : ℕ) (perm : VmFlags) (v v' : State) : Option ℕ → Prop where
  | failed (hwords : ∀ va', leafWord a v'.pmm.mem r va' = leafWord a v.pmm.mem r va') :
      MapOutcome a r va perm v v' none
  | done (p : ℕ) (hp : p ∈ v.pmm.free) (hempty : leafWord a v.pmm.mem r va = 0)
      (hword : leafWord a v'.pmm.mem r va = a.makePtePage (pageToPhys p) perm)
      (hwords : ∀ va', ¬ SamePage a va va' → leafWord a v'.pmm.mem r va' = leafWord a v.pmm.mem r va') :
      MapOutcome a r va perm v v' (some p)

theorem Inv.handIn (hI : Inv a (pool.erase p) v) (hnd : pool.Nodup) (hp : p ∈ pool)
    (h32 : p < 2 ^ 32) (hk : p ≠ v.kernelPgdir) (hr : r ∈ v.spaces) (hl : LocalStep a r {p} v v') : Inv a pool v' := by
  apply hI.local_step hr hl _ _ hnd
  · intro f hf
    rcases eq_or_ne f p with rfl | hne
    · exact h32
    · exact hI.bound f ((Multiset.mem_erase_of_ne hne).2 hf)
  · intro hm
    exact hI.kernel ((Multiset.mem_erase_of_ne hk.symm).2 hm)
  · intro g hg
    rw [Multiset.mem_singleton] at hg
    rw [hg]
    exact hnd.notMem_erase
  · rw [add_comm, Multiset.singleton_add, Multiset.cons_erase hp]

def Pmm.enter (m : Pmm) (s : ℕ × Fin 512) (p : ℕ) (w : Word) : Pmm :=
  { m with refCount := fun f => if f = p then m.refCount p + 1 else m.refCount f, mem := write m.mem s w }

theorem Inv.enter (perm : VmFlags) (hI : Inv a (pool.erase p) v)
    (hnd : pool.Nodup) (hp : p ∈ pool) (h32 : p < 2 ^ 32) (hk : p ≠ v.kernelPgdir) (hr : r ∈ v.spaces)
    (hs : leafSlot a v.pmm.mem r q = some s) (hzero : v.pmm.mem s.1 s.2 = 0) (href : v.pmm.refCount p = 0) :
    Inv a pool { v with pmm := v.pmm.enter s p (a.makePtePage (pageToPhys p) perm) } := by
  have hpage := pageOf_makePtePage a h32 perm
  have hpool : p ∉ pool.erase p := hnd.notMem_erase
  have hS := hI.space r hr
  have ht := (Multiset.nodup_add.1 hS.nodup).1
  have hW := written_of_leafSlot (w := a.makePtePage (pageToPhys p) perm) ht hs
  have hl : LocalStep a r {p} v { v with pmm := v.pmm.enter s p (a.makePtePage (pageToPhys p) perm) } := by
    rw [← hpage]
    apply localStep_write hI hr hs (.page p perm h32) rfl
    · rw [hzero, pageOf_zero, add_zero]
      rfl
    · intro f hf
      rw [hpage, Multiset.mem_singleton] at hf
      subst hf
      exact ⟨fun h => hpool (hI.free_mem_pool h), fun h => hpool (hI.owned_mem_pool hr h)⟩
    · intro g
      rw [hpage, hzero, pageOf_zero, if_neg (Multiset.notMem_zero g)]
      simp only [Pmm.enter, Multiset.mem_singleton, href, zero_add]
    · rfl
    · intro k _ _
      rw [slotsOf_makePtePage a h32, hzero, slotsOf_zero]
    · exact hS.queueNodup
    · intro f hf
      have hm := hW.mapped_add
      rw [hzero, pageOf_zero, add_zero] at hm
      show f ∈ mapped a (write v.pmm.mem s _) r
      rw [hm]
      exact Multiset.mem_add.2 (Or.inl (hS.queued f hf))
    · exact fun _ _ => rfl
    · rfl
    · rfl
    · rfl
    · rfl
    · exact hI.next
    · rfl
  exact hI.handIn hnd hp h32 hk hr hl

theorem allocAndMapPage_cases (E : Env) (va : ℕ) (perm : VmFlags) {m₁ : Pmm}
    (halloc : allocPages E 1 m = (some p, m₁)) :
    allocAndMapPage a E r va perm m = (none, freePages p 1 (getPte a E r va true m₁).2) ∨
      ∃ s, (getPte a E r va true m₁).1 = some s ∧
        a.ptePresent ((getPte a E r va true m₁).2.mem s.1 s.2) = false ∧
        allocAndMapPage a E r va perm m =
          (some p, (getPte a E r va true m₁).2.enter s p (a.makePtePage (pageToPhys p) perm)) := by
  rw [allocAndMapPage, halloc]
  simp only [pageInsert]
  rcases getPte a E r va true m₁ with ⟨_ | s, m₂⟩
  · exact Or.inl rfl
  · simp only
    by_cases hp : a.ptePresent (m₂.mem s.1 s.2) = true
    · rw [if_pos hp]
      exact Or.inl rfl
    · rw [if_neg hp]
      exact Or.inr ⟨s, rfl, by simpa using hp, rfl⟩

theorem allocAndMapPage_spec (E : Env) (hI : Inv a pool v) (hr : r ∈ v.spaces) (hva : IsUser a va)
    (hout : NotOut a v.pmm.mem r va) (perm : VmFlags) :
    Inv a pool { v with pmm := (allocAndMapPage a E r va perm v.pmm).2 } ∧
      MapOutcome a r va perm v { v with pmm := (allocAndMapPage a E r va perm v.pmm).2 }
        (allocAndMapPage a E r va perm v.pmm).1 ∧
      ∀ g ∉ v.pmm.free, g ∉ tables a v.pmm.mem r →
        (allocAndMapPage a E r va perm v.pmm).2.mem g = v.pmm.mem g := by
  obtain halloc | ⟨p, hp, halloc⟩ := allocPages_one_cases E v.pmm
  · rw [allocAndMapPage, halloc]
    exact ⟨hI.tick _, .failed fun _ => rfl, fun _ _ _ => rfl⟩
  obtain ⟨hI₁, hpool, hpp, h32, href⟩ := hI.takePage hp
  have hpk : p ≠ v.kernelPgdir := fun h => hI.kernel (h ▸ hpp)
  change allocPages E 1 v.pmm = (some p, (v.takePage p).pmm) at halloc
  obtain ⟨hl, new, hnew, hext, hfound⟩ := localStep_getPte E hI₁ hr hva
  have hI₂ := hI₁.step hr hl
  have hpo : p ∉ owned a v.pmm.mem r := fun h => hpool (hI₁.owned_mem_pool hr h)
  have href₂ := hl.refCount p (fun h => hpool (hI₁.free_mem_pool h)) hpo (Multiset.notMem_zero p)
  have hframe : ∀ g ∉ v.pmm.free, g ∉ tables a v.pmm.mem r →
      (getPte a E r va true (v.takePage p).pmm).2.mem g = v.pmm.mem g := fun g hg hgt =>
    hext.frame g hgt fun hgn => hg (Multiset.mem_of_mem_erase (Multiset.mem_of_le hnew hgn))
  have hwords := leafWord_extended hext
  obtain heq | ⟨s, hs, habs, heq⟩ := allocAndMapPage_cases (a := a) (r := r) E va perm halloc
  · rw [heq]
    exact ⟨hI₂.giveBack hpp hI.nodup h32 hpk (href₂.trans href), .failed hwords, hframe⟩
  · rw [heq]
    have hslot := hfound s hs
    have hempty : leafWord a v.pmm.mem r va = 0 := by
      rw [← leafWord_slot hslot, hwords va] at habs
      rcases hout with h | h
      · exact h
      · exact absurd (habs.symm.trans h) (by simp)
    have hzero : (getPte a E r va true (v.takePage p).pmm).2.mem s.1 s.2 = 0 := by
      rw [← leafWord_slot hslot, hwords va]
      exact hempty
    obtain ⟨hword, hother⟩ := leafWord_write (w := a.makePtePage (pageToPhys p) perm)
      (Multiset.nodup_add.1 (hI₂.space r hr).nodup).1 hslot
    refine ⟨hI₂.enter perm hI.nodup hpp h32 hpk hr hslot hzero (href₂.trans href), ?_, ?_⟩
    · exact .done p hp hempty hword fun va' hva' => (hother va' hva').trans (hwords va')
    · intro g hg hgt
      have hgs : g ≠ s.1 := by
        rintro rfl
        have hm := leafSlot_mem hslot
        rw [hext.tables_eq, Multiset.mem_add] at hm
        rcases hm with hm | hm
        · exact hgt hm
        · exact hg (Multiset.mem_of_mem_erase (Multiset.mem_of_le hnew hm))
      rw [← hframe g hg hgt]
      exact write_node _ _ _ hgs

end Zonix.Vm
