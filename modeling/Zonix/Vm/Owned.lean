import Mathlib
import Zonix.Vm.UserSpace
import Zonix.Vm.SwapEntry

/-!
# What an address space owns

The tables and the mapped frames of all address spaces and the free frames make up one fixed set of frames, each of
them once; the slots named by entries of pages that are out are the occupied ones. An operation on one address space
moves frames between it and the allocator and leaves the others as they are (`Inv.local_step`).
-/

namespace Zonix.Vm

open Zonix.Lib.Radix

variable (a : Arch)

def pageOf (w : Word) : Multiset ℕ := if a.ptePresent w then {physToPage (a.pteAddr w)} else 0

def slotsOf (w : Word) : Multiset ℕ := if a.ptePresent w ∨ w = 0 then 0 else {slotOf w}

def tables (h : Heap 512 Word) (r : ℕ) : Multiset ℕ := nodes a.tableOf (userHeap r h) (a.top + 1) r

def mapped (h : Heap 512 Word) (r : ℕ) : Multiset ℕ :=
  weight a.tableOf (userHeap r h) (fun _ => 0) (pageOf a) (a.top + 1) r

def slots (h : Heap 512 Word) (r : ℕ) : Multiset ℕ :=
  weight a.tableOf (userHeap r h) (fun _ => 0) (slotsOf a) (a.top + 1) r

def owned (h : Heap 512 Word) (r : ℕ) : Multiset ℕ := tables a h r + mapped a h r

def leafSlot (h : Heap 512 Word) (r : ℕ) (q : ℕ → Fin 512) : Option (ℕ × Fin 512) :=
  slot a.tableOf (userHeap r h) q (a.top + 1) r

/-- A leaf entry is empty, maps a page, or names the slot of a page that is out. -/
inductive LeafWord (limit : ℕ) : Word → Prop where
  | empty : LeafWord limit 0
  | page (f : ℕ) (perm : VmFlags) (hf : f < 2 ^ 32) : LeafWord limit (a.makePtePage (pageToPhys f) perm)
  | out (slot : ℕ) (write execute : Bool) (h0 : 0 < slot) (hs : slot < limit) :
      LeafWord limit (swapEntry slot write execute)

structure SpaceInv (v : State) (r : ℕ) : Prop where
  nodup : (owned a v.pmm.mem r).Nodup
  inner : Inner a.tableOf (fun _ => UserWord a) (userHeap r v.pmm.mem) (a.top + 1) r
  leaves : ∀ q s, leafSlot a v.pmm.mem r q = some s → LeafWord a v.slotLimit (v.pmm.mem s.1 s.2)
  refTable : ∀ f ∈ tables a v.pmm.mem r, v.pmm.refCount f = if f = r then 0 else 1
  refPage : ∀ f ∈ mapped a v.pmm.mem r, v.pmm.refCount f = 1
  root : v.pmm.blockPages r = 1
  queueNodup : (v.queue r).Nodup
  queued : ∀ f ∈ v.queue r, f ∈ mapped a v.pmm.mem r
  kernelHalf : ∀ i, userTop i = false → v.pmm.mem r i = v.pmm.mem v.kernelPgdir i

structure Inv (pool : Multiset ℕ) (v : State) : Prop where
  nodup : pool.Nodup
  bound : ∀ f ∈ pool, f < 2 ^ 32
  conserve : v.pmm.free + (v.spaces.map (owned a v.pmm.mem)).sum = pool
  space : ∀ r ∈ v.spaces, SpaceInv a v r
  refFree : ∀ f ∈ v.pmm.free, v.pmm.refCount f = 0
  slotCount : ∀ s, 0 < s → s < v.slotLimit →
    (v.spaces.map (slots a v.pmm.mem)).sum.count s = (v.occupied s).toNat
  kernel : v.kernelPgdir ∉ pool
  device : v.device = false → v.slotLimit = 0
  limit : v.slotLimit ≤ 2 ^ 24
  next : v.device = true → 0 < v.nextSlot ∧ v.nextSlot < v.slotLimit
  running : v.pmm.panicked = false

variable {a}

theorem self_mem_tables {h : Heap 512 Word} {r : ℕ} : r ∈ tables a h r := self_mem_nodes

theorem leafSlot_mem {h : Heap 512 Word} {r : ℕ} {q : ℕ → Fin 512} {s : ℕ × Fin 512} (hs : leafSlot a h r q = some s) :
    s.1 ∈ tables a h r :=
  mem_nodes_of_slot hs

section congr

variable {h h' : Heap 512 Word} {r : ℕ}

section

variable (hh : ∀ g ∈ tables a h r, h' g = h g)
include hh

theorem userHeap_agree :
    ∀ g ∈ nodes a.tableOf (userHeap r h) (a.top + 1) r, userHeap r h' g = userHeap r h g :=
  fun g hg => userHeap_congr (hh g hg)

theorem tables_congr : tables a h' r = tables a h r :=
  nodes_congr (userHeap_agree hh)

theorem mapped_congr : mapped a h' r = mapped a h r :=
  weight_congr (userHeap_agree hh)

theorem slots_congr : slots a h' r = slots a h r :=
  weight_congr (userHeap_agree hh)

theorem leafSlot_congr {q : ℕ → Fin 512} :
    leafSlot a h' r q = leafSlot a h r q :=
  slot_congr (userHeap_agree hh)

end

end congr

variable {v : State} {pool : Multiset ℕ}

variable {v' : State} {rest : Multiset ℕ} {g : ℕ}

theorem SpaceInv.frame {r : ℕ} (hs : SpaceInv a v r)
    (hm : ∀ g ∈ owned a v.pmm.mem r, v'.pmm.mem g = v.pmm.mem g)
    (hr : ∀ g ∈ owned a v.pmm.mem r, v'.pmm.refCount g = v.pmm.refCount g)
    (hb : v'.pmm.blockPages r = v.pmm.blockPages r) (hq : v'.queue r = v.queue r)
    (hl : v'.slotLimit = v.slotLimit) (hk : v'.pmm.mem v'.kernelPgdir = v.pmm.mem v.kernelPgdir) :
    SpaceInv a v' r := by
  have hh : ∀ g ∈ tables a v.pmm.mem r, v'.pmm.mem g = v.pmm.mem g := fun g hg =>
    hm g (Multiset.mem_add.2 (Or.inl hg))
  have ht := tables_congr hh
  have hp := mapped_congr hh
  refine ⟨?_, hs.inner.congr (userHeap_agree hh), ?_, ?_, ?_, ?_, ?_, ?_, ?_⟩
  · rw [owned, ht, hp]
    exact hs.nodup
  · intro q s hqs
    rw [leafSlot_congr hh] at hqs
    rw [hh s.1 (leafSlot_mem hqs), hl]
    exact hs.leaves q s hqs
  · intro f hf
    rw [ht] at hf
    rw [hr f (Multiset.mem_add.2 (Or.inl hf))]
    exact hs.refTable f hf
  · intro f hf
    rw [hp] at hf
    rw [hr f (Multiset.mem_add.2 (Or.inr hf))]
    exact hs.refPage f hf
  · rw [hb]
    exact hs.root
  · rw [hq]
    exact hs.queueNodup
  · rw [hq, hp]
    exact hs.queued
  · rw [hk, hh r self_mem_tables]
    exact hs.kernelHalf

variable (a)

/-- An operation on address space `r`: it exchanges frames with the allocator, is handed the frames `take` by its
caller, takes and gives back slots, and leaves everything else alone. -/
structure LocalStep (r : ℕ) (take : Multiset ℕ) (v v' : State) : Prop where
  conserve : v'.pmm.free + owned a v'.pmm.mem r = v.pmm.free + owned a v.pmm.mem r + take
  mem : ∀ g, g ∉ v.pmm.free → g ∉ owned a v.pmm.mem r → g ∉ take → v'.pmm.mem g = v.pmm.mem g
  refCount : ∀ g, g ∉ v.pmm.free → g ∉ owned a v.pmm.mem r → g ∉ take → v'.pmm.refCount g = v.pmm.refCount g
  blockPages : v'.pmm.blockPages = v.pmm.blockPages
  space : SpaceInv a v' r
  refFree : ∀ f ∈ v'.pmm.free, v'.pmm.refCount f = 0
  slotCount : ∀ s, 0 < s → s < v.slotLimit →
    (slots a v'.pmm.mem r).count s + (v.occupied s).toNat = (slots a v.pmm.mem r).count s + (v'.occupied s).toNat
  queue : ∀ r', r' ≠ r → v'.queue r' = v.queue r'
  spaces : v'.spaces = v.spaces
  kernelPgdir : v'.kernelPgdir = v.kernelPgdir
  device : v'.device = v.device
  slotLimit : v'.slotLimit = v.slotLimit
  next : v.device = true → 0 < v'.nextSlot ∧ v'.nextSlot < v.slotLimit
  running : v'.pmm.panicked = false

variable {a}

theorem Inv.apart (hI : Inv a pool v) {r r' : ℕ}
    (hrest : v.spaces = r ::ₘ rest) (hr' : r' ∈ rest) (hg : g ∈ owned a v.pmm.mem r') :
    g ∉ v.pmm.free ∧ g ∉ owned a v.pmm.mem r := by
  have hn := hI.nodup
  rw [← hI.conserve, hrest, Multiset.map_cons, Multiset.sum_cons, Multiset.nodup_add] at hn
  have hgrest : g ∈ (rest.map (owned a v.pmm.mem)).sum := by
    obtain ⟨u, hu⟩ := Multiset.exists_cons_of_mem hr'
    rw [hu, Multiset.map_cons, Multiset.sum_cons]
    exact Multiset.mem_add.2 (Or.inl hg)
  constructor
  · intro hf
    exact Multiset.disjoint_left.1 hn.2.2 hf (Multiset.mem_add.2 (Or.inr hgrest))
  · intro ho
    exact Multiset.disjoint_left.1 (Multiset.nodup_add.1 hn.2.1).2.2 ho hgrest

theorem map_sum_congr {f g : ℕ → Multiset ℕ} (h : ∀ r ∈ rest, g r = f r) :
    (rest.map g).sum = (rest.map f).sum := by rw [Multiset.map_congr rfl h]

section

variable (hI : Inv a pool v)
include hI

theorem Inv.spaces_nodup {r : ℕ}
    (hrest : v.spaces = r ::ₘ rest) {r' : ℕ} (hr' : r' ∈ rest) : r' ≠ r := by
  rintro rfl
  have hm : r' ∈ owned a v.pmm.mem r' := Multiset.mem_add.2 (Or.inl self_mem_tables)
  exact (hI.apart hrest hr' hm).2 hm

theorem Inv.owned_mem_pool {r : ℕ} (hr : r ∈ v.spaces)
    (hg : g ∈ owned a v.pmm.mem r) : g ∈ pool := by
  rw [← hI.conserve, Multiset.mem_add]
  obtain ⟨rest, hrest⟩ := Multiset.exists_cons_of_mem hr
  rw [hrest, Multiset.map_cons, Multiset.sum_cons, Multiset.mem_add]
  exact Or.inr (Or.inl hg)

theorem Inv.free_mem_pool (hg : g ∈ v.pmm.free) :
    g ∈ pool := by
  rw [← hI.conserve]
  exact Multiset.mem_add.2 (Or.inl hg)

theorem Inv.local_step {pool' take : Multiset ℕ} {r : ℕ}
    (hr : r ∈ v.spaces) (hl : LocalStep a r take v v') (htake : ∀ g ∈ take, g ∉ pool)
    (hp : pool' = pool + take) (hnd : pool'.Nodup) (hb : ∀ f ∈ pool', f < 2 ^ 32)
    (hk : v.kernelPgdir ∉ pool') : Inv a pool' v' := by
  obtain ⟨rest, hrest⟩ := Multiset.exists_cons_of_mem hr
  have hmem : ∀ r' ∈ rest, r' ∈ v.spaces := fun r' hr' => by rw [hrest]; exact Multiset.mem_cons_of_mem hr'
  have hout : ∀ r' ∈ rest, ∀ g ∈ owned a v.pmm.mem r', g ∉ take := fun r' hr' g hg ht =>
    htake g ht (hI.owned_mem_pool (hmem r' hr') hg)
  have hagree : ∀ r' ∈ rest, ∀ g ∈ owned a v.pmm.mem r', v'.pmm.mem g = v.pmm.mem g := fun r' hr' g hg =>
    hl.mem g (hI.apart hrest hr' hg).1 (hI.apart hrest hr' hg).2 (hout r' hr' g hg)
  have htab : ∀ r' ∈ rest, ∀ g ∈ tables a v.pmm.mem r', v'.pmm.mem g = v.pmm.mem g := fun r' hr' g hg =>
    hagree r' hr' g (Multiset.mem_add.2 (Or.inl hg))
  have hkernel : v'.pmm.mem v'.kernelPgdir = v.pmm.mem v.kernelPgdir := by
    rw [hp, Multiset.mem_add, not_or] at hk
    rw [hl.kernelPgdir]
    exact hl.mem _ (fun h => hk.1 (hI.free_mem_pool h)) (fun h => hk.1 (hI.owned_mem_pool hr h)) hk.2
  have hown : (rest.map (owned a v'.pmm.mem)).sum = (rest.map (owned a v.pmm.mem)).sum :=
    map_sum_congr fun r' hr' => by rw [owned, tables_congr (htab r' hr'), mapped_congr (htab r' hr'), owned]
  have hslots : (rest.map (slots a v'.pmm.mem)).sum = (rest.map (slots a v.pmm.mem)).sum :=
    map_sum_congr fun r' hr' => slots_congr (htab r' hr')
  refine ⟨hnd, hb, ?_, ?_, hl.refFree, ?_, ?_, ?_, ?_, ?_, hl.running⟩
  · have hc := hI.conserve
    rw [hrest, Multiset.map_cons, Multiset.sum_cons] at hc
    rw [hl.spaces, hrest, Multiset.map_cons, Multiset.sum_cons, hown]
    calc v'.pmm.free + (owned a v'.pmm.mem r + (rest.map (owned a v.pmm.mem)).sum)
        = v'.pmm.free + owned a v'.pmm.mem r + (rest.map (owned a v.pmm.mem)).sum := by rw [add_assoc]
      _ = v.pmm.free + owned a v.pmm.mem r + take + (rest.map (owned a v.pmm.mem)).sum := by rw [hl.conserve]
      _ = v.pmm.free + (owned a v.pmm.mem r + (rest.map (owned a v.pmm.mem)).sum) + take := by abel
      _ = pool' := by rw [hc, hp]
  · intro r' hr'
    rw [hl.spaces, hrest, Multiset.mem_cons] at hr'
    rcases hr' with rfl | hr'
    · exact hl.space
    · have hs := hI.space r' (hmem r' hr')
      apply hs.frame (hagree r' hr') _ (by rw [hl.blockPages]) (hl.queue r' (hI.spaces_nodup hrest hr'))
        hl.slotLimit hkernel
      intro g hg
      exact hl.refCount g (hI.apart hrest hr' hg).1 (hI.apart hrest hr' hg).2 (hout r' hr' g hg)
  · intro s h0 hs
    rw [hl.slotLimit] at hs
    have hold := hI.slotCount s h0 hs
    have hstep := hl.slotCount s h0 hs
    rw [hrest, Multiset.map_cons, Multiset.sum_cons, Multiset.count_add] at hold
    rw [hl.spaces, hrest, Multiset.map_cons, Multiset.sum_cons, Multiset.count_add, hslots]
    omega
  · rw [hl.kernelPgdir]
    exact hk
  · rw [hl.device, hl.slotLimit]
    exact hI.device
  · rw [hl.slotLimit]
    exact hI.limit
  · rw [hl.device, hl.slotLimit]
    exact hl.next

theorem Inv.congr (hfree : v'.pmm.free = v.pmm.free)
    (hm : ∀ g ∈ pool, v'.pmm.mem g = v.pmm.mem g) (hr : ∀ g ∈ pool, v'.pmm.refCount g = v.pmm.refCount g)
    (hb : ∀ g ∈ pool, v'.pmm.blockPages g = v.pmm.blockPages g) (hq : ∀ r ∈ v.spaces, v'.queue r = v.queue r)
    (ho : v'.occupied = v.occupied) (hs : v'.spaces = v.spaces) (hk : v'.kernelPgdir = v.kernelPgdir)
    (hkm : v'.pmm.mem v.kernelPgdir = v.pmm.mem v.kernelPgdir)
    (hd : v'.device = v.device) (hl : v'.slotLimit = v.slotLimit)
    (hn : v.device = true → 0 < v'.nextSlot ∧ v'.nextSlot < v.slotLimit)
    (hp : v'.pmm.panicked = v.pmm.panicked) : Inv a pool v' := by
  have htab : ∀ r ∈ v.spaces, ∀ g ∈ tables a v.pmm.mem r, v'.pmm.mem g = v.pmm.mem g := fun r hrs g hg =>
    hm g (hI.owned_mem_pool hrs (Multiset.mem_add.2 (Or.inl hg)))
  refine ⟨hI.nodup, hI.bound, ?_, ?_, ?_, ?_, ?_, ?_, ?_, ?_, ?_⟩
  · rw [← hI.conserve, hfree, hs]
    congr 1
    exact map_sum_congr fun r hrs => by rw [owned, tables_congr (htab r hrs), mapped_congr (htab r hrs), owned]
  · intro r hrs
    rw [hs] at hrs
    apply (hI.space r hrs).frame _ _ _ (hq r hrs) hl (by rw [hk, hkm])
    · exact fun g hg => hm g (hI.owned_mem_pool hrs hg)
    · exact fun g hg => hr g (hI.owned_mem_pool hrs hg)
    · exact hb r (hI.owned_mem_pool hrs (Multiset.mem_add.2 (Or.inl self_mem_tables)))
  · intro f hf
    rw [hfree] at hf
    rw [hr f (hI.free_mem_pool hf)]
    exact hI.refFree f hf
  · intro s h0 hlt
    rw [hl] at hlt
    rw [hs, ho, map_sum_congr fun r hrs => slots_congr (htab r hrs)]
    exact hI.slotCount s h0 hlt
  · rw [hk]
    exact hI.kernel
  · rw [hd, hl]
    exact hI.device
  · rw [hl]
    exact hI.limit
  · rw [hd, hl]
    exact hn
  · rw [hp]
    exact hI.running

/-! ## Taking a page from the allocator and giving it back -/

theorem Inv.alloc {p : ℕ} (hp : p ∈ v.pmm.free) (c : ℕ)
    (res : ℕ → Bool) :
    Inv a (pool.erase p) { v with pmm := { v.pmm with clock := c, free := v.pmm.free.erase p, reserved := res } } := by
  refine ⟨hI.nodup.erase p, ?_, ?_, ?_, ?_, hI.slotCount, ?_, hI.device, hI.limit, hI.next, hI.running⟩
  · exact fun f hf => hI.bound f (Multiset.mem_of_mem_erase hf)
  · rw [← hI.conserve, Multiset.erase_add_left_pos _ hp]
  · exact fun r hr => (hI.space r hr).frame (fun _ _ => rfl) (fun _ _ => rfl) rfl rfl rfl rfl
  · exact fun f hf => hI.refFree f (Multiset.mem_of_mem_erase hf)
  · exact fun hk => hI.kernel (Multiset.mem_of_mem_erase hk)

theorem Inv.free {p : ℕ} (hp : p ∉ pool) (h32 : p < 2 ^ 32)
    (href : v.pmm.refCount p = 0) (hk : p ≠ v.kernelPgdir) :
    Inv a (p ::ₘ pool) { v with pmm := freePages p 1 v.pmm } := by
  have hrefs : ∀ g, (freePages p 1 v.pmm).refCount g = v.pmm.refCount g := by
    intro g
    by_cases hg : p ≤ g ∧ g < p + 1
    · obtain rfl : g = p := by omega
      simp [freePages, href]
    · simp only [freePages, hg, if_false]
  refine ⟨Multiset.nodup_cons.2 ⟨hp, hI.nodup⟩, ?_, ?_, ?_, ?_, hI.slotCount, ?_, hI.device, hI.limit, hI.next, ?_⟩
  · intro f hf
    rcases Multiset.mem_cons.1 hf with rfl | hf
    · exact h32
    · exact hI.bound f hf
  · rw [← hI.conserve]
    exact Multiset.cons_add _ _ _
  · exact fun r hr => (hI.space r hr).frame (fun _ _ => rfl) (fun g _ => hrefs g) rfl rfl rfl rfl
  · intro f hf
    rw [hrefs]
    rcases Multiset.mem_cons.1 hf with rfl | hf
    · exact href
    · exact hI.refFree f hf
  · intro hm
    rcases Multiset.mem_cons.1 hm with h | h
    · exact hk h.symm
    · exact hI.kernel h
  · simp [freePages, hI.running, href]

end

end Zonix.Vm
