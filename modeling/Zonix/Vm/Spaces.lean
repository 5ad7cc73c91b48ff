import Mathlib
import Zonix.Vm.Teardown

/-!
# Runs over many address spaces

The operations on user address spaces as one state machine: creating and destroying them, mapping pages, putting pages
on the FIFO queue, moving pages out and bringing them back. Allocations and transfers fail as the environment likes.
-/

namespace Zonix.Vm

open Zonix.Lib.Radix

variable {a : Arch} {pool : Multiset ℕ} {v v' : State} {r : ℕ}

/-! ## A new address space -/

def State.created (v : State) (p : ℕ) : State :=
  { v with spaces := p ::ₘ v.spaces, queue := fun f => if f = p then [] else v.queue f,
           pmm := { (v.takePage p).pmm with
             blockPages := fun f => if f = p then 1 else v.pmm.blockPages f,
             mem := fill v.pmm.mem p fun i => if userTop i then 0 else v.pmm.mem v.kernelPgdir i } }

theorem createUserPgdir_cases (E : Env) (v : State) :
    createUserPgdir E v = (none, { v with pmm := { v.pmm with clock := v.pmm.clock + 1 } }) ∨
      ∃ p ∈ v.pmm.free, createUserPgdir E v = (some p, v.created p) := by
  have hone : (pgSize + pgSize - 1) / pgSize = 1 := by decide
  have hne : pgSize ≠ 0 := by decide
  obtain hno | ⟨p, hp, hget⟩ := allocPages_one_cases E v.pmm
  · left
    simp only [createUserPgdir, kmalloc, hne, hone, if_false, hno]
  · right
    refine ⟨p, hp, ?_⟩
    simp only [createUserPgdir, kmalloc, hne, hone, if_false, hget]
    rfl

variable {p s : ℕ}

theorem userHeap_created (i : Fin 512) : userHeap p (v.created p).pmm.mem p i = 0 := by
  simp only [userHeap, State.created, fill_self]
  cases userTop i <;> simp

theorem tables_created : tables a (v.created p).pmm.mem p = {p} := by
  rw [tables, nodes_bare fun i => by rw [userHeap_created, tableOf_zero]]

theorem mapped_created : mapped a (v.created p).pmm.mem p = 0 := by
  rw [mapped, weight_bare (fun i => by rw [userHeap_created, tableOf_zero]) fun i => by rw [userHeap_created, pageOf_zero]]

theorem slots_created : slots a (v.created p).pmm.mem p = 0 := by
  rw [slots, weight_bare (fun i => by rw [userHeap_created, tableOf_zero]) fun i => by
    rw [userHeap_created, slotsOf_zero]]

theorem owned_created : owned a (v.created p).pmm.mem p = {p} := by
  rw [owned, tables_created, mapped_created, add_zero]

theorem leafSlot_created (q : ℕ → Fin 512) : leafSlot a (v.created p).pmm.mem p q = none := by
  simp only [leafSlot, slot, userHeap_created, tableOf_zero, Option.elim_none]

theorem Inv.spaceInv_created (hI : Inv a pool v) (hp : p ∈ v.pmm.free) : SpaceInv a (v.created p) p := by
  have hk : v.kernelPgdir ≠ p := fun h => hI.kernel (h ▸ hI.free_mem_pool hp)
  refine ⟨?_, ?_, ?_, ?_, ?_, ?_, ?_, ?_, ?_⟩
  · rw [owned_created]
    exact Multiset.nodup_singleton p
  · apply inner_bare
    · intro _ i
      rw [userHeap_created, tableOf_zero]
    · intro _ i
      exact Or.inl (userHeap_created i)
  · intro q s hs
    rw [leafSlot_created] at hs
    cases hs
  · intro f hf
    rw [tables_created, Multiset.mem_singleton] at hf
    rw [if_pos hf, hf]
    exact hI.refFree p hp
  · intro f hf
    rw [mapped_created] at hf
    exact absurd hf (Multiset.notMem_zero f)
  · exact if_pos rfl
  · show (if p = p then [] else v.queue p).Nodup
    rw [if_pos rfl]
    exact List.nodup_nil
  · intro f hf
    change f ∈ (if p = p then [] else v.queue p) at hf
    rw [if_pos rfl] at hf
    cases hf
  · intro i hi
    show fill _ p _ p i = fill _ p _ v.kernelPgdir i
    rw [fill_self, fill_node _ _ _ hk, hi]
    rfl

theorem Inv.not_free (hI : Inv a pool v) (hr : r ∈ v.spaces) {g : ℕ} (hg : g ∈ owned a v.pmm.mem r) :
    g ∉ v.pmm.free := fun hf =>
  Multiset.disjoint_left.1 (Multiset.nodup_add.1 (hI.local_nodup hr)).2.2 hf hg

theorem Inv.created (hI : Inv a pool v) (hp : p ∈ v.pmm.free) : Inv a pool (v.created p) := by
  have hk : v.kernelPgdir ≠ p := fun h => hI.kernel (h ▸ hI.free_mem_pool hp)
  have hmem : ∀ g, g ≠ p → (v.created p).pmm.mem g = v.pmm.mem g := fun g hg => fill_node _ _ _ hg
  have hne : ∀ r ∈ v.spaces, ∀ g ∈ owned a v.pmm.mem r, g ≠ p := fun r hr g hg h => hI.not_free hr hg (h ▸ hp)
  have htab : ∀ r ∈ v.spaces, ∀ g ∈ tables a v.pmm.mem r, (v.created p).pmm.mem g = v.pmm.mem g := fun r hr g hg =>
    hmem g (hne r hr g (Multiset.mem_add.2 (Or.inl hg)))
  refine ⟨hI.nodup, hI.bound, ?_, ?_, ?_, ?_, hI.kernel, hI.device, hI.limit, hI.next, hI.running⟩
  · have hown : (v.spaces.map (owned a (v.created p).pmm.mem)).sum = (v.spaces.map (owned a v.pmm.mem)).sum :=
      map_sum_congr fun r hr => by rw [owned, tables_congr (htab r hr), mapped_congr (htab r hr), owned]
    show v.pmm.free.erase p + ((p ::ₘ v.spaces).map (owned a (v.created p).pmm.mem)).sum = pool
    rw [Multiset.map_cons, Multiset.sum_cons, owned_created, hown, ← hI.conserve, ← add_assoc,
      add_comm (v.pmm.free.erase p), Multiset.singleton_add, Multiset.cons_erase hp]
  · intro r hr
    rcases Multiset.mem_cons.1 hr with rfl | hr
    · exact hI.spaceInv_created hp
    · have hrp : r ≠ p := hne r hr r (Multiset.mem_add.2 (Or.inl self_mem_tables))
      exact (hI.space r hr).frame (fun g hg => hmem g (hne r hr g hg)) (fun _ _ => rfl) (if_neg hrp) (if_neg hrp) rfl
        (hmem _ hk)
  · exact fun f hf => hI.refFree f (Multiset.mem_of_mem_erase hf)
  · intro s h0 hs
    show (((p ::ₘ v.spaces).map (slots a (v.created p).pmm.mem)).sum).count s = _
    rw [Multiset.map_cons, Multiset.sum_cons, slots_created, zero_add, map_sum_congr fun r hr => slots_congr (htab r hr)]
    exact hI.slotCount s h0 hs

/-! ## The operations -/

inductive Op where
  | create
  | map (r va : ℕ) (perm : VmFlags)
  | queue (r page : ℕ)
  | out (current r pageCount : ℕ) (inTimerTick : Bool)
  | swapIn (r va : ℕ)
  | fault (r : ℕ) (code : FaultCode) (va : ℕ)
  | destroy (r : ℕ)

/-- How the callers use the operations: on live address spaces, pages are mapped at user addresses that are not those
of pages that are out, and only mapped pages are put on the queue. -/
def Op.Allowed (a : Arch) (v : State) : Op → Prop
  | create => True
  | map r va _ => r ∈ v.spaces ∧ va < a.userSpaceTop ∧ NotOut a v.pmm.mem r va
  | queue r page => r ∈ v.spaces ∧ page ∈ mapped a v.pmm.mem r
  | out _ r _ _ => r ∈ v.spaces
  | swapIn r _ => r ∈ v.spaces
  | fault r _ _ => r ∈ v.spaces
  | destroy r => r ∈ v.spaces

def Op.run (a : Arch) (E : Env) (v : State) : Op → State
  | create => (createUserPgdir E v).2
  | map r va perm => { v with pmm := (allocAndMapPage a E r va perm v.pmm).2 }
  | queue r page => (mapSwappable r page v).2
  | out current r pageCount inTimerTick => (swapOut a E current r pageCount inTimerTick v).2
  | swapIn r va => (Vm.swapIn a E r va v).2
  | fault r code va => (pgFault a E r code va v).2
  | destroy r => freeUserPgdir a r v

/-- The states that runs of operations that satisfy `P` lead to from `v`. -/
inductive Reaches (a : Arch) (E : Env) (P : Op → Prop) (v : State) : State → Prop where
  | start : Reaches a E P v v
  | step (u : State) (op : Op) (hu : Reaches a E P v u) (hP : P op) (hop : op.Allowed a u) :
      Reaches a E P v (op.run a E u)

theorem not_mem_queue_of_unqueued {page : ℕ} (h : unqueued v page = true) (hr : r ∈ v.spaces) : page ∉ v.queue r := by
  rw [unqueued, decide_eq_true_eq, Multiset.filter_eq_nil] at h
  exact h r hr

theorem Inv.mapSwappable (hI : Inv a pool v) (hr : r ∈ v.spaces) {page : ℕ} (hp : page ∈ mapped a v.pmm.mem r) :
    Inv a pool (mapSwappable r page v).2 := by
  rw [Zonix.Vm.mapSwappable]
  split
  · rename_i hun
    have hS := hI.space r hr
    apply hI.step hr
    refine ⟨by rw [add_zero], fun _ _ _ _ => rfl, fun _ _ _ _ => rfl, rfl, ?_, hI.refFree, fun _ _ _ => rfl, ?_, rfl, rfl,
      rfl, rfl, hI.next, hI.running⟩
    · refine ⟨hS.nodup, hS.inner, hS.leaves, hS.refTable, hS.refPage, hS.root, ?_, ?_, hS.kernelHalf⟩
      · show (if r = r then v.queue r ++ [page] else v.queue r).Nodup
        rw [if_pos rfl]
        apply List.Nodup.append hS.queueNodup (List.nodup_singleton page)
        rw [List.disjoint_singleton]
        exact not_mem_queue_of_unqueued hun hr
      · intro f hf
        change f ∈ (if r = r then v.queue r ++ [page] else v.queue r) at hf
        rw [if_pos rfl, List.mem_append, List.mem_singleton] at hf
        rcases hf with hf | rfl
        · exact hS.queued f hf
        · exact hp
    · intro r' hr'
      exact if_neg hr'
  · exact hI

theorem Inv.run (E : Env) (hI : Inv a pool v) (op : Op) (hop : op.Allowed a v) : Inv a pool (op.run a E v) := by
  cases op with
  | create =>
    obtain heq | ⟨p, hp, heq⟩ := createUserPgdir_cases E v
    · rw [Op.run, heq]
      exact hI.tick _
    · rw [Op.run, heq]
      exact hI.created hp
  | map r va perm => exact (allocAndMapPage_spec E hI hop.1 (isUser_of_lt hop.2.1) hop.2.2 perm).1
  | queue r page => exact hI.mapSwappable hop.1 hop.2
  | out current r n tick => exact (swapOut_induct E (P := fun _ => True) current n tick hI hop trivial fun _ _ _ _ _ _ _ => trivial).1
  | swapIn r va => exact (swapIn_spec E va hI hop).1
  | fault r code va =>
    rw [Op.run]
    obtain heq | heq := pgFault_cases (a := a) (v := v) (r := r) E code va
    · rw [heq]
      exact hI
    · rw [heq]
      exact (swapIn_spec E _ hI hop).1
  | destroy r => exact hI.freeUserPgdir hop

theorem Reaches.inv {E : Env} {P : Op → Prop} (hv : Reaches a E P v v') (hI : Inv a pool v) : Inv a pool v' := by
  induction hv with
  | start => exact hI
  | step u op _ _ hop ih => exact ih.run E op hop

theorem Reaches.trans {E : Env} {P : Op → Prop} {v₁ v₂ v₃ : State} (h : Reaches a E P v₁ v₂) (h' : Reaches a E P v₂ v₃) :
    Reaches a E P v₁ v₃ := by
  induction h' with
  | start => exact h
  | step u op _ hP hop ih => exact .step u op ih hP hop

/-- The state after `pmm::init`, `vmm::init` and `swap::init`, before the first address space. -/
structure Fresh (v : State) : Prop where
  spaces : v.spaces = 0
  nodup : v.pmm.free.Nodup
  bound : ∀ f ∈ v.pmm.free, f < 2 ^ 32
  refFree : ∀ f ∈ v.pmm.free, v.pmm.refCount f = 0
  bitmap : ∀ s, v.occupied s = false
  kernel : v.kernelPgdir ∉ v.pmm.free
  device : v.device = false → v.slotLimit = 0
  limit : v.slotLimit ≤ maxOffsetLimit
  next : v.device = true → v.nextSlot = 1 ∧ 1 < v.slotLimit
  running : v.pmm.panicked = false

theorem Fresh.inv (a : Arch) (h : Fresh v) : Inv a v.pmm.free v := by
  refine ⟨h.nodup, h.bound, ?_, ?_, h.refFree, ?_, h.kernel, h.device, h.limit, ?_, h.running⟩
  · rw [h.spaces, Multiset.map_zero, Multiset.sum_zero, add_zero]
  · intro r hr
    rw [h.spaces] at hr
    exact absurd hr (Multiset.notMem_zero r)
  · intro s _ _
    rw [h.spaces, h.bitmap s]
    rfl
  · intro hd
    obtain ⟨hn, hl⟩ := h.next hd
    omega

/-! ## Slots -/

/-- The leaf entry at `e.2` of the address space `e.1` is that of a page that is out in slot `s`. -/
def Encodes (a : Arch) (v : State) (s : ℕ) (e : ℕ × ℕ × Fin 512) : Prop :=
  e.1 ∈ v.spaces ∧ (∃ q, leafSlot a v.pmm.mem e.1 q = some e.2) ∧ a.ptePresent (v.pmm.mem e.2.1 e.2.2) = false ∧
    v.pmm.mem e.2.1 e.2.2 ≠ 0 ∧ slotOf (v.pmm.mem e.2.1 e.2.2) = s

theorem mem_slotsOf {w : Word} : s ∈ slotsOf a w ↔ a.ptePresent w = false ∧ w ≠ 0 ∧ slotOf w = s := by
  rw [slotsOf]
  split
  · rename_i h
    simp only [Multiset.notMem_zero, false_iff, not_and]
    intro hp hne
    rcases h with h | h
    · rw [hp] at h
      cases h
    · exact absurd h hne
  · rename_i h
    rw [not_or, Bool.not_eq_true] at h
    rw [Multiset.mem_singleton]
    exact ⟨fun hs => ⟨h.1, h.2, hs.symm⟩, fun hs => hs.2.2.symm⟩

theorem Encodes.mem_slots (hI : Inv a pool v) {e : ℕ × ℕ × Fin 512} (he : Encodes a v s e) :
    s ∈ slots a v.pmm.mem e.1 := by
  obtain ⟨hr, ⟨q, hq⟩, hw⟩ := he
  exact Multiset.mem_of_le (slotsOf_le_slots (Multiset.nodup_add.1 (hI.space _ hr).nodup).1 hq) (mem_slotsOf.2 hw)

theorem Inv.exists_encodes (hI : Inv a pool v) (hr : r ∈ v.spaces) (hs : s ∈ slots a v.pmm.mem r) :
    ∃ t, Encodes a v s (r, t) := by
  obtain ⟨q, t, ht, hm⟩ := mem_weight_leaf hs
  rw [userHeap_other _ (leafSlot_ne_root (Multiset.nodup_add.1 (hI.space r hr).nodup).1 ht)] at hm
  exact ⟨t, hr, ⟨q, ht⟩, mem_slotsOf.1 hm⟩

theorem two_le_count {h : Heap 512 Word} {q q' : ℕ → Fin 512} {t t' : ℕ × Fin 512}
    (hn : (tables a h r).Nodup) (ht : leafSlot a h r q = some t) (ht' : leafSlot a h r q' = some t') (hne : t' ≠ t)
    (hs : s ∈ slotsOf a (h t.1 t.2)) (hs' : s ∈ slotsOf a (h t'.1 t'.2)) : 2 ≤ (slots a h r).count s := by
  have hW := written_of_leafSlot (w := 0) hn ht
  have hword : write h t 0 t'.1 t'.2 = h t'.1 t'.2 := by
    have : ¬ (t'.1 = t.1 ∧ t'.2 = t.2) := fun hc => hne (Prod.ext hc.1 hc.2)
    simp [write, this]
  have hle := slotsOf_le_slots (h := write h t 0) (by rw [hW.tables_eq]; exact hn) (by rw [hW.slot_eq]; exact ht')
  rw [hword] at hle
  have hone := Multiset.count_pos.2 (Multiset.mem_of_le hle hs')
  have hcount := congrArg (Multiset.count s) hW.slots_add
  rw [slotsOf_zero, Multiset.count_add, add_zero] at hcount
  have := Multiset.count_pos.2 hs
  omega

theorem Inv.encodes_inj (hI : Inv a pool v) (h0 : 0 < s) (hs : s < v.slotLimit) {e e' : ℕ × ℕ × Fin 512}
    (he : Encodes a v s e) (he' : Encodes a v s e') : e' = e := by
  have hm := he.mem_slots hI
  have hm' := he'.mem_slots hI
  obtain ⟨r, t⟩ := e
  obtain ⟨r', t'⟩ := e'
  obtain ⟨hr, ⟨q, hq⟩, hw⟩ := he
  obtain ⟨hr', ⟨q', hq'⟩, hw'⟩ := he'
  obtain ⟨rest, hrest⟩ := Multiset.exists_cons_of_mem hr
  have hone := Bool.toNat_le (v.occupied s)
  have hcount := hI.slotCount s h0 hs
  rw [hrest, Multiset.map_cons, Multiset.sum_cons, Multiset.count_add] at hcount
  have hrr : r' = r := by
    by_contra hne
    have hin : r' ∈ rest := (Multiset.mem_cons.1 (hrest ▸ hr')).resolve_left hne
    obtain ⟨rest', hrest'⟩ := Multiset.exists_cons_of_mem hin
    rw [hrest', Multiset.map_cons, Multiset.sum_cons, Multiset.count_add] at hcount
    have h1 := Multiset.count_pos.2 hm
    have h2 := Multiset.count_pos.2 hm'
    simp only at h1 h2 hcount
    omega
  subst hrr
  by_contra hne
  have htt : t' ≠ t := fun h => hne (by rw [h])
  have htwo := two_le_count (Multiset.nodup_add.1 (hI.space _ hr).nodup).1 hq hq' htt (mem_slotsOf.2 hw) (mem_slotsOf.2 hw')
  omega

/-- Along every run, a slot is occupied exactly when one entry of one live address space names it, and never do two
entries name the same slot. -/
theorem slot_ownership (a : Arch) (E : Env) {v₀ v : State} (h₀ : Fresh v₀) (hv : Reaches a E (fun _ => True) v₀ v)
    (s : ℕ) (h0 : 0 < s) (hs : s < v.slotLimit) :
    (v.occupied s = true ↔ ∃! e, Encodes a v s e) ∧ ∀ e e', Encodes a v s e → Encodes a v s e' → e = e' := by
  have hI := hv.inv (h₀.inv a)
  have hinj : ∀ e e', Encodes a v s e → Encodes a v s e' → e = e' := fun e e' he he' => hI.encodes_inj h0 hs he' he
  refine ⟨⟨?_, ?_⟩, hinj⟩
  · intro ho
    have hcount := hI.slotCount s h0 hs
    rw [ho, Bool.toNat_true] at hcount
    have hmem : s ∈ (v.spaces.map (slots a v.pmm.mem)).sum := Multiset.count_pos.1 (by omega)
    obtain ⟨m, hm, hsm⟩ := Multiset.mem_join.1 hmem
    obtain ⟨r, hr, rfl⟩ := Multiset.mem_map.1 hm
    obtain ⟨t, ht⟩ := hI.exists_encodes hr hsm
    exact ⟨(r, t), ht, fun e he => hinj e (r, t) he ht⟩
  · rintro ⟨e, he, -⟩
    have hpos := Multiset.count_pos.2 (he.mem_slots hI)
    have hle := hI.slots_count_le he.1 h0 hs
    cases ho : v.occupied s with
    | true => rfl
    | false =>
      rw [ho, Bool.toNat_false] at hle
      omega

/-- An allocator that hands out one frame after the other, and devices without errors. -/
def ascending : Env := ⟨fun t _ _ => some (10 + t), fun _ => none, fun _ => none⟩

/-- A machine with ten free frames and two slots. -/
def booted : State where
  pmm := ⟨fun _ _ => 0, frames 10 10, fun _ => 0, fun _ => false, fun _ => false, fun _ => 0, 20, 0, false⟩
  kernelPgdir := 0
  spaces := 0
  queue := fun _ => []
  device := true
  slotLimit := 3
  nextSlot := 1
  occupied := fun _ => false
  disk := fun _ _ => 0
  ioClock := 0

theorem booted_fresh : Fresh booted where
  spaces := rfl
  nodup := by decide
  bound := by decide
  refFree := fun _ _ => rfl
  bitmap := fun _ => rfl
  kernel := by decide
  device := by decide
  limit := by decide
  next := by decide
  running := rfl

def afterCreate : State := Op.run .riscv64 ascending booted .create

def afterMap : State := Op.run .riscv64 ascending afterCreate (.map 10 0x1000 (userPagePerm true false))

def afterQueue : State := Op.run .riscv64 ascending afterMap (.queue 10 11)

def afterOut : State := Op.run .riscv64 ascending afterQueue (.out 10 10 1 false)

theorem afterCreate_reached : Reaches .riscv64 ascending (fun _ => True) booted afterCreate :=
  .step booted .create .start trivial trivial

theorem afterMap_reached {P : Op → Prop} (hmap : P (.map 10 0x1000 (userPagePerm true false))) :
    Reaches .riscv64 ascending P afterCreate afterMap := by
  refine .step afterCreate _ .start hmap ⟨by decide +kernel, by decide, ?_⟩
  unfold NotOut
  decide +kernel

theorem afterOut_reached {P : Op → Prop} (hqueue : P (.queue 10 11)) (hout : P (.out 10 10 1 false)) :
    Reaches .riscv64 ascending P afterMap afterOut := by
  have hqueued : Reaches .riscv64 ascending P afterMap afterQueue :=
    .step afterMap _ .start hqueue ⟨by decide +kernel, by decide +kernel⟩
  exact .step afterQueue (.out 10 10 1 false) hqueued hout (show 10 ∈ afterQueue.spaces by decide +kernel)

theorem slot_ownership_evicted : afterOut.occupied 1 = true ∧ ∃! e, Encodes .riscv64 afterOut 1 e := by
  have hocc : afterOut.occupied 1 = true := by decide +kernel
  have hreach := (afterCreate_reached.trans (afterMap_reached trivial)).trans (afterOut_reached trivial trivial)
  exact ⟨hocc, (slot_ownership .riscv64 ascending booted_fresh hreach 1 (by decide) (by decide +kernel)).1.1 hocc⟩

end Zonix.Vm
