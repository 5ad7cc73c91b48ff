import Mathlib
import Zonix.Vm.Spaces

/-!
# What an address space costs and gives back

From `create_user_pgdir` to `free_user_pgdir`: the allocator and the slot bitmap end as they began, up to what other
address spaces did, and the kernel's own tables and frames are never touched.
-/

namespace Zonix.Vm

open Zonix.Lib.Radix

-- The loops over the entries of the tables are not to be unrolled when their result is compared with something.
attribute [local irreducible] freeUserPgdir

variable {a : Arch} {pool : Multiset ℕ} {v v' v'' : State} {r : ℕ}

structure Frame (a : Arch) (r : ℕ) (v v' : State) : Prop where
  spaces : v'.spaces = v.spaces
  kernelPgdir : v'.kernelPgdir = v.kernelPgdir
  slotLimit : v'.slotLimit = v.slotLimit
  mem : ∀ g, g ∉ v.pmm.free → g ∉ owned a v.pmm.mem r → v'.pmm.mem g = v.pmm.mem g

theorem Frame.refl : Frame a r v v := ⟨rfl, rfl, rfl, fun _ _ _ => rfl⟩

theorem Frame.of_mem_eq (hs : v'.spaces = v.spaces) (hk : v'.kernelPgdir = v.kernelPgdir)
    (hl : v'.slotLimit = v.slotLimit) (hm : v'.pmm.mem = v.pmm.mem) : Frame a r v v' :=
  ⟨hs, hk, hl, fun _ _ _ => by rw [hm]⟩

theorem Frame.others (hf : Frame a r v v') (hI : Inv a pool v) {rest : Multiset ℕ} (hrest : v.spaces = r ::ₘ rest) :
    (rest.map (owned a v'.pmm.mem)).sum = (rest.map (owned a v.pmm.mem)).sum ∧
      (rest.map (slots a v'.pmm.mem)).sum = (rest.map (slots a v.pmm.mem)).sum := by
  have htab : ∀ r' ∈ rest, ∀ g ∈ tables a v.pmm.mem r', v'.pmm.mem g = v.pmm.mem g := by
    intro r' hr' g hg
    have happart := hI.apart hrest hr' (Multiset.mem_add.2 (Or.inl hg))
    exact hf.mem g happart.1 happart.2
  refine ⟨map_sum_congr fun r' hr' => ?_, map_sum_congr fun r' hr' => slots_congr (htab r' hr')⟩
  rw [owned, tables_congr (htab r' hr'), mapped_congr (htab r' hr'), owned]

theorem Frame.conserve (hf : Frame a r v v') (hI : Inv a pool v) (hI' : Inv a pool v') (hr : r ∈ v.spaces) :
    v'.pmm.free + owned a v'.pmm.mem r = v.pmm.free + owned a v.pmm.mem r := by
  obtain ⟨rest, hrest⟩ := Multiset.exists_cons_of_mem hr
  have h := hI.conserve
  have h' := hI'.conserve
  rw [hf.spaces] at h'
  rw [hrest, Multiset.map_cons, Multiset.sum_cons, ← add_assoc] at h h'
  rw [(hf.others hI hrest).1] at h'
  exact add_right_cancel (h'.trans h.symm)

theorem Frame.trans (h₁ : Frame a r v v') (h₂ : Frame a r v' v'') (hI : Inv a pool v) (hI' : Inv a pool v')
    (hr : r ∈ v.spaces) : Frame a r v v'' := by
  refine ⟨h₂.spaces.trans h₁.spaces, h₂.kernelPgdir.trans h₁.kernelPgdir, h₂.slotLimit.trans h₁.slotLimit, ?_⟩
  intro g hg hgo
  have hsum : g ∉ v'.pmm.free + owned a v'.pmm.mem r := by
    rw [h₁.conserve hI hI' hr, Multiset.mem_add, not_or]
    exact ⟨hg, hgo⟩
  rw [Multiset.mem_add, not_or] at hsum
  rw [h₂.mem g hsum.1 hsum.2, h₁.mem g hg hgo]

theorem OutStep.frame {b : Bool} (h : OutStep a r v v' b) : Frame a r v v' := by
  cases h with
  | kept k disk c hk hdisk hv =>
    rw [hv]
    exact Frame.of_mem_eq rfl rfl rfl rfl
  | moved victim rest va s slot k hqueue hva hs hpresent huser haddr href hslot hfree hk hv =>
    rw [hv]
    refine ⟨rfl, rfl, rfl, ?_⟩
    intro g _ hgo
    exact write_node _ _ _ fun h => hgo (h ▸ Multiset.mem_add.2 (Or.inl (leafSlot_mem hs)))

theorem InStep.frame {va : ℕ} {error : Error} (h : InStep a r va v v' error) : Frame a r v v' := by
  cases h with
  | failed error herror pmm c hfree hmem hv =>
    rw [hv]
    exact ⟨rfl, rfl, rfl, fun g hg _ => hmem g hg⟩
  | restored p s slot write execute hp hva hs hword hslot hocc hv =>
    rw [hv]
    refine ⟨rfl, rfl, rfl, ?_⟩
    intro g hg hgo
    have hgs : g ≠ s.1 := fun h => hgo (h ▸ Multiset.mem_add.2 (Or.inl (leafSlot_mem hs)))
    have hgp : g ≠ p := fun h => hg (h ▸ hp)
    exact (write_node _ _ _ hgs).trans (fill_node _ _ _ hgp)

/-- The operations on one live address space. -/
def Op.On (r : ℕ) : Op → Prop
  | create => False
  | map r' _ _ => r' = r
  | queue r' _ => r' = r
  | out _ r' _ _ => r' = r
  | swapIn r' _ => r' = r
  | fault r' _ _ => r' = r
  | destroy _ => False

theorem frame_run (E : Env) (hI : Inv a pool v) (op : Op) (hon : op.On r) (hop : op.Allowed a v) :
    Frame a r v (op.run a E v) := by
  cases op with
  | create => exact hon.elim
  | map r' va perm =>
    obtain rfl := hon
    refine ⟨rfl, rfl, rfl, ?_⟩
    intro g hg hgo
    exact (allocAndMapPage_spec E hI hop.1 (isUser_of_lt hop.2.1) hop.2.2 perm).2.2 g hg
      fun h => hgo (Multiset.mem_add.2 (Or.inl h))
  | queue r' page =>
    rw [Op.run, mapSwappable]
    split
    · exact Frame.of_mem_eq rfl rfl rfl rfl
    · exact Frame.refl
  | out current r' n tick =>
    obtain rfl := hon
    refine (swapOut_induct E (P := fun u => Frame a r' v u) current n tick hI hop Frame.refl ?_).2
    intro u u' b hIu hru hstep hf
    exact hf.trans hstep.frame hI hIu hop
  | swapIn r' va =>
    obtain rfl := hon
    exact (swapIn_spec E va hI hop).2.frame
  | fault r' code va =>
    obtain rfl := hon
    rw [Op.run]
    obtain heq | heq := pgFault_cases (a := a) (v := v) (r := r') E code va
    · rw [heq]
      exact Frame.refl
    · rw [heq]
      exact (swapIn_spec E _ hI hop).2.frame
  | destroy r' => exact hon.elim

theorem Reaches.frame {E : Env} (hv : Reaches a E (Op.On r) v v') (hI : Inv a pool v) (hr : r ∈ v.spaces) :
    Frame a r v v' := by
  induction hv with
  | start => exact Frame.refl
  | step u op hu hon hop ih => exact ih.trans (frame_run E (hu.inv hI) op hon hop) hI (hu.inv hI) hr

/-! ## Frames of the kernel -/

theorem Op.cases_on (op : Op) (hop : op.Allowed a v) :
    op = .create ∨ (∃ r ∈ v.spaces, op.On r) ∨ ∃ r ∈ v.spaces, op = .destroy r := by
  cases op with
  | create => exact Or.inl rfl
  | map r va perm => exact Or.inr (Or.inl ⟨r, hop.1, rfl⟩)
  | queue r page => exact Or.inr (Or.inl ⟨r, hop.1, rfl⟩)
  | out current r n tick => exact Or.inr (Or.inl ⟨r, hop, rfl⟩)
  | swapIn r va => exact Or.inr (Or.inl ⟨r, hop, rfl⟩)
  | fault r code va => exact Or.inr (Or.inl ⟨r, hop, rfl⟩)
  | destroy r => exact Or.inr (Or.inr ⟨r, hop, rfl⟩)

theorem mem_created {p g : ℕ} (hg : g ≠ p) : (v.created p).pmm.mem g = v.pmm.mem g := fill_node _ _ _ hg

structure Outside (pool : Multiset ℕ) (v v' : State) : Prop where
  mem : ∀ g, g ∉ pool → v'.pmm.mem g = v.pmm.mem g
  kernelPgdir : v'.kernelPgdir = v.kernelPgdir
  slotLimit : v'.slotLimit = v.slotLimit

theorem outside_run (E : Env) (hI : Inv a pool v) (op : Op) (hop : op.Allowed a v) :
    Outside pool v (op.run a E v) := by
  obtain rfl | ⟨r, hr, hon⟩ | ⟨r, hr, rfl⟩ := op.cases_on hop
  · rw [Op.run]
    obtain heq | ⟨p, hp, heq⟩ := createUserPgdir_cases E v
    · rw [heq]
      exact ⟨fun _ _ => rfl, rfl, rfl⟩
    · rw [heq]
      exact ⟨fun g hg => mem_created fun h => hg (h ▸ hI.free_mem_pool hp), rfl, rfl⟩
  · have hf := frame_run E hI op hon hop
    refine ⟨?_, hf.kernelPgdir, hf.slotLimit⟩
    intro g hg
    exact hf.mem g (fun h => hg (hI.free_mem_pool h)) fun h => hg (hI.owned_mem_pool hr h)
  · obtain ⟨u, hrel, heq⟩ := freeUserPgdir_released hI hr
    rw [Op.run, heq]
    exact ⟨fun g _ => by rw [hrel.mem], hrel.kernelPgdir, hrel.slotLimit⟩

theorem Reaches.outside {E : Env} {P : Op → Prop} (hv : Reaches a E P v v') (hI : Inv a pool v) :
    Outside pool v v' := by
  induction hv with
  | start => exact ⟨fun _ _ => rfl, rfl, rfl⟩
  | step u op hu _ hop ih =>
    have hone := outside_run E (hu.inv hI) op hop
    exact ⟨fun g hg => (hone.mem g hg).trans (ih.mem g hg), hone.kernelPgdir.trans ih.kernelPgdir,
      hone.slotLimit.trans ih.slotLimit⟩

def KernelOnly (a : Arch) (v : State) (f : ℕ) : Prop := f ∉ v.pmm.free ∧ ∀ r ∈ v.spaces, f ∉ owned a v.pmm.mem r

theorem Inv.not_mem_pool (hI : Inv a pool v) {f : ℕ} (hf : KernelOnly a v f) : f ∉ pool := by
  rw [← hI.conserve, Multiset.mem_add, not_or]
  refine ⟨hf.1, fun hm => ?_⟩
  obtain ⟨m, hm, hfm⟩ := Multiset.mem_join.1 hm
  obtain ⟨r, hr, rfl⟩ := Multiset.mem_map.1 hm
  exact hf.2 r hr hfm

def KernelTable (a : Arch) (h : Heap 512 Word) (root f : ℕ) : Prop :=
  ∃ i g, userTop i = false ∧ a.tableOf (h root i) = some g ∧ f ∈ nodes a.tableOf h a.top g

theorem kernelTable_congr {h h' : Heap 512 Word} {root root' f : ℕ}
    (hroot : ∀ i, userTop i = false → h' root' i = h root i) (hh : ∀ f, KernelTable a h root f → h' f = h f) :
    KernelTable a h' root' f → KernelTable a h root f := by
  rintro ⟨i, g, hi, hg, hf⟩
  rw [hroot i hi] at hg
  rw [nodes_congr fun k hk => hh k ⟨i, g, hi, hg, hk⟩] at hf
  exact ⟨i, g, hi, hg, hf⟩

theorem spaces_run (E : Env) (hI : Inv a pool v) (op : Op) (hop : op.Allowed a v) (hne : op ≠ .destroy r)
    (hr : r ∈ v.spaces) : r ∈ (op.run a E v).spaces := by
  obtain rfl | ⟨r', hr', hon⟩ | ⟨r', hr', rfl⟩ := op.cases_on hop
  · rw [Op.run]
    obtain heq | ⟨p, hp, heq⟩ := createUserPgdir_cases E v
    · rw [heq]
      exact hr
    · rw [heq]
      exact Multiset.mem_cons_of_mem hr
  · rw [(frame_run E hI op hon hop).spaces]
    exact hr
  · obtain ⟨u, hrel, heq⟩ := freeUserPgdir_released hI hr'
    rw [Op.run, heq]
    show r ∈ v.spaces.erase r'
    have hrr : r ≠ r' := fun h => hne (congrArg Op.destroy h.symm)
    exact (Multiset.mem_erase_of_ne hrr).2 hr

theorem Reaches.mem_spaces {E : Env} (hv : Reaches a E (· ≠ .destroy r) v v') (hI : Inv a pool v) (hr : r ∈ v.spaces) :
    r ∈ v'.spaces := by
  induction hv with
  | start => exact hr
  | step u op hu hne hop ih => exact spaces_run E (hu.inv hI) op hop hne ih

/-! ## From creation to teardown -/

/-- What `free_user_pgdir` of `r`, from `v₂` to `v₃`, leaves of an address space that was created in `v₀`. -/
structure TornDown (a : Arch) (r : ℕ) (v₀ v₂ v₃ : State) : Prop where
  running : v₃.pmm.panicked = false
  returned : v₃.pmm.free = owned a v₂.pmm.mem r + v₂.pmm.free
  once : (owned a v₂.pmm.mem r + v₂.pmm.free).Nodup
  released : ∀ s, v₃.occupied s = if s ∈ slots a v₂.pmm.mem r then false else v₂.occupied s
  balance : v₃.pmm.free + (v₃.spaces.map (owned a v₃.pmm.mem)).sum =
    v₀.pmm.free + (v₀.spaces.map (owned a v₀.pmm.mem)).sum
  bitmap : ∀ s, 0 < s → s < v₃.slotLimit →
    (v₃.occupied s).toNat = (v₃.spaces.map (slots a v₃.pmm.mem)).sum.count s
  unchanged : v₃.pmm.mem = v₂.pmm.mem
  kernel : ∀ f, KernelOnly a v₀ f → f ∉ v₃.pmm.free ∧ v₃.pmm.mem f = v₀.pmm.mem f
  kernelTables : (∀ f, KernelTable a v₀.pmm.mem v₀.kernelPgdir f → KernelOnly a v₀ f) →
    ∀ root, root = v₃.kernelPgdir ∨ root ∈ v₃.spaces → ∀ f, KernelTable a v₃.pmm.mem root f →
      f ∉ v₃.pmm.free ∧ v₃.pmm.mem f = v₀.pmm.mem f

theorem tornDown (hI : Inv a pool v) (hr : r ∈ v.spaces) {v₀ : State} (hI₀ : Inv a pool v₀) (hout : Outside pool v₀ v) :
    TornDown a r v₀ v (freeUserPgdir a r v) := by
  have hI₃ := hI.freeUserPgdir hr
  have hout₃ : Outside pool v₀ (freeUserPgdir a r v) := by
    have hone := outside_run ⟨fun _ _ _ => none, fun _ => none, fun _ => none⟩ hI (.destroy r) hr
    exact ⟨fun g hg => (hone.mem g hg).trans (hout.mem g hg), hone.kernelPgdir.trans hout.kernelPgdir,
      hone.slotLimit.trans hout.slotLimit⟩
  have hnd := hI.local_nodup hr
  rw [add_comm] at hnd
  obtain ⟨u, hrel, heq⟩ := freeUserPgdir_released hI hr
  generalize freeUserPgdir a r v = v₃ at hI₃ hout₃ heq
  have hkernel : ∀ f, KernelOnly a v₀ f → f ∉ v₃.pmm.free ∧ v₃.pmm.mem f = v₀.pmm.mem f := by
    intro f hf
    have hfp := hI₀.not_mem_pool hf
    exact ⟨fun h => hfp (hI₃.free_mem_pool h), hout₃.mem f hfp⟩
  have hbalance := hI₃.conserve.trans hI₀.conserve.symm
  refine ⟨hI₃.running, ?_, hnd, ?_, hbalance, fun s h0 hs => (hI₃.slotCount s h0 hs).symm, ?_, hkernel, ?_⟩
  · rw [heq]
    exact hrel.free
  · rw [heq]
    exact hrel.occupied
  · rw [heq]
    exact hrel.mem
  · intro hk root hroot f hf
    have hpgdir : v₃.pmm.mem v₃.kernelPgdir = v₀.pmm.mem v₀.kernelPgdir := by
      rw [hout₃.kernelPgdir]
      exact hout₃.mem _ hI₀.kernel
    have hsame : ∀ i, userTop i = false → v₃.pmm.mem root i = v₀.pmm.mem v₀.kernelPgdir i := by
      intro i hi
      rcases hroot with rfl | hroot
      · rw [hpgdir]
      · rw [(hI₃.space root hroot).kernelHalf i hi, hpgdir]
    exact hkernel f (hk f (kernelTable_congr hsame (fun f hf => (hkernel f (hk f hf)).2) hf))

theorem solo_balance {p : ℕ} {v₀ v₂ : State} (hI₀ : Inv a pool v₀) (hp : p ∈ v₀.pmm.free)
    (hf : Frame a p (v₀.created p) v₂) (hI₂ : Inv a pool v₂) (ht : TornDown a p v₀ v₂ v')
    (hs : v'.spaces = v₂.spaces.erase p) (hl : v'.slotLimit = v₀.slotLimit) :
    v'.pmm.free = v₀.pmm.free ∧ (∀ s, 0 < s → s < v₀.slotLimit → v'.occupied s = v₀.occupied s) ∧
      ∀ f ∉ v₀.pmm.free, v'.pmm.mem f = v₀.pmm.mem f := by
  have hI₁ := hI₀.created hp
  have hmem : p ∈ (v₀.created p).spaces := Multiset.mem_cons_self p v₀.spaces
  have hfree : v₂.pmm.free + owned a v₂.pmm.mem p = v₀.pmm.free := by
    rw [hf.conserve hI₁ hI₂ hmem, owned_created, add_comm, Multiset.singleton_add]
    exact Multiset.cons_erase hp
  have hspaces : v'.spaces = v₀.spaces := by
    rw [hs, hf.spaces]
    exact Multiset.erase_cons_head p v₀.spaces
  have hsame : ∀ f ∉ v₀.pmm.free, v₂.pmm.mem f = v₀.pmm.mem f := by
    intro f hff
    have hfp : f ≠ p := fun h => hff (h ▸ hp)
    rw [hf.mem f (fun h => hff (Multiset.mem_of_mem_erase h)), mem_created hfp]
    rw [owned_created, Multiset.mem_singleton]
    exact hfp
  refine ⟨by rw [ht.returned, add_comm, hfree], ?_, fun f hff => by rw [ht.unchanged, hsame f hff]⟩
  intro s h0 hs
  have hcount := ht.bitmap s h0 (by rw [hl]; exact hs)
  have hcount₀ := hI₀.slotCount s h0 hs
  have hslots : (v₀.spaces.map (slots a v'.pmm.mem)).sum = (v₀.spaces.map (slots a v₀.pmm.mem)).sum := by
    apply map_sum_congr
    intro r hr
    apply slots_congr
    intro g hg
    rw [ht.unchanged, hsame g (hI₀.not_free hr (Multiset.mem_add.2 (Or.inl hg)))]
  rw [hspaces, hslots, hcount₀] at hcount
  revert hcount
  cases v'.occupied s <;> cases v₀.occupied s <;> decide

/-- Whatever happened to an address space since it was created, `free_user_pgdir` gives everything back once, and the
kernel's tables and frames stay as they were. -/
theorem teardown_returns (a : Arch) (E : Env) {w v₀ v₁ v₂ : State} {r : ℕ} (hw : Fresh w)
    (h₀ : Reaches a E (fun _ => True) w v₀) (hcreate : createUserPgdir E v₀ = (some r, v₁))
    (h₂ : Reaches a E (· ≠ .destroy r) v₁ v₂) :
    TornDown a r v₀ v₂ (freeUserPgdir a r v₂) ∧
      (Reaches a E (Op.On r) v₁ v₂ → (freeUserPgdir a r v₂).pmm.free = v₀.pmm.free ∧
        (∀ s, 0 < s → s < v₀.slotLimit → (freeUserPgdir a r v₂).occupied s = v₀.occupied s) ∧
        ∀ f ∉ v₀.pmm.free, (freeUserPgdir a r v₂).pmm.mem f = v₀.pmm.mem f) := by
  have hI₀ := h₀.inv (hw.inv a)
  obtain hno | ⟨p, hp, hyes⟩ := createUserPgdir_cases E v₀
  · rw [hno] at hcreate
    cases hcreate
  rw [hyes] at hcreate
  cases hcreate
  have hI₁ := hI₀.created hp
  have hI₂ := h₂.inv hI₁
  have hr := h₂.mem_spaces hI₁ (Multiset.mem_cons_self r v₀.spaces)
  have hout : Outside w.pmm.free v₀ v₂ := by
    have hcreated : Outside w.pmm.free v₀ (v₀.created r) :=
      ⟨fun g hg => mem_created fun h => hg (h ▸ hI₀.free_mem_pool hp), rfl, rfl⟩
    have hrest := h₂.outside hI₁
    exact ⟨fun g hg => (hrest.mem g hg).trans (hcreated.mem g hg), hrest.kernelPgdir, hrest.slotLimit⟩
  have htorn := tornDown hI₂ hr hI₀ hout
  refine ⟨htorn, fun hon => ?_⟩
  obtain ⟨u, hrel, heq⟩ := freeUserPgdir_released hI₂ hr
  apply solo_balance hI₀ hp (hon.frame hI₁ (Multiset.mem_cons_self r v₀.spaces)) hI₂ htorn
  · rw [heq]
  · rw [heq]
    exact hrel.slotLimit.trans hout.slotLimit

theorem teardown_returns_evicted : afterOut.occupied 1 = true ∧
    (freeUserPgdir .riscv64 10 afterOut).pmm.free = booted.pmm.free ∧
    (freeUserPgdir .riscv64 10 afterOut).occupied 1 = booted.occupied 1 := by
  have hcreate : createUserPgdir ascending booted = (some 10, afterCreate) := Prod.ext (by decide +kernel) rfl
  have hkeep : Reaches .riscv64 ascending (· ≠ .destroy 10) afterCreate afterOut :=
    (afterMap_reached (by simp)).trans (afterOut_reached (by simp) (by simp))
  have hon : Reaches .riscv64 ascending (Op.On 10) afterCreate afterOut :=
    (afterMap_reached (P := Op.On 10) rfl).trans (afterOut_reached (P := Op.On 10) rfl rfl)
  obtain ⟨hfree, hbitmap, -⟩ := (teardown_returns .riscv64 ascending booted_fresh .start hcreate hkeep).2 hon
  exact ⟨by decide +kernel, hfree, hbitmap 1 (by decide) (by decide)⟩

end Zonix.Vm
