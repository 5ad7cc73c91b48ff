import Mathlib
import Zonix.Vm.Balance

/-!
# Swapping is invisible

What a user program sees of a page, its contents and its rights, does not depend on whether the page is resident or
out. Every operation keeps it for every page of every address space that is still there.
-/

namespace Zonix.Vm

open Zonix.Lib.Radix Zonix.Lib.Bits

attribute [local irreducible] freeUserPgdir

variable {a : Arch} {pool : Multiset ℕ} {v v' : State} {r va : ℕ}

/-! ## The hardware walk of a user address -/

theorem translateWith_step {h : Heap 512 Word} {l f : ℕ} (hw : UserWord a (h f (levelIndex va (l + 1)))) :
    translateWith a a.limits h va (l + 1) f =
      (a.tableOf (h f (levelIndex va (l + 1)))).elim none fun g => translateWith a a.limits h va l g := by
  rw [translateWith]
  rcases hw with h0 | ⟨t, ht, hw⟩
  · simp only [h0, tableOf_zero, a.ptePresent_zero, Bool.false_eq_true, if_false, Option.elim_none]
  · have htab := a.isTable_makePteTable (fits_pageToPhys a t ht)
    have hnext : a.tableOf (a.makePteTable (pageToPhys t)) = some (physToPage (pageToPhys t)) := by
      rw [Arch.tableOf, htab.present, htab.table, htab.addr]
      rfl
    simp only [hw, hnext, htab.limits, Attrs.limit_none, Option.elim_some]
    exact Option.map_id'

theorem translateWith_user {h : Heap 512 Word} {l f : ℕ} (hi : Inner a.tableOf (fun _ => UserWord a) h l f) :
    translateWith a a.limits h va l f = (slot a.tableOf h (levelIndex va) l f).elim none fun s =>
      if a.ptePresent (h s.1 s.2) then some (leafMapping a (h s.1 s.2) 0 va) else none := by
  induction l generalizing f with
  | zero => rfl
  | succ l ih =>
    rw [translateWith_step hi.word, slot]
    cases hg : a.tableOf (h f (levelIndex va (l + 1))) with
    | none => rfl
    | some g => exact ih (hi.child hg)

theorem mapping_elim (h : Heap 512 Word) (s : Option (ℕ × Fin 512)) :
    (s.elim none fun s => if a.ptePresent (h s.1 s.2) then some (leafMapping a (h s.1 s.2) 0 va) else none) =
      if a.ptePresent (s.elim 0 fun s => h s.1 s.2) then some (leafMapping a (s.elim 0 fun s => h s.1 s.2) 0 va)
      else none := by
  cases s with
  | none => simp only [Option.elim_none, a.ptePresent_zero, Bool.false_eq_true, if_false]
  | some s => rfl

theorem translate_user (hI : Inv a pool v) (hr : r ∈ v.spaces) (hva : IsUser a va) :
    translate a v.pmm.mem r va = if a.ptePresent (leafWord a v.pmm.mem r va) then
      some (leafMapping a (leafWord a v.pmm.mem r va) 0 va) else none := by
  have hU := hI.userTree hr
  have hroot : UserWord a (v.pmm.mem r (levelIndex va (a.top + 1))) := by
    have hw := (hI.space r hr).inner.word (i := levelIndex va (a.top + 1))
    rwa [userHeap_user _ hva] at hw
  rw [translate, ptWalkLevels_eq, translateWith_step hroot, leafWord,
    ← slot_eq_leafSlot (Multiset.nodup_add.1 (hI.space r hr).nodup).1 hva, slot]
  cases hg : a.tableOf (v.pmm.mem r (levelIndex va (a.top + 1))) with
  | none =>
    simp only [Option.elim_none, a.ptePresent_zero, Bool.false_eq_true, if_false]
  | some g =>
    simp only [Option.elim_some]
    rw [translateWith_user (hU.child hva hg).1.inner]
    exact mapping_elim _ _

/-! ## What a program sees of a page -/

structure PageView where
  data : Fin 512 → Word
  user : Bool
  write : Bool
  exec : Bool

/-- The page at an address, wherever its contents are. -/
def pageView (a : Arch) (v : State) (r va : ℕ) : Option PageView :=
  let w := leafWord a v.pmm.mem r va
  if a.ptePresent w then
    some ⟨v.pmm.mem (physToPage (a.pteAddr w)), a.pteUser w, a.pteWritable w, a.pteExecutable w⟩
  else if w = 0 then none
  else some ⟨readBlocks v.disk (startLba (slotOf w)), true, w &&& entryWrite != 0, w &&& entryExecute != 0⟩

/-- The page that the hardware finds at an address. -/
def residentView (a : Arch) (v : State) (r va : ℕ) : Option PageView :=
  (translate a v.pmm.mem r va).map fun m =>
    ⟨v.pmm.mem (m.pa / pgSize), m.attrs.user, m.attrs.write, m.attrs.exec⟩

theorem leafMapping_page (w : Word) : (leafMapping a w 0 va).pa / pgSize = physToPage (a.pteAddr w) := by
  have hbase : (a.leafBase w 0).toNat = (a.pteAddr w).toNat / 2 ^ levelShift 0 * 2 ^ levelShift 0 :=
    toNat_and_not_lowMask _ _
  have hlt : va % 2 ^ levelShift 0 < 2 ^ levelShift 0 := Nat.mod_lt _ (Nat.two_pow_pos _)
  rw [leafMapping, hbase, physToPage]
  simp only [levelShift, pgSize] at hlt ⊢
  omega

theorem leafMapping_attrs (w : Word) : (leafMapping a w 0 va).attrs = a.attrs w 0 := rfl

theorem residentView_eq (hI : Inv a pool v) (hr : r ∈ v.spaces) (hva : IsUser a va) :
    residentView a v r va = if a.ptePresent (leafWord a v.pmm.mem r va) then pageView a v r va else none := by
  rw [residentView, translate_user hI hr hva]
  by_cases hp : a.ptePresent (leafWord a v.pmm.mem r va) = true
  · rw [if_pos hp, if_pos hp, pageView]
    simp only [hp, if_true, Option.map_some, leafMapping_page, leafMapping_attrs, Arch.attrs_user, Arch.attrs_write,
      Arch.attrs_exec]
  · rw [if_neg hp, if_neg hp]
    rfl

theorem pageView_present (hp : a.ptePresent (leafWord a v.pmm.mem r va) = true) :
    pageView a v r va = some ⟨v.pmm.mem (physToPage (a.pteAddr (leafWord a v.pmm.mem r va))),
      a.pteUser (leafWord a v.pmm.mem r va), a.pteWritable (leafWord a v.pmm.mem r va),
      a.pteExecutable (leafWord a v.pmm.mem r va)⟩ := by
  rw [pageView, if_pos hp]

theorem pageView_out {slot : ℕ} {write execute : Bool} (hs : slot < 2 ^ 24)
    (hw : leafWord a v.pmm.mem r va = swapEntry slot write execute) :
    pageView a v r va = some ⟨readBlocks v.disk (startLba slot), true, write, execute⟩ := by
  simp only [pageView, hw, ptePresent_swapEntry, Bool.false_eq_true, if_false, swapEntry_ne_zero, slotOf_swapEntry _ _ hs,
    swapEntry_write, swapEntry_execute]

/-- A page keeps its view if its entry, the frames that its address space maps and the slots it holds are kept. -/
theorem pageView_congr (hI : Inv a pool v) (hr : r ∈ v.spaces)
    (hw : leafWord a v'.pmm.mem r va = leafWord a v.pmm.mem r va)
    (hm : ∀ g ∈ mapped a v.pmm.mem r, v'.pmm.mem g = v.pmm.mem g)
    (hd : ∀ s ∈ slots a v.pmm.mem r, readBlocks v'.disk (startLba s) = readBlocks v.disk (startLba s)) :
    pageView a v' r va = pageView a v r va := by
  have ht := (Multiset.nodup_add.1 (hI.space r hr).nodup).1
  unfold pageView
  simp only [hw]
  by_cases hz : leafWord a v.pmm.mem r va = 0
  · simp only [hz, a.ptePresent_zero, Bool.false_eq_true, if_false, if_true]
  obtain ⟨s, hs, hword⟩ := leafWord_ne_zero hz
  by_cases hp : a.ptePresent (leafWord a v.pmm.mem r va) = true
  · rw [if_pos hp, if_pos hp]
    have hmem : physToPage (a.pteAddr (leafWord a v.pmm.mem r va)) ∈ mapped a v.pmm.mem r := by
      apply Multiset.mem_of_le (pageOf_le_mapped ht hs)
      rw [hword] at hp ⊢
      rw [pageOf, if_pos hp]
      exact Multiset.mem_singleton_self _
    rw [hm _ hmem]
  · rw [if_neg hp, if_neg hp, if_neg hz, if_neg hz]
    have hmem : slotOf (leafWord a v.pmm.mem r va) ∈ slots a v.pmm.mem r := by
      apply Multiset.mem_of_le (slotsOf_le_slots ht hs)
      rw [hword] at hp hz ⊢
      exact mem_slotsOf.2 ⟨by simpa using hp, hz, rfl⟩
    rw [hd _ hmem]

/-! ## One operation -/

theorem Frame.leafWord_other (hf : Frame a r v v') (hI : Inv a pool v) (hr : r ∈ v.spaces) {r' : ℕ} (hr' : r' ∈ v.spaces)
    (hne : r' ≠ r) : leafWord a v'.pmm.mem r' va = leafWord a v.pmm.mem r' va := by
  obtain ⟨rest, hrest⟩ := Multiset.exists_cons_of_mem hr
  have hin : r' ∈ rest := (Multiset.mem_cons.1 (hrest ▸ hr')).resolve_left hne
  apply leafWord_congr
  intro g hg
  have happart := hI.apart hrest hin (Multiset.mem_add.2 (Or.inl hg))
  exact hf.mem g happart.1 happart.2

theorem Frame.mapped_other (hf : Frame a r v v') (hI : Inv a pool v) (hr : r ∈ v.spaces) {r' : ℕ} (hr' : r' ∈ v.spaces)
    (hne : r' ≠ r) : ∀ g ∈ mapped a v.pmm.mem r', v'.pmm.mem g = v.pmm.mem g := by
  obtain ⟨rest, hrest⟩ := Multiset.exists_cons_of_mem hr
  have hin : r' ∈ rest := (Multiset.mem_cons.1 (hrest ▸ hr')).resolve_left hne
  intro g hg
  have happart := hI.apart hrest hin (Multiset.mem_add.2 (Or.inr hg))
  exact hf.mem g happart.1 happart.2

theorem Inv.slot_occupied (hI : Inv a pool v) (hr : r ∈ v.spaces) {s : ℕ} (hs : s ∈ slots a v.pmm.mem r) :
    (0 < s ∧ s < v.slotLimit) ∧ v.occupied s = true := by
  obtain ⟨F, hF⟩ : ∃ F, owned a v.pmm.mem r = {r} + F :=
    ⟨_, owned_eq (Multiset.nodup_add.1 (hI.space r hr).nodup).1⟩
  obtain ⟨-, hrange, hocc⟩ := (hI.held hr hF).inUse s hs
  exact ⟨hrange, hocc⟩

theorem pageView_outStep {b : Bool} (h : OutStep a r v v' b) (hI : Inv a pool v) (hr : r ∈ v.spaces) {r' : ℕ}
    (hr' : r' ∈ v.spaces) : pageView a v' r' va = pageView a v r' va := by
  have hf := h.frame
  cases h with
  | kept k disk c hk hdisk hv =>
    subst hv
    refine pageView_congr hI hr' rfl (fun _ _ => rfl) ?_
    intro s hs
    obtain ⟨hrange, hocc⟩ := hI.slot_occupied hr' hs
    exact hdisk s hrange.1 hrange.2 hocc
  | moved victim rest va₀ s slot k hqueue hva hs hpresent huser haddr href hslot hfree hk hv =>
    have hlimit := hI.limit
    have hdisk : ∀ t ∈ slots a v.pmm.mem r', readBlocks v'.disk (startLba t) = readBlocks v.disk (startLba t) := by
      intro t ht
      obtain ⟨hrange, hocc⟩ := hI.slot_occupied hr' ht
      rw [hv]
      apply readBlocks_other _ _ hslot.1 (by omega) hrange.1 (by omega)
      rintro rfl
      rw [hfree] at hocc
      cases hocc
    by_cases hrr : r' = r
    · subst hrr
      have hS := hI.space r' hr
      have ht := (Multiset.nodup_add.1 hS.nodup).1
      obtain ⟨hword, hother⟩ := leafWord_write (w := swapEntry slot (a.pteWritable (v.pmm.mem s.1 s.2))
        (a.pteExecutable (v.pmm.mem s.1 s.2))) ht hs
      by_cases hsame : SamePage a va₀ va
      · -- the page that went out
        have h32 := hI.queue_lt hr (by rw [hqueue]; exact List.mem_cons_self)
        have hold : leafWord a v.pmm.mem r' va = v.pmm.mem s.1 s.2 := by
          rw [samePage_leafWord hsame, leafWord_slot hs]
        have hnew : leafWord a v'.pmm.mem r' va = swapEntry slot (a.pteWritable (v.pmm.mem s.1 s.2))
            (a.pteExecutable (v.pmm.mem s.1 s.2)) := by
          rw [samePage_leafWord hsame, hv]
          exact hword
        rw [pageView_out (by omega) hnew, pageView_present (by rw [hold]; exact hpresent), hold, huser, haddr,
          physToPage_pageToPhys h32, hv]
        simp only [State.evicted, readBlocks_writeBlocks]
      · apply pageView_congr hI hr' _ _ hdisk
        · rw [hv]
          exact hother va hsame
        · intro g hg
          rw [hv]
          apply write_node
          rintro rfl
          exact Multiset.disjoint_left.1 (Multiset.nodup_add.1 hS.nodup).2.2 (leafSlot_mem hs) hg
    · exact pageView_congr hI hr' (hf.leafWord_other hI hr hr' hrr) (hf.mapped_other hI hr hr' hrr) hdisk

theorem pageView_inStep {error : Error} {va₀ : ℕ} (h : InStep a r va₀ v v' error) (hI : Inv a pool v)
    (hr : r ∈ v.spaces) {r' : ℕ} (hr' : r' ∈ v.spaces) : pageView a v' r' va = pageView a v r' va := by
  have hf := h.frame
  cases h with
  | failed error herror pmm c hfree hmem hv =>
    subst hv
    apply pageView_congr hI hr'
    · apply leafWord_congr
      exact fun g hg => hmem g (hI.not_free hr' (Multiset.mem_add.2 (Or.inl hg)))
    · exact fun g hg => hmem g (hI.not_free hr' (Multiset.mem_add.2 (Or.inr hg)))
    · exact fun _ _ => rfl
  | restored p s slot write execute hp hva hs hword hslot hocc hv =>
    have hdisk : v'.disk = v.disk := by rw [hv]; rfl
    by_cases hrr : r' = r
    · subst hrr
      have hS := hI.space r' hr
      have ht := (Multiset.nodup_add.1 hS.nodup).1
      have h32 := hI.bound p (hI.free_mem_pool hp)
      have hlimit := hI.limit
      have hfill : ∀ g ∈ owned a v.pmm.mem r', (v.read p slot).pmm.mem g = v.pmm.mem g := by
        intro g hg
        apply fill_node
        rintro rfl
        exact hI.not_free hr hg hp
      have htables : ∀ g ∈ tables a v.pmm.mem r', (v.read p slot).pmm.mem g = v.pmm.mem g := fun g hg =>
        hfill g (Multiset.mem_add.2 (Or.inl hg))
      have ht' : (tables a (v.read p slot).pmm.mem r').Nodup := by
        rw [tables_congr htables]
        exact ht
      have hs' : leafSlot a (v.read p slot).pmm.mem r' (levelIndex va₀) = some s := by
        rw [leafSlot_congr htables]
        exact hs
      obtain ⟨hnew, hother⟩ := leafWord_write (w := a.makePtePage (pageToPhys p) (userPagePerm write execute)) ht' hs'
      by_cases hsame : SamePage a va₀ va
      · -- the page that came back
        have hpage := a.isPage_makePtePage (userPagePerm write execute) (fits_pageToPhys a p h32)
        have hold : leafWord a v.pmm.mem r' va = swapEntry slot write execute := by
          rw [samePage_leafWord hsame, leafWord_slot hs, hword]
        have hword' : leafWord a v'.pmm.mem r' va = a.makePtePage (pageToPhys p) (userPagePerm write execute) := by
          rw [samePage_leafWord hsame, hv]
          exact hnew
        have hdata : v'.pmm.mem p = readBlocks v.disk (startLba slot) := by
          rw [hv]
          have hps : p ≠ s.1 := by
            rintro rfl
            exact hI.not_free hr (Multiset.mem_add.2 (Or.inl (leafSlot_mem hs))) hp
          exact (write_node _ _ _ hps).trans (fill_self _ _ _)
        rw [pageView_out (by omega) hold, pageView_present (by rw [hword']; exact hpage.present), hword', hpage.addr,
          hpage.user, hpage.writable, hpage.executable, physToPage_pageToPhys h32, hdata]
        simp only [userPagePerm, Bool.not_not]
      · apply pageView_congr hI hr'
        · rw [hv]
          exact (hother va hsame).trans (leafWord_congr htables)
        · intro g hg
          rw [hv]
          have hgs : g ≠ s.1 := by
            rintro rfl
            exact Multiset.disjoint_left.1 (Multiset.nodup_add.1 hS.nodup).2.2 (leafSlot_mem hs) hg
          exact (write_node _ _ _ hgs).trans (hfill g (Multiset.mem_add.2 (Or.inr hg)))
        · exact fun _ _ => by rw [hdisk]
    · exact pageView_congr hI hr' (hf.leafWord_other hI hr hr' hrr) (hf.mapped_other hI hr hr' hrr)
        fun _ _ => by rw [hdisk]

theorem pageView_run (E : Env) (hI : Inv a pool v) (op : Op) (hop : op.Allowed a v) (hr : r ∈ v.spaces) {x : PageView}
    (hx : pageView a v r va = some x) : pageView a (op.run a E v) r va = some x := by
  cases op with
  | create =>
    rw [Op.run]
    obtain heq | ⟨p, hp, heq⟩ := createUserPgdir_cases E v
    · rw [heq]
      exact hx
    · rw [heq, ← hx]
      have hne : ∀ g ∈ owned a v.pmm.mem r, g ≠ p := fun g hg h => hI.not_free hr hg (h ▸ hp)
      apply pageView_congr hI hr
      · exact leafWord_congr fun g hg => mem_created (hne g (Multiset.mem_add.2 (Or.inl hg)))
      · exact fun g hg => mem_created (hne g (Multiset.mem_add.2 (Or.inr hg)))
      · exact fun _ _ => rfl
  | map r₀ va₀ perm =>
    have hf := frame_run E hI (.map r₀ va₀ perm) (r := r₀) rfl hop
    obtain ⟨-, hout, hmem⟩ := allocAndMapPage_spec E hI hop.1 (isUser_of_lt hop.2.1) hop.2.2 perm
    rw [Op.run] at hf ⊢
    by_cases hrr : r = r₀
    · subst hrr
      have hmapped : ∀ g ∈ mapped a v.pmm.mem r, (allocAndMapPage a E r va₀ perm v.pmm).2.mem g = v.pmm.mem g := by
        intro g hg
        apply hmem g (hI.not_free hr (Multiset.mem_add.2 (Or.inr hg)))
        intro hgt
        exact Multiset.disjoint_left.1 (Multiset.nodup_add.1 (hI.space r hr).nodup).2.2 hgt hg
      rw [← hx]
      refine pageView_congr hI hr ?_ hmapped fun _ _ => rfl
      generalize (allocAndMapPage a E r va₀ perm v.pmm).1 = res at hout
      cases hout with
      | failed hwords => exact hwords va
      | done p hp hempty hword hwords =>
        apply hwords va
        intro hsame
        rw [pageView, samePage_leafWord hsame, hempty] at hx
        simp only [a.ptePresent_zero, Bool.false_eq_true, if_false, if_true] at hx
        cases hx
    · rw [← hx]
      exact pageView_congr hI hr (hf.leafWord_other hI hop.1 hr hrr) (hf.mapped_other hI hop.1 hr hrr) fun _ _ => rfl
  | queue r₀ page =>
    rw [Op.run, mapSwappable, ← hx]
    split
    · rfl
    · rfl
  | out current r₀ n tick =>
    refine (swapOut_induct E (P := fun u => r ∈ u.spaces ∧ pageView a u r va = some x) current n tick hI hop
      ⟨hr, hx⟩ ?_).2.2
    intro u u' b hIu hru hstep hu
    refine ⟨by rw [hstep.spaces]; exact hu.1, ?_⟩
    rw [pageView_outStep hstep hIu hru hu.1]
    exact hu.2
  | swapIn r₀ va₀ =>
    rw [Op.run, pageView_inStep (swapIn_spec E va₀ hI hop).2 hI hop hr]
    exact hx
  | fault r₀ code va₀ =>
    rw [Op.run]
    obtain heq | heq := pgFault_cases (a := a) (v := v) (r := r₀) E code va₀
    · rw [heq]
      exact hx
    · rw [heq, pageView_inStep (swapIn_spec E _ hI hop).2 hI hop hr]
      exact hx
  | destroy r₀ =>
    obtain ⟨u, hrel, heq⟩ := freeUserPgdir_released hI hop
    rw [Op.run, heq, ← hx]
    apply pageView_congr hI hr
    · show leafWord a u.pmm.mem r va = _
      rw [hrel.mem]
    · exact fun g _ => by rw [hrel.mem]
    · exact fun s _ => by rw [hrel.disk]

theorem Reaches.pageView {E : Env} {x : PageView} (hv : Reaches a E (· ≠ .destroy r) v v') (hI : Inv a pool v)
    (hr : r ∈ v.spaces) (hx : pageView a v r va = some x) : pageView a v' r va = some x := by
  induction hv with
  | start => exact hx
  | step u op hu hne hop ih => exact pageView_run E (hu.inv hI) op hop (hu.mem_spaces hI hr) ih

/-! ## What an operation does to an entry -/

/-- The entry is that of a page that is out. -/
def IsOut (a : Arch) (w : Word) : Prop := a.ptePresent w = false ∧ w ≠ 0

/-- An operation leaves the entry for `va` in `r` alone, or it is the one that moves the page out, brings it back or
maps it. -/
inductive EntryStep (a : Arch) (r va : ℕ) (w w' : Word) : Op → Prop where
  | same (op : Op) (hw : w' = w) : EntryStep a r va w w' op
  | evicted (current n : ℕ) (tick : Bool) (hw : a.ptePresent w = true) (hw' : IsOut a w') :
      EntryStep a r va w w' (.out current r n tick)
  | restored (va₀ : ℕ) (hva : SamePage a va₀ va) (hw : IsOut a w) (hw' : a.ptePresent w' = true) :
      EntryStep a r va w w' (.swapIn r va₀)
  | faulted (code : FaultCode) (va₀ : ℕ) (hva : SamePage a (va₀ / pgSize * pgSize) va) (hw : IsOut a w)
      (hw' : a.ptePresent w' = true) : EntryStep a r va w w' (.fault r code va₀)
  | mapped (va₀ : ℕ) (perm : VmFlags) (hva : SamePage a va₀ va) (hw : w = 0) (hw' : a.ptePresent w' = true) :
      EntryStep a r va w w' (.map r va₀ perm)

theorem isOut_swapEntry (slot : ℕ) (w x : Bool) : IsOut a (swapEntry slot w x) :=
  ⟨ptePresent_swapEntry a slot w x, swapEntry_ne_zero slot w x⟩

theorem leafWord_outStep {b : Bool} (va : ℕ) (h : OutStep a r v v' b) (hI : Inv a pool v) (hr : r ∈ v.spaces) {r' : ℕ}
    (hr' : r' ∈ v.spaces) : leafWord a v'.pmm.mem r' va = leafWord a v.pmm.mem r' va ∨
      r' = r ∧ a.ptePresent (leafWord a v.pmm.mem r' va) = true ∧ IsOut a (leafWord a v'.pmm.mem r' va) := by
  have hf := h.frame
  by_cases hrr : r' = r
  · subst hrr
    cases h with
    | kept k disk c hk hdisk hv =>
      left
      rw [hv]
    | moved victim rest va₀ s slot k hqueue hva hs hpresent huser haddr href hslot hfree hk hv =>
      have ht := (Multiset.nodup_add.1 (hI.space r' hr).nodup).1
      obtain ⟨hword, hother⟩ := leafWord_write (w := swapEntry slot (a.pteWritable (v.pmm.mem s.1 s.2))
        (a.pteExecutable (v.pmm.mem s.1 s.2))) ht hs
      subst hv
      by_cases hsame : SamePage a va₀ va
      · right
        refine ⟨rfl, ?_, ?_⟩
        · rw [samePage_leafWord hsame, leafWord_slot hs]
          exact hpresent
        · have hnew : leafWord a (v.evicted a r' victim rest s slot k).pmm.mem r' va₀ = _ := hword
          rw [samePage_leafWord hsame, hnew]
          exact isOut_swapEntry _ _ _
      · exact Or.inl (hother va hsame)
  · exact Or.inl (hf.leafWord_other hI hr hr' hrr)

theorem leafWord_inStep {error : Error} {va₀ : ℕ} (va : ℕ) (h : InStep a r va₀ v v' error) (hI : Inv a pool v)
    (hr : r ∈ v.spaces) {r' : ℕ} (hr' : r' ∈ v.spaces) : leafWord a v'.pmm.mem r' va = leafWord a v.pmm.mem r' va ∨
      r' = r ∧ SamePage a va₀ va ∧ IsOut a (leafWord a v.pmm.mem r' va) ∧
        a.ptePresent (leafWord a v'.pmm.mem r' va) = true := by
  have hf := h.frame
  by_cases hrr : r' = r
  · subst hrr
    cases h with
    | failed error herror pmm c hfree hmem hv =>
      left
      rw [hv]
      exact leafWord_congr fun g hg => hmem g (hI.not_free hr (Multiset.mem_add.2 (Or.inl hg)))
    | restored p s slot write execute hp hva hs hword hslot hocc hv =>
      have htables : ∀ g ∈ tables a v.pmm.mem r', (v.read p slot).pmm.mem g = v.pmm.mem g := by
        intro g hg
        apply fill_node
        rintro rfl
        exact hI.not_free hr (Multiset.mem_add.2 (Or.inl hg)) hp
      have ht : (tables a (v.read p slot).pmm.mem r').Nodup := by
        rw [tables_congr htables]
        exact (Multiset.nodup_add.1 (hI.space r' hr).nodup).1
      obtain ⟨hnew, hother⟩ := leafWord_write (w := a.makePtePage (pageToPhys p) (userPagePerm write execute)) ht
        ((leafSlot_congr htables).trans hs)
      subst hv
      by_cases hsame : SamePage a va₀ va
      · right
        refine ⟨rfl, hsame, ?_, ?_⟩
        · rw [samePage_leafWord hsame, leafWord_slot hs, hword]
          exact isOut_swapEntry _ _ _
        · have hw : leafWord a (v.restored a r' p s slot write execute).pmm.mem r' va₀ = _ := hnew
          rw [samePage_leafWord hsame, hw]
          exact (a.isPage_makePtePage _ (fits_pageToPhys a p (hI.bound p (hI.free_mem_pool hp)))).present
      · exact Or.inl ((hother va hsame).trans (leafWord_congr htables))
  · exact Or.inl (hf.leafWord_other hI hr hr' hrr)

theorem entryStep_run (E : Env) (va : ℕ) (hI : Inv a pool v) (op : Op) (hop : op.Allowed a v) (hr : r ∈ v.spaces) :
    EntryStep a r va (leafWord a v.pmm.mem r va) (leafWord a (op.run a E v).pmm.mem r va) op := by
  cases op with
  | create =>
    apply EntryStep.same
    rw [Op.run]
    obtain heq | ⟨p, hp, heq⟩ := createUserPgdir_cases E v
    · rw [heq]
    · rw [heq]
      apply leafWord_congr
      exact fun g hg => mem_created fun h => hI.not_free hr (Multiset.mem_add.2 (Or.inl hg)) (h ▸ hp)
  | map r₀ va₀ perm =>
    have hf := frame_run E hI (.map r₀ va₀ perm) (r := r₀) rfl hop
    by_cases hrr : r = r₀
    · subst hrr
      obtain ⟨-, hout, -⟩ := allocAndMapPage_spec E hI hop.1 (isUser_of_lt hop.2.1) hop.2.2 perm
      rw [Op.run]
      generalize (allocAndMapPage a E r va₀ perm v.pmm).1 = res at hout
      cases hout with
      | failed hwords => exact .same _ (hwords va)
      | done p hp hempty hword hwords =>
        by_cases hsame : SamePage a va₀ va
        · refine .mapped va₀ perm hsame (by rw [samePage_leafWord hsame, hempty]) ?_
          rw [samePage_leafWord hsame, hword]
          exact (a.isPage_makePtePage _ (fits_pageToPhys a p (hI.bound p (hI.free_mem_pool hp)))).present
        · exact .same _ (hwords va hsame)
    · exact .same _ (hf.leafWord_other hI hop.1 hr hrr)
  | queue r₀ page =>
    apply EntryStep.same
    rw [Op.run, mapSwappable]
    split
    · rfl
    · rfl
  | out current r₀ n tick =>
    have hall : r ∈ (swapOut a E current r₀ n tick v).2.spaces ∧
        (leafWord a (swapOut a E current r₀ n tick v).2.pmm.mem r va = leafWord a v.pmm.mem r va ∨
          r = r₀ ∧ a.ptePresent (leafWord a v.pmm.mem r va) = true ∧
            IsOut a (leafWord a (swapOut a E current r₀ n tick v).2.pmm.mem r va)) := by
      refine (swapOut_induct E (P := fun u => r ∈ u.spaces ∧ (leafWord a u.pmm.mem r va = leafWord a v.pmm.mem r va ∨
        r = r₀ ∧ a.ptePresent (leafWord a v.pmm.mem r va) = true ∧ IsOut a (leafWord a u.pmm.mem r va)))
        current n tick hI hop ⟨hr, Or.inl rfl⟩ ?_).2
      intro u u' b hIu hru hstep hu
      refine ⟨by rw [hstep.spaces]; exact hu.1, ?_⟩
      rcases leafWord_outStep va hstep hIu hru hu.1 with hsame | ⟨hrr, hp, hout⟩
      · rw [hsame]
        exact hu.2
      · rcases hu.2 with hu | ⟨-, -, hu⟩
        · rw [hu] at hp
          exact Or.inr ⟨hrr, hp, hout⟩
        · rw [hu.1] at hp
          cases hp
    rcases hall.2 with hsame | ⟨rfl, hp, hout⟩
    · exact .same _ hsame
    · exact .evicted current n tick hp hout
  | swapIn r₀ va₀ =>
    rcases leafWord_inStep va (swapIn_spec E va₀ hI hop).2 hI hop hr with hsame | ⟨rfl, hva, hw, hw'⟩
    · exact .same _ hsame
    · exact .restored va₀ hva hw hw'
  | fault r₀ code va₀ =>
    rw [Op.run]
    obtain heq | heq := pgFault_cases (a := a) (v := v) (r := r₀) E code va₀
    · rw [heq]
      exact .same _ rfl
    · rw [heq]
      rcases leafWord_inStep va (swapIn_spec E _ hI hop).2 hI hop hr with hsame | ⟨rfl, hva, hw, hw'⟩
      · exact .same _ hsame
      · exact .faulted code va₀ hva hw hw'
  | destroy r₀ =>
    obtain ⟨u, hrel, heq⟩ := freeUserPgdir_released hI hop
    apply EntryStep.same
    rw [Op.run, heq]
    show leafWord a u.pmm.mem r va = _
    rw [hrel.mem]

theorem EntryStep.eq_of_present {w w' : Word} {op : Op} (h : EntryStep a r va w w' op) (hw : a.ptePresent w = true)
    (hw' : a.ptePresent w' = true) : w' = w := by
  cases h with
  | same op heq => exact heq
  | evicted current n tick _ hout => exact absurd (hout.1.symm.trans hw') (by decide)
  | restored va₀ _ hout _ => exact absurd (hout.1.symm.trans hw) (by decide)
  | faulted code va₀ _ hout _ => exact absurd (hout.1.symm.trans hw) (by decide)
  | mapped va₀ perm _ hzero _ =>
    rw [hzero, a.ptePresent_zero] at hw
    cases hw

theorem isSome_translate (hI : Inv a pool v) (hr : r ∈ v.spaces) (hva : IsUser a va) :
    (translate a v.pmm.mem r va).isSome = true ↔ a.ptePresent (leafWord a v.pmm.mem r va) = true := by
  rw [translate_user hI hr hva]
  by_cases hp : a.ptePresent (leafWord a v.pmm.mem r va) = true
  · simp [hp]
  · simp [hp]

/-- A page that was there is found with the same contents and rights whenever it is resident, however often it and
others went out and came back; otherwise its entry is neither present nor empty. An operation changes the entry of no
page but the one it moves, and a page that stays resident keeps its translation. -/
theorem swap_round_trip (a : Arch) (E : Env) {w v : State} (hw : Fresh w) (hv : Reaches a E (fun _ => True) w v)
    {r va : ℕ} (hr : r ∈ v.spaces) (hva : va < a.userSpaceTop) :
    (∀ v' x, Reaches a E (· ≠ .destroy r) v v' → residentView a v r va = some x →
      residentView a v' r va = some x ∨ IsOut a (leafWord a v'.pmm.mem r va)) ∧
    (∀ op, op.Allowed a v → op ≠ .destroy r →
      EntryStep a r va (leafWord a v.pmm.mem r va) (leafWord a (op.run a E v).pmm.mem r va) op ∧
      (∀ x, pageView a v r va = some x → pageView a (op.run a E v) r va = some x) ∧
      ((translate a v.pmm.mem r va).isSome → (translate a (op.run a E v).pmm.mem r va).isSome →
        translate a (op.run a E v).pmm.mem r va = translate a v.pmm.mem r va)) := by
  have hI := hv.inv (hw.inv a)
  have huser := isUser_of_lt hva
  constructor
  · intro v' x hv' hx
    have hI' := hv'.inv hI
    have hr' := hv'.mem_spaces hI hr
    rw [residentView_eq hI hr huser] at hx
    have hp : a.ptePresent (leafWord a v.pmm.mem r va) = true := by
      by_contra hp
      rw [if_neg hp] at hx
      cases hx
    rw [if_pos hp] at hx
    have hx' := hv'.pageView hI hr hx
    by_cases hp' : a.ptePresent (leafWord a v'.pmm.mem r va) = true
    · left
      rw [residentView_eq hI' hr' huser, if_pos hp', hx']
    · right
      refine ⟨by simpa using hp', fun hzero => ?_⟩
      rw [Zonix.Vm.pageView, if_neg hp', if_pos hzero] at hx'
      cases hx'
  · intro op hop hne
    have hI' := hI.run E op hop
    have hr' := spaces_run E hI op hop hne hr
    have hentry := entryStep_run E va hI op hop hr
    refine ⟨hentry, fun x hx => pageView_run E hI op hop hr hx, ?_⟩
    intro hs hs'
    have hword := hentry.eq_of_present ((isSome_translate hI hr huser).1 hs) ((isSome_translate hI' hr' huser).1 hs')
    rw [translate_user hI hr huser, translate_user hI' hr' huser, hword]

def afterIn : State := Op.run .riscv64 ascending afterOut (.fault 10 ⟨false, true, true, false⟩ 0x1008)

theorem swap_round_trip_fault : IsOut .riscv64 (leafWord .riscv64 afterOut.pmm.mem 10 0x1000) ∧
    ∃ x, residentView .riscv64 afterMap 10 0x1000 = some x ∧ residentView .riscv64 afterIn 10 0x1000 = some x := by
  have hmapped := afterCreate_reached.trans (afterMap_reached trivial)
  have hkeep : Reaches .riscv64 ascending (· ≠ .destroy 10) afterMap afterIn :=
    .step afterOut (.fault 10 ⟨false, true, true, false⟩ 0x1008) (afterOut_reached (by simp) (by simp)) (by simp)
      (by rw [Op.Allowed]; decide +kernel)
  have hback : Arch.riscv64.ptePresent (leafWord .riscv64 afterIn.pmm.mem 10 0x1000) = true := by decide +kernel
  obtain ⟨x, hx⟩ := Option.isSome_iff_exists.1
    (show (residentView .riscv64 afterMap 10 0x1000).isSome = true by decide +kernel)
  refine ⟨⟨by decide +kernel, by decide +kernel⟩, x, hx, ?_⟩
  have hva : 0x1000 < Arch.riscv64.userSpaceTop := by decide
  have htrip := (swap_round_trip .riscv64 ascending booted_fresh hmapped (r := 10) (by decide +kernel) hva).1
    afterIn x hkeep hx
  exact htrip.resolve_right fun hout => absurd (hout.1.symm.trans hback) (by decide)

end Zonix.Vm
