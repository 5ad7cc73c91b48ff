import Mathlib
import Zonix.Vm.Mapping

/-!
# Mapping one page, in any page table

`pmm::alloc_and_map_page` of `kernel/mm/pmm.cpp` on a page table with leaves of any size, for every way in which the
page allocator refuses: the translations before and after, and the pages that changed hands.
-/

namespace Zonix.Vm

open Zonix.Lib.Radix

variable {a : Arch} {h h' : Heap 512 Word} {va va' l f : ℕ} {s : ℕ × Fin 512}

/-! ## Writing one leaf entry -/

theorem translateWith_write_other {lim : Word → Limits} (w : Word) (hd : (nodes a.tableOf h l f).Nodup)
    (hs : slot a.tableOf h (levelIndex va) l f = some s) (hne : ∃ k ≤ l, levelIndex va k ≠ levelIndex va' k) :
    translateWith a lim (write h s w) va' l f = translateWith a lim h va' l f := by
  induction l generalizing f with
  | zero =>
    obtain ⟨k, hk, hne⟩ := hne
    obtain rfl : k = 0 := by omega
    cases hs
    rw [translateWith, translateWith, write_index _ _ _ _ (Ne.symm hne)]
  | succ l ih =>
    cases hg : a.tableOf (h f (levelIndex va (l + 1))) with
    | none => simp [slot, hg] at hs
    | some g =>
      simp only [slot, hg, Option.elim_some] at hs
      have hmem := mem_nodes_of_slot hs
      have hsf : f ≠ s.1 := by
        rintro rfl
        exact (nodup_child hd hg).2 hmem
      have hf : write h s w f = h f := write_node _ _ _ hsf
      by_cases hidx : levelIndex va' (l + 1) = levelIndex va (l + 1)
      · have hg' : a.tableOf (h f (levelIndex va' (l + 1))) = some g := by rw [hidx, hg]
        obtain ⟨k, hk, hne⟩ := hne
        have hkl : k ≠ l + 1 := by
          rintro rfl
          exact hne hidx.symm
        rw [translateWith_child (by rw [hf]; exact hg'), translateWith_child hg', hf,
          ih (nodup_child hd hg).1 hs ⟨k, by omega, hne⟩]
      · simp only [translateWith, hf]
        cases hg' : a.tableOf (h f (levelIndex va' (l + 1))) with
        | none => rfl
        | some g' =>
          simp only
          rw [translateWith_congr]
          intro k hk
          refine write_node _ _ _ ?_
          rintro rfl
          exact disjoint_children hd hidx hg' hg hk hmem

/-! ## Tables that restrict nothing -/

/-- The tables on the way to `va` leave the rights of the leaf as they are. -/
def OpenPath (a : Arch) (h : Heap 512 Word) (va : ℕ) : ℕ → ℕ → Prop
  | 0, _ => True
  | l + 1, f => ∀ g, a.tableOf (h f (levelIndex va (l + 1))) = some g →
      a.limits (h f (levelIndex va (l + 1))) = ⟨false, false, false, false⟩ ∧ OpenPath a h va l g

theorem translateWith_open (ho : OpenPath a h va l f) (hs : slot a.tableOf h (levelIndex va) l f = some s) :
    translateWith a a.limits h va l f =
      if a.ptePresent (h s.1 s.2) then some (leafMapping a (h s.1 s.2) 0 va) else none := by
  induction l generalizing f with
  | zero =>
    cases hs
    rfl
  | succ l ih =>
    cases hg : a.tableOf (h f (levelIndex va (l + 1))) with
    | none => simp [slot, hg] at hs
    | some g =>
      simp only [slot, hg, Option.elim_some] at hs
      obtain ⟨hlim, ho⟩ := ho g hg
      rw [translateWith_child hg, ih ho hs, hlim]
      simp only [Attrs.limit_none]
      exact Option.map_id'

theorem openPath_new {t : ℕ} {e : Word} (ht : h t = newWords a e l) (hwf : a.WellFormed e (l + 1))
    (he : a.tableOf e = none) : OpenPath a h va l t := by
  cases l with
  | zero => trivial
  | succ l =>
    intro g hg
    rw [ht, newWords_not_table _ hwf he (Nat.succ_pos l)] at hg
    cases hg

variable {m : Pmm}

theorem getPteFrom_open {Q : ℕ → Word → Prop} {P : Word → Prop} (hS : Shape a P Q) (E : Env)
    (hT : Tree a Q m l f) (hP : Pool m) (ho : OpenPath a m.mem va l f) :
    OpenPath a (getPteFrom a E true va l f m).2.mem va l f := by
  induction l generalizing f m with
  | zero => trivial
  | succ l ih =>
    -- a walk below child `g` leaves the entry that points to it
    have hlift : ∀ {m₁ : Pmm} {g : ℕ}, Tree a Q m₁ (l + 1) f → Pool m₁ →
        a.tableOf (m₁.mem f (levelIndex va (l + 1))) = some g →
        a.limits (m₁.mem f (levelIndex va (l + 1))) = ⟨false, false, false, false⟩ → OpenPath a m₁.mem va l g →
        OpenPath a (getPteFrom a E true va l g m₁).2.mem va (l + 1) f := by
      intro m₁ g hT₁ hP₁ hg hlim hog
      obtain ⟨new, hw⟩ := getPteFrom_walked hS E va (hT₁.child hg) hP₁
      have hnew : ∀ k ∈ nodes a.tableOf m₁.mem (l + 1) f, k ∉ new := by
        intro k hk hk'
        apply hT₁.held k hk
        rw [hw.free]
        exact Multiset.mem_add.2 (Or.inr hk')
      obtain ⟨hf, -⟩ := hw.grows.outside hT₁.nodup hg hnew
      intro g' hg'
      rw [hf, hg] at hg'
      obtain rfl := Option.some.inj hg'
      rw [hf]
      exact ⟨hlim, ih (hT₁.child hg) hP₁ hog⟩
    obtain ⟨g, hg, hd⟩ | ⟨hnone, hd | ⟨t, ht, hd⟩⟩ := descendLevel_cases a E (f, levelIndex va (l + 1)) l m
    · rw [getPteFrom, hd]
      exact hlift hT hP hg (ho g hg).1 (ho g hg).2
    · rw [getPteFrom, hd]
      exact ho
    · rw [getPteFrom, hd]
      have hadd := addTable_added hS hT hP ht hnone
      have ht32 := hP.bound t ht
      have htf : t ≠ f := fun h => hT.held t (h ▸ self_mem_nodes) ht
      refine hlift hadd.tree hadd.pool hadd.linked ?_ ?_
      · show a.limits (link _ _ _ _ _ _ f _) = _
        rw [link_self]
        exact (a.isTable_makePteTable (fits_pageToPhys a t ht32)).limits
      · exact openPath_new (link_node htf) (hS.wellFormed hT.inner.word) hnone

theorem translateWith_write_self (w : Word) (hd : (nodes a.tableOf h l f).Nodup) (ho : OpenPath a h va l f)
    (hs : slot a.tableOf h (levelIndex va) l f = some s) (hva : ∀ k ≤ l, levelIndex va k = levelIndex va' k) :
    translateWith a a.limits (write h s w) va' l f = if a.ptePresent w then some (leafMapping a w 0 va') else none := by
  induction l generalizing f with
  | zero =>
    cases hs
    rw [translateWith, ← hva 0 (Nat.le_refl 0), write_self h (f, levelIndex va 0) w]
  | succ l ih =>
    cases hg : a.tableOf (h f (levelIndex va (l + 1))) with
    | none => simp [slot, hg] at hs
    | some g =>
      simp only [slot, hg, Option.elim_some] at hs
      obtain ⟨hd', hfg⟩ := nodup_child hd hg
      obtain ⟨hlim, ho⟩ := ho g hg
      have hf : write h s w f = h f := write_node _ _ _ fun hf => hfg (hf ▸ mem_nodes_of_slot hs)
      rw [hva (l + 1) (Nat.le_refl _)] at hg hlim
      rw [translateWith_child (by rw [hf]; exact hg), ih hd' ho hs fun k hk => hva k (by omega), hf, hlim]
      simp only [Attrs.limit_none]
      exact Option.map_id'

/-! ## The whole function -/

structure MapsPage (a : Arch) (h : Heap 512 Word) (pgdir page : ℕ) (perm : VmFlags) (va : ℕ) (x : Mapping) : Prop where
  translate : translate a h pgdir va = some x
  pa : x.pa = page * pgSize + va % pgSize
  user : x.attrs.user = perm.user
  write : x.attrs.write = perm.write
  exec : x.attrs.exec = !perm.noexec

structure Conserves (a : Arch) (pgdir : ℕ) (m m' : Pmm) (taken : Multiset ℕ) : Prop where
  free : ∃ new, m.free = m'.free + taken + new ∧
    nodes a.tableOf m'.mem (a.ptWalkLevels - 1) pgdir = nodes a.tableOf m.mem (a.ptWalkLevels - 1) pgdir + new
  refs : ∀ f ∈ m'.free, m'.refCount f = 0
  panicked : m'.panicked = m.panicked

/-- What `alloc_and_map_page` answers. -/
inductive MapAnswer (a : Arch) (pgdir va : ℕ) (perm : VmFlags) (m : Pmm) : Option ℕ × Pmm → Prop where
  | mapped (page : ℕ) (m' : Pmm) (hfree : page ∈ m.free) (href : m'.refCount page = 1)
      (hbefore : translate a m.mem pgdir va = none)
      (hpage : ∀ va', SamePage a va va' → ∃ x, MapsPage a m'.mem pgdir page perm va' x)
      (hother : ∀ va', ¬SamePage a va va' → translate a m'.mem pgdir va' = translate a m.mem pgdir va')
      (hpages : Conserves a pgdir m m' {page}) : MapAnswer a pgdir va perm m (some page, m')
  | failed (m' : Pmm) (hsame : ∀ va', translate a m'.mem pgdir va' = translate a m.mem pgdir va')
      (hpages : Conserves a pgdir m m' 0) : MapAnswer a pgdir va perm m (none, m')

theorem toNat_pageToPhys {page : ℕ} (hp : page < 2 ^ 32) : (pageToPhys page).toNat = page * pgSize := by
  unfold pageToPhys pgSize
  rw [BitVec.toNat_ofNat, Nat.mod_eq_of_lt (by omega)]

theorem leafMapping_makePtePage {page : ℕ} (hp : page < 2 ^ 32) (perm : VmFlags) (va : ℕ) :
    let x := leafMapping a (a.makePtePage (pageToPhys page) perm) 0 va
    x.pa = page * pgSize + va % pgSize ∧ x.attrs.user = perm.user ∧ x.attrs.write = perm.write ∧
      x.attrs.exec = !perm.noexec := by
  have h := a.isPage_makePtePage perm (fits_pageToPhys a page hp)
  refine ⟨?_, (Arch.attrs_user _ _).trans h.user, (Arch.attrs_write _ _).trans h.writable,
    (Arch.attrs_exec _ _).trans h.executable⟩
  show (a.leafBase _ 0).toNat + va % 2 ^ levelShift 0 = _
  rw [a.leafBase_zero, h.addr, toNat_pageToPhys hp]
  rfl

theorem samePage_iff (a : Arch) (va va' : ℕ) :
    SamePage a va va' ↔ ∀ k ≤ a.ptWalkLevels - 1, levelIndex va k = levelIndex va' k := by
  rw [ptWalkLevels_eq]
  rfl

theorem not_samePage_iff (a : Arch) (va va' : ℕ) :
    ¬SamePage a va va' ↔ ∃ k ≤ a.ptWalkLevels - 1, levelIndex va k ≠ levelIndex va' k := by
  rw [samePage_iff]
  simp only [not_forall, exists_prop]

/-- `alloc_pages(1)` gave out frame `p`. -/
def Pmm.taken (m : Pmm) (p : ℕ) : Pmm :=
  { m with free := m.free.erase p, reserved := fun f => if f = p then false else m.reserved f, clock := m.clock + 1 }

theorem Pool.taken (hP : Pool m) (p : ℕ) : Pool (m.taken p) :=
  ⟨hP.nodup.erase p, fun f hf => hP.bound f (Multiset.mem_of_mem_erase hf)⟩

theorem Tree.taken {Q : ℕ → Word → Prop} (hT : Tree a Q m l f) (p : ℕ) : Tree a Q (m.taken p) l f :=
  ⟨hT.nodup, hT.inner, fun g hg hf => hT.held g hg (Multiset.mem_of_mem_erase hf)⟩

structure Prepared (a : Arch) (pgdir va p : ℕ) (m m₂ : Pmm) (r : Option (ℕ × Fin 512)) (new : Multiset ℕ) : Prop where
  free : m.free = {p} + m₂.free + new
  nodup : (nodes a.tableOf m₂.mem (a.ptWalkLevels - 1) pgdir).Nodup
  nodes : nodes a.tableOf m₂.mem (a.ptWalkLevels - 1) pgdir = nodes a.tableOf m.mem (a.ptWalkLevels - 1) pgdir + new
  same : ∀ va', translate a m₂.mem pgdir va' = translate a m.mem pgdir va'
  opened : OpenPath a m₂.mem va (a.ptWalkLevels - 1) pgdir
  found : ∀ s, r = some s → slot a.tableOf m₂.mem (levelIndex va) (a.ptWalkLevels - 1) pgdir = some s
  unused : m₂.refCount p = 0
  refs : ∀ f ∈ m₂.free, f ≠ p ∧ m₂.refCount f = 0
  panicked : m₂.panicked = m.panicked

theorem getPte_prepared (E : Env) {pgdir p : ℕ}
    (hT : Tree a (fun k w => a.WellFormed w k) m (a.ptWalkLevels - 1) pgdir) (hP : Pool m)
    (hrefs : ∀ f ∈ m.free, m.refCount f = 0) (ho : OpenPath a m.mem va (a.ptWalkLevels - 1) pgdir) (hp : p ∈ m.free) :
    ∃ new, Prepared a pgdir va p m (getPte a E pgdir va true (m.taken p)).2
      (getPte a E pgdir va true (m.taken p)).1 new := by
  obtain ⟨new, hw⟩ := getPteFrom_walked (shape_wellFormed a) E va (hT.taken p) (hP.taken p)
  have hopen : OpenPath a (getPte a E pgdir va true (m.taken p)).2.mem va _ pgdir :=
    getPteFrom_open (shape_wellFormed a) E (hT.taken p) (hP.taken p) ho
  change Walked a _ _ va _ pgdir (m.taken p) (getPte a E pgdir va true (m.taken p)).2
    (getPte a E pgdir va true (m.taken p)).1 new at hw
  generalize getPte a E pgdir va true (m.taken p) = r at hw hopen ⊢
  have hfree : m.free.erase p = r.2.free + new := hw.free
  have hpe : p ∉ r.2.free + new := by
    rw [← hfree]
    exact hP.nodup.notMem_erase
  have hnd := hP.nodup.erase p
  rw [hfree, Multiset.nodup_add] at hnd
  have href : ∀ f, f ∉ new → r.2.refCount f = m.refCount f := by
    intro f hf
    rw [hw.refCount f, if_neg hf]
    rfl
  refine ⟨new, ?_, (hw.tree (hT.taken p) (hP.taken p)).1.nodup, hw.grows.nodes_eq,
    hw.same a.limits (neutral_limits a), hopen, hw.found, ?_, ?_, hw.panicked⟩
  · rw [add_assoc, ← hfree, Multiset.singleton_add, Multiset.cons_erase hp]
  · rw [href p fun h => hpe (Multiset.mem_add.2 (Or.inr h))]
    exact hrefs p hp
  · intro f hf
    have hfm : f ∈ m.free.erase p := by
      rw [hfree]
      exact Multiset.mem_add.2 (Or.inl hf)
    refine ⟨fun h => hpe (h ▸ Multiset.mem_add.2 (Or.inl hf)), ?_⟩
    rw [href f (Multiset.disjoint_left.1 hnd.2.2 hf)]
    exact hrefs f (Multiset.mem_of_mem_erase hfm)

theorem Prepared.returned {m₂ : Pmm} {pgdir p : ℕ} {r : Option (ℕ × Fin 512)} {new : Multiset ℕ}
    (h : Prepared a pgdir va p m m₂ r new) : Conserves a pgdir m (freePages p 1 m₂) 0 := by
  refine ⟨⟨new, ?_, h.nodes⟩, ?_, ?_⟩
  · rw [h.free, add_zero]
    rfl
  · intro f hf
    show (if p ≤ f ∧ f < p + 1 then 0 else m₂.refCount f) = 0
    by_cases hpf : f = p
    · rw [if_pos (by omega)]
    · rw [if_neg (by omega)]
      have hmem : f ∈ frames p 1 + m₂.free := hf
      rw [frames_one, Multiset.mem_add, Multiset.mem_singleton] at hmem
      exact (h.refs f (hmem.resolve_left hpf)).2
  · show (m₂.panicked || !(List.range' p 1).all fun f => m₂.refCount f == 0) = m.panicked
    rw [h.panicked]
    simp [h.unused]

theorem alloc_and_map_page_answers (a : Arch) (E : Env) (m : Pmm) (pgdir va : ℕ) (perm : VmFlags)
    (hT : Tree a (fun k w => a.WellFormed w k) m (a.ptWalkLevels - 1) pgdir) (hP : Pool m)
    (hrefs : ∀ f ∈ m.free, m.refCount f = 0) (hopen : OpenPath a m.mem va (a.ptWalkLevels - 1) pgdir) :
    MapAnswer a pgdir va perm m (allocAndMapPage a E pgdir va perm m) := by
  obtain halloc | ⟨p, hp, halloc⟩ := allocPages_one_cases E m
  · rw [allocAndMapPage, halloc]
    exact .failed _ (fun _ => rfl) ⟨⟨0, by simp, by simp⟩, hrefs, rfl⟩
  change allocPages E 1 m = (some p, m.taken p) at halloc
  obtain ⟨new, h⟩ := getPte_prepared E hT hP hrefs hopen hp
  obtain heq | ⟨s, hs, habs, heq⟩ := allocAndMapPage_cases (a := a) (r := pgdir) E va perm halloc
  · rw [heq]
    exact .failed _ h.same h.returned
  rw [heq]
  generalize (getPte a E pgdir va true (m.taken p)).2 = m₂ at h habs ⊢
  have hslot := h.found s hs
  have hp32 := hP.bound p hp
  have hw := a.isPage_makePtePage perm (fits_pageToPhys a p hp32)
  refine .mapped p _ hp ?_ ?_ ?_ ?_ ⟨⟨new, ?_, ?_⟩, ?_, h.panicked⟩
  · show (if p = p then m₂.refCount p + 1 else m₂.refCount p) = 1
    rw [if_pos rfl, h.unused]
    rfl
  · rw [← h.same va]
    show translateWith a a.limits m₂.mem va (a.ptWalkLevels - 1) pgdir = none
    rw [translateWith_open h.opened hslot, habs]
    rfl
  · intro va' hva'
    obtain ⟨hpa, hu, hwr, hx⟩ := leafMapping_makePtePage (a := a) hp32 perm va'
    refine ⟨_, ?_, hpa, hu, hwr, hx⟩
    have := translateWith_write_self (a.makePtePage (pageToPhys p) perm) h.nodup h.opened hslot
      ((samePage_iff a va va').1 hva')
    rwa [hw.present, if_pos rfl] at this
  · intro va' hva'
    rw [← h.same va']
    exact translateWith_write_other _ h.nodup hslot ((not_samePage_iff a va va').1 hva')
  · rw [h.free, Multiset.add_comm {p} m₂.free]
    rfl
  · rw [← h.nodes]
    exact nodes_write h.nodup hslot
  · intro f hf
    show (if f = p then m₂.refCount p + 1 else m₂.refCount f) = 0
    rw [if_neg (h.refs f hf).1]
    exact (h.refs f hf).2

/-- An empty root table in frame 1 and four free frames. -/
def emptyRoot : Pmm :=
  { gigapage with mem := fun _ _ => 0, free := {10, 11, 12, 13} }

theorem emptyRoot_tree (a : Arch) (l : ℕ) : Tree a (fun k w => a.WellFormed w k) emptyRoot l 1 := by
  have hbare : ∀ i, a.tableOf (emptyRoot.mem 1 i) = none := fun _ => tableOf_zero a
  refine ⟨?_, inner_bare (fun _ => hbare) fun _ _ => (shape_wellFormed a).zero l, ?_⟩
  · rw [nodes_bare hbare]
    exact Multiset.nodup_singleton 1
  · intro g hg
    rw [nodes_bare hbare, Multiset.mem_singleton] at hg
    rw [hg]
    decide

theorem alloc_and_map_page_answers_emptyRoot :
    (allocAndMapPage .x86 bump 1 0x400000 (userPagePerm true false) emptyRoot).1 = some 10 ∧
      MapAnswer .x86 1 0x400000 (userPagePerm true false) emptyRoot
        (allocAndMapPage .x86 bump 1 0x400000 (userPagePerm true false) emptyRoot) := by
  refine ⟨by decide +kernel, alloc_and_map_page_answers .x86 bump emptyRoot 1 0x400000 (userPagePerm true false)
    (emptyRoot_tree .x86 3) ⟨by decide, by decide⟩ (fun _ _ => rfl) ?_⟩
  intro g hg
  rw [show emptyRoot.mem 1 (levelIndex 0x400000 3) = 0 from rfl, tableOf_zero] at hg
  cases hg

end Zonix.Vm
