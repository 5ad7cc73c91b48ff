import Mathlib
import Zonix.Exec.Elf
import Zonix.Vm.Contents

/-!
# The image of a program

What the loader builds, without page tables and frames: the rights of each page and the byte at each address. A page
table shows an image when it maps the pages of the image, with their rights, onto frames with those bytes.
-/

namespace Zonix.Exec

open Zonix.Vm Zonix.Lib.Radix Prog

structure Image where
  perm : ℕ → Option (Bool × Bool)
  byte : ℕ → BitVec 8

def Image.empty : Image := ⟨fun _ => none, fun _ => 0⟩

def merge (w x : Bool) : Option (Bool × Bool) → Option (Bool × Bool)
  | none => some (w, x)
  | some (w', x') => some (w' || w, x' || x)

def Image.touch (img : Image) (i j : ℕ) (w x : Bool) : Image :=
  { img with perm := fun n => if i ≤ n ∧ n < j then merge w x (img.perm n) else img.perm n }

def Image.copy (img : Image) (va : ℕ) (src : ℕ → BitVec 8) (off n : ℕ) : Image :=
  { img with byte := blit img.byte va src off n }

theorem Image.touch_none (img : Image) (i : ℕ) (w x : Bool) : img.touch i i w x = img := by
  have : (fun n => if i ≤ n ∧ n < i then merge w x (img.perm n) else img.perm n) = img.perm := by
    funext n
    exact if_neg (by omega)
  rw [Image.touch, this]

theorem Image.touch_touch (img : Image) {i j : ℕ} (hij : i ≤ j) (w x : Bool) :
    (img.touch i j w x).touch j (j + 1) w x = img.touch i (j + 1) w x := by
  have : (fun n => if j ≤ n ∧ n < j + 1 then merge w x (if i ≤ n ∧ n < j then merge w x (img.perm n) else img.perm n)
      else if i ≤ n ∧ n < j then merge w x (img.perm n) else img.perm n) =
      fun n => if i ≤ n ∧ n < j + 1 then merge w x (img.perm n) else img.perm n := by
    funext n
    by_cases hlow : i ≤ n ∧ n < j
    · rw [if_neg (by omega), if_pos hlow, if_pos (by omega)]
    · by_cases hj : n = j
      · rw [if_pos (by omega), if_neg hlow, if_pos (by omega)]
      · rw [if_neg (by omega), if_neg hlow, if_neg (by omega)]
  simp only [Image.touch, this]

/-! ## Bytes of a page -/

theorem pageByte_ofBytes (bs : ℕ → BitVec 8) {j : ℕ} (hj : j < pgSize) : pageByte (ofBytes bs) j = bs j := by
  unfold pgSize at hj
  have hlt := leNat_lt bs (8 * (j / 8)) 8
  have hbyte := leNat_byte bs (8 * (j / 8)) (k := j % 8) (n := 8) (by omega)
  have hidx : j / 8 % 512 = j / 8 := Nat.mod_eq_of_lt (by omega)
  have hword : (ofBytes bs ⟨j / 8 % 512, Nat.mod_lt _ (by norm_num)⟩).toNat = leNat bs (8 * (j / 8)) 8 := by
    rw [ofBytes, BitVec.toNat_ofNat]
    simp only [hidx]
    exact Nat.mod_eq_of_lt (by norm_num at hlt ⊢; exact hlt)
  apply BitVec.eq_of_toNat_eq
  rw [pageByte, BitVec.toNat_ofNat, hword, show (2 : ℕ) ^ 8 = 256 from rfl, hbyte,
    show 8 * (j / 8) + j % 8 = j by omega]

theorem pageByte_zero (j : ℕ) : pageByte (fun _ => 0) j = 0 := by
  simp [pageByte]

/-! ## Page tables that show an image -/

structure Shows (a : Arch) (h : Heap 512 Word) (r : ℕ) (img : Image) : Prop where
  empty : ∀ va < a.userSpaceTop, img.perm (va / pgSize) = none → leafWord a h r va = 0 ∧ img.byte va = 0
  page : ∀ va < a.userSpaceTop, ∀ w x, img.perm (va / pgSize) = some (w, x) → ∃ p < 2 ^ 32,
    leafWord a h r va = a.makePtePage (pageToPhys p) (userPagePerm w x) ∧ pageByte (h p) (va % pgSize) = img.byte va

structure Holds (a : Arch) (pool : Multiset ℕ) (v : State) (r : ℕ) (img : Image) (m : Pmm) : Prop where
  inv : Inv a pool { v with pmm := m }
  shows : Shows a m.mem r img
  kernel : m.mem v.kernelPgdir = v.pmm.mem v.kernelPgdir

variable {a : Arch} {pool : Multiset ℕ} {v : State} {r : ℕ} {img : Image} {m : Pmm}

section

variable (hH : Holds a pool v r img m) (hr : r ∈ v.spaces)
include hH hr

theorem Holds.nodup : (owned a m.mem r).Nodup :=
  (hH.inv.space r hr).nodup

theorem Holds.tables_nodup : (tables a m.mem r).Nodup :=
  (Multiset.nodup_add.1 (hH.nodup hr)).1

theorem Holds.frame {va p : ℕ} {perm : VmFlags} (hp : p < 2 ^ 32)
    (hw : leafWord a m.mem r va = a.makePtePage (pageToPhys p) perm) :
    p ∈ mapped a m.mem r ∧ p ∉ tables a m.mem r ∧ p ∉ m.free ∧ p ≠ v.kernelPgdir := by
  have hm := mapped_of_leafWord (hH.tables_nodup hr) hp hw
  obtain ⟨htab, hk, hfree⟩ := hH.inv.mapped_apart hr hm
  exact ⟨hm, htab r hr, hfree, hk⟩

theorem Holds.shows_congr {h : Heap 512 Word}
    (hwords : ∀ va, leafWord a h r va = leafWord a m.mem r va)
    (hmem : ∀ p ∉ m.free, p ∉ tables a m.mem r → h p = m.mem p) : Shows a h r img := by
  constructor
  · intro va hva hnone
    rw [hwords]
    exact hH.shows.empty va hva hnone
  · intro va hva w x hsome
    obtain ⟨p, hp, hw, hbyte⟩ := hH.shows.page va hva w x hsome
    obtain ⟨-, htab, hfree, -⟩ := hH.frame hr hp hw
    refine ⟨p, hp, (hwords va).trans hw, ?_⟩
    rw [hmem p hfree htab, hbyte]

theorem Holds.kernel_frame :
    v.kernelPgdir ∉ m.free ∧ v.kernelPgdir ∉ tables a m.mem r :=
  ⟨fun h => hH.inv.kernel (hH.inv.free_mem_pool h),
    fun h => hH.inv.kernel (hH.inv.owned_mem_pool hr (Multiset.mem_add.2 (Or.inl h)))⟩

end

theorem page_div {n : ℕ} : n * pgSize / pgSize = n := Nat.mul_div_cancel n (by decide)

theorem not_samePage {n va : ℕ} (hn : n * pgSize < a.userSpaceTop) (hva : va < a.userSpaceTop) (hne : va / pgSize ≠ n) :
    ¬SamePage a (n * pgSize) va := by
  rw [samePage_iff_div hn hva, page_div]
  exact fun h => hne h.symm

section

variable (hH : Holds a pool v r img m) (hr : r ∈ v.spaces)
include hH hr

theorem Holds.mapZeroed (E : Env) {n : ℕ}
    (hn : n * pgSize < a.userSpaceTop) (hnone : img.perm n = none) (w x : Bool) :
    ((allocAndMapPage a E r (n * pgSize) (userPagePerm w x) m).1 = none →
      Holds a pool v r img (allocAndMapPage a E r (n * pgSize) (userPagePerm w x) m).2 ∧
      (E.Willing → Multiset.card (allocAndMapPage a E r (n * pgSize) (userPagePerm w x) m).2.free ≤ 1)) ∧
    ∀ p, (allocAndMapPage a E r (n * pgSize) (userPagePerm w x) m).1 = some p →
      Holds a pool v r (img.touch n (n + 1) w x)
        { (allocAndMapPage a E r (n * pgSize) (userPagePerm w x) m).2 with
          mem := fill (allocAndMapPage a E r (n * pgSize) (userPagePerm w x) m).2.mem p fun _ => 0 } := by
  have huser : IsUser a (n * pgSize) := isUser_of_lt hn
  have hzero : leafWord a m.mem r (n * pgSize) = 0 := (hH.shows.empty _ hn (by rw [page_div]; exact hnone)).1
  have hpages := fun hE => allocAndMapPage_exhausted (E := E) hE hH.inv hr huser hzero (userPagePerm w x)
  obtain ⟨hI, hout, hframe⟩ := allocAndMapPage_spec E hH.inv hr huser (Or.inl hzero) (userPagePerm w x)
  generalize allocAndMapPage a E r (n * pgSize) (userPagePerm w x) m = res at hpages hI hout hframe ⊢
  have hkern : res.2.mem v.kernelPgdir = v.pmm.mem v.kernelPgdir :=
    (hframe v.kernelPgdir (hH.kernel_frame hr).1 (hH.kernel_frame hr).2).trans hH.kernel
  constructor
  · intro hno
    rw [hno] at hout
    cases hout with
    | failed hwords => exact ⟨⟨hI, hH.shows_congr hr hwords hframe, hkern⟩, fun hE => hpages hE hno⟩
  · intro p hsome
    rw [hsome] at hout
    cases hout with
    | done _ hp _ hword hwords =>
      have h32 : p < 2 ^ 32 := hH.inv.bound p (hH.inv.free_mem_pool hp)
      have hn' := (hI.space r hr).nodup
      have hmap : p ∈ mapped a res.2.mem r := mapped_of_leafWord (Multiset.nodup_add.1 hn').1 h32 hword
      obtain ⟨htab, hk, -⟩ := hI.mapped_apart hr hmap
      have hsame : ∀ va, leafWord a (fill res.2.mem p fun _ => 0) r va = leafWord a res.2.mem r va := fun va =>
        leafWord_congr fun g hg => fill_node _ _ _ fun h => htab r hr (h ▸ hg)
      refine ⟨hI.fillMapped hr hmap _, ⟨?_, ?_⟩, (fill_node _ _ _ hk.symm).trans hkern⟩
      · intro va hva hno
        change (if n ≤ va / pgSize ∧ va / pgSize < n + 1 then _ else _) = none at hno
        by_cases hpage : va / pgSize = n
        · rw [if_pos (by omega), hpage, hnone] at hno
          cases hno
        · rw [if_neg (by omega)] at hno
          have hne := not_samePage hn hva hpage
          rw [hsame va]
          exact ⟨(hwords va hne).trans (hH.shows.empty va hva hno).1, (hH.shows.empty va hva hno).2⟩
      · intro va hva w' x' hperm
        change (if n ≤ va / pgSize ∧ va / pgSize < n + 1 then _ else _) = _ at hperm
        by_cases hpage : va / pgSize = n
        · rw [if_pos (by omega), hpage, hnone] at hperm
          cases hperm
          refine ⟨p, h32, ?_, ?_⟩
          · rw [hsame va, leafWord_page (show va / pgSize = n * pgSize / pgSize by rw [hpage, page_div])]
            exact hword
          · show pageByte (fill res.2.mem p (fun _ => 0) p) _ = img.byte va
            rw [fill_self, pageByte_zero]
            exact (hH.shows.empty va hva (by rw [hpage]; exact hnone)).2.symm
        · rw [if_neg (by omega)] at hperm
          obtain ⟨p', hp', hw', hbyte⟩ := hH.shows.page va hva w' x' hperm
          obtain ⟨-, htab', hfree', -⟩ := hH.frame hr hp' hw'
          have hne := not_samePage hn hva hpage
          refine ⟨p', hp', ?_, ?_⟩
          · rw [hsame va]
            exact (hwords va hne).trans hw'
          · show pageByte (fill res.2.mem p (fun _ => 0) p') _ = img.byte va
            have hne : p' ≠ p := fun h => hfree' (h ▸ hp)
            rw [fill_node _ _ _ hne, hframe p' hfree' htab']
            exact hbyte

theorem Holds.merged {n : ℕ} (hn : n * pgSize < a.userSpaceTop)
    {w' x' : Bool} (hperm : img.perm n = some (w', x')) (w x : Bool) :
    ∃ s, leafSlot a m.mem r (levelIndex (n * pgSize)) = some s ∧ a.ptePresent (m.mem s.1 s.2) = true ∧
      Holds a pool v r (img.touch n (n + 1) w x) { m with
        mem := write m.mem s
          (a.makePtePage (a.pteAddr (m.mem s.1 s.2)) (mergeUserPagePerm a (m.mem s.1 s.2) (userPagePerm w x))) } := by
  obtain ⟨p, hp, hw, -⟩ := hH.shows.page (n * pgSize) hn w' x' (by rw [page_div]; exact hperm)
  obtain ⟨s, hs, hword⟩ := leafWord_ne_zero (by rw [hw]; exact makePtePage_ne_zero hp _)
  rw [hword] at hw
  have hpage := a.isPage_makePtePage (userPagePerm w' x') (fits_pageToPhys a p hp)
  have hmerge : mergeUserPagePerm a (m.mem s.1 s.2) (userPagePerm w x) = userPagePerm (w' || w) (x' || x) := by
    rw [hw, mergeUserPagePerm, hpage.writable, hpage.executable]
    simp only [userPagePerm, Bool.not_not]
  have hnew : a.makePtePage (a.pteAddr (m.mem s.1 s.2)) (mergeUserPagePerm a (m.mem s.1 s.2) (userPagePerm w x)) =
      a.makePtePage (pageToPhys p) (userPagePerm (w' || w) (x' || x)) := by rw [hmerge, hw, hpage.addr]
  refine ⟨s, hs, by rw [hw]; exact hpage.present, ?_⟩
  rw [hnew]
  obtain ⟨hself, hother⟩ := leafWord_write (w := a.makePtePage (pageToPhys p) (userPagePerm (w' || w) (x' || x)))
    (hH.tables_nodup hr) hs
  have hstab := leafSlot_mem hs
  have hks : v.kernelPgdir ≠ s.1 := fun h => (hH.kernel_frame hr).2 (h ▸ hstab)
  have hcontents : ∀ g ∉ tables a m.mem r, write m.mem s
      (a.makePtePage (pageToPhys p) (userPagePerm (w' || w) (x' || x))) g = m.mem g := fun g hg =>
    write_node _ _ _ fun h => hg (h ▸ hstab)
  refine ⟨hH.inv.reenter hr hs hp hw _, ⟨?_, ?_⟩, (write_node _ _ _ hks).trans hH.kernel⟩
  · intro va hva hno
    change (if n ≤ va / pgSize ∧ va / pgSize < n + 1 then _ else _) = none at hno
    by_cases hpg : va / pgSize = n
    · rw [if_pos (by omega), hpg, hperm] at hno
      cases hno
    · rw [if_neg (by omega)] at hno
      have hne := not_samePage hn hva hpg
      exact ⟨(hother va hne).trans (hH.shows.empty va hva hno).1, (hH.shows.empty va hva hno).2⟩
  · intro va hva w₁ x₁ hsome
    change (if n ≤ va / pgSize ∧ va / pgSize < n + 1 then _ else _) = _ at hsome
    by_cases hpg : va / pgSize = n
    · rw [if_pos (by omega), hpg, hperm] at hsome
      cases hsome
      obtain ⟨p₁, hp₁, hw₁, hbyte⟩ := hH.shows.page va hva w' x' (by rw [hpg]; exact hperm)
      obtain ⟨-, htab, -, -⟩ := hH.frame hr hp₁ hw₁
      rw [leafWord_page (show va / pgSize = n * pgSize / pgSize by rw [hpg, page_div]), hword, hw] at hw₁
      obtain rfl := makePtePage_frame hp hp₁ hw₁
      refine ⟨p, hp, ?_, ?_⟩
      · rw [leafWord_page (show va / pgSize = n * pgSize / pgSize by rw [hpg, page_div])]
        exact hself
      · show pageByte (write m.mem s _ p) _ = img.byte va
        rw [hcontents p htab]
        exact hbyte
    · rw [if_neg (by omega)] at hsome
      obtain ⟨p₁, hp₁, hw₁, hbyte⟩ := hH.shows.page va hva w₁ x₁ hsome
      obtain ⟨-, htab, -, -⟩ := hH.frame hr hp₁ hw₁
      have hne := not_samePage hn hva hpg
      refine ⟨p₁, hp₁, (hother va hne).trans hw₁, ?_⟩
      show pageByte (write m.mem s _ p₁) _ = img.byte va
      rw [hcontents p₁ htab]
      exact hbyte

theorem Holds.copied {va k : ℕ} (hva : va < a.userSpaceTop)
    {w x : Bool} (hperm : img.perm (va / pgSize) = some (w, x)) (hk : va % pgSize + k ≤ pgSize) (src : ℕ → BitVec 8) :
    ∃ s, leafSlot a m.mem r (levelIndex va) = some s ∧ a.ptePresent (m.mem s.1 s.2) = true ∧
      Holds a pool v r (img.copy va src 0 k) { m with
        mem := fill m.mem (physToPage (a.pteAddr (m.mem s.1 s.2)))
          (ofBytes (blit (pageByte (m.mem (physToPage (a.pteAddr (m.mem s.1 s.2))))) (va % pgSize) src 0 k)) } := by
  obtain ⟨p, hp, hw, -⟩ := hH.shows.page va hva w x hperm
  obtain ⟨hmap, htab, -, hkern⟩ := hH.frame hr hp hw
  obtain ⟨s, hs, hword⟩ := leafWord_ne_zero (by rw [hw]; exact makePtePage_ne_zero hp _)
  have hpage := a.isPage_makePtePage (userPagePerm w x) (fits_pageToPhys a p hp)
  have hframe : physToPage (a.pteAddr (m.mem s.1 s.2)) = p := by
    rw [← hword, hw, hpage.addr, physToPage_pageToPhys hp]
  refine ⟨s, hs, by rw [← hword, hw]; exact hpage.present, ?_⟩
  rw [hframe]
  have hwords : ∀ va', leafWord a (fill m.mem p (ofBytes (blit (pageByte (m.mem p)) (va % pgSize) src 0 k))) r va' =
      leafWord a m.mem r va' := fun va' =>
    leafWord_congr fun g hg => fill_node _ _ _ fun h => htab (h ▸ hg)
  have hpg := Nat.div_add_mod va pgSize
  refine ⟨hH.inv.fillMapped hr hmap _, ⟨?_, ?_⟩, (fill_node _ _ _ hkern.symm).trans hH.kernel⟩
  · intro va' hva' hno
    refine ⟨(hwords va').trans (hH.shows.empty va' hva' hno).1, ?_⟩
    have hout : ¬(va ≤ va' ∧ va' < va + k) := by
      rintro ⟨hlow, hhigh⟩
      have hsame : va' / pgSize = va / pgSize := by
        rw [Nat.div_eq_iff (by decide)]
        unfold pgSize at *
        omega
      change img.perm (va' / pgSize) = none at hno
      rw [hsame, hperm] at hno
      cases hno
    exact (blit_out hout).trans (hH.shows.empty va' hva' hno).2
  · intro va' hva' w' x' hsome
    obtain ⟨p', hp', hw', hbyte⟩ := hH.shows.page va' hva' w' x' hsome
    refine ⟨p', hp', (hwords va').trans hw', ?_⟩
    show pageByte (fill m.mem p _ p') _ = blit img.byte va src 0 k va'
    by_cases hsame : va' / pgSize = va / pgSize
    · rw [leafWord_page hsame, hw] at hw'
      obtain rfl := makePtePage_frame hp hp' hw'
      have hpg' := Nat.div_add_mod va' pgSize
      rw [fill_self, pageByte_ofBytes _ (Nat.mod_lt _ (by decide))]
      by_cases hin : va % pgSize ≤ va' % pgSize ∧ va' % pgSize < va % pgSize + k
      · rw [blit_in hin, blit_in (by rw [hsame] at hpg'; omega)]
        congr 1
        rw [hsame] at hpg'
        omega
      · rw [blit_out hin, hbyte, blit_out (by rw [hsame] at hpg'; omega)]
    · have hne : p' ≠ p := frame_ne_of_leafWord (hH.nodup hr) hp hp' hw hw' (by
        rw [samePage_iff_div hva hva']
        exact fun h => hsame h.symm)
      have hout : ¬(va ≤ va' ∧ va' < va + k) := by
        rintro ⟨hlow, hhigh⟩
        apply hsame
        rw [Nat.div_eq_iff (by decide)]
        unfold pgSize at *
        omega
      rw [fill_node _ _ _ hne, blit_out hout]
      exact hbyte

end

end Zonix.Exec
