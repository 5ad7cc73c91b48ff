import Mathlib
import Zonix.Vm.Swap

/-!
# The user half of an address space

A root table holds the user half and a copy of the kernel's entries. `userHeap r` hides the kernel entries of root
`r`; seen through it the root is a tree that the address space owns alone.
-/

namespace Zonix.Vm

open Zonix.Lib.Radix

def userHeap (r : ℕ) (h : Heap 512 Word) : Heap 512 Word := fun f i => if f = r ∧ userTop i = false then 0 else h f i

variable {r : ℕ} {a : Arch}

theorem userHeap_other {f : ℕ} (h : Heap 512 Word) (hf : f ≠ r) : userHeap r h f = h f := by
  funext i
  simp [userHeap, hf]

theorem userHeap_user (h : Heap 512 Word) {i : Fin 512} (hi : userTop i = true) :
    userHeap r h r i = h r i := by
  simp [userHeap, hi]

theorem userHeap_congr {f : ℕ} {h h' : Heap 512 Word} (hf : h' f = h f) : userHeap r h' f = userHeap r h f := by
  funext i
  simp only [userHeap, hf]

theorem userHeap_write (h : Heap 512 Word) {s : ℕ × Fin 512} (w : Word) (hs : s.1 = r → userTop s.2 = true) :
    userHeap r (write h s w) = write (userHeap r h) s w := by
  funext f i
  by_cases hfi : f = s.1 ∧ i = s.2
  · obtain ⟨rfl, rfl⟩ := hfi
    have hn : ¬ (s.1 = r ∧ userTop s.2 = false) := by
      rintro ⟨h1, h2⟩
      rw [hs h1] at h2
      cases h2
    simp [userHeap, write, hn]
  · simp [userHeap, write, hfi]

theorem userHeap_fill {t : ℕ} (h : Heap 512 Word) (ws : Fin 512 → Word) (ht : t ≠ r) :
    userHeap r (fill h t ws) = fill (userHeap r h) t ws := by
  funext f i
  by_cases hf : f = t
  · subst hf
    simp [userHeap, fill, ht]
  · simp [userHeap, fill, hf]

theorem userHeap_link {t f : ℕ} {j : Fin 512} (h : Heap 512 Word) (w : Word) (ws : Fin 512 → Word) (ht : t ≠ r)
    (hj : f = r → userTop j = true) : userHeap r (link h f j w t ws) = link (userHeap r h) f j w t ws := by
  rw [link, userHeap_write _ _ hj, userHeap_fill _ _ ht, link]

def Pmm.user (r : ℕ) (m : Pmm) : Pmm := { m with mem := userHeap r m.mem }

theorem Pmm.user_mem (r : ℕ) (m : Pmm) : (m.user r).mem = userHeap r m.mem := rfl

def UserWord (a : Arch) (w : Word) : Prop := w = 0 ∨ ∃ t < 2 ^ 32, w = a.makePteTable (pageToPhys t)

theorem UserWord.not_block {w : Word} (h : UserWord a w) (hp : a.ptePresent w) :
    a.pteIsBlock w = false := by
  rcases h with rfl | ⟨t, ht, rfl⟩
  · rw [a.ptePresent_zero] at hp
    cases hp
  · exact (a.isTable_makePteTable (fits_pageToPhys a t ht)).table

theorem shape_user (a : Arch) : Shape a (· = 0) fun _ => UserWord a where
  wellFormed h hp hb := by
    rw [h.not_block hp] at hb
    cases hb
  zero _ := Or.inl rfl
  table _ t ht := Or.inr ⟨t, ht, rfl⟩
  piece h hp hb := by
    rw [h.not_block hp] at hb
    cases hb
  leafZero := rfl

theorem Walked.user {P : Word → Prop} {Q : ℕ → Word → Prop} {va l f : ℕ} {m m' : Pmm}
    {res : Option (ℕ × Fin 512)} {new : Multiset ℕ} (h : Walked a P Q va l f m m' res new)
    (hr : r ∉ nodes a.tableOf m.mem l f) (hfree : r ∉ m.free) :
    Walked a P Q va l f (m.user r) (m'.user r) res new := by
  have hnew : r ∉ new := by
    rw [h.free, Multiset.mem_add, not_or] at hfree
    exact hfree.2
  have hr' : r ∉ nodes a.tableOf m'.mem l f := by
    rw [h.grows.nodes_eq, Multiset.mem_add, not_or]
    exact ⟨hr, hnew⟩
  have hh : ∀ g ∈ nodes a.tableOf m.mem l f, userHeap r m.mem g = m.mem g := fun g hg =>
    userHeap_other _ (fun hgr => hr (hgr ▸ hg))
  have hh' : ∀ g ∈ nodes a.tableOf m'.mem l f, userHeap r m'.mem g = m'.mem g := fun g hg =>
    userHeap_other _ (fun hgr => hr' (hgr ▸ hg))
  refine { h with grows := ⟨?_, ?_, ?_, ?_⟩, inner := h.inner.congr hh', same := ?_, found := ?_, refused := ?_ }
  · intro g hg hgn
    rw [Pmm.user_mem, nodes_congr hh] at hg
    exact userHeap_congr (h.grows.frame g hg hgn)
  · intro M _ here leaf hl
    rw [Pmm.user_mem, Pmm.user_mem, weight_congr hh, weight_congr hh', h.grows.weight_eq here leaf hl]
  · intro q s hs
    rw [Pmm.user_mem, slot_congr hh] at hs
    obtain ⟨hs', hw⟩ := h.grows.slot_keep q s hs
    refine ⟨by rw [Pmm.user_mem, slot_congr hh', hs'], ?_⟩
    rw [Pmm.user_mem, Pmm.user_mem, hh' s.1 (mem_nodes_of_slot hs'), hh s.1 (mem_nodes_of_slot hs), hw]
  · intro q s hs hs'
    rw [Pmm.user_mem, slot_congr hh] at hs
    rw [Pmm.user_mem, slot_congr hh'] at hs'
    rw [Pmm.user_mem, hh' s.1 (mem_nodes_of_slot hs')]
    exact h.grows.slot_new q s hs hs'
  · intro lim hlim va'
    rw [Pmm.user_mem, Pmm.user_mem, translateWith_congr hh, translateWith_congr hh', h.same lim hlim va']
  · intro s hs
    rw [Pmm.user_mem, slot_congr hh', h.found s hs]
  · intro hn
    rw [Pmm.user_mem, slot_congr hh, h.refused hn]

def Arch.top (a : Arch) : ℕ := a.ptWalkLevels - 2

theorem ptWalkLevels_eq (a : Arch) : a.ptWalkLevels - 1 = a.top + 1 := by cases a <;> rfl

structure UserTree (a : Arch) (r : ℕ) (m : Pmm) : Prop where
  tree : Tree a (fun _ => UserWord a) (m.user r) (a.top + 1) r
  pool : Pool m

theorem UserTree.root_held {m : Pmm} (h : UserTree a r m) : r ∉ m.free :=
  h.tree.held r self_mem_nodes

theorem UserTree.child {g : ℕ} {m : Pmm} {i : Fin 512} (h : UserTree a r m) (hi : userTop i = true)
    (hg : a.tableOf (m.mem r i) = some g) :
    Tree a (fun _ => UserWord a) m a.top g ∧ r ∉ nodes a.tableOf m.mem a.top g := by
  have hg' : a.tableOf ((m.user r).mem r i) = some g := by
    rw [Pmm.user_mem, userHeap_user _ hi]
    exact hg
  have hc := h.tree.child hg'
  have hr := (nodup_child h.tree.nodup hg').2
  have hh : ∀ k ∈ nodes a.tableOf (m.user r).mem a.top g, m.mem k = (m.user r).mem k := by
    intro k hk
    rw [Pmm.user_mem, userHeap_other]
    rintro rfl
    exact hr hk
  have hn := nodes_congr hh
  refine ⟨⟨?_, hc.inner.congr hh, ?_⟩, ?_⟩
  · rw [hn]
    exact hc.nodup
  · rw [hn]
    exact hc.held
  · rw [hn]
    exact hr

theorem getPte_user (E : Env) {va : ℕ} {m : Pmm} (h : UserTree a r m)
    (hva : userTop (levelIndex va (a.top + 1)) = true) :
    ∃ new, Walked a (· = 0) (fun _ => UserWord a) va (a.top + 1) r (m.user r) ((getPte a E r va true m).2.user r)
      (getPte a E r va true m).1 new ∧
      ∀ i, userTop i = false → (getPte a E r va true m).2.mem r i = m.mem r i := by
  rw [getPte, ptWalkLevels_eq]
  have hroot : (m.user r).mem r (levelIndex va (a.top + 1)) = m.mem r (levelIndex va (a.top + 1)) :=
    userHeap_user _ hva
  obtain ⟨g, hg, hd⟩ | ⟨hnone, hd | ⟨t, ht, hd⟩⟩ := descendLevel_cases a E (r, levelIndex va (a.top + 1)) a.top m
  · rw [getPteFrom, hd]
    obtain ⟨hc, hr⟩ := h.child hva hg
    obtain ⟨new, hw⟩ := getPteFrom_walked (shape_user a) E va hc h.pool
    have hnew : r ∉ new := by
      have := h.root_held
      rw [hw.free, Multiset.mem_add, not_or] at this
      exact this.2
    refine ⟨new, (hw.user hr h.root_held).lift h.tree (by rw [hroot]; exact hg), ?_⟩
    intro i _
    rw [hw.grows.frame r hr hnew]
  · rw [getPteFrom, hd]
    refine ⟨0, Walked.still h.tree.inner ?_, fun _ _ => rfl⟩
    have hn : a.tableOf ((m.user r).mem r (levelIndex va (a.top + 1))) = none := by rw [hroot]; exact hnone
    simp only [slot, hn, Option.elim_none]
  · rw [getPteFrom, hd]
    have htr : t ≠ r := fun htr => h.root_held (htr ▸ ht)
    have hn : a.tableOf ((m.user r).mem r (levelIndex va (a.top + 1))) = none := by rw [hroot]; exact hnone
    have hadd := addTable_added (shape_user a) h.tree ⟨h.pool.nodup, h.pool.bound⟩ ht hn
    have hsame : (m.user r).addTable a (r, levelIndex va (a.top + 1)) t
        (newWords a ((m.user r).mem r (levelIndex va (a.top + 1))) a.top) =
        (m.addTable a (r, levelIndex va (a.top + 1)) t
          (newWords a (m.mem r (levelIndex va (a.top + 1))) a.top)).user r := by
      rw [hroot]
      simp only [Pmm.addTable, Pmm.user, userHeap_link _ _ _ htr fun _ => hva]
    rw [hsame] at hadd
    have hU : UserTree a r (m.addTable a (r, levelIndex va (a.top + 1)) t
        (newWords a (m.mem r (levelIndex va (a.top + 1))) a.top)) :=
      ⟨hadd.tree, ⟨hadd.pool.nodup, hadd.pool.bound⟩⟩
    have hlinked := hadd.linked
    rw [Pmm.user_mem, userHeap_user _ hva] at hlinked
    obtain ⟨hc, hr⟩ := hU.child hva hlinked
    obtain ⟨new, hw⟩ := getPteFrom_walked (shape_user a) E va hc hU.pool
    have hnew : r ∉ new := by
      have := hU.root_held
      rw [hw.free, Multiset.mem_add, not_or] at this
      exact this.2
    refine ⟨{t} + new, ?_, ?_⟩
    · have hlift := (hw.user hr hU.root_held).lift hU.tree hadd.linked
      rw [← hsame] at hlift hadd
      exact hlift.prepend hadd ht hn
    · intro i hi
      rw [hw.grows.frame r hr hnew]
      exact link_index htr fun hij => by rw [hij, hva] at hi; cases hi

end Zonix.Vm
