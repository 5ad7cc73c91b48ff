import Zonix.Fat.Entries

/-! # `add_dir_entry`

The entry goes into the first free slot of the directory; a full directory gets another cluster,
which is linked only after it is filled.  When the link fails and cannot be undone, the new
cluster stays allocated. -/

namespace Zonix.Fat

open Prog Pointer

variable {dev : Device} {g : Geometry} {s s' : FatState} {V V' : Volume} {P : ℕ → Prop} {c d n x tail next : ℕ}
  {l : List ℕ} {p q : Pos} {e : FatDirEntry} {report : Bool}

structure Extended (g : Geometry) (V W V' : Volume) (d : ℕ) (e : FatDirEntry) (l : List ℕ) (tail n : ℕ)
    (B : List Pos) : Prop where
  free : V.fat n = fat32Free
  extend : Extend g V W d l tail n
  fat : ∀ x, x ≠ tail → x ≠ n → W.fat x = V.fat x
  other : ∀ q : Pos, q.1 ≠ n → W.at q = V.at q
  placed : Placed g W V' d ((l ++ [tail]) ++ [n]) (positions g (l ++ [tail])) (n, 0) B
  entry : V'.at (n, 0) = e

def Added (g : Geometry) (V V' : Volume) (d : ℕ) (e : FatDirEntry) : Prop :=
  (∃ l A p B, Placed g V V' d l A p B ∧ V'.at p = e) ∨ ∃ W l tail n B, Extended g V W V' d e l tail n B

structure Addable (g : Geometry) (s : FatState) (d : ℕ) (e : FatDirEntry) : Prop where
  coherent : Coherent g s
  sound : Sound g (vol g s.disk)
  tidy : Tidy g (vol g s.disk)
  dir : IsDir g (vol g s.disk) d
  kept : e.isEnd = false

theorem Addable.of_quiet (h : Addable g s d e) (hq : Quiet g s s') : Addable g s' d e :=
  ⟨hq.coherent h.coherent, by rw [hq.disk]; exact h.sound, by rw [hq.disk]; exact h.tidy,
    by rw [hq.disk]; exact h.dir, h.kept⟩

theorem not_owned_of_free (h : V.fat x = fat32Free) : ¬Owned g V x := by
  rintro ⟨r, m, ⟨c, -, hm⟩, hx⟩
  exact (hm.fat_ne hx).1 h

theorem isEnd_of_not_free (h : e.isFree = false) : e.isEnd = false := by
  unfold FatDirEntry.isFree at h
  exact (Bool.or_eq_false_iff.mp h).1

structure Linked (g : Geometry) (s s' : FatState) (tail n : ℕ) (e : FatDirEntry) : Prop where
  valid : g.Valid n
  free : (vol g s.disk).fat n = fat32Free
  link : (vol g s'.disk).fat tail = n
  eoc : fat32EocMin ≤ (vol g s'.disk).fat n
  fat : ∀ x, x ≠ tail → x ≠ n → (vol g s'.disk).fat x = (vol g s.disk).fat x
  data : ∀ x k, x ≠ n → (vol g s'.disk).slot x k = (vol g s.disk).slot x k
  filled : ∀ i, i < g.sectorsPerCluster →
    s'.disk (g.dataLba n i) = if i = 0 then Block.zero.setEntry 0 e else Block.zero

theorem Linked.slot (h : Linked g s s' tail n e) {k : ℕ} (hk : k < g.slots) :
    (vol g s'.disk).slot n k = if k = 0 then e else Block.zero := by
  obtain ⟨i, j, hi, hj, rfl⟩ := slot_split hk
  rw [vol_slot _ h.valid hi hj, h.filled i hi]
  by_cases hi0 : i = 0
  · by_cases hj0 : j = 0
    · rw [if_pos hi0, if_pos (by simp [hi0, hj0]), hj0, entry_setEntry _ _ _ (by decide)]
    · rw [if_pos hi0, if_neg (by omega), entry_setEntry_ne _ _ _ _ hj0 hj, entry_zero]
  · have hpos : 0 < entriesPerSector * i := Nat.mul_pos (by decide) (by omega)
    rw [if_neg hi0, if_neg (by omega), entry_zero]

theorem extended_of_link (ha : Addable g s d e) (hl : Chain g (vol g s.disk) d (l ++ [tail]))
    (hfull : ∀ p ∈ positions g (l ++ [tail]), ((vol g s.disk).at p).isFree = false)
    (hlink : Linked g s s' tail n e) : ∃ W B, Extended g (vol g s.disk) W (vol g s'.disk) d e l tail n B := by
  have hs := ha.sound
  have hd := ha.dir
  have hfresh : ¬Owned g (vol g s.disk) n := not_owned_of_free hlink.free
  have hmem : ∀ {b m}, IsDir g (vol g s.disk) b → Chain g (vol g s.disk) b m → n ∉ m := by
    intro b m hb hm hnm
    obtain ⟨r, hr⟩ := hb.refers
    exact hfresh ⟨r, m, ⟨b, hr, hm⟩, hnm⟩
  let W : Volume := ⟨(vol g s'.disk).fat, fun c k => if c = n then Block.zero else (vol g s'.disk).slot c k⟩
  have hWat : ∀ q : Pos, q.1 ≠ n → W.at q = (vol g s.disk).at q ∧ (vol g s'.disk).at q = (vol g s.disk).at q := by
    intro q hq
    refine ⟨?_, hlink.data q.1 q.2 hq⟩
    show (if q.1 = n then Block.zero else (vol g s'.disk).slot q.1 q.2) = _
    rw [if_neg hq]
    exact hlink.data q.1 q.2 hq
  have hWn : ∀ k, W.at (n, k) = Block.zero := by
    intro k
    show (if n = n then Block.zero else (vol g s'.disk).slot n k) = _
    rw [if_pos rfl]
  have htail : ∀ q ∈ positions g (l ++ [tail]), q.1 ≠ n := by
    intro q hq he
    exact hmem hd hl (he ▸ (mem_positions.mp hq).1)
  obtain ⟨B, hB⟩ := positions_split (x := n) (l ++ [tail]) [] (slots_pos g)
  simp only [List.range_zero, List.map_nil, List.append_nil] at hB
  have hnodup : (positions g ((l ++ [tail]) ++ [n])).Nodup := by
    refine positions_nodup (List.nodup_append.mpr ⟨hl.nodup, by simp, ?_⟩)
    intro a ha b hb hab
    rw [List.mem_singleton.mp hb] at hab
    exact hmem hd hl (hab ▸ ha)
  have hextend : Extend g (vol g s.disk) W d l tail n := by
    refine ⟨hd, hl, fun p hp => isEnd_of_not_free (hfull p hp), hfresh, hlink.valid, hlink.eoc, hlink.link, fun x hx hne => ?_, ?_, ?_⟩
    · refine hlink.fat x hne ?_
      rintro rfl
      exact hfresh hx
    · intro b m hb hm q hq
      refine (hWat q ?_).1
      intro he
      exact hmem hb hm (he ▸ (mem_positions.mp hq).1)
    · intro q hq
      have hqn : q.1 = n := by simpa using (mem_positions.mp hq).1
      rw [show q = (n, q.2) from Prod.ext hqn rfl, hWn]
      exact zero_isEnd
  have hentry : (vol g s'.disk).at (n, 0) = e := by
    rw [Volume.at, hlink.slot (slots_pos g), if_pos rfl]
  obtain ⟨r, hr⟩ := hd.refers
  have hchain : Chain g W d ((l ++ [tail]) ++ [n]) := by
    have hgrow := hextend.chain_grow hs hr hl
    rwa [Extend.grow, if_pos rfl] at hgrow
  refine ⟨W, B, hlink.free, hextend, hlink.fat, fun q hq => (hWat q hq).1, ?_, hentry⟩
  refine ⟨(hextend.isDir hs d).mpr hd, hchain, hB, fun q hq => ?_, ?_, fun _ => rfl, fun q hq => ?_, fun q hq => ?_,
    Or.inl ⟨?_, fun q hq => ?_⟩, by rw [hentry, ha.kept]⟩
  · rw [(hWat q (htail q hq)).1]
    exact isEnd_of_not_free (hfull q hq)
  · rw [hWn]
    decide
  · by_cases hqn : q.1 = n
    · have hk : ¬(g.Valid q.1 ∧ q.2 < g.slots) := fun h => hq (mem_positions.mpr ⟨by simp [hqn], h.2⟩)
      rw [vol_at_invalid hk, show q = (n, q.2) from Prod.ext hqn rfl, hWn]
    · rw [(hWat q hqn).1, (hWat q hqn).2]
  · rw [(hWat q (htail q hq)).1, (hWat q (htail q hq)).2]
  · rw [hWn]
    exact zero_isEnd
  · -- the other slots of the new cluster are zero
    have hq0 : q ≠ (n, 0) := by
      rintro rfl
      rw [hB] at hnodup
      exact (List.nodup_cons.mp (List.nodup_append.mp hnodup).2.1).1 hq
    have hqpos : q ∈ positions g ((l ++ [tail]) ++ [n]) := by
      rw [hB]
      simp [hq]
    have hqn : q.1 = n := by
      by_contra hqn
      have hql : q ∈ positions g (l ++ [tail]) := by
        have hm := mem_positions.mp hqpos
        simp only [List.mem_append, List.mem_singleton, hqn, or_false] at hm
        exact mem_positions.mpr ⟨by simpa using hm.1, hm.2⟩
      rw [hB] at hnodup
      exact (List.nodup_append.mp hnodup).2.2 q hql q (List.mem_cons_of_mem _ hq) rfl
    have hk : q.2 ≠ 0 := fun h => hq0 (Prod.ext hqn h)
    rw [Volume.at, hqn, hlink.slot (mem_positions.mp hqpos).2, if_neg hk]
    exact zero_isEnd

/-! ## The link -/

/-- After a failed link: the tail is what it was and the new cluster may be free again, or the new
cluster stays and the caller is told. -/
def Unlinked (g : Geometry) (report : Bool) (tail next n : ℕ) (s s' : FatState) : Prop :=
  (∃ rest, s'.faults = s.faults ++ rest) ∧
  ((Touched g (fun x => x = tail ∨ x = n) (fun _ => False) s s' ∧ (vol g s'.disk).fat tail = next % 2 ^ 28 ∧
    Sync g (fun x => x ≠ n) s' ∧ s'.entryMayExist = s.entryMayExist) ∨
  (Touched g (· = tail) (fun _ => False) s s' ∧
    ((vol g s'.disk).fat tail = (vol g s.disk).fat tail ∨ (vol g s'.disk).fat tail = next % 2 ^ 28) ∧
    (report = true → s'.entryMayExist = true)))

theorem restoreTail_spec (report : Bool) (next : ℕ) (hf : g.Fits dev) (ht : g.Valid tail) (hn : g.Valid n) (hne : n ≠ tail) (hs : Sync g P s)
    (hP : ∀ x, x ≠ tail → P x) (hb : s.bufferSector = g.fatSector tail ∨ P tail)
    (heoc : fat32EocMin ≤ fatWord g s.disk n % 2 ^ 28) :
    Unlinked g report tail next n s (restoreTail dev g report tail next n s).2 := by
  apply wp_left.mp
  unfold restoreTail
  rw [wp_bind, wp_attempt]
  refine wp_mono (writeEntry_wp hf ht next hs) (fun _ s₁ h₁ => ?_) fun err s₁ h₁ => ?_
  · obtain ⟨hk, hfl, hsync, hw⟩ := h₁
    have hc : Coherent g s₁ := by
      refine hsync.mono fun x _ => ?_
      by_cases hx : x = tail
      · exact Or.inr hx
      · exact Or.inl (hP x hx)
    have hview : view g s₁ n % 2 ^ 28 = fatWord g s.disk n % 2 ^ 28 := by
      rw [hc.words n hn trivial, hk.words n hn ⟨hP n hne, hne⟩]
    have hroll := rollbackNewChain_kept hf hn (hc.mono fun _ _ => trivial : Sync g (fun x => x ≠ n) s₁) (by simp)
      (by rw [hview]; exact heoc)
    apply wp_left.mpr
    refine ⟨?_, Or.inl ⟨?_, ?_, hroll.sync, by rw [hroll.mayExist, hk.mayExist]⟩⟩
    · obtain ⟨rest, hrest⟩ := hroll.faults
      exact ⟨rest, by rw [hrest, hfl]⟩
    · refine (hk.touched fun x hx => ?_).trans (hroll.touched fun x hx => fun h => hx (Or.inr h))
      have hxt : x ≠ tail := fun h => hx (Or.inl h)
      exact ⟨hP x hxt, hxt⟩
    · rw [vol_fat _ ht, hroll.words tail ht (Ne.symm hne), hw]
  · obtain ⟨hk, hfault, hword, -⟩ := h₁
    have hT : Touched g (· = tail) (fun _ => False) s s₁ := hk.touched fun x hx => ⟨hP x hx, hx⟩
    have hkeep : ∀ s₂ : FatState, s₂.disk = s₁.disk → s₂.faults = s₁.faults →
        (report = true → s₂.entryMayExist = true) → Unlinked g report tail next n s s₂ := by
      intro s₂ hd hf₂ hm
      refine ⟨by rw [hf₂]; exact hk.faults, Or.inr ⟨⟨by rw [hd]; exact hT.fat, by rw [hd]; exact hT.data⟩, ?_, hm⟩⟩
      rw [hd, vol_fat _ ht, vol_fat _ ht]
      rcases hword hb with h | h
      · exact Or.inl (by rw [h])
      · exact Or.inr h
    unfold reportMayExist
    cases report with
    | true => exact hkeep _ rfl rfl fun _ => rfl
    | false => exact hkeep _ rfl rfl (by simp)

/-- `add_dir_entry` failed and no entry is visible. -/
def Refused (dev : Device) (g : Geometry) (s : FatState) (err : Error) (s' : FatState) : Prop :=
  Abandoned g s s' ∧
    (Faulted dev.Faulty s err s' ∨ (err = .full ∧ NoneFree g (vol g s.disk) ∧ Quiet g s s' ∧ s'.faults = s.faults))

/-- `add_dir_entry` failed, and the entry may be there. -/
def Doubtful (dev : Device) (g : Geometry) (report : Bool) (d : ℕ) (e : FatDirEntry) (s : FatState) (err : Error)
    (s' : FatState) : Prop :=
  (report = true → s'.entryMayExist = true) ∧ Faulted dev.Faulty s err s' ∧
    (Added g (vol g s.disk) (vol g s'.disk) d e ∨
      Touched g (fun x => (vol g s.disk).fat x = fat32Free) (fun x => (vol g s.disk).fat x = fat32Free) s s')

theorem vol_fat_lt (disk : ℕ → Sector) (x : ℕ) : (vol g disk).fat x < 2 ^ 28 := by
  unfold vol
  dsimp only
  split
  · exact Nat.mod_lt _ (by decide)
  · decide

theorem Geometry.Valid.mod_eq (hn : g.Valid n) : n % 2 ^ 28 = n := by
  have hlt := hn.lt_eoc
  unfold fat32EocMin at hlt
  exact Nat.mod_eq_of_lt (by omega)

theorem linked_of_steps {s₁ s₂ s₃ : FatState} (h₁ : Claimed g n s s₁) (hne : n ≠ tail) (hp : Poured g n s₁ s₂)
    (hfilled : ∀ i, i < g.sectorsPerCluster →
      s₂.disk (g.dataLba n i) = if i = 0 then Block.zero.setEntry 0 e else Block.zero)
    (hT : Touched g (· = tail) (fun _ => False) s₂ s₃) (hlink : (vol g s₃.disk).fat tail = n) :
    Linked g s s₃ tail n e := by
  have hT₂ : Touched g (· = n) (· = n) s s₂ := h₁.touched.trans (hp.touched h₁.valid)
  refine ⟨h₁.valid, h₁.free, hlink, ?_, fun x hxt hxn => ?_, fun x k hxn => ?_, fun i hi => ?_⟩
  · rw [hT.fat n hne, (hp.touched h₁.valid (F := fun _ => False)).fat n (by simp), h₁.eoc]
    decide
  · rw [hT.fat x hxt, hT₂.fat x hxn]
  · rw [hT.slot (by simp), hT₂.slot hxn]
  · rw [hT.data n i h₁.valid hi (by simp)]
    exact hfilled i hi

theorem extendDir_wp (report : Bool) (hf : g.Fits dev) (ha : Addable g s d e)
    (hl : Chain g (vol g s.disk) d (l ++ [tail]))
    (hfull : ∀ p ∈ positions g (l ++ [tail]), ((vol g s.disk).at p).isFree = false) :
    wp (extendDir dev g report tail ((vol g s.disk).fat tail) e)
      (fun _ s' => Added g (vol g s.disk) (vol g s'.disk) d e ∧ Coherent g s' ∧ s'.faults = s.faults)
      (fun err s' => Refused dev g s err s' ∨ Doubtful dev g report d e s err s') s := by
  have ht : g.Valid tail := hl.valid tail (by simp)
  unfold extendDir
  rw [wp_bind]
  refine wp_mono (allocCluster_wp hf ha.coherent) (fun n s₁ h₁ => ?_) fun err s₁ h₁ => Or.inl h₁
  have hn := h₁.valid
  have hne : n ≠ tail := by
    rintro rfl
    exact (hl.fat_ne (x := n) (by simp)).1 h₁.free
  have hnfree : ∀ x, x = n → (vol g s.disk).fat x = fat32Free := fun x hx => hx ▸ h₁.free
  have hused : ∀ x, (vol g s.disk).fat x ≠ fat32Free → x ≠ n := fun x hx he => hx (hnfree x he)
  have heoc : ∀ {s₂}, Poured g n s₁ s₂ → fat32EocMin ≤ fatWord g s₂.disk n % 2 ^ 28 := by
    intro s₂ h₂
    rw [h₂.word hn, ← vol_fat _ hn, h₁.eoc]
    decide
  rw [wp_bind, wp_onError]
  refine wp_mono (writeSectors_wp hf hn _ _ 0 (by omega) s₁) (fun _ s₂ h₂ => ?_) fun err s₂ h₂ => ?_
  · obtain ⟨hp₂, hf₂, hnew, -⟩ := h₂
    have hc₂ : Coherent g s₂ := hp₂.sync h₁.coherent
    have hT₂ : Touched g (· = n) (· = n) s s₂ := h₁.touched.trans (hp₂.touched hn)
    have hfl : s₂.faults = s.faults := hf₂.trans h₁.faults
    -- a disk on which only the tail changed since the new cluster was filled
    have hlinked : ∀ {s₃}, Touched g (· = tail) (fun _ => False) s₂ s₃ → (vol g s₃.disk).fat tail = n →
        Added g (vol g s.disk) (vol g s₃.disk) d e := by
      intro s₃ hT₃ hlink
      obtain ⟨W, B, h⟩ := extended_of_link ha hl hfull
        (linked_of_steps h₁ hne hp₂ (fun i hi => hnew i (by omega) hi) hT₃ hlink)
      exact Or.inr ⟨W, l, tail, n, B, h⟩
    have hmod : (vol g s.disk).fat tail % 2 ^ 28 = (vol g s.disk).fat tail := Nat.mod_eq_of_lt (vol_fat_lt _ _)
    have hnmod := hn.mod_eq
    rw [wp_onError]
    refine wp_mono (writeEntry_wp hf ht n hc₂) (fun _ s₃ h₃ => ?_) fun err s₃ h₃ => ?_
    · obtain ⟨hk, hf₃, hsync, hw⟩ := h₃
      refine ⟨hlinked (hk.touched fun x hx => ⟨trivial, hx⟩) ?_, hsync.mono fun x _ => Or.inl trivial, hf₃.trans hfl⟩
      rw [vol_fat _ ht, hw, hnmod]
    · obtain ⟨hk, hfault, hword, hcase⟩ := h₃
      have hT₃ : Touched g (· = tail) (fun _ => False) s₂ s₃ := hk.touched fun x hx => ⟨trivial, hx⟩
      obtain ⟨P, hsync, hP, hb⟩ : ∃ P : ℕ → Prop, Sync g P s₃ ∧ (∀ x, x ≠ tail → P x) ∧
          (s₃.bufferSector = g.fatSector tail ∨ P tail) := by
        rcases hcase with ⟨hkept, -⟩ | ⟨hbuf, -⟩
        · exact ⟨_, hkept.sync, fun _ _ => trivial, Or.inr trivial⟩
        · exact ⟨_, hk.sync, fun x hx => ⟨trivial, hx⟩, Or.inl hbuf⟩
      obtain ⟨hgrow, hout⟩ := restoreTail_spec report ((vol g s.disk).fat tail) hf ht hn hne hsync hP hb
        (by rw [hk.words n hn ⟨trivial, hne⟩]; exact heoc hp₂)
      have hfault' := (hfault.grow_right hgrow).after hfl
      rw [hmod] at hout
      generalize (restoreTail dev g report tail ((vol g s.disk).fat tail) n s₃).2 = s₄ at *
      rcases hout with ⟨hT₄, htail, hsync₄, hm₄⟩ | ⟨hT₄, htail, hm₄⟩
      · -- the tail is restored
        left
        have hT : Touched g (fun x => x = tail ∨ x = n) (· = n) s s₄ :=
          ((hT₂.mono (fun x hx => Or.inr hx) fun _ h => h).trans (hT₃.mono (fun x hx => Or.inl hx) fun _ h => h.elim)).trans
            (hT₄.mono (fun _ h => h) fun _ h => h.elim)
        refine ⟨⟨⟨fun x hx => ?_, fun x i hv hi hx => hT.data x i hv hi (hused x hx)⟩, hsync₄.mono hused, ?_⟩, Or.inl hfault'⟩
        · by_cases hxt : x = tail
          · rw [hxt, htail]
          · exact hT.fat x fun h => h.elim hxt (hused x hx)
        · rw [hm₄, hk.mayExist, hp₂.mayExist, h₁.mayExist]
      · -- the new cluster stays, linked or not
        right
        refine ⟨hm₄, hfault', ?_⟩
        have hT := hT₃.trans hT₄
        have hcases : (vol g s₄.disk).fat tail = n ∨ (vol g s₄.disk).fat tail = (vol g s.disk).fat tail := by
          rcases htail with h | h
          · rcases hword (Or.inr trivial) with hold | hnew'
            · right
              rw [h, vol_fat _ ht, hold, ← vol_fat _ ht, hT₂.fat tail (Ne.symm hne)]
            · left
              rw [h, vol_fat _ ht, hnew', hnmod]
          · exact Or.inr h
        rcases hcases with hlink | hold
        · exact Or.inl (hlinked hT hlink)
        · right
          refine ⟨fun x hx => ?_, fun x i hv hi hx => ?_⟩
          · by_cases hxt : x = tail
            · rw [hxt, hold]
            · rw [hT.fat x hxt, hT₂.fat x (hused x hx)]
          · rw [hT.data x i hv hi (by simp), hT₂.data x i hv hi (hused x hx)]
  · obtain ⟨hp₂, hfault⟩ := h₂
    have hview : fat32EocMin ≤ view g s₂ n % 2 ^ 28 := by
      rw [(hp₂.sync h₁.coherent).words n hn trivial]
      exact heoc hp₂
    have hroll := rollbackNewChain_kept hf hn
      ((hp₂.sync h₁.coherent).mono fun _ _ => trivial : Sync g (fun x => x ≠ n) s₂) (by simp) hview
    have hT := (h₁.touched.trans (hp₂.touched hn)).trans (hroll.touched (D := (· = n)) fun x hx => hx)
    refine Or.inl ⟨⟨hT.mono hnfree hnfree, hroll.sync.mono hused, ?_⟩,
      Or.inl ((hfault.grow_right hroll.faults).after h₁.faults)⟩
    rw [hroll.mayExist, hp₂.mayExist, h₁.mayExist]

/-! ## The whole function -/

def FatState.withReport (s : FatState) (told value : Bool) : FatState :=
  if told then { s with entryMayExist := value } else s

theorem wp_reportMayExist {Q : Unit → FatState → Prop} {E : Error → FatState → Prop} (value : Bool) :
    wp (reportMayExist report value) Q E s ↔ Q () (s.withReport report value) := by
  unfold reportMayExist FatState.withReport
  split <;> rfl

theorem report_same (s : FatState) (report value : Bool) : (s.withReport report value).disk = s.disk ∧
    (s.withReport report value).buffer = s.buffer ∧ (s.withReport report value).bufferSector = s.bufferSector ∧
    (s.withReport report value).faults = s.faults ∧ (report = true → (s.withReport report value).entryMayExist = value) := by
  unfold FatState.withReport
  cases report <;> simp

theorem report_sync (value : Bool) (h : Sync g P s) : Sync g P (s.withReport report value) := by
  obtain ⟨hd, hb, hbs, -⟩ := report_same s report value
  refine ⟨hbs ▸ h.sector, fun c hc hp => ?_⟩
  have hw := h.words c hc hp
  unfold view at hw ⊢
  rw [hd, hb, hbs]
  exact hw

theorem placeInSector_skips (dev : Device) (report : Bool) (e : FatDirEntry) :
    Skips (placeInSector dev report e) FatDirEntry.isFree := by
  intro lba sector h
  unfold placeInSector
  rw [freeSlot_none h]

theorem placeInSector_writes {A B : List Pos} {i j : ℕ} (report : Bool) (e : FatDirEntry) (hf : g.Fits dev)
    (hc : Coherent g s) (hx : g.Valid x) (h : FirstHit g (vol g s.disk) l FatDirEntry.isFree A x i j B) :
    wp (placeInSector dev report e (g.clusterLba x i) (s.disk (g.dataLba x i)))
      (fun r s' => r = some () ∧ Coherent g s' ∧ s'.faults = s.faults ∧
        s'.disk = putSector s.disk (g.dataLba x i) (placeEntry (s.disk (g.dataLba x i)) j e) true)
      (fun err s' => (report = true → s'.entryMayExist = true) ∧ Faulted dev.Faulty s err s' ∧
        ∃ reached, s'.disk = putSector s.disk (g.dataLba x i) (placeEntry (s.disk (g.dataLba x i)) j e) reached) s := by
  have hslot : freeSlot (s.disk (g.dataLba x i)) = some j := by
    refine freeSlot_some h.slot (fun k hk => h.sector_before hx hk) ?_
    rw [← vol_slot s.disk hx h.sector h.slot]
    exact h.hit
  unfold placeInSector
  rw [hslot]
  dsimp only
  rw [wp_bind, wp_reportMayExist]
  obtain ⟨hd₁, -, -, hf₁, hm₁⟩ := report_same s report true
  rw [wp_bind]
  refine wp_mono (writeData_wp hf hx h.sector _) (fun _ s₂ h₂ => ?_) fun err s₂ h₂ => ?_
  · obtain ⟨hp, hw, hf₂⟩ := h₂
    exact ⟨rfl, hp.sync (report_sync true hc), hf₂.trans hf₁, by rw [hw, hd₁]⟩
  · obtain ⟨hp, ⟨reached, hw⟩, hfault⟩ := h₂
    exact ⟨fun hr => hp.mayExist.trans (hm₁ hr), hfault.after hf₁, reached, by rw [hw, hd₁]⟩

theorem placeInSector_wp {A B : List Pos} {i j : ℕ} (report : Bool) (hf : g.Fits dev) (ha : Addable g s d e)
    (hl : Chain g (vol g s.disk) d l)
    (h : FirstHit g (vol g s.disk) l FatDirEntry.isFree A x i j B) :
    wp (placeInSector dev report e (g.clusterLba x i) (s.disk (g.dataLba x i)))
      (fun r s' => r = some () ∧ Added g (vol g s.disk) (vol g s'.disk) d e ∧ Coherent g s' ∧ s'.faults = s.faults)
      (fun err s' => Doubtful dev g report d e s err s') s := by
  have hadded : ∀ {s' : FatState}, s'.disk = putSector s.disk (g.dataLba x i)
      (placeEntry (s.disk (g.dataLba x i)) j e) true → Added g (vol g s.disk) (vol g s'.disk) d e :=
    fun hw => Or.inl ⟨l, A, _, B, placed_of_write ha.tidy ha.dir hl h ha.kept hw⟩
  refine wp_mono (placeInSector_writes report e hf ha.coherent (hl.valid x h.mem) h) (fun r s' h' => ?_)
    fun err s' h' => ?_
  · exact ⟨h'.1, hadded h'.2.2.2, h'.2.1, h'.2.2.1⟩
  · obtain ⟨hm, hfault, reached, hw⟩ := h'
    refine ⟨hm, hfault, ?_⟩
    cases reached with
    | true => exact Or.inl (hadded hw)
    | false =>
      rw [putSector_false] at hw
      exact Or.inr ⟨fun _ _ => by rw [hw], fun _ _ _ _ _ => by rw [hw]⟩

theorem Refused.of_quiet {s₁ : FatState} {err : Error} (h : Refused dev g s₁ err s') (hq : Quiet g s s₁)
    (hf : s₁.faults = s.faults) : Refused dev g s err s' := by
  obtain ⟨⟨hT, hs, hm⟩, hend⟩ := h
  rw [hq.disk] at hT hs hend
  refine ⟨⟨hq.touched.trans hT, hs, hm.trans hq.mayExist⟩, ?_⟩
  rcases hend with hfault | ⟨he, hnone, hq', hf'⟩
  · exact Or.inl (hfault.after hf)
  · exact Or.inr ⟨he, hnone, hq.trans hq', hf'.trans hf⟩

theorem Doubtful.of_disk {s₁ : FatState} {err : Error} (h : Doubtful dev g report d e s₁ err s')
    (hd : s₁.disk = s.disk) (hf : s₁.faults = s.faults) : Doubtful dev g report d e s err s' := by
  obtain ⟨hm, hfault, hvol⟩ := h
  refine ⟨hm, hfault.after hf, ?_⟩
  rw [← hd]
  rcases hvol with h | h
  · exact Or.inl h
  · exact Or.inr ⟨by rw [← hd]; exact h.fat, by rw [← hd]; exact h.data⟩

/-- The rule for the two nested loops: the entry goes into the first free slot, or behind a full
directory. -/
theorem addDirEntry_rule {Q : FatState → Prop} {E : Error → FatState → Prop} (report : Bool) (hf : g.Fits dev)
    (hc : Coherent g s) (hl : Chain g (vol g s.disk) d l)
    (hread : ∀ err s', Quiet g (s.withReport report false) s' → Faulted dev.ReadFaulty s err s' → E err s')
    (hplace : ∀ A x i j B s₁, FirstHit g (vol g s₁.disk) l FatDirEntry.isFree A x i j B →
      Quiet g (s.withReport report false) s₁ → s₁.faults = s.faults →
      wp (placeInSector dev report e (g.clusterLba x i) (s₁.disk (g.dataLba x i))) (fun r s' => r = some () ∧ Q s') E s₁)
    (hextend : ∀ done tail s₁, l = done ++ [tail] →
      (∀ p ∈ positions g (done ++ [tail]), ((vol g s₁.disk).at p).isFree = false) →
      Quiet g (s.withReport report false) s₁ → s₁.faults = s.faults →
      wp (extendDir dev g report tail ((vol g s₁.disk).fat tail) e) (fun _ s' => Q s') E s₁) :
    wp (addDirEntry dev g report d e) (fun _ s' => Q s') E s := by
  obtain ⟨hd₀, -, -, hf₀, -⟩ := report_same s report false
  have hc₀ : Coherent g (s.withReport report false) := report_sync false hc
  have hdisk : ∀ {s₁}, Quiet g (s.withReport report false) s₁ → s₁.disk = s.disk := fun hq => hq.disk.trans hd₀
  unfold addDirEntry
  rw [wp_bind, wp_reportMayExist, wp_bind]
  refine walkChain_wp hf (l := l) (I := fun done _ s₁ => Quiet g (s.withReport report false) s₁ ∧ s₁.faults = s.faults ∧
    done ≠ l ∧ ∀ p ∈ positions g done, ((vol g s.disk).at p).isFree = false) ?_ ()
    ⟨Quiet.refl _, hf₀, hl.nonempty.symm, by simp [positions]⟩
  constructor
  · intro done acc s₁ h₁
    exact ⟨h₁.1.coherent hc₀, hdisk h₁.1 ▸ hl⟩
  · intro done acc s₁ s₂ h₁ hq hfl
    exact ⟨h₁.1.trans hq, hfl.trans h₁.2.1, h₁.2.2⟩
  · intro done acc s₁ err s₂ h₁ hq hfault
    exact hread err s₂ (h₁.1.trans hq) (hfault.after h₁.2.1)
  · intro done x rest acc s₁ hsplit _ h₁
    obtain ⟨hq₁, hf₁, -, hdone⟩ := h₁
    have hx : g.Valid x := hl.valid x (by simp [hsplit])
    unfold placeInCluster
    rw [wp_bind]
    refine scanSectors_wp hf hx (hq₁.coherent hc₀) (placeInSector_skips dev report e)
      (fun err s₂ hq hfault => hread err s₂ (hq₁.trans hq) (hfault.after hf₁)) ?_ ?_
    · -- the cluster is full
      intro hnone s₂ hq₂ hf₂
      rw [hdisk hq₁] at hnone
      have hfull : ∀ p ∈ positions g (done ++ [x]), ((vol g s.disk).at p).isFree = false := by
        intro p hp
        rw [positions_append, List.mem_append] at hp
        rcases hp with hp | hp
        · exact hdone p hp
        · obtain ⟨hpx, hk⟩ := mem_positions.mp hp
          rw [List.mem_singleton] at hpx
          rw [Volume.at, hpx]
          exact hnone p.2 hk
      have hq₂ := hq₁.trans hq₂
      have hat : Chain g (vol g s.disk) d ((done ++ [x]) ++ rest) := by
        rw [List.append_assoc]
        exact hsplit ▸ hl
      have hnext := hat.next_fat
      rw [wp_bind]
      refine (reads_entry hf hx).wp_ok (hq₂.coherent hc₀) (fun s₃ hq₃ hf₃ => ?_) fun err s₃ hq₃ hfault =>
        hread err s₃ (hq₂.trans hq₃) (hfault.after (hf₂.trans hf₁))
      have hq₃ := hq₂.trans hq₃
      rw [hdisk hq₂]
      cases rest with
      | nil =>
        rw [if_pos (hnext.2 rfl), wp_bind]
        have hext := hextend done x s₃ hsplit (by rw [hdisk hq₃]; exact hfull) hq₃ (hf₃.trans (hf₂.trans hf₁))
        rw [hdisk hq₃] at hext
        exact hext
      | cons y rest =>
        have hy : g.Valid y := hl.valid y (by simp [hsplit])
        rw [hnext.1 y rest rfl, if_neg (Nat.not_le.mpr hy.lt_eoc), wp_pure]
        exact ⟨hq₃, hf₃.trans (hf₂.trans hf₁), by simp [hsplit], hfull⟩
    · intro i j hi hj hit hmin s₂ hq₂ hf₂
      rw [hdisk hq₁] at hit hmin
      obtain ⟨A, B, hfirst⟩ := firstHit_of_cluster hsplit hdone hi hj hit hmin
      have hd₂ := hdisk (hq₁.trans hq₂)
      have hone := hplace A x i j B s₂ (by rw [hd₂]; exact hfirst) (hq₁.trans hq₂) (hf₂.trans hf₁)
      rw [hd₂] at hone
      rw [hdisk hq₁]
      refine wp_mono hone (fun r s₃ h₃ => ?_) fun _ _ h => h
      obtain ⟨rfl, h₃⟩ := h₃
      exact ⟨rfl, h₃⟩
  · intro done rest acc s₁ hsplit hend h₁
    obtain rfl : rest = [] := by simpa using hend
    rw [List.append_nil] at hsplit
    exact absurd hsplit.symm h₁.2.2.1

theorem addDirEntry_wp (report : Bool) (hf : g.Fits dev) (ha : Addable g s d e) :
    wp (addDirEntry dev g report d e)
      (fun _ s' => Added g (vol g s.disk) (vol g s'.disk) d e ∧ Coherent g s' ∧ s'.faults = s.faults)
      (fun err s' => Refused dev g (s.withReport report false) err s' ∨ Doubtful dev g report d e s err s') s := by
  obtain ⟨hd₀, -, -, hf₀, -⟩ := report_same s report false
  have ha₀ : Addable g (s.withReport report false) d e :=
    ⟨report_sync false ha.coherent, by rw [hd₀]; exact ha.sound, by rw [hd₀]; exact ha.tidy,
      by rw [hd₀]; exact ha.dir, ha.kept⟩
  have hdisk : ∀ {s₁}, Quiet g (s.withReport report false) s₁ → s₁.disk = s.disk := fun hq => hq.disk.trans hd₀
  obtain ⟨l, hl⟩ := ha.sound.dir_chain ha.dir
  refine addDirEntry_rule report hf ha.coherent hl (fun err s₁ hq hfault => ?_) ?_ ?_
  · exact Or.inl ⟨hq.abandoned ha₀.coherent, Or.inl ((hfault.after hf₀.symm).imp Or.inl)⟩
  · intro A x i j B s₁ hfirst hq hfl
    have hplace := placeInSector_wp report hf (ha₀.of_quiet hq) (by rw [hdisk hq]; exact hl) hfirst
    refine wp_mono hplace (fun r s₂ h₂ => ?_) fun err s₂ h₂ => Or.inr (h₂.of_disk (hdisk hq) hfl)
    obtain ⟨hr, hadded, hc₂, hf₂⟩ := h₂
    rw [hdisk hq] at hadded
    exact ⟨hr, hadded, hc₂, hf₂.trans hfl⟩
  · intro done tail s₁ hend hfull hq hfl
    have hext := extendDir_wp report hf (ha₀.of_quiet hq) (by rw [hdisk hq, ← hend]; exact hl) hfull
    refine wp_mono hext (fun _ s₂ h₂ => ?_) fun err s₂ h₂ => ?_
    · obtain ⟨hadded, hc₂, hf₂⟩ := h₂
      rw [hdisk hq] at hadded
      exact ⟨hadded, hc₂, hf₂.trans hfl⟩
    · rcases h₂ with h₂ | h₂
      · exact Or.inl (h₂.of_quiet hq (hfl.trans hf₀.symm))
      · exact Or.inr (h₂.of_disk (hdisk hq) hfl)

end Zonix.Fat
