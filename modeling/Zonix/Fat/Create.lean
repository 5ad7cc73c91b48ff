import Zonix.Fat.AddEntry

/-! # `mkdir` and `create_file`

Whatever requests fail, the volume on the disk stays sound: an entry becomes visible only after
the chain it refers to is on the disk, and a cluster is freed only when no entry can refer to it. -/

namespace Zonix.Fat

open Prog Pointer

variable {dev : Device} {g : Geometry} {s s' : FatState} {V V' : Volume} {c d x : ℕ} {l : List ℕ} {p : Pos}
  {name path : List Byte} {e : FatDirEntry} {attr : Byte} {cluster : ℕ}

/-! ## New entries -/

theorem toUpper_eq {a b : Byte} (h : toUpper a = b) (hb : b = 0 ∨ b = dot ∨ b = 0xE5) : a = b := by
  unfold toUpper at h
  split at h
  · rename_i hcase
    unfold dot at hb
    exfalso
    rcases hb with rfl | rfl | rfl <;> bv_omega
  · exact h

theorem makeEntry_attr (name : List Byte × List Byte) (attr : Byte) (cluster : ℕ) :
    (makeEntry name attr cluster).attr = attr := by
  unfold FatDirEntry.attr makeEntry
  rw [byte_ofBytes _ (by omega)]
  simp

theorem makeEntry_cluster (name : List Byte × List Byte) (attr : Byte) (h : cluster < 2 ^ 32) :
    (makeEntry name attr cluster).cluster = cluster := by
  have hhigh : (makeEntry name attr cluster).firstClusterHigh = cluster / 2 ^ 16 := by
    unfold FatDirEntry.firstClusterHigh Block.word16 makeEntry
    rw [byte_ofBytes _ (by omega), byte_ofBytes _ (by omega)]
    simp only [show ¬(20 < 8) by omega, show ¬(20 < 11) by omega, show ¬(20 = 11) by omega, show ¬(20 + 1 < 8) by omega,
      show ¬(20 + 1 < 11) by omega, show ¬(20 + 1 = 11) by omega, if_false, true_or, or_true, if_true, byteOf_toNat,
      Nat.shiftRight_eq_div_pow]
    omega
  have hlow : (makeEntry name attr cluster).firstClusterLow = cluster % 2 ^ 16 := by
    unfold FatDirEntry.firstClusterLow Block.word16 makeEntry
    rw [byte_ofBytes _ (by omega), byte_ofBytes _ (by omega)]
    have hmask : cluster &&& 0xFFFF = cluster % 2 ^ 16 := Nat.and_two_pow_sub_one_eq_mod cluster 16
    simp only [show ¬(26 < 8) by omega, show ¬(26 < 11) by omega, show ¬(26 = 11) by omega, show ¬(26 + 1 < 8) by omega,
      show ¬(26 + 1 < 11) by omega, show ¬(26 + 1 = 11) by omega, show ¬(26 = 20 ∨ 26 = 21) by omega,
      show ¬(26 + 1 = 20 ∨ 26 + 1 = 21) by omega, if_false, true_or, or_true, if_true, byteOf_toNat, hmask]
    omega
  unfold FatDirEntry.cluster
  rw [hhigh, hlow, Nat.shiftLeft_eq, u32_eq (by omega)]
  omega

theorem makeEntry_name (name : List Byte) (attr : Byte) (cluster : ℕ) :
    (makeEntry (make83Name name) attr cluster).name 0 = space ∨
      ∃ b ∈ name, b ≠ dot ∧ (makeEntry (make83Name name) attr cluster).name 0 = toUpper b := by
  unfold FatDirEntry.name makeEntry
  rw [byte_ofBytes _ (by omega), if_pos (by omega)]
  unfold make83Name
  dsimp only
  cases hbase : (name.takeWhile (· != dot)).take 8 with
  | nil => exact Or.inl rfl
  | cons b base =>
    right
    have hmem : b ∈ name.takeWhile (· != dot) := (List.take_sublist _ _).subset (by rw [hbase]; simp)
    have hdot := List.mem_takeWhile_imp hmem
    refine ⟨b, (List.takeWhile_sublist _).subset hmem, by simpa using hdot, rfl⟩

/-- What `mkdir` and `create_file` publish. -/
structure NewEntry (path : List Byte) (attr : Byte) (cluster : ℕ) (e : FatDirEntry) : Prop where
  name_ne : e.name 0 ≠ 0x2E
  isEnd : e.isEnd = false
  cluster : e.cluster = cluster
  isDirectory : e.isDirectory = (attr == attrDirectory)
  visible : (∀ b ∈ path, b ≠ 0xE5) → e.isVisible = true

theorem newEntry (hpart : PartOf path name) (h0 : ∀ b ∈ path, b ≠ 0)
    (hattr : attr = attrDirectory ∨ attr = attrArchive) (hc : cluster < 2 ^ 32) :
    NewEntry path attr cluster (makeEntry (make83Name name) attr cluster) := by
  have hbyte : ∀ b, (b = 0 ∨ b = dot ∨ b = 0xE5) → (makeEntry (make83Name name) attr cluster).name 0 = b →
      b ≠ dot ∧ b ∈ path := by
    intro b hb hname
    rcases makeEntry_name name attr cluster with hsp | ⟨a, ha, hdot, hup⟩
    · rw [hsp] at hname
      unfold space dot at *
      rcases hb with rfl | rfl | rfl <;> exact absurd hname (by decide)
    · have hab : a = b := toUpper_eq (hup.symm.trans hname) hb
      obtain ⟨a', ha', hua⟩ := hpart.2 a ha
      have haa : a' = b := toUpper_eq (hua.symm.trans hab) hb
      exact ⟨hab ▸ hdot, haa ▸ ha'⟩
  have hdotName : (makeEntry (make83Name name) attr cluster).name 0 ≠ 0x2E :=
    fun h => (hbyte dot (Or.inr (Or.inl rfl)) h).1 rfl
  have hend : (makeEntry (make83Name name) attr cluster).isEnd = false := by
    unfold FatDirEntry.isEnd
    rw [beq_eq_false_iff_ne]
    exact fun h => h0 0 (hbyte 0 (Or.inl rfl) h).2 rfl
  refine ⟨hdotName, hend, makeEntry_cluster _ _ hc, ?_, fun hdel => ?_⟩
  · unfold FatDirEntry.isDirectory
    rw [makeEntry_attr]
    rcases hattr with rfl | rfl <;> decide
  · have hdeleted : (makeEntry (make83Name name) attr cluster).isDeleted = false := by
      unfold FatDirEntry.isDeleted
      rw [beq_eq_false_iff_ne]
      exact fun h => hdel 0xE5 (hbyte 0xE5 (Or.inr (Or.inr rfl)) h).2 rfl
    have hnotdot : (makeEntry (make83Name name) attr cluster).isDot = false := by
      cases hcase : (makeEntry (make83Name name) attr cluster).isDot with
      | false => rfl
      | true =>
        have hskip := FatDirEntry.isDot_skipped hcase
        simp only [FatDirEntry.skipped, Bool.or_eq_true, Bool.and_eq_true, beq_iff_eq] at hskip
        rcases hskip with h | h
        · exact absurd h.1 hdotName
        · exact absurd h.1.1 hdotName
    unfold FatDirEntry.isVisible FatDirEntry.isValid
    rw [hend, hdeleted, hnotdot, makeEntry_attr]
    rcases hattr with rfl | rfl <;> decide

/-! ## Publication -/

structure Target (g : Geometry) (V : Volume) (e : FatDirEntry) : Prop where
  chain : e.cluster ≠ 0 → g.Valid e.cluster ∧ fat32EocMin ≤ V.fat e.cluster ∧ ¬Owned g V e.cluster
  leaf : e.isDirectory = true → ∀ q ∈ positions g [e.cluster], (V.at q).isVisible = false

structure Staged (g : Geometry) (V W V' : Volume) (d : ℕ) (e : FatDirEntry) (l : List ℕ) (A : List Pos) (p : Pos)
    (B : List Pos) : Prop where
  placed : Placed g W V' d l A p B
  entry : V'.at p = e
  target : Target g W e
  sound : Sound g W
  tidy : Tidy g V → Tidy g W
  owned : ∀ x, Owned g V x → Owned g W x
  fat : ∀ x, W.fat x ≠ V.fat x → Owned g W x
  leaf : ∀ q : Pos, q.1 = e.cluster → W.at q = V.at q
  lists : SameList g V W

theorem Added.staged (h : Added g V V' d e) (hs : Sound g V) (ht : Target g V e) :
    ∃ W l A p B, Staged g V W V' d e l A p B := by
  rcases h with ⟨l, A, p, B, hp, he⟩ | ⟨W, l, tail, n, B, h⟩
  · exact ⟨V, l, A, p, B, hp, he, ht, hs, fun h => h, fun _ h => h, fun x hx => absurd rfl hx, fun _ _ => rfl,
      SameList.refl g V⟩
  · have hext := h.extend
    have hn : ∀ q : Pos, q.1 = e.cluster → q.1 ≠ n := by
      intro q hq hqn
      by_cases hc : e.cluster = 0
      · have hv := hext.valid
        rw [← hqn, hq, hc] at hv
        exact not_valid_zero g hv
      · have heoc := (ht.chain hc).2.1
        rw [← hq, hqn, h.free] at heoc
        exact absurd heoc (by decide)
    have hleaf : ∀ q : Pos, q.1 = e.cluster → W.at q = V.at q := fun q hq => h.other q (hn q hq)
    have htailOwned : Owned g V tail := by
      obtain ⟨r, hr⟩ := hext.dir.refers
      exact ⟨r, _, ⟨d, hr, hext.chain⟩, by simp⟩
    refine ⟨W, _, _, _, B, h.placed, h.entry, ⟨fun hc => ?_, fun hd q hq => ?_⟩, hext.sound hs, hext.tidy hs,
      fun x hx => (hext.owned hs).mpr (Or.inl hx), fun x hx => ?_, hleaf, hext.sameList hs⟩
    · obtain ⟨hv, heoc, hown⟩ := ht.chain hc
      have hcn : e.cluster ≠ n := hn (e.cluster, 0) rfl
      have hct : e.cluster ≠ tail := by
        intro hct
        exact hown (hct ▸ htailOwned)
      refine ⟨hv, by rw [h.fat _ hct hcn]; exact heoc, fun hW => ?_⟩
      rcases (hext.owned hs).mp hW with hW | hW
      · exact hown hW
      · exact hcn hW
    · rw [hleaf q (by simpa using (mem_positions.mp hq).1)]
      exact ht.leaf hd q hq
    · rw [hext.owned hs]
      by_cases hxn : x = n
      · exact Or.inr hxn
      · by_cases hxt : x = tail
        · exact Or.inl (hxt ▸ htailOwned)
        · exact absurd (h.fat x hxt hxn) hx

namespace Staged

variable {W : Volume} {A B : List Pos}

theorem publish (h : Staged g V W V' d e l A p B) (hv : e.isVisible = true) : Publish g W V' d l A p B :=
  ⟨h.placed, h.entry ▸ hv, h.entry ▸ h.target.chain, h.entry ▸ h.target.leaf⟩

theorem after_sound (h : Staged g V W V' d e l A p B) : Sound g V' := by
  cases hv : e.isVisible with
  | true => exact (h.publish hv).sound h.sound
  | false => exact (h.placed.same h.sound (h.entry ▸ hv)).sound h.sound

theorem after_keeps (h : Staged g V W V' d e l A p B) (hs : Sound g V) : Keeps g (fun _ => False) V V' := by
  have hlists : Keeps g (fun _ => False) V W := h.lists.keeps hs
  cases hv : e.isVisible with
  | true => exact hlists.trans ((h.publish hv).keeps h.sound)
  | false => exact hlists.trans (h.placed.same h.sound (h.entry ▸ hv)).keeps

theorem after_tidy (h : Staged g V W V' d e l A p B) (hname : e.name 0 ≠ 0x2E) (ht : Tidy g V)
    (hleaf : e.isDirectory = true → e.cluster ≠ 0 → Publish.LeafTidy g V e.cluster) : Tidy g V' := by
  have hname' : (V'.at p).name 0 ≠ 0x2E := h.entry ▸ hname
  cases hv : e.isVisible with
  | false => exact h.placed.tidy h.sound (h.tidy ht) (h.entry ▸ hv) hname'
  | true =>
    refine (h.publish hv).tidy h.sound (h.tidy ht) hname' ?_
    rw [h.entry]
    intro hd hc
    have hsame : ∀ q ∈ positions g [e.cluster], W.at q = V.at q :=
      fun q hq => h.leaf q (by simpa using (mem_positions.mp hq).1)
    obtain ⟨hdots, hends⟩ := hleaf hd hc
    constructor
    · intro q hq
      rw [hsame q hq]
      exact hdots q hq
    · intro q hq
      rw [dropWhile_congr hsame] at hq
      rw [hsame q ((List.dropWhile_sublist _).subset hq)]
      exact hends q hq

theorem after_covered (h : Staged g V W V' d e l A p B) (hv : e.isVisible = true)
    (hcover : ∀ x, g.Valid x → V.fat x ≠ fat32Free → V.fat x ≠ fat32BadCluster →
      Owned g V x ∨ (e.cluster = x ∧ x ≠ 0)) : Covered g V' := by
  intro x hx hfree hbad
  rw [(h.publish hv).owned h.sound, h.entry]
  by_cases hW : W.fat x = V.fat x
  · rw [h.placed.fat x, hW] at hfree hbad
    rcases hcover x hx hfree hbad with hown | hown
    · exact Or.inl (h.owned x hown)
    · exact Or.inr hown
  · exact Or.inl (h.fat x hW)

end Staged

/-! ## A new directory -/

theorem dotEntry_isDot (k cluster : ℕ) (hk : k = 1 ∨ k = 2) :
    (makeEntry (List.replicate k dot, []) attrDirectory cluster).isDot = true ∧
      (makeEntry (List.replicate k dot, []) attrDirectory cluster).isEnd = false := by
  have hbyte : ∀ i, i < 11 → (makeEntry (List.replicate k dot, []) attrDirectory cluster).byte i =
      if i < 8 then (List.replicate k dot).getD i space else space := by
    intro i hi
    unfold makeEntry
    rw [byte_ofBytes _ (by omega)]
    by_cases h8 : i < 8
    · rw [if_pos h8, if_pos h8]
    · rw [if_neg h8, if_neg h8, if_pos hi]
      rfl
  have hraw : (makeEntry (List.replicate k dot, []) attrDirectory cluster).rawName =
      (List.range 11).map fun i => if i < 8 then (List.replicate k dot).getD i space else space :=
    List.map_congr_left fun i hi => hbyte i (List.mem_range.mp hi)
  unfold FatDirEntry.isDot FatDirEntry.isEnd FatDirEntry.name
  rw [hraw, hbyte 0 (by omega)]
  rcases hk with rfl | rfl <;> decide

theorem newDir_slot {parent : ℕ} (hc : g.Valid c) (h0 : s.disk (g.dataLba c 0) = dotSector g c parent)
    (hz : ∀ i, i < g.sectorsPerCluster → i ≠ 0 → s.disk (g.dataLba c i) = Block.zero) {k : ℕ} (hk : k < g.slots) :
    if k < 2 then ((vol g s.disk).slot c k).isDot = true ∧ ((vol g s.disk).slot c k).isEnd = false
    else (vol g s.disk).slot c k = Block.zero := by
  obtain ⟨i, j, hi, hj, rfl⟩ := slot_split hk
  rw [vol_slot _ hc hi hj]
  by_cases hi0 : i = 0
  · subst hi0
    rw [h0, Nat.mul_zero, Nat.zero_add]
    unfold dotSector
    dsimp only
    by_cases hj1 : j = 1
    · rw [hj1, if_pos (by omega), entry_setEntry _ _ _ (by decide)]
      exact dotEntry_isDot 2 _ (Or.inr rfl)
    · rw [entry_setEntry_ne _ _ _ _ hj1 hj]
      by_cases hj0 : j = 0
      · rw [hj0, if_pos (by omega), entry_setEntry _ _ _ (by decide)]
        exact dotEntry_isDot 1 _ (Or.inl rfl)
      · rw [if_neg (by omega), entry_setEntry_ne _ _ _ _ hj0 hj, entry_zero]
  · have h16 : 16 ≤ entriesPerSector * i := by
      unfold entriesPerSector
      omega
    rw [if_neg (by omega), hz i hi hi0, entry_zero]

theorem newDir_leaf {parent : ℕ} (hc : g.Valid c) (h0 : s.disk (g.dataLba c 0) = dotSector g c parent)
    (hz : ∀ i, i < g.sectorsPerCluster → i ≠ 0 → s.disk (g.dataLba c i) = Block.zero) :
    (∀ q ∈ positions g [c], ((vol g s.disk).at q).isVisible = false) ∧ Publish.LeafTidy g (vol g s.disk) c := by
  have hslot : ∀ q ∈ positions g [c], if q.2 < 2 then
      ((vol g s.disk).at q).isDot = true ∧ ((vol g s.disk).at q).isEnd = false
      else (vol g s.disk).at q = Block.zero := by
    intro q hq
    obtain ⟨hqc, hk⟩ := mem_positions.mp hq
    rw [List.mem_singleton] at hqc
    rw [Volume.at, hqc]
    exact newDir_slot hc h0 hz hk
  obtain ⟨n, hn⟩ : ∃ n, g.slots = 2 + n := by
    have hpos := g.sectorsPerCluster_pos
    refine ⟨g.slots - 2, ?_⟩
    unfold Geometry.slots entriesPerSector
    omega
  have hpos : positions g [c] = ((List.range 2).map fun k => (c, k)) ++ (List.range n).map fun k => (c, 2 + k) := by
    simp [positions, hn, List.range_add]
  have hzero : ∀ q ∈ (List.range n).map fun k => (c, 2 + k), ((vol g s.disk).at q).isEnd = true := by
    intro q hq
    have h := hslot q (by rw [hpos]; exact List.mem_append_right _ hq)
    obtain ⟨k, -, rfl⟩ := List.mem_map.mp hq
    rw [if_neg (by simp only; omega)] at h
    rw [h]
    exact zero_isEnd
  have hdots : ∀ q ∈ (List.range 2).map fun k => (c, k), ((vol g s.disk).at q).isEnd = false := by
    intro q hq
    have h := hslot q (by rw [hpos]; exact List.mem_append_left _ hq)
    obtain ⟨k, hk, rfl⟩ := List.mem_map.mp hq
    rw [if_pos (List.mem_range.mp hk)] at h
    exact h.2
  refine ⟨fun q hq => ?_, fun q hq hdot => ?_, ?_⟩
  · have h := hslot q hq
    split at h
    · simp [FatDirEntry.isVisible, h.1]
    · rw [h]
      decide
  · have h := hslot q hq
    split at h
    · exact h.1
    · rw [h] at hdot
      exact absurd hdot (by decide)
  · rw [dropWhile_split hpos hdots fun q hq => hzero q (List.mem_of_mem_head? hq)]
    exact hzero

/-! ## Clusters in no chain -/

theorem Touched.agree {F D : ℕ → Prop} (h : Touched g F D s s') (hF : ∀ x, Owned g (vol g s.disk) x → ¬F x)
    (hD : ∀ d l x, IsDir g (vol g s.disk) d → Chain g (vol g s.disk) d l → x ∈ l → ¬D x) :
    Agree g (vol g s.disk) (vol g s'.disk) :=
  ⟨fun x hx => h.fat x (hF x hx), fun d l hd hl p hp => h.slot (hD d l p.1 hd hl (mem_positions.mp hp).1) p.2⟩

theorem IsDir.owned (hd : IsDir g V d) (hl : Chain g V d l) (hx : x ∈ l) : Owned g V x := by
  obtain ⟨r, hr⟩ := hd.refers
  exact ⟨r, l, ⟨d, hr, hl⟩, hx⟩

theorem Touched.agree_free {F : ℕ → Prop} (h : Touched g F F s s') (hF : ∀ x, Owned g (vol g s.disk) x → ¬F x) :
    Agree g (vol g s.disk) (vol g s'.disk) :=
  h.agree hF fun _ _ x hd hl hx => hF x (hd.owned hl hx)

theorem Regular.of_agree (hw : Regular g V) (h : Agree g V V') : Regular g V' :=
  ⟨(h.same hw.sound).sound hw.sound, h.tidy hw.sound hw.tidy⟩

theorem Covered.of_agree (hw : Covered g V) (hs : Sound g V) (h : Agree g V V') (hfat : ∀ x, V'.fat x = V.fat x) :
    Covered g V' := by
  intro x hx hfree hbad
  rw [hfat x] at hfree hbad
  exact ((h.same hs).owned hs).mpr (hw x hx hfree hbad)

/-! ## Small volumes -/

theorem blank_wellFormed (hroot : fat32EocMin ≤ V.fat g.rootCluster)
    (hfree : ∀ x, g.Valid x → x ≠ g.rootCluster → V.fat x = fat32Free)
    (hend : ∀ q ∈ positions g [g.rootCluster], (V.at q).isEnd = true) : WellFormed g V := by
  have hchain : Chain g V g.rootCluster [g.rootCluster] := chain_single (root_valid g) hroot
  have hlist : listing g V [g.rootCluster] = [] :=
    listing_split (A := []) (B := positions g [g.rootCluster]) rfl (by simp) fun q hq => hend q (List.mem_of_mem_head? hq)
  have hin : ∀ p, ¬InDir g V g.rootCluster p := by
    intro p hp
    have hmem := ((inDir_of_chain hchain).mp hp).1
    rw [hlist] at hmem
    simp at hmem
  have hdir : ∀ d, IsDir g V d → d = g.rootCluster := by
    intro d hd
    induction hd with
    | refl => rfl
    | tail _ hchild ih =>
      obtain ⟨p, hp, -⟩ := hchild
      exact absurd (ih ▸ hp) (hin p)
  have hvis : ∀ p, ¬Visible g V p := by
    rintro p ⟨d, hd, hp⟩
    exact hin p (hdir d hd ▸ hp)
  have hrefers : ∀ r c, Refers g V r c → r = none ∧ c = g.rootCluster := by
    intro r c hr
    cases r with
    | none => exact ⟨rfl, hr⟩
    | some p => exact absurd hr.1 (hvis p)
  refine ⟨⟨⟨fun r c hr => ⟨_, (hrefers r c hr).2 ▸ hchain⟩, fun r r' l l' h h' x _ _ => ?_⟩, ⟨?_, ?_⟩⟩,
    fun x hx hx0 _ => ?_⟩
  · obtain ⟨c, hr, -⟩ := h
    obtain ⟨c', hr', -⟩ := h'
    rw [(hrefers r c hr).1, (hrefers r' c' hr').1]
  · intro d l hd hl p hp
    obtain rfl := hdir d hd
    rw [← hchain.unique hl, hlist] at hp
    simp at hp
  · intro d l hd hl p hp
    obtain rfl := hdir d hd
    obtain rfl := hchain.unique hl
    exact hend p ((List.dropWhile_sublist _).subset hp)
  · by_cases hxr : x = g.rootCluster
    · exact ⟨none, [g.rootCluster], ⟨_, rfl, hchain⟩, by simp [hxr]⟩
    · exact absurd (hfree x hx hxr) hx0

theorem oneFile_wellFormed (hc : g.Valid c) (hne : c ≠ g.rootCluster) (hroot : fat32EocMin ≤ V.fat g.rootCluster)
    (hfile : fat32EocMin ≤ V.fat c) (hfree : ∀ x, g.Valid x → x ≠ g.rootCluster → x ≠ c → V.fat x = fat32Free)
    (hvis : (V.at (g.rootCluster, 0)).isVisible = true) (hname : (V.at (g.rootCluster, 0)).name 0 ≠ 0x2E)
    (hcl : (V.at (g.rootCluster, 0)).cluster = c) (hdir : (V.at (g.rootCluster, 0)).isDirectory = false)
    (hend : ∀ q ∈ positions g [g.rootCluster], q ≠ (g.rootCluster, 0) → (V.at q).isEnd = true) : WellFormed g V := by
  -- from the blank volume the file's cluster is claimed, then the entry published
  let W : Volume := ⟨V.fat, fun b k => if b = g.rootCluster ∧ k < g.slots then Block.zero else V.slot b k⟩
  let U : Volume := ⟨fun x => if x = c then fat32Free else V.fat x, W.slot⟩
  have hWat : ∀ q ∈ positions g [g.rootCluster], W.at q = Block.zero := by
    intro q hq
    have hq1 : q.1 = g.rootCluster := by simpa using (mem_positions.mp hq).1
    exact if_pos ⟨hq1, (mem_positions.mp hq).2⟩
  have hU : WellFormed g U := by
    refine blank_wellFormed ?_ (fun x hx hxr => ?_) fun q hq => ?_
    · show fat32EocMin ≤ if g.rootCluster = c then fat32Free else V.fat g.rootCluster
      rw [if_neg (Ne.symm hne)]
      exact hroot
    · show (if x = c then fat32Free else V.fat x) = _
      split
      · rfl
      · rename_i hxc
        exact hfree x hx hxr hxc
    · rw [show U.at q = W.at q from rfl, hWat q hq]
      exact zero_isEnd
  have hUfree : U.fat c = fat32Free := if_pos rfl
  have hagree : Agree g U W := by
    refine ⟨fun x hx => ?_, fun _ _ _ _ _ _ => rfl⟩
    have hxc : x ≠ c := by
      rintro rfl
      exact not_owned_of_free hUfree hx
    exact (if_neg hxc).symm
  have hsame := hagree.same hU.sound
  have hsW := hsame.sound hU.sound
  obtain ⟨B, hB⟩ := positions_split (x := g.rootCluster) [] [] (slots_pos g)
  simp only [List.range_zero, List.map_nil, List.append_nil, List.nil_append, positions, List.flatMap_nil] at hB
  have hpos : positions g [g.rootCluster] = (g.rootCluster, 0) :: B := hB
  have hnotB : (g.rootCluster, 0) ∉ B := by
    have hnd : (positions g [g.rootCluster]).Nodup := positions_nodup (by simp)
    rw [hpos] at hnd
    exact (List.nodup_cons.mp hnd).1
  have hW0 : W.at (g.rootCluster, 0) = Block.zero := hWat _ (by simp [hpos])
  have hplaced : Placed g W V g.rootCluster [g.rootCluster] [] (g.rootCluster, 0) B := by
    refine ⟨IsDir.root, chain_single (root_valid g) hroot, hpos, by simp, by rw [hW0]; decide, fun _ => rfl,
      fun q hq => ?_, by simp, Or.inl ⟨by rw [hW0]; exact zero_isEnd, fun q hq => ?_⟩, FatDirEntry.not_end_of_visible hvis⟩
    · refine (if_neg fun h => hq ?_).symm
      exact mem_positions.mpr ⟨by simp [h.1], h.2⟩
    · exact hend q (by simp [hpos, hq]) fun he => hnotB (he ▸ hq)
  have hstaged : Staged g W W V g.rootCluster (V.at (g.rootCluster, 0)) [g.rootCluster] [] (g.rootCluster, 0) B := by
    refine ⟨hplaced, rfl, ⟨fun _ => ?_, fun h => by simp [hdir] at h⟩, hsW, fun h => h, fun _ h => h,
      fun x hx => absurd rfl hx, fun _ _ => rfl, SameList.refl g W⟩
    rw [hcl]
    exact ⟨hc, hfile, fun hown => not_owned_of_free hUfree ((hsame.owned hU.sound).mp hown)⟩
  refine ⟨⟨hstaged.after_sound, hstaged.after_tidy hname (hagree.tidy hU.sound hU.tidy) fun h => by simp [hdir] at h⟩,
    hstaged.after_covered hvis fun x hx hx0 _ => ?_⟩
  by_cases hxr : x = g.rootCluster
  · exact Or.inl ⟨none, [g.rootCluster], ⟨_, rfl, chain_single (root_valid g) hroot⟩, by simp [hxr]⟩
  · by_cases hxc : x = c
    · refine Or.inr ⟨hcl.trans hxc.symm, fun hz => not_valid_zero g (hz ▸ hx)⟩
    · exact absurd (hfree x hx hxr hxc) hx0

/-- A volume of six clusters on eight blocks, whose file "A" occupies cluster 3. -/
def sampleGeometry : Geometry where
  partitionStart := 0
  totalSectors := 8
  sectorsPerCluster := 1
  reservedSectors := 1
  fatCount := 1
  fatSectors := 1
  rootCluster := 2
  sectorsPerCluster_pos := by decide
  sectorsPerCluster_le := by decide
  reserved_pos := by decide
  fatCount_pos := by decide
  fatCount_le := by decide
  data_lt := by decide
  partition_lt := by decide
  clusters_le := by decide
  fat_fits := by decide
  root_ge := by decide
  root_lt := by decide

def sampleBoot : Sector := Block.ofBytes fun i =>
  if i = 0x0C then 0x02 else if i = 0x0D then 1 else if i = 0x0E then 1 else if i = 0x10 then 1
  else if i = 0x20 then 8 else if i = 0x24 then 1 else if i = 0x2C then 2 else if i = 0x42 then 0x29
  else if i = 0x1FE then 0x55 else if i = 0x1FF then 0xAA else 0

def sampleDisk : ℕ → Sector
  | 0 => sampleBoot
  | 1 => (Block.zero.setWord32 8 fat32EocMax).setWord32 12 fat32EocMax
  | 2 => Block.zero.setEntry 0 ((makeEntry ([0x41], []) attrArchive 3).setWord32 28 512)
  | _ => Block.zero

def sampleState : FatState := ⟨sampleDisk, Block.zero, fatInvalidSector, false, false, 0, []⟩

theorem sample_wellFormed : WellFormed sampleGeometry (vol sampleGeometry sampleState.disk) := by
  refine oneFile_wellFormed (c := 3) (by decide) (by decide) (by decide) (by decide) (fun x hx hr hc => ?_) (by decide)
    (by decide) (by decide) (by decide) (by decide)
  have hlt : x < 8 := hx.2
  have hge : 2 ≤ x := hx.1
  have hr' : x ≠ 2 := hr
  have hcases : x = 4 ∨ x = 5 ∨ x = 6 ∨ x = 7 := by omega
  rcases hcases with rfl | rfl | rfl | rfl <;> decide

end Zonix.Fat
