import Zonix.Fat.Volume

/-! # Changes of a volume that keep it well formed

Four changes cover what the driver does to a volume: clusters that no chain owns change
(`Agree`), an entry is published in a free slot, a directory gets another cluster, an entry is
removed.  For each one: which directories and references there are afterwards, and that the
volume stays sound and tidy. -/

namespace Zonix.Fat

open Pointer Relation

variable {g : Geometry} {V V' : Volume} {c d e x : ℕ} {l l' : List ℕ} {p q : Pos} {r r' : Option Pos}

theorem listing_congr_end (h : ∀ p ∈ positions g l, (V'.at p).isEnd = (V.at p).isEnd) :
    listing g V' l = listing g V l ∧
      (positions g l).dropWhile (fun p => !(V'.at p).isEnd) =
        (positions g l).dropWhile (fun p => !(V.at p).isEnd) := by
  unfold listing
  generalize positions g l = ps at h
  induction ps with
  | nil => exact ⟨rfl, rfl⟩
  | cons p ps ih =>
    have hrest := ih fun q hq => h q (List.mem_cons_of_mem _ hq)
    simp only [List.takeWhile_cons, List.dropWhile_cons, h p (List.mem_cons_self ..)]
    rw [hrest.1, hrest.2]
    exact ⟨rfl, rfl⟩

theorem listing_congr (h : ∀ p ∈ positions g l, V'.at p = V.at p) : listing g V' l = listing g V l :=
  (listing_congr_end fun p hp => by rw [h p hp]).1

theorem dropWhile_congr (h : ∀ p ∈ positions g l, V'.at p = V.at p) :
    (positions g l).dropWhile (fun p => !(V'.at p).isEnd) =
      (positions g l).dropWhile (fun p => !(V.at p).isEnd) :=
  (listing_congr_end fun p hp => by rw [h p hp]).2

theorem listing_split {A B : List Pos} (hp : positions g l = A ++ B) (hA : ∀ p ∈ A, (V.at p).isEnd = false)
    (hB : ∀ p ∈ B.head?, (V.at p).isEnd = true) : listing g V l = A := by
  rw [listing, hp, List.takeWhile_append_of_pos (fun p hpA => by simp [hA p hpA])]
  cases B with
  | nil => simp
  | cons p B => simp [hB p (by simp)]

theorem dropWhile_split {A B : List Pos} (hp : positions g l = A ++ B) (hA : ∀ p ∈ A, (V.at p).isEnd = false)
    (hB : ∀ p ∈ B.head?, (V.at p).isEnd = true) :
    (positions g l).dropWhile (fun p => !(V.at p).isEnd) = B := by
  rw [hp, List.dropWhile_append_of_pos (fun p hpA => by simp [hA p hpA])]
  cases B with
  | nil => simp
  | cons p B => simp [hB p (by simp)]

theorem inDir_of_chain (hl : Chain g V d l) :
    InDir g V d p ↔ p ∈ listing g V l ∧ (V.at p).isVisible = true := by
  constructor
  · intro h
    obtain ⟨l', hl', hm, hv⟩ := h
    rw [hl.unique hl']
    exact ⟨hm, hv⟩
  · intro h
    exact ⟨l, hl, h⟩

theorem refers_congr (hd : ∀ d, IsDir g V' d ↔ IsDir g V d)
    (hin : ∀ d, IsDir g V d → ∀ p, (InDir g V' d p ↔ InDir g V d p) ∧ (InDir g V d p → V'.at p = V.at p)) :
    Refers g V' r c ↔ Refers g V r c := by
  have hvis : ∀ p, Visible g V' p ↔ Visible g V p := by
    intro p
    constructor
    · intro h
      obtain ⟨d, hdir, hp⟩ := h
      exact ⟨d, (hd d).mp hdir, ((hin d ((hd d).mp hdir) p).1).mp hp⟩
    · intro h
      obtain ⟨d, hdir, hp⟩ := h
      exact ⟨d, (hd d).mpr hdir, ((hin d hdir p).1).mpr hp⟩
  have hat : ∀ p, Visible g V p → V'.at p = V.at p := by
    intro p h
    obtain ⟨d, hdir, hp⟩ := h
    exact (hin d hdir p).2 hp
  cases r with
  | none => exact Iff.rfl
  | some p =>
    constructor
    · intro h
      have hv := (hvis p).mp h.1
      exact ⟨hv, hat p hv ▸ h.2.1, h.2.2⟩
    · intro h
      exact ⟨(hvis p).mpr h.1, (hat p h.1).symm ▸ h.2.1, h.2.2⟩

theorem child_congr (hin : ∀ p, (InDir g V' d p ↔ InDir g V d p) ∧ (InDir g V d p → V'.at p = V.at p)) :
    Child g V' d e ↔ Child g V d e := by
  constructor
  · intro h
    obtain ⟨p, hp, hrest⟩ := h
    have hpV := (hin p).1.mp hp
    rw [(hin p).2 hpV] at hrest
    exact ⟨p, hpV, hrest⟩
  · intro h
    obtain ⟨p, hp, hrest⟩ := h
    rw [← (hin p).2 hp] at hrest
    exact ⟨p, (hin p).1.mpr hp, hrest⟩

def Keeps (g : Geometry) (S : Pos → Prop) (V V' : Volume) : Prop :=
  ∀ p, Visible g V p → ¬S p → Visible g V' p ∧ V'.at p = V.at p

variable {S : Pos → Prop}

variable {W : Volume} {m : List ℕ}

theorem Keeps.trans (h : Keeps g S V W) (h' : Keeps g S W V') : Keeps g S V V' := by
  intro p hp hS
  obtain ⟨hv, he⟩ := h p hp hS
  obtain ⟨hv', he'⟩ := h' p hv hS
  exact ⟨hv', he'.trans he⟩

def Within (g : Geometry) (V V' : Volume) : Prop :=
  ∀ d p, IsDir g V' d → InDir g V' d p → IsDir g V d ∧ InDir g V d p ∧ V'.at p = V.at p

theorem Within.trans (h : Within g V W) (h' : Within g W V') : Within g V V' := by
  intro d p hd hp
  obtain ⟨hdW, hpW, hat'⟩ := h' d p hd hp
  obtain ⟨hdV, hpV, hat⟩ := h d p hdW hpW
  exact ⟨hdV, hpV, hat'.trans hat⟩

/-! ## The same tree -/

structure Same (g : Geometry) (V V' : Volume) : Prop where
  chain : ∀ r c l, Refers g V r c → Chain g V c l → Chain g V' c l
  inDir : ∀ d, IsDir g V d → ∀ p, (InDir g V' d p ↔ InDir g V d p) ∧ (InDir g V d p → V'.at p = V.at p)

namespace Same

theorem isDir (h : Same g V V') (d : ℕ) : IsDir g V' d ↔ IsDir g V d :=
  reach_congr (fun d hd _ => child_congr (h.inDir d hd)) d

theorem keeps (h : Same g V V') : Keeps g S V V' := by
  intro p hp _
  obtain ⟨d, hd, hin⟩ := hp
  exact ⟨⟨d, (h.isDir d).mpr hd, (h.inDir d hd p).1.mpr hin⟩, (h.inDir d hd p).2 hin⟩

theorem within (h : Same g V V') : Within g V V' := by
  intro d p hd hp
  have hdV := (h.isDir d).mp hd
  have hpV := (h.inDir d hdV p).1.mp hp
  exact ⟨hdV, hpV, (h.inDir d hdV p).2 hpV⟩

theorem refers (h : Same g V V') : Refers g V' r c ↔ Refers g V r c := refers_congr h.isDir h.inDir

theorem chains (h : Same g V V') (hs : Sound g V) : Chains g V' r l ↔ Chains g V r l := by
  constructor
  · intro hc
    obtain ⟨c, hr, hl⟩ := hc
    have hrV := h.refers.mp hr
    obtain ⟨l₀, hl₀⟩ := hs.chain r c hrV
    rw [(h.chain r c l₀ hrV hl₀).unique hl] at hl₀
    exact ⟨c, hrV, hl₀⟩
  · intro hc
    obtain ⟨c, hr, hl⟩ := hc
    exact ⟨c, h.refers.mpr hr, h.chain r c l hr hl⟩

theorem owned (h : Same g V V') (hs : Sound g V) : Owned g V' x ↔ Owned g V x := by
  simp only [Owned, h.chains hs]

theorem sound (h : Same g V V') (hs : Sound g V) : Sound g V' := by
  constructor
  · intro r c hr
    have hrV := h.refers.mp hr
    obtain ⟨l, hl⟩ := hs.chain r c hrV
    exact ⟨l, h.chain r c l hrV hl⟩
  · intro r r' l l' hl hl'
    exact hs.disjoint r r' l l' ((h.chains hs).mp hl) ((h.chains hs).mp hl')

end Same

/-! ## The same listings -/

structure SameList (g : Geometry) (V V' : Volume) : Prop where
  isDir : ∀ d, IsDir g V' d ↔ IsDir g V d
  list : ∀ d l, IsDir g V d → Chain g V d l →
    ∃ l', Chain g V' d l' ∧ listing g V' l' = listing g V l ∧ ∀ p ∈ listing g V l, V'.at p = V.at p

namespace SameList

theorem refl (g : Geometry) (V : Volume) : SameList g V V := ⟨fun _ => Iff.rfl, fun _ l _ hl => ⟨l, hl, rfl, fun _ _ => rfl⟩⟩

theorem trans (h : SameList g V W) (h' : SameList g W V') : SameList g V V' := by
  refine ⟨fun d => (h'.isDir d).trans (h.isDir d), fun d l hd hl => ?_⟩
  obtain ⟨m, hm, hlist, hat⟩ := h.list d l hd hl
  obtain ⟨m', hm', hlist', hat'⟩ := h'.list d m ((h.isDir d).mpr hd) hm
  exact ⟨m', hm', hlist'.trans hlist, fun p hp => (hat' p (hlist ▸ hp)).trans (hat p hp)⟩

theorem inDir (h : SameList g V V') (hs : Sound g V) (hd : IsDir g V d) (p : Pos) :
    (InDir g V' d p ↔ InDir g V d p) ∧ (InDir g V d p → V'.at p = V.at p) := by
  obtain ⟨l, hl⟩ := hs.dir_chain hd
  obtain ⟨l', hl', hlist, hat⟩ := h.list d l hd hl
  rw [inDir_of_chain hl, inDir_of_chain hl', hlist]
  constructor
  · constructor
    · intro hp
      exact ⟨hp.1, hat p hp.1 ▸ hp.2⟩
    · intro hp
      exact ⟨hp.1, (hat p hp.1).symm ▸ hp.2⟩
  · intro hp
    exact hat p hp.1

theorem keeps (h : SameList g V V') (hs : Sound g V) : Keeps g S V V' := by
  intro p hp _
  obtain ⟨d, hd, hin⟩ := hp
  exact ⟨⟨d, (h.isDir d).mpr hd, (h.inDir hs hd p).1.mpr hin⟩, (h.inDir hs hd p).2 hin⟩

end SameList

/-! ## Clusters without an owner -/

structure Agree (g : Geometry) (V V' : Volume) : Prop where
  fat : ∀ x, Owned g V x → V'.fat x = V.fat x
  slot : ∀ d l, IsDir g V d → Chain g V d l → ∀ p ∈ positions g l, V'.at p = V.at p

namespace Agree

theorem chain (h : Agree g V V') (hr : Refers g V r c) (hl : Chain g V c l) : Chain g V' c l :=
  hl.congr fun x hx => h.fat x ⟨r, l, ⟨c, hr, hl⟩, hx⟩

theorem inDir (h : Agree g V V') (hs : Sound g V) (hd : IsDir g V d) (p : Pos) :
    (InDir g V' d p ↔ InDir g V d p) ∧ (InDir g V d p → V'.at p = V.at p) := by
  obtain ⟨r, hr⟩ := hd.refers
  obtain ⟨l, hl⟩ := hs.chain r d hr
  have hslot := h.slot d l hd hl
  rw [inDir_of_chain hl, inDir_of_chain (h.chain hr hl), listing_congr hslot]
  constructor
  · constructor
    · intro hp
      exact ⟨hp.1, hslot p (mem_of_listing hp.1) ▸ hp.2⟩
    · intro hp
      exact ⟨hp.1, (hslot p (mem_of_listing hp.1)).symm ▸ hp.2⟩
  · intro hp
    exact hslot p (mem_of_listing hp.1)

theorem same (h : Agree g V V') (hs : Sound g V) : Same g V V' :=
  ⟨fun _ _ _ => h.chain, fun _ hd p => h.inDir hs hd p⟩

theorem sameList (h : Agree g V V') (hs : Sound g V) : SameList g V V' := by
  refine ⟨(h.same hs).isDir, fun d l hd hl => ?_⟩
  obtain ⟨r, hr⟩ := hd.refers
  have hslot := h.slot d l hd hl
  exact ⟨l, h.chain hr hl, listing_congr hslot, fun p hp => hslot p (mem_of_listing hp)⟩

theorem tidy (h : Agree g V V') (hs : Sound g V) (ht : Tidy g V) : Tidy g V' := by
  have hback : ∀ d l, IsDir g V' d → Chain g V' d l →
      IsDir g V d ∧ Chain g V d l ∧ ∀ p ∈ positions g l, V'.at p = V.at p := by
    intro d l hd hl
    have hdV := ((h.same hs).isDir d).mp hd
    obtain ⟨r, hr⟩ := hdV.refers
    obtain ⟨l₀, hl₀⟩ := hs.chain r d hr
    obtain rfl := (h.chain hr hl₀).unique hl
    exact ⟨hdV, hl₀, h.slot d l₀ hdV hl₀⟩
  constructor
  · intro d l hd hl p hp
    obtain ⟨hdV, hlV, hslot⟩ := hback d l hd hl
    rw [listing_congr hslot] at hp
    rw [hslot p (mem_of_listing hp)]
    exact ht.dots d l hdV hlV p hp
  · intro d l hd hl p hp
    obtain ⟨hdV, hlV, hslot⟩ := hback d l hd hl
    rw [dropWhile_congr hslot] at hp
    rw [hslot p ((List.dropWhile_sublist _).subset hp)]
    exact ht.ends d l hdV hlV p hp

end Agree

/-! ## Another cluster for a directory -/

structure Extend (g : Geometry) (V V' : Volume) (d : ℕ) (l : List ℕ) (tail n : ℕ) : Prop where
  dir : IsDir g V d
  chain : Chain g V d (l ++ [tail])
  full : ∀ p ∈ positions g (l ++ [tail]), (V.at p).isEnd = false
  fresh : ¬Owned g V n
  valid : g.Valid n
  eoc : fat32EocMin ≤ V'.fat n
  link : V'.fat tail = n
  fat : ∀ x, Owned g V x → x ≠ tail → V'.fat x = V.fat x
  slot : ∀ e m, IsDir g V e → Chain g V e m → ∀ p ∈ positions g m, V'.at p = V.at p
  blank : ∀ p ∈ positions g [n], (V'.at p).isEnd = true

namespace Extend

variable {tail n : ℕ}

def grow (d n c : ℕ) (m : List ℕ) : List ℕ := if c = d then m ++ [n] else m

section

variable (h : Extend g V V' d l tail n)
include h

theorem chain_grow (hs : Sound g V) (hr : Refers g V r c)
    (hm : Chain g V c m) : Chain g V' c (grow d n c m) := by
  obtain ⟨r₀, hr₀⟩ := h.dir.refers
  have howned : ∀ x ∈ m, Owned g V x := fun x hx => ⟨r, m, ⟨c, hr, hm⟩, hx⟩
  unfold grow
  split
  · rename_i hc
    obtain rfl := hc
    obtain rfl := h.chain.unique hm
    obtain ⟨e, -, hpath⟩ := hm.path
    rw [path_snoc] at hpath
    have htail : tail ∉ l := by
      have hnd := hm.nodup
      rw [List.nodup_append] at hnd
      intro ht
      exact hnd.2.2 tail ht tail (by simp) rfl
    have hpath' : Path V'.fat c l tail := hpath.1.congr fun x hx =>
      h.fat x (howned x (by simp [hx])) (fun he => htail (he ▸ hx))
    refine ⟨by simp, ?_, V'.fat n, h.eoc, ?_⟩
    · intro x hx
      rcases List.mem_append.mp hx with hx | hx
      · exact hm.valid x hx
      · rw [List.mem_singleton.mp hx]
        exact h.valid
    · rw [path_snoc, path_snoc]
      exact ⟨⟨hpath', h.link⟩, rfl⟩
  · rename_i hc
    refine hm.congr fun x hx => h.fat x (howned x hx) fun he => hc ?_
    exact hs.start_eq hr hr₀ hm h.chain hx (he ▸ by simp)

theorem listing_grow :
    listing g V' ((l ++ [tail]) ++ [n]) = listing g V (l ++ [tail]) ∧
      (positions g ((l ++ [tail]) ++ [n])).dropWhile (fun p => !(V'.at p).isEnd) = positions g [n] := by
  have hslot := h.slot d _ h.dir h.chain
  have hsplit := positions_append (g := g) (l ++ [tail]) [n]
  have hfull : ∀ p ∈ positions g (l ++ [tail]), (V'.at p).isEnd = false := by
    intro p hp
    rw [hslot p hp]
    exact h.full p hp
  have hblank : ∀ p ∈ (positions g [n]).head?, (V'.at p).isEnd = true := by
    intro p hp
    exact h.blank p (List.mem_of_mem_head? hp)
  rw [listing_split hsplit hfull hblank, dropWhile_split hsplit hfull hblank]
  refine ⟨(listing_split (B := []) (by simp) h.full (by simp)).symm, rfl⟩

theorem inDir (hs : Sound g V) (he : IsDir g V e) (p : Pos) :
    (InDir g V' e p ↔ InDir g V e p) ∧ (InDir g V e p → V'.at p = V.at p) := by
  obtain ⟨r, hr⟩ := he.refers
  obtain ⟨m, hm⟩ := hs.chain r e hr
  have hslot := h.slot e m he hm
  have hlist : listing g V' (grow d n e m) = listing g V m := by
    unfold grow
    split
    · rename_i hed
      obtain rfl := hed
      obtain rfl := h.chain.unique hm
      exact h.listing_grow.1
    · exact listing_congr hslot
  rw [inDir_of_chain hm, inDir_of_chain (h.chain_grow hs hr hm), hlist]
  constructor
  · constructor
    · intro hp
      exact ⟨hp.1, hslot p (mem_of_listing hp.1) ▸ hp.2⟩
    · intro hp
      exact ⟨hp.1, (hslot p (mem_of_listing hp.1)).symm ▸ hp.2⟩
  · intro hp
    exact hslot p (mem_of_listing hp.1)

theorem isDir (hs : Sound g V) (e : ℕ) : IsDir g V' e ↔ IsDir g V e :=
  reach_congr (fun _ he _ => child_congr (h.inDir hs he)) e

theorem sameList (hs : Sound g V) : SameList g V V' := by
  refine ⟨h.isDir hs, fun e m he hm => ?_⟩
  obtain ⟨r, hr⟩ := he.refers
  have hslot := h.slot e m he hm
  refine ⟨_, h.chain_grow hs hr hm, ?_, fun p hp => hslot p (mem_of_listing hp)⟩
  unfold grow
  split
  · rename_i hed
    obtain rfl := hed
    obtain rfl := h.chain.unique hm
    exact h.listing_grow.1
  · exact listing_congr hslot

theorem refers (hs : Sound g V) : Refers g V' r c ↔ Refers g V r c :=
  refers_congr (h.isDir hs) fun _ he p => h.inDir hs he p

theorem chains (hs : Sound g V) :
    Chains g V' r m ↔ ∃ c m₀, Refers g V r c ∧ Chain g V c m₀ ∧ m = grow d n c m₀ := by
  constructor
  · intro hc
    obtain ⟨c, hr, hm⟩ := hc
    have hrV := (h.refers hs).mp hr
    obtain ⟨m₀, hm₀⟩ := hs.chain r c hrV
    exact ⟨c, m₀, hrV, hm₀, hm.unique (h.chain_grow hs hrV hm₀)⟩
  · intro hc
    obtain ⟨c, m₀, hr, hm₀, rfl⟩ := hc
    exact ⟨c, (h.refers hs).mpr hr, h.chain_grow hs hr hm₀⟩

end

theorem mem_grow (hx : x ∈ grow d n c m) : x ∈ m ∨ (c = d ∧ x = n) := by
  unfold grow at hx
  split at hx
  · rename_i hc
    rcases List.mem_append.mp hx with hx | hx
    · exact Or.inl hx
    · exact Or.inr ⟨hc, List.mem_singleton.mp hx⟩
  · exact Or.inl hx

theorem owned (h : Extend g V V' d l tail n) (hs : Sound g V) : Owned g V' x ↔ Owned g V x ∨ x = n := by
  constructor
  · intro hx
    obtain ⟨r, m, hm, hx⟩ := hx
    obtain ⟨c, m₀, hr, hm₀, rfl⟩ := (h.chains hs).mp hm
    rcases mem_grow hx with hx | hx
    · exact Or.inl ⟨r, m₀, ⟨c, hr, hm₀⟩, hx⟩
    · exact Or.inr hx.2
  · intro hx
    rcases hx with ⟨r, m₀, ⟨c, hr, hm₀⟩, hx⟩ | rfl
    · refine ⟨r, _, (h.chains hs).mpr ⟨c, m₀, hr, hm₀, rfl⟩, ?_⟩
      unfold grow
      split
      · simp [hx]
      · exact hx
    · obtain ⟨r₀, hr₀⟩ := h.dir.refers
      exact ⟨r₀, _, (h.chains hs).mpr ⟨d, _, hr₀, h.chain, rfl⟩, by simp [grow]⟩

theorem sound (h : Extend g V V' d l tail n) (hs : Sound g V) : Sound g V' := by
  constructor
  · intro r c hr
    have hrV := (h.refers hs).mp hr
    obtain ⟨m, hm⟩ := hs.chain r c hrV
    exact ⟨_, h.chain_grow hs hrV hm⟩
  · intro r r' m m' hm hm' x hx hx'
    obtain ⟨c, m₀, hr, hm₀, rfl⟩ := (h.chains hs).mp hm
    obtain ⟨c', m₀', hr', hm₀', rfl⟩ := (h.chains hs).mp hm'
    have hnew : ∀ r c m, Refers g V r c → Chain g V c m → n ∉ m :=
      fun r c m hr hm hn => h.fresh ⟨r, m, ⟨c, hr, hm⟩, hn⟩
    rcases mem_grow hx with hxm | ⟨hcd, hxn⟩
    · rcases mem_grow hx' with hxm' | ⟨-, hxn⟩
      · exact hs.disjoint r r' m₀ m₀' ⟨c, hr, hm₀⟩ ⟨c', hr', hm₀'⟩ x hxm hxm'
      · exact absurd (hxn ▸ hxm) (hnew r c m₀ hr hm₀)
    · rcases mem_grow hx' with hxm' | ⟨hcd', -⟩
      · exact absurd (hxn ▸ hxm') (hnew r' c' m₀' hr' hm₀')
      · obtain rfl := hcd.trans hcd'.symm
        exact hs.disjoint r r' m₀ m₀' ⟨c, hr, hm₀⟩ ⟨c, hr', hm₀'⟩ c hm₀.mem_start hm₀'.mem_start

theorem tidy (h : Extend g V V' d l tail n) (hs : Sound g V) (ht : Tidy g V) : Tidy g V' := by
  have hback : ∀ e m, IsDir g V' e → Chain g V' e m →
      (e = d ∧ m = (l ++ [tail]) ++ [n]) ∨
      (IsDir g V e ∧ Chain g V e m ∧ ∀ p ∈ positions g m, V'.at p = V.at p) := by
    intro e m he hm
    have heV := (h.isDir hs e).mp he
    obtain ⟨r, hr⟩ := heV.refers
    obtain ⟨m₀, hm₀⟩ := hs.chain r e hr
    have hgrow := hm.unique (h.chain_grow hs hr hm₀)
    unfold grow at hgrow
    split at hgrow
    · rename_i hed
      obtain rfl := hed
      obtain rfl := h.chain.unique hm₀
      exact Or.inl ⟨rfl, hgrow⟩
    · obtain rfl := hgrow
      exact Or.inr ⟨heV, hm₀, h.slot e m heV hm₀⟩
  constructor
  · intro e m he hm p hp
    rcases hback e m he hm with ⟨rfl, rfl⟩ | ⟨heV, hmV, hslot⟩
    · rw [h.listing_grow.1] at hp
      rw [h.slot e _ h.dir h.chain p (mem_of_listing hp)]
      exact ht.dots e _ h.dir h.chain p hp
    · rw [listing_congr hslot] at hp
      rw [hslot p (mem_of_listing hp)]
      exact ht.dots e m heV hmV p hp
  · intro e m he hm p hp
    rcases hback e m he hm with ⟨rfl, rfl⟩ | ⟨heV, hmV, hslot⟩
    · rw [h.listing_grow.2] at hp
      exact h.blank p hp
    · rw [dropWhile_congr hslot] at hp
      rw [hslot p ((List.dropWhile_sublist _).subset hp)]
      exact ht.ends e m heV hmV p hp

end Extend

/-! ## A new entry -/

structure Placed (g : Geometry) (V V' : Volume) (d : ℕ) (l : List ℕ) (A : List Pos) (p : Pos) (B : List Pos) :
    Prop where
  dir : IsDir g V d
  chain : Chain g V d l
  split : positions g l = A ++ p :: B
  used : ∀ q ∈ A, (V.at q).isEnd = false
  hidden : (V.at p).isVisible = false
  fat : ∀ x, V'.fat x = V.fat x
  outside : ∀ q, q ∉ positions g l → V'.at q = V.at q
  before : ∀ q ∈ A, V'.at q = V.at q
  after : ((V.at p).isEnd = true ∧ ∀ q ∈ B, (V'.at q).isEnd = true) ∨
    ((V.at p).isEnd = false ∧ ∀ q ∈ B, V'.at q = V.at q)
  kept : (V'.at p).isEnd = false

/-- The new entry is visible.  Its cluster, if it has one, is a chain of its own without an owner; a
new directory has no visible entry. -/
structure Publish (g : Geometry) (V V' : Volume) (d : ℕ) (l : List ℕ) (A : List Pos) (p : Pos) (B : List Pos) :
    Prop extends Placed g V V' d l A p B where
  visible : (V'.at p).isVisible = true
  target : (V'.at p).cluster ≠ 0 → g.Valid (V'.at p).cluster ∧
    fat32EocMin ≤ V.fat (V'.at p).cluster ∧ ¬Owned g V (V'.at p).cluster
  leaf : (V'.at p).isDirectory = true → ∀ q ∈ positions g [(V'.at p).cluster], (V.at q).isVisible = false

theorem positions_nodup (hl : l.Nodup) : (positions g l).Nodup := by
  rw [positions, List.nodup_flatMap]
  constructor
  · intro c _
    exact List.Nodup.map (fun i j h => (Prod.mk.inj h).2) List.nodup_range
  · refine hl.imp ?_
    intro a b hab q hq hq'
    simp only [List.mem_map] at hq hq'
    obtain ⟨i, -, rfl⟩ := hq
    obtain ⟨j, -, hj⟩ := hq'
    exact hab (Prod.mk.inj hj).1.symm

theorem FatDirEntry.not_end_of_visible {e : FatDirEntry} (h : e.isVisible = true) : e.isEnd = false := by
  simp only [FatDirEntry.isVisible, FatDirEntry.isValid, Bool.and_eq_true] at h
  cases he : e.isEnd with
  | false => rfl
  | true => simp [he] at h

namespace Placed

variable {A B : List Pos}

section

variable (h : Placed g V V' d l A p B)
include h

theorem chain_same : Chain g V' c l' ↔ Chain g V c l' :=
  ⟨fun hc => hc.congr fun x _ => (h.fat x).symm, fun hc => hc.congr fun x _ => h.fat x⟩

theorem listing_cases :
    (listing g V l = A ∧ listing g V' l = A ++ [p] ∧
      (positions g l).dropWhile (fun q => !(V'.at q).isEnd) = B ∧ ∀ q ∈ B, (V'.at q).isEnd = true) ∨
    ((V.at p).isEnd = false ∧ ∀ q ∈ positions g l, (V'.at q).isEnd = (V.at q).isEnd) := by
  rcases h.after with ⟨hend, hB⟩ | ⟨hend, hB⟩
  · have hsplit : positions g l = (A ++ [p]) ++ B := by simp [h.split]
    have hA' : ∀ q ∈ A ++ [p], (V'.at q).isEnd = false := by
      intro q hq
      rcases List.mem_append.mp hq with hq | hq
      · rw [h.before q hq]
        exact h.used q hq
      · rw [List.mem_singleton.mp hq]
        exact h.kept
    have hhead : ∀ q ∈ B.head?, (V'.at q).isEnd = true := fun q hq => hB q (List.mem_of_mem_head? hq)
    exact Or.inl ⟨listing_split h.split h.used (by simpa using hend), listing_split hsplit hA' hhead,
      dropWhile_split hsplit hA' hhead, hB⟩
  · right
    refine ⟨hend, fun q hq => ?_⟩
    rw [h.split] at hq
    rcases List.mem_append.mp hq with hq | hq
    · rw [h.before q hq]
    · rcases List.mem_cons.mp hq with rfl | hq
      · rw [h.kept, hend]
      · rw [hB q hq]

theorem mem_listing :
    q ∈ listing g V' l ↔ q ∈ listing g V l ∨ q = p := by
  rcases h.listing_cases with ⟨hold, hnew, -⟩ | ⟨hend, hsame⟩
  · rw [hnew, hold]
    simp
  · have hmem : p ∈ listing g V l := by
      rw [listing, h.split, List.takeWhile_append_of_pos (fun q hq => by simp [h.used q hq])]
      simp [hend]
    rw [(listing_congr_end hsame).1]
    constructor
    · exact Or.inl
    · rintro (hq | rfl)
      · exact hq
      · exact hmem

theorem at_listing (hq : q ∈ listing g V l) (hne : q ≠ p) : V'.at q = V.at q := by
  have hpos := mem_of_listing hq
  rw [h.split] at hpos
  rcases List.mem_append.mp hpos with hA | hB
  · exact h.before q hA
  · rcases List.mem_cons.mp hB with rfl | hB
    · exact absurd rfl hne
    · rcases h.after with ⟨hend, -⟩ | ⟨-, hsame⟩
      · have hold : listing g V l = A := listing_split h.split h.used (by simpa using hend)
        rw [hold] at hq
        exact h.before q hq
      · exact hsame q hB

theorem at_other (hs : Sound g V) (he : IsDir g V e) (hl : Chain g V e l')
    (hne : e ≠ d) : ∀ q ∈ positions g l', V'.at q = V.at q := by
  intro q hq
  obtain ⟨r, hr⟩ := he.refers
  obtain ⟨r₀, hr₀⟩ := h.dir.refers
  refine h.outside q fun hq' => hne ?_
  exact hs.start_eq hr hr₀ hl h.chain (mem_positions.mp hq).1 (mem_positions.mp hq').1

theorem not_inDir : ¬InDir g V e p := by
  intro hp
  obtain ⟨m, -, -, hv⟩ := hp
  rw [h.hidden] at hv
  simp at hv

theorem at_inDir (hs : Sound g V) (he : IsDir g V e) (hq : InDir g V e q) :
    V'.at q = V.at q := by
  have hne : q ≠ p := fun hqp => h.not_inDir (hqp ▸ hq)
  obtain ⟨m, hm, hmem, -⟩ := hq
  by_cases hed : e = d
  · obtain rfl := hed
    obtain rfl := h.chain.unique hm
    exact h.at_listing hmem hne
  · exact h.at_other hs he hm hed q (mem_of_listing hmem)

theorem inDir (hs : Sound g V) (he : IsDir g V e) (q : Pos) :
    InDir g V' e q ↔ InDir g V e q ∨ (e = d ∧ q = p ∧ (V'.at p).isVisible = true) := by
  obtain ⟨r, hr⟩ := he.refers
  obtain ⟨m, hm⟩ := hs.chain r e hr
  rw [inDir_of_chain hm, inDir_of_chain (h.chain_same.mpr hm)]
  by_cases hed : e = d
  · obtain rfl := hed
    obtain rfl := h.chain.unique hm
    rw [h.mem_listing]
    by_cases hqp : q = p
    · simp [hqp, h.hidden]
    · constructor
      · rintro ⟨hq | rfl, hv⟩
        · exact Or.inl ⟨hq, h.at_listing hq hqp ▸ hv⟩
        · exact absurd rfl hqp
      · rintro (⟨hq, hv⟩ | ⟨-, rfl, -⟩)
        · exact ⟨Or.inl hq, (h.at_listing hq hqp).symm ▸ hv⟩
        · exact absurd rfl hqp
  · have hslot := h.at_other hs he hm hed
    rw [listing_congr hslot]
    constructor
    · intro hq
      exact Or.inl ⟨hq.1, hslot q (mem_of_listing hq.1) ▸ hq.2⟩
    · rintro (hq | hq)
      · exact ⟨hq.1, (hslot q (mem_of_listing hq.1)).symm ▸ hq.2⟩
      · exact absurd hq.1 hed

theorem same (hs : Sound g V) (hv : (V'.at p).isVisible = false) : Same g V V' := by
  refine ⟨fun _ _ _ _ hm => h.chain_same.mpr hm, fun e he q => ⟨?_, fun hq => h.at_inDir hs he hq⟩⟩
  rw [h.inDir hs he]
  simp [hv]

theorem tidy_old (hs : Sound g V) (ht : Tidy g V) (hname : (V'.at p).name 0 ≠ 0x2E)
    (he : IsDir g V e) (hm : Chain g V e l') :
    (∀ q ∈ listing g V' l', (V'.at q).isValid = true → (V'.at q).name 0 = 0x2E → (V'.at q).isDot = true) ∧
      ∀ q ∈ (positions g l').dropWhile fun q => !(V'.at q).isEnd, (V'.at q).isEnd = true := by
  by_cases hed : e = d
  · obtain rfl := hed
    obtain rfl := h.chain.unique hm
    constructor
    · intro q hq hvalid hdot
      have hqp : q ≠ p := by
        rintro rfl
        exact hname hdot
      have hqV : q ∈ listing g V l := (h.mem_listing.mp hq).resolve_right hqp
      rw [h.at_listing hqV hqp] at hvalid hdot ⊢
      exact ht.dots e l he hm q hqV hvalid hdot
    · intro q hq
      rcases h.listing_cases with ⟨-, -, hdrop, hB⟩ | ⟨-, hsame⟩
      · rw [hdrop] at hq
        exact hB q hq
      · rw [(listing_congr_end hsame).2] at hq
        rw [hsame q ((List.dropWhile_sublist _).subset hq)]
        exact ht.ends e l he hm q hq
  · have hslot := h.at_other hs he hm hed
    constructor
    · intro q hq hvalid hdot
      rw [listing_congr hslot] at hq
      rw [hslot q (mem_of_listing hq)] at hvalid hdot ⊢
      exact ht.dots e l' he hm q hq hvalid hdot
    · intro q hq
      rw [dropWhile_congr hslot] at hq
      rw [hslot q ((List.dropWhile_sublist _).subset hq)]
      exact ht.ends e l' he hm q hq

theorem tidy (hs : Sound g V) (ht : Tidy g V) (hv : (V'.at p).isVisible = false)
    (hname : (V'.at p).name 0 ≠ 0x2E) : Tidy g V' := by
  have hsame := h.same hs hv
  constructor
  · intro e m he hm
    exact (h.tidy_old hs ht hname ((hsame.isDir e).mp he) (h.chain_same.mp hm)).1
  · intro e m he hm
    exact (h.tidy_old hs ht hname ((hsame.isDir e).mp he) (h.chain_same.mp hm)).2

end

end Placed

namespace Publish

variable {A B : List Pos}

section

variable (h : Publish g V V' d l A p B)
include h

theorem inDir (hs : Sound g V) (he : IsDir g V e) (q : Pos) :
    InDir g V' e q ↔ InDir g V e q ∨ (e = d ∧ q = p) := by
  rw [h.toPlaced.inDir hs he]
  simp [h.visible]

theorem target_chain (hc : (V'.at p).cluster ≠ 0) :
    Chain g V (V'.at p).cluster [(V'.at p).cluster] :=
  chain_single (h.target hc).1 (h.target hc).2.1

theorem child (hs : Sound g V) (he : IsDir g V e) :
    Child g V' e x ↔ Child g V e x ∨
      (e = d ∧ (V'.at p).isDirectory = true ∧ (V'.at p).cluster = x ∧ x ≠ 0) := by
  constructor
  · intro hx
    obtain ⟨q, hq, hrest⟩ := hx
    rcases (h.inDir hs he q).mp hq with hq | ⟨hed, rfl⟩
    · rw [h.at_inDir hs he hq] at hrest
      exact Or.inl ⟨q, hq, hrest⟩
    · exact Or.inr ⟨hed, hrest⟩
  · rintro (⟨q, hq, hrest⟩ | ⟨hed, hrest⟩)
    · rw [← h.at_inDir hs he hq] at hrest
      exact ⟨q, (h.inDir hs he q).mpr (Or.inl hq), hrest⟩
    · exact ⟨p, (h.inDir hs he p).mpr (Or.inr ⟨hed, rfl⟩), hrest⟩

theorem at_target (hc : (V'.at p).cluster ≠ 0)
    (hq : q ∈ positions g [(V'.at p).cluster]) : V'.at q = V.at q := by
  refine h.outside q fun hq' => (h.target hc).2.2 ?_
  obtain ⟨r, hr⟩ := h.dir.refers
  have hqc : q.1 = (V'.at p).cluster := by simpa using (mem_positions.mp hq).1
  exact ⟨r, l, ⟨d, hr, h.chain⟩, hqc ▸ (mem_positions.mp hq').1⟩

theorem not_inDir_target (hdir : (V'.at p).isDirectory = true)
    (hc : (V'.at p).cluster ≠ 0) : ¬InDir g V' (V'.at p).cluster q := by
  intro hq
  rw [inDir_of_chain (h.chain_same.mpr (h.target_chain hc))] at hq
  have hpos := mem_of_listing hq.1
  rw [h.at_target hc hpos, h.leaf hdir q hpos] at hq
  simp at hq

theorem isDir (hs : Sound g V) (e : ℕ) :
    IsDir g V' e ↔ IsDir g V e ∨ ((V'.at p).isDirectory = true ∧ (V'.at p).cluster = e ∧ e ≠ 0) := by
  by_cases hnew : (V'.at p).isDirectory = true ∧ (V'.at p).cluster ≠ 0
  · obtain ⟨hdir, hc⟩ := hnew
    have hleaf : ∀ x, ¬Child g V' (V'.at p).cluster x := by
      intro x hx
      obtain ⟨q, hq, -⟩ := hx
      exact h.not_inDir_target hdir hc hq
    have hadd := reach_add_leaf h.dir hleaf (fun b hb x => by
      rw [h.child hs hb]
      constructor
      · rintro (hx | ⟨hbd, -, hx, -⟩)
        · exact Or.inl hx
        · exact Or.inr ⟨hbd, hx.symm⟩
      · rintro (hx | ⟨hbd, rfl⟩)
        · exact Or.inl hx
        · exact Or.inr ⟨hbd, hdir, rfl, hc⟩) e
    refine hadd.trans (or_congr Iff.rfl ?_)
    constructor
    · rintro rfl
      exact ⟨hdir, rfl, hc⟩
    · intro he
      exact he.2.1.symm
  · have hchild : ∀ b, IsDir g V b → ∀ x, Child g V' b x ↔ Child g V b x := by
      intro b hb x
      rw [h.child hs hb]
      constructor
      · rintro (hx | ⟨-, hdir, rfl, hx⟩)
        · exact hx
        · exact absurd ⟨hdir, hx⟩ hnew
      · exact Or.inl
    refine (reach_congr hchild e).trans ⟨Or.inl, ?_⟩
    rintro (he | ⟨hdir, rfl, he⟩)
    · exact he
    · exact absurd ⟨hdir, he⟩ hnew

theorem visible_iff (hs : Sound g V) :
    Visible g V' q ↔ Visible g V q ∨ q = p := by
  constructor
  · intro hq
    obtain ⟨e, he, hq⟩ := hq
    rcases (h.isDir hs e).mp he with heV | ⟨hdir, rfl, hc⟩
    · rcases (h.inDir hs heV q).mp hq with hq | ⟨-, rfl⟩
      · exact Or.inl ⟨e, heV, hq⟩
      · exact Or.inr rfl
    · exact absurd hq (h.not_inDir_target hdir hc)
  · rintro (⟨e, he, hq⟩ | rfl)
    · exact ⟨e, (h.isDir hs e).mpr (Or.inl he), (h.inDir hs he q).mpr (Or.inl hq)⟩
    · exact ⟨d, (h.isDir hs d).mpr (Or.inl h.dir), (h.inDir hs h.dir q).mpr (Or.inr ⟨rfl, rfl⟩)⟩

theorem keeps (hs : Sound g V) : Keeps g S V V' := by
  intro q hq _
  refine ⟨(h.visible_iff hs).mpr (Or.inl hq), ?_⟩
  obtain ⟨e, he, hin⟩ := hq
  exact h.at_inDir hs he hin

theorem refers (hs : Sound g V) :
    Refers g V' r c ↔ Refers g V r c ∨ (r = some p ∧ (V'.at p).cluster = c ∧ c ≠ 0) := by
  cases r with
  | none => simp [Refers]
  | some q =>
    simp only [Refers, h.visible_iff hs, Option.some.injEq]
    constructor
    · rintro ⟨hq | rfl, hc⟩
      · obtain ⟨e, he, hin⟩ := hq
        rw [h.at_inDir hs he hin] at hc
        exact Or.inl ⟨⟨e, he, hin⟩, hc⟩
      · exact Or.inr ⟨rfl, hc⟩
    · rintro (⟨hq, hc⟩ | ⟨rfl, hc⟩)
      · obtain ⟨e, he, hin⟩ := hq
        rw [← h.at_inDir hs he hin] at hc
        exact ⟨Or.inl ⟨e, he, hin⟩, hc⟩
      · exact ⟨Or.inr rfl, hc⟩

theorem chains (hs : Sound g V) :
    Chains g V' r m ↔ Chains g V r m ∨
      (r = some p ∧ (V'.at p).cluster ≠ 0 ∧ m = [(V'.at p).cluster]) := by
  constructor
  · intro hc
    obtain ⟨c, hr, hm⟩ := hc
    have hmV := h.chain_same.mp hm
    rcases (h.refers hs).mp hr with hr | ⟨rfl, rfl, hne⟩
    · exact Or.inl ⟨c, hr, hmV⟩
    · exact Or.inr ⟨rfl, hne, hmV.unique (h.target_chain hne)⟩
  · rintro (⟨c, hr, hm⟩ | ⟨rfl, hne, rfl⟩)
    · exact ⟨c, (h.refers hs).mpr (Or.inl hr), h.chain_same.mpr hm⟩
    · exact ⟨_, (h.refers hs).mpr (Or.inr ⟨rfl, rfl, hne⟩), h.chain_same.mpr (h.target_chain hne)⟩

theorem owned (hs : Sound g V) :
    Owned g V' x ↔ Owned g V x ∨ ((V'.at p).cluster = x ∧ x ≠ 0) := by
  constructor
  · intro hx
    obtain ⟨r, m, hm, hx⟩ := hx
    rcases (h.chains hs).mp hm with hm | ⟨-, hne, rfl⟩
    · exact Or.inl ⟨r, m, hm, hx⟩
    · obtain rfl := List.mem_singleton.mp hx
      exact Or.inr ⟨rfl, hne⟩
  · rintro (⟨r, m, hm, hx⟩ | ⟨rfl, hne⟩)
    · exact ⟨r, m, (h.chains hs).mpr (Or.inl hm), hx⟩
    · exact ⟨some p, _, (h.chains hs).mpr (Or.inr ⟨rfl, hne, rfl⟩), by simp⟩

theorem sound (hs : Sound g V) : Sound g V' := by
  constructor
  · intro r c hr
    rcases (h.refers hs).mp hr with hr | ⟨rfl, rfl, hne⟩
    · obtain ⟨m, hm⟩ := hs.chain r c hr
      exact ⟨m, h.chain_same.mpr hm⟩
    · exact ⟨_, h.chain_same.mpr (h.target_chain hne)⟩
  · intro r r' m m' hm hm' x hx hx'
    rcases (h.chains hs).mp hm with hm | ⟨rfl, hne, rfl⟩
    · rcases (h.chains hs).mp hm' with hm' | ⟨rfl, hne, rfl⟩
      · exact hs.disjoint r r' m m' hm hm' x hx hx'
      · rw [List.mem_singleton.mp hx'] at hx
        exact absurd ⟨r, m, hm, hx⟩ (h.target hne).2.2
    · rcases (h.chains hs).mp hm' with hm' | ⟨rfl, -, -⟩
      · rw [List.mem_singleton.mp hx] at hx'
        exact absurd ⟨r', m', hm', hx'⟩ (h.target hne).2.2
      · rfl

end

structure LeafTidy (g : Geometry) (V : Volume) (c : ℕ) : Prop where
  dots : ∀ q ∈ positions g [c], (V.at q).name 0 = 0x2E → (V.at q).isDot = true
  ends : ∀ q ∈ (positions g [c]).dropWhile fun q => !(V.at q).isEnd, (V.at q).isEnd = true

theorem tidy (h : Publish g V V' d l A p B) (hs : Sound g V) (ht : Tidy g V)
    (hname : (V'.at p).name 0 ≠ 0x2E)
    (hnew : (V'.at p).isDirectory = true → (V'.at p).cluster ≠ 0 → LeafTidy g V (V'.at p).cluster) : Tidy g V' := by
  constructor
  · intro e m he hm q hq hvalid hdot
    have hmV := h.chain_same.mp hm
    rcases (h.isDir hs e).mp he with heV | ⟨hdir, rfl, hc⟩
    · exact (h.tidy_old hs ht hname heV hmV).1 q hq hvalid hdot
    · obtain rfl := hmV.unique (h.target_chain hc)
      have hqpos := mem_of_listing hq
      rw [h.at_target hc hqpos] at hdot ⊢
      exact (hnew hdir hc).dots q hqpos hdot
  · intro e m he hm q hq
    have hmV := h.chain_same.mp hm
    rcases (h.isDir hs e).mp he with heV | ⟨hdir, rfl, hc⟩
    · exact (h.tidy_old hs ht hname heV hmV).2 q hq
    · obtain rfl := hmV.unique (h.target_chain hc)
      have hslot : ∀ q ∈ positions g [(V'.at p).cluster], V'.at q = V.at q := fun q hq => h.at_target hc hq
      rw [dropWhile_congr hslot] at hq
      rw [hslot q ((List.dropWhile_sublist _).subset hq)]
      exact (hnew hdir hc).ends q hq

end Publish

/-! ## An entry goes -/

structure Retract (g : Geometry) (V V' : Volume) (d : ℕ) (p : Pos) : Prop where
  dir : IsDir g V d
  inside : InDir g V d p
  fat : ∀ x, V'.fat x = V.fat x
  other : ∀ q, q ≠ p → V'.at q = V.at q
  kept : (V'.at p).isEnd = false
  hidden : (V'.at p).isValid = false
  leaf : (V.at p).isDirectory = true → ∀ q, ¬InDir g V (V.at p).cluster q

namespace Retract

section

variable (h : Retract g V V' d p)
include h

theorem chain_same : Chain g V' c l' ↔ Chain g V c l' :=
  ⟨fun hc => hc.congr fun x _ => (h.fat x).symm, fun hc => hc.congr fun x _ => h.fat x⟩

theorem not_visible : (V'.at p).isVisible = false := by
  simp [FatDirEntry.isVisible, h.hidden]

theorem end_same (q : Pos) : (V'.at q).isEnd = (V.at q).isEnd := by
  by_cases hq : q = p
  · obtain ⟨l, -, hm, -⟩ := h.inside
    rw [hq, h.kept, listing_not_end hm]
  · rw [h.other q hq]

theorem inDir : InDir g V' e q ↔ InDir g V e q ∧ q ≠ p := by
  have hlist : ∀ m, listing g V' m = listing g V m :=
    fun m => (listing_congr_end fun q _ => h.end_same q).1
  constructor
  · intro hq
    obtain ⟨m, hm, hmem, hv⟩ := hq
    have hne : q ≠ p := by
      rintro rfl
      rw [h.not_visible] at hv
      simp at hv
    rw [h.other q hne] at hv
    exact ⟨⟨m, h.chain_same.mp hm, hlist m ▸ hmem, hv⟩, hne⟩
  · intro hq
    obtain ⟨⟨m, hm, hmem, hv⟩, hne⟩ := hq
    rw [← h.other q hne] at hv
    exact ⟨m, h.chain_same.mpr hm, (hlist m).symm ▸ hmem, hv⟩

theorem refers_self (hc : (V.at p).cluster ≠ 0) :
    Refers g V (some p) (V.at p).cluster :=
  ⟨⟨d, h.dir, h.inside⟩, rfl, hc⟩

theorem isDir (hs : Sound g V) (e : ℕ) :
    IsDir g V' e ↔ IsDir g V e ∧ ¬((V.at p).isDirectory = true ∧ (V.at p).cluster = e ∧ e ≠ 0) := by
  by_cases hold : (V.at p).isDirectory = true ∧ (V.at p).cluster ≠ 0
  · obtain ⟨hdir, hc⟩ := hold
    have hroot : g.rootCluster ≠ (V.at p).cluster := by
      intro he
      have hnone : Refers g V none (V.at p).cluster := he.symm
      have hbad := hs.refers_inj hnone (h.refers_self hc)
      simp at hbad
    have hleaf : ∀ x, ¬Child g V (V.at p).cluster x := by
      intro x hx
      obtain ⟨q, hq, -⟩ := hx
      exact h.leaf hdir q hq
    have hchild : ∀ b, IsDir g V b → b ≠ (V.at p).cluster → ∀ x,
        (Child g V' b x ↔ Child g V b x ∧ x ≠ (V.at p).cluster) := by
      intro b hb _ x
      constructor
      · intro hx
        obtain ⟨q, hq, hqd, hqc, hx0⟩ := hx
        obtain ⟨hqV, hne⟩ := h.inDir.mp hq
        rw [h.other q hne] at hqd hqc
        refine ⟨⟨q, hqV, hqd, hqc, hx0⟩, fun hxc => hne ?_⟩
        have hq' : Refers g V (some q) (V.at p).cluster := ⟨⟨b, hb, hqV⟩, hqc.trans hxc, hc⟩
        exact Option.some.inj (hs.refers_inj hq' (h.refers_self hc))
      · intro hx
        obtain ⟨⟨q, hq, hrest⟩, hne⟩ := hx
        have hqp : q ≠ p := by
          rintro rfl
          exact hne hrest.2.1.symm
        rw [← h.other q hqp] at hrest
        exact ⟨q, h.inDir.mpr ⟨hq, hqp⟩, hrest⟩
    refine (reach_remove_leaf hroot hleaf hchild e).trans (and_congr Iff.rfl ?_)
    constructor
    · intro hne hbad
      exact hne hbad.2.1.symm
    · rintro hbad rfl
      exact hbad ⟨hdir, rfl, hc⟩
  · have hchild : ∀ b, IsDir g V b → ∀ x, Child g V' b x ↔ Child g V b x := by
      intro b _ x
      constructor
      · intro hx
        obtain ⟨q, hq, hrest⟩ := hx
        obtain ⟨hqV, hne⟩ := h.inDir.mp hq
        rw [h.other q hne] at hrest
        exact ⟨q, hqV, hrest⟩
      · intro hx
        obtain ⟨q, hq, hrest⟩ := hx
        have hqp : q ≠ p := by
          rintro rfl
          exact hold ⟨hrest.1, hrest.2.1.symm ▸ hrest.2.2⟩
        rw [← h.other q hqp] at hrest
        exact ⟨q, h.inDir.mpr ⟨hq, hqp⟩, hrest⟩
    refine (reach_congr hchild e).trans ⟨fun he => ⟨he, ?_⟩, And.left⟩
    rintro ⟨hdir, rfl, hc⟩
    exact hold ⟨hdir, hc⟩

theorem visible_iff (hs : Sound g V) : Visible g V' q ↔ Visible g V q ∧ q ≠ p := by
  constructor
  · intro hq
    obtain ⟨e, he, hq⟩ := hq
    obtain ⟨hqV, hne⟩ := h.inDir.mp hq
    exact ⟨⟨e, ((h.isDir hs e).mp he).1, hqV⟩, hne⟩
  · rintro ⟨⟨e, he, hq⟩, hne⟩
    refine ⟨e, (h.isDir hs e).mpr ⟨he, ?_⟩, h.inDir.mpr ⟨hq, hne⟩⟩
    rintro ⟨hdir, rfl, -⟩
    exact h.leaf hdir q hq

theorem within (hs : Sound g V) : Within g V V' := by
  intro e q he hq
  obtain ⟨hqV, hne⟩ := h.inDir.mp hq
  exact ⟨((h.isDir hs e).mp he).1, hqV, h.other q hne⟩

theorem keeps (hs : Sound g V) (hp : S p) : Keeps g S V V' := by
  intro q hq hS
  have hne : q ≠ p := fun he => hS (he ▸ hp)
  exact ⟨(h.visible_iff hs).mpr ⟨hq, hne⟩, h.other q hne⟩

theorem refers (hs : Sound g V) :
    Refers g V' r c ↔ Refers g V r c ∧ r ≠ some p := by
  cases r with
  | none => simp [Refers]
  | some q =>
    simp only [Refers, h.visible_iff hs, ne_eq, Option.some.injEq]
    constructor
    · rintro ⟨⟨hq, hne⟩, hc⟩
      rw [h.other q hne] at hc
      exact ⟨⟨hq, hc⟩, hne⟩
    · rintro ⟨⟨hq, hc⟩, hne⟩
      rw [← h.other q hne] at hc
      exact ⟨⟨hq, hne⟩, hc⟩

theorem chains (hs : Sound g V) :
    Chains g V' r l ↔ Chains g V r l ∧ r ≠ some p := by
  constructor
  · rintro ⟨c, hr, hl⟩
    obtain ⟨hrV, hne⟩ := (h.refers hs).mp hr
    exact ⟨⟨c, hrV, h.chain_same.mp hl⟩, hne⟩
  · rintro ⟨⟨c, hr, hl⟩, hne⟩
    exact ⟨c, (h.refers hs).mpr ⟨hr, hne⟩, h.chain_same.mpr hl⟩

theorem sound (hs : Sound g V) : Sound g V' := by
  constructor
  · intro r c hr
    obtain ⟨l, hl⟩ := hs.chain r c ((h.refers hs).mp hr).1
    exact ⟨l, h.chain_same.mpr hl⟩
  · intro r r' l l' hl hl'
    exact hs.disjoint r r' l l' ((h.chains hs).mp hl).1 ((h.chains hs).mp hl').1

theorem owned (hs : Sound g V) :
    Owned g V' x ↔ Owned g V x ∧ ∀ m, Chains g V (some p) m → x ∉ m := by
  constructor
  · rintro ⟨r, m, hm, hx⟩
    obtain ⟨hmV, hne⟩ := (h.chains hs).mp hm
    exact ⟨⟨r, m, hmV, hx⟩, fun m' hm' hx' => hne (hs.disjoint r (some p) m m' hmV hm' x hx hx')⟩
  · rintro ⟨⟨r, m, hm, hx⟩, hout⟩
    refine ⟨r, m, (h.chains hs).mpr ⟨hm, ?_⟩, hx⟩
    rintro rfl
    exact hout m hm hx

theorem tidy (hs : Sound g V) (ht : Tidy g V) : Tidy g V' := by
  have hend : ∀ m, ∀ q ∈ positions g m, (V'.at q).isEnd = (V.at q).isEnd := fun m q _ => h.end_same q
  constructor
  · intro e m he hm q hq hvalid hdot
    have hqp : q ≠ p := by
      rintro rfl
      rw [h.hidden] at hvalid
      simp at hvalid
    rw [(listing_congr_end (hend m)).1] at hq
    rw [h.other q hqp] at hvalid hdot ⊢
    exact ht.dots e m ((h.isDir hs e).mp he).1 (h.chain_same.mp hm) q hq hvalid hdot
  · intro e m he hm q hq
    rw [(listing_congr_end (hend m)).2] at hq
    rw [h.end_same q]
    exact ht.ends e m ((h.isDir hs e).mp he).1 (h.chain_same.mp hm) q hq

end

end Retract

end Zonix.Fat
