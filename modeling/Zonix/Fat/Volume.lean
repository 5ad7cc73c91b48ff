import Mathlib.Data.List.TakeWhile
import Zonix.Lib.Path
import Zonix.Fat.Device

/-! # Volumes

A FAT volume as a tree of files and directories over cluster chains: the value of every FAT entry
and the directory slots of every cluster.  A volume is well formed when the chains that start at
the root directory and at the visible entries partition the clusters in use. -/

namespace Zonix.Fat

open Pointer Relation

structure Volume where
  fat : ℕ → ℕ
  slot : ℕ → ℕ → FatDirEntry

abbrev Pos := ℕ × ℕ

def Volume.at (V : Volume) (p : Pos) : FatDirEntry := V.slot p.1 p.2

def dotName (k : ℕ) : List Byte := List.replicate k 0x2E ++ List.replicate (11 - k) 0x20

def FatDirEntry.rawName (e : FatDirEntry) : List Byte := (List.range 11).map e.byte
def FatDirEntry.isDot (e : FatDirEntry) : Bool := e.rawName = dotName 1 || e.rawName = dotName 2
def FatDirEntry.isVisible (e : FatDirEntry) : Bool := e.isValid && !e.isDot

variable (g : Geometry)

def Geometry.slots : ℕ := entriesPerSector * g.sectorsPerCluster
def Geometry.Valid (c : ℕ) : Prop := 2 ≤ c ∧ c < g.clusterCount + 2

instance (c : ℕ) : Decidable (g.Valid c) := inferInstanceAs (Decidable (_ ∧ _))

/-- The clusters `l`, from `c` on, to an end mark. -/
structure Chain (V : Volume) (c : ℕ) (l : List ℕ) : Prop where
  nonempty : l ≠ []
  valid : ∀ x ∈ l, g.Valid x
  path : ∃ e, fat32EocMin ≤ e ∧ Path V.fat c l e

def positions (l : List ℕ) : List Pos := l.flatMap fun c => (List.range g.slots).map fun k => (c, k)

def listing (V : Volume) (l : List ℕ) : List Pos := (positions g l).takeWhile fun p => !(V.at p).isEnd

def InDir (V : Volume) (d : ℕ) (p : Pos) : Prop :=
  ∃ l, Chain g V d l ∧ p ∈ listing g V l ∧ (V.at p).isVisible = true

def Child (V : Volume) (d e : ℕ) : Prop :=
  ∃ p, InDir g V d p ∧ (V.at p).isDirectory = true ∧ (V.at p).cluster = e ∧ e ≠ 0

def IsDir (V : Volume) (d : ℕ) : Prop := ReflTransGen (Child g V) g.rootCluster d

def Visible (V : Volume) (p : Pos) : Prop := ∃ d, IsDir g V d ∧ InDir g V d p

def Refers (V : Volume) : Option Pos → ℕ → Prop
  | none, c => c = g.rootCluster
  | some p, c => Visible g V p ∧ (V.at p).cluster = c ∧ c ≠ 0

def Chains (V : Volume) (r : Option Pos) (l : List ℕ) : Prop := ∃ c, Refers g V r c ∧ Chain g V c l

def Owned (V : Volume) (x : ℕ) : Prop := ∃ r l, Chains g V r l ∧ x ∈ l

structure Sound (V : Volume) : Prop where
  chain : ∀ r c, Refers g V r c → ∃ l, Chain g V c l
  disjoint : ∀ r r' l l', Chains g V r l → Chains g V r' l' → ∀ x, x ∈ l → x ∈ l' → r = r'

structure Tidy (V : Volume) : Prop where
  dots : ∀ d l, IsDir g V d → Chain g V d l → ∀ p ∈ listing g V l,
    (V.at p).isValid = true → (V.at p).name 0 = 0x2E → (V.at p).isDot = true
  ends : ∀ d l, IsDir g V d → Chain g V d l →
    ∀ p ∈ (positions g l).dropWhile fun p => !(V.at p).isEnd, (V.at p).isEnd = true

structure Regular (V : Volume) : Prop where
  sound : Sound g V
  tidy : Tidy g V

def Covered (V : Volume) : Prop :=
  ∀ c, g.Valid c → V.fat c ≠ fat32Free → V.fat c ≠ fat32BadCluster → Owned g V c

structure WellFormed (V : Volume) : Prop extends Regular g V where
  cover : Covered g V

variable {g} {V V' : Volume} {c d e x : ℕ} {l l' : List ℕ} {p q : Pos} {r r' : Option Pos}

/-! ## Chains -/

theorem clusterCount_le (g : Geometry) : g.clusterCount + 2 ≤ fat32ReservedMin := g.clusters_le

theorem Geometry.Valid.lt_eoc (h : g.Valid x) : x < fat32EocMin := by
  have hc := clusterCount_le g
  unfold Geometry.Valid at h
  unfold fat32ReservedMin at hc
  unfold fat32EocMin
  omega

theorem root_valid (g : Geometry) : g.Valid g.rootCluster := ⟨g.root_ge, g.root_lt⟩

section

variable (h : Chain g V c l)
include h

theorem Chain.unique (h' : Chain g V c l') : l = l' := by
  obtain ⟨e, he, hp⟩ := h.path
  obtain ⟨e', he', hp'⟩ := h'.path
  have hend : ∀ e, fat32EocMin ≤ e → ¬g.Valid e := by
    intro e he hv
    have hlt := hv.lt_eoc
    omega
  exact (hp.unique hp' h.valid h'.valid (hend e he) (hend e' he')).1

theorem Chain.nodup : l.Nodup := by
  obtain ⟨e, he, hp⟩ := h.path
  refine hp.nodup h.valid fun hv => ?_
  have hlt := hv.lt_eoc
  omega

theorem Chain.mem_start : c ∈ l := by
  obtain ⟨e, -, hp⟩ := h.path
  cases l with
  | nil => exact absurd rfl h.nonempty
  | cons y l => rw [hp.1]; exact List.mem_cons_self ..

theorem Chain.start_valid : g.Valid c := h.valid c h.mem_start

theorem Chain.fat_mem (hx : x ∈ l) : V.fat x ∈ l ∨ fat32EocMin ≤ V.fat x := by
  obtain ⟨e, he, hp⟩ := h.path
  obtain ⟨l₁, l₂, rfl⟩ := List.append_of_mem hx
  obtain ⟨-, hnext⟩ := hp.suffix
  cases l₂ with
  | nil =>
    right
    rw [show V.fat x = e from hnext]
    exact he
  | cons y l₂ =>
    left
    rw [hnext.1]
    simp

theorem Chain.fat_ne (hx : x ∈ l) : V.fat x ≠ fat32Free ∧ V.fat x ≠ fat32BadCluster := by
  have hc := clusterCount_le g
  unfold fat32ReservedMin at hc
  unfold fat32Free fat32BadCluster
  rcases h.fat_mem hx with hm | hm
  · have hv := h.valid _ hm
    unfold Geometry.Valid at hv
    omega
  · unfold fat32EocMin at hm
    omega

theorem Chain.congr (hf : ∀ x ∈ l, V'.fat x = V.fat x) : Chain g V' c l := by
  obtain ⟨e, he, hp⟩ := h.path
  exact ⟨h.nonempty, h.valid, e, he, hp.congr hf⟩

end

theorem chain_single (hv : g.Valid c) (he : fat32EocMin ≤ V.fat c) : Chain g V c [c] := by
  refine ⟨by simp, ?_, V.fat c, he, rfl, rfl⟩
  intro x hx
  rwa [List.mem_singleton.mp hx]

/-! ## References -/

theorem Refers.functional (h : Refers g V r c) (h' : Refers g V r d) : c = d := by
  cases r with
  | none => exact h.trans h'.symm
  | some p => exact h.2.1.symm.trans h'.2.1

theorem Chains.functional (h : Chains g V r l) (h' : Chains g V r l') : l = l' := by
  obtain ⟨c, hc, hl⟩ := h
  obtain ⟨d, hd, hl'⟩ := h'
  rw [hc.functional hd] at hl
  exact hl.unique hl'

theorem IsDir.refers (h : IsDir g V d) : ∃ r, Refers g V r d := by
  rcases ReflTransGen.cases_tail h with rfl | ⟨b, hb, p, hin, -, hc, hne⟩
  · exact ⟨none, rfl⟩
  · exact ⟨some p, ⟨b, hb, hin⟩, hc, hne⟩

theorem IsDir.root : IsDir g V g.rootCluster := ReflTransGen.refl

theorem Sound.refers_inj (hs : Sound g V) (h : Refers g V r c) (h' : Refers g V r' c) : r = r' := by
  obtain ⟨l, hl⟩ := hs.chain r c h
  exact hs.disjoint r r' l l ⟨c, h, hl⟩ ⟨c, h', hl⟩ c hl.mem_start hl.mem_start

theorem Sound.refers_dir (hs : Sound g V) (hd : IsDir g V d) (hp : Refers g V (some p) d) :
    (V.at p).isDirectory = true := by
  rcases ReflTransGen.cases_tail hd with rfl | ⟨b, hb, q, hin, hdir, hc, hne⟩
  · have hroot : Refers g V none g.rootCluster := rfl
    have hbad := hs.refers_inj hp hroot
    simp at hbad
  · have hq : Refers g V (some q) d := ⟨⟨b, hb, hin⟩, hc, hne⟩
    rw [Option.some.inj (hs.refers_inj hp hq)]
    exact hdir

theorem Sound.dir_chain (hs : Sound g V) (hd : IsDir g V d) : ∃ l, Chain g V d l := by
  obtain ⟨r, hr⟩ := hd.refers
  exact hs.chain r d hr

theorem Sound.start_eq (hs : Sound g V) (h : Refers g V r c) (h' : Refers g V r' d) (hl : Chain g V c l)
    (hl' : Chain g V d l') (hx : x ∈ l) (hx' : x ∈ l') : c = d := by
  have he := hs.disjoint r r' l l' ⟨c, h, hl⟩ ⟨d, h', hl'⟩ x hx hx'
  rw [he] at h
  exact h.functional h'

theorem mem_positions : p ∈ positions g l ↔ p.1 ∈ l ∧ p.2 < g.slots := by
  constructor
  · intro h
    simp only [positions, List.mem_flatMap, List.mem_map, List.mem_range] at h
    obtain ⟨c, hc, k, hk, rfl⟩ := h
    exact ⟨hc, hk⟩
  · intro h
    simp only [positions, List.mem_flatMap, List.mem_map, List.mem_range]
    exact ⟨p.1, h.1, p.2, h.2, rfl⟩

theorem mem_of_listing (h : p ∈ listing g V l) : p ∈ positions g l :=
  (List.takeWhile_sublist _).subset h

theorem listing_not_end (h : p ∈ listing g V l) : (V.at p).isEnd = false := by
  have he := List.mem_takeWhile_imp h
  simpa using he

theorem positions_append (l l' : List ℕ) : positions g (l ++ l') = positions g l ++ positions g l' := by
  simp [positions]

theorem slots_pos (g : Geometry) : 0 < g.slots := by
  have hs := g.sectorsPerCluster_pos
  unfold Geometry.slots entriesPerSector
  omega

end Zonix.Fat
