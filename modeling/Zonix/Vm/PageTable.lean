import Mathlib
import Zonix.Base.Error
import Zonix.Lib.Radix
import Zonix.Vm.PteSplit
import Zonix.Vm.PteMake

/-!
# Page tables in physical memory

The walker of `kernel/mm/pmm.cpp` over physical memory as frames of 512 words. The page allocator is taken as the
multiset of its free frames (`Zonix.Mm.Conservation` is about the free list that implements it); which free run it
hands out, and whether it refuses, is a choice of the environment.
-/

namespace Zonix.Vm

open Zonix.Lib.Radix

/-- The choices outside the kernel: the answer to the `t`-th request for `n` pages, and for the `t`-th transfer of a
page to or from the swap device whether it fails, and then with what data left behind. -/
structure Env where
  alloc : ℕ → Multiset ℕ → ℕ → Option ℕ
  readError : ℕ → Option (Fin 512 → Word) := fun _ => none
  writeError : ℕ → Option (Fin 512 → Word) := fun _ => none

/-- Physical memory, the page descriptors and the page allocator. -/
structure Pmm where
  mem : Heap 512 Word
  free : Multiset ℕ
  refCount : ℕ → ℤ
  pageTable : ℕ → Bool
  reserved : ℕ → Bool
  blockPages : ℕ → ℕ
  pageCount : ℕ
  clock : ℕ
  panicked : Bool

/-- The frames `b, ..., b + n - 1`. -/
def frames (b n : ℕ) : Multiset ℕ := (List.range' b n : List ℕ)

def allocPages (E : Env) (n : ℕ) (m : Pmm) : Option ℕ × Pmm :=
  match E.alloc m.clock m.free n with
  | none => (none, { m with clock := m.clock + 1 })
  | some b =>
    if frames b n ≤ m.free then
      (some b, { m with clock := m.clock + 1, free := m.free - frames b n,
                        reserved := fun f => if f = b then false else m.reserved f })
    else (none, { m with clock := m.clock + 1 })

/-- `PageAllocator::free` asserts that no page of the run is referenced. -/
def freePages (b n : ℕ) (m : Pmm) : Pmm :=
  { m with free := frames b n + m.free,
           refCount := fun f => if b ≤ f ∧ f < b + n then 0 else m.refCount f,
           pageTable := fun f => if b ≤ f ∧ f < b + n then false else m.pageTable f,
           reserved := fun f => if b ≤ f ∧ f < b + n then decide (f = b) else m.reserved f,
           panicked := m.panicked || !(List.range' b n).all fun f => m.refCount f == 0 }

def allocTablePage (E : Env) (create : Bool) (m : Pmm) : Option ℕ × Pmm :=
  if create then
    match allocPages E 1 m with
    | (none, m) => (none, m)
    | (some t, m) =>
      (some t, { m with refCount := fun f => if f = t then 1 else m.refCount f,
                        pageTable := fun f => if f = t then true else m.pageTable f,
                        mem := fill m.mem t fun _ => 0 })
  else (none, m)

def freeTablePage (t : ℕ) (m : Pmm) : Pmm :=
  freePages t 1 { m with refCount := fun f => if f = t then m.refCount t - 1 else m.refCount f,
                         panicked := m.panicked || m.refCount t != 1 }

def descendLevel (a : Arch) (E : Env) (create : Bool) (entry : ℕ × Fin 512) (level : ℕ) (m : Pmm) :
    Option ℕ × Pmm :=
  let e := m.mem entry.1 entry.2
  if a.ptePresent e then
    if a.pteIsBlock e then
      match allocTablePage E create m with
      | (none, m) => (none, m)
      | (some t, m) =>
        (some t, { m with mem := write (fill m.mem t fun i =>
          a.splitPageEntry e (a.pieceBase e level i) (levelShift level)) entry (a.makePteTable (pageToPhys t)) })
    else (some (physToPage (a.pteAddr e)), m)
  else
    match allocTablePage E create m with
    | (none, m) => (none, m)
    | (some t, m) => (some t, { m with mem := write m.mem entry (a.makePteTable (pageToPhys t)) })

/-- The loop of `get_pte` from a table at level `l` on. -/
def getPteFrom (a : Arch) (E : Env) (create : Bool) (va : ℕ) : ℕ → ℕ → Pmm → Option (ℕ × Fin 512) × Pmm
  | 0, table, m => (some (table, levelIndex va 0), m)
  | l + 1, table, m =>
    match descendLevel a E create (table, levelIndex va (l + 1)) l m with
    | (none, m) => (none, m)
    | (some t, m) => getPteFrom a E create va l t m

def getPte (a : Arch) (E : Env) (pgdir va : ℕ) (create : Bool) (m : Pmm) : Option (ℕ × Fin 512) × Pmm :=
  getPteFrom a E create va (a.ptWalkLevels - 1) pgdir m

def pageInsert (a : Arch) (E : Env) (pgdir page va : ℕ) (perm : VmFlags) (m : Pmm) : Error × Pmm :=
  match getPte a E pgdir va true m with
  | (none, m) => (.noMem, m)
  | (some s, m) =>
    if a.ptePresent (m.mem s.1 s.2) then (.exists, m)
    else (.none, { m with refCount := fun f => if f = page then m.refCount page + 1 else m.refCount f,
                          mem := write m.mem s (a.makePtePage (pageToPhys page) perm) })

def allocAndMapPage (a : Arch) (E : Env) (pgdir va : ℕ) (perm : VmFlags) (m : Pmm) : Option ℕ × Pmm :=
  match allocPages E 1 m with
  | (none, m) => (none, m)
  | (some page, m) =>
    match pageInsert a E pgdir page va perm m with
    | (.none, m) => (some page, m)
    | (_, m) => (none, freePages page 1 m)

/-- `kmalloc`, giving the first frame of the allocation. -/
def kmalloc (E : Env) (byteCount : ℕ) (m : Pmm) : Option ℕ × Pmm :=
  if byteCount = 0 then (none, m)
  else
    let pageCount := (byteCount + pgSize - 1) / pgSize
    match allocPages E pageCount m with
    | (none, m) => (none, m)
    | (some b, m) => (some b, { m with blockPages := fun f => if f = b then pageCount else m.blockPages f })

def kfree (b : ℕ) (m : Pmm) : Pmm := freePages b (if 0 < m.blockPages b then m.blockPages b else 1) m

/-! ## What the hardware makes of the tables -/

/-- The table that an entry above the leaves points to. -/
def Arch.tableOf (a : Arch) (w : Word) : Option ℕ :=
  if a.ptePresent w && !a.pteIsBlock w then some (physToPage (a.pteAddr w)) else none

structure Mapping where
  pa : ℕ
  attrs : Attrs
deriving DecidableEq, Repr

def leafMapping (a : Arch) (w : Word) (l va : ℕ) : Mapping :=
  ⟨(a.leafBase w l).toNat + va % 2 ^ levelShift l, a.attrs w l⟩

/-- The walk from a table at level `l`; every table entry on the way may restrict the access by its `lim`. -/
def translateWith (a : Arch) (lim : Word → Limits) (h : Heap 512 Word) (va : ℕ) : ℕ → ℕ → Option Mapping
  | 0, f =>
    let w := h f (levelIndex va 0)
    if a.ptePresent w then some (leafMapping a w 0 va) else none
  | l + 1, f =>
    let w := h f (levelIndex va (l + 1))
    match a.tableOf w with
    | some g => (translateWith a lim h va l g).map fun x => { x with attrs := x.attrs.limit (lim w) }
    | none => if a.ptePresent w then some (leafMapping a w (l + 1) va) else none

/-- The hardware walk of a page table. -/
def translate (a : Arch) (h : Heap 512 Word) (pgdir va : ℕ) : Option Mapping :=
  translateWith a a.limits h va (a.ptWalkLevels - 1) pgdir

/-- The leaf entry that maps an address, by itself: without the restrictions of the tables above it. -/
def translateLeaf (a : Arch) (h : Heap 512 Word) (pgdir va : ℕ) : Option Mapping :=
  translateWith a (fun _ => ⟨false, false, false, false⟩) h va (a.ptWalkLevels - 1) pgdir

theorem translateWith_congr {a : Arch} {lim : Word → Limits} {h h' : Heap 512 Word} {va l f : ℕ}
    (hh : ∀ g ∈ nodes a.tableOf h l f, h' g = h g) : translateWith a lim h' va l f = translateWith a lim h va l f := by
  induction l generalizing f with
  | zero => simp only [translateWith, hh f self_mem_nodes]
  | succ l ih =>
    simp only [translateWith, hh f self_mem_nodes]
    cases hg : a.tableOf (h f (levelIndex va (l + 1))) with
    | none => rfl
    | some g =>
      simp only
      rw [ih fun k hk => hh k (mem_nodes_child hg hk)]

end Zonix.Vm
