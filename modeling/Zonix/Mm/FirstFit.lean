import Mathlib.Data.BitVec
import Zonix.Base.Word
import Zonix.Lib.Ring

/-! # The first-fit page allocator

`PageAllocator` of `kernel/mm/pmm_firstfit.cpp` over the page descriptors of
`kernel/mm/pmm.h`.  A free run is known by its first descriptor, whose intrusive list
node is on the circular free list and whose `block_page_count` is its length. -/

namespace Zonix.Mm

open Linked

inductive PageFlag where
  | reserved | property | pageTable
  deriving Repr, DecidableEq

def PageFlag.mask : PageFlag → BitVec 32
  | .reserved => 1 <<< 0
  | .property => 1 <<< 1
  | .pageTable => 1 <<< 2

structure Page where
  refCount : ℤ
  flags : BitVec 32
  blockPageCount : ℕ
  deriving Repr, DecidableEq

/-- `Page()`: every member zero (the list node is reset in the heap of links). -/
def Page.zero : Page := ⟨0, 0, 0⟩

def Page.setReserved (p : Page) : Page := { p with flags := p.flags ||| PageFlag.reserved.mask }
def Page.clearReserved (p : Page) : Page := { p with flags := p.flags &&& ~~~PageFlag.reserved.mask }
def Page.setPageTable (p : Page) : Page := { p with flags := p.flags ||| PageFlag.pageTable.mask }
def Page.isPageTable (p : Page) : Bool := p.flags &&& PageFlag.pageTable.mask != 0
def Page.isReserved (p : Page) : Bool := p.flags &&& PageFlag.reserved.mask != 0

inductive Node where
  | freeList
  | page (index : ℕ)
  deriving Repr, DecidableEq

/-- The free area together with the descriptors its list runs through. -/
structure FreeArea where
  links : Links Node
  pages : ℕ → Page
  freePageCount : ℕ

def FreeArea.modifyPage (a : FreeArea) (i : ℕ) (f : Page → Page) : FreeArea :=
  { a with pages := fun j => if j = i then f (a.pages i) else a.pages j }

/-- `new (p) Page()`. -/
def FreeArea.construct (a : FreeArea) (i : ℕ) : FreeArea :=
  { a.modifyPage i (fun _ => Page.zero) with links := a.links.reset (.page i) }

def constructPages (a : FreeArea) (base : ℕ) : ℕ → FreeArea
  | 0 => a
  | n + 1 => constructPages (a.construct base) (base + 1) n

def initMemmap (a : FreeArea) (base pageCount : ℕ) : FreeArea :=
  let a := constructPages a base pageCount
  let a := a.modifyPage base fun p => { p with blockPageCount := u32 pageCount }
  let a := a.modifyPage base Page.setReserved
  { a with
    freePageCount := u32 (a.freePageCount + pageCount)
    links := a.links.addBefore .freeList (.page base) }

/-- The search loop of `alloc`, from the node it stands on; `none` when the fuel runs out. -/
def findFit (a : FreeArea) (pageCount : ℕ) : ℕ → Node → Option (Option ℕ)
  | 0, _ => none
  | fuel + 1, validNode =>
    match a.links.next validNode with
    | .freeList => some none
    | .page p =>
      if pageCount ≤ (a.pages p).blockPageCount then some (some p)
      else findFit a pageCount fuel (.page p)

/-- The part of `alloc` after a run was found: split off what is too much and unlink the run. -/
def takeRun (a : FreeArea) (page pageCount : ℕ) : FreeArea :=
  let a :=
    if pageCount < (a.pages page).blockPageCount then
      let remaining := page + pageCount
      let rest := u32 ((a.pages page).blockPageCount - pageCount)
      let a := a.modifyPage remaining fun p => { p with blockPageCount := rest }
      let a := a.modifyPage remaining Page.setReserved
      { a with links := a.links.addAfter (.page page) (.page remaining) }
    else a
  let a := { a with links := a.links.unlink (.page page) }
  -- the guard of `alloc` excludes a borrow here
  let a := { a with freePageCount := a.freePageCount - pageCount }
  a.modifyPage page Page.clearReserved

/-- `PageAllocator::alloc`.  The inner `Option` is the returned pointer.  A list of nonempty
runs has at most `free_page_count` members, which bounds the walk. -/
def alloc (a : FreeArea) (pageCount : ℕ) : Option (Option ℕ × FreeArea) :=
  if a.freePageCount < pageCount then some (none, a)
  else
    match findFit a pageCount (a.freePageCount + 1) .freeList with
    | none => none
    | some none => some (none, a)
    | some (some page) => some (some page, takeRun a page pageCount)

def resetPages (a : FreeArea) (base : ℕ) : ℕ → Option FreeArea
  | 0 => some a
  | n + 1 =>
    if (a.pages base).refCount = 0 then
      resetPages (a.modifyPage base fun p => { p with refCount := 0, flags := 0 }) (base + 1) n
    else none

/-- The merge loop of `free`: the state, the first page of the grown run and the last node
that stayed on the list. -/
def mergeLoop : ℕ → FreeArea → ℕ → Node → Node → Option (FreeArea × ℕ × Node)
  | 0, _, _, _, _ => none
  | _ + 1, a, base, .freeList, prev => some (a, base, prev)
  | fuel + 1, a, base, .page p, prev =>
    let next := a.links.next (.page p)
    let baseCount := (a.pages base).blockPageCount
    let count := (a.pages p).blockPageCount
    if base + baseCount = p then
      let a := a.modifyPage base fun q => { q with blockPageCount := u32 (baseCount + count) }
      let a := a.modifyPage p Page.clearReserved
      mergeLoop fuel { a with links := a.links.unlink (.page p) } base next prev
    else if p + count = base then
      let a := a.modifyPage p fun q => { q with blockPageCount := u32 (count + baseCount) }
      let a := a.modifyPage base Page.clearReserved
      mergeLoop fuel { a with links := a.links.unlink (.page p) } p next prev
    else mergeLoop fuel a base next (.page p)

/-- `PageAllocator::free`. -/
def free (a : FreeArea) (base pageCount : ℕ) : Option FreeArea := do
  let a ← resetPages a base pageCount
  let a := a.modifyPage base fun p => { p with blockPageCount := u32 pageCount }
  let a := a.modifyPage base Page.setReserved
  let (a, base, prev) ← mergeLoop (a.freePageCount + 1) a base (a.links.next .freeList) .freeList
  some { a with
    freePageCount := u32 (a.freePageCount + pageCount)
    links := a.links.addAfter prev (.page base) }

@[simp] theorem modifyPage_links (a : FreeArea) (i : ℕ) (f : Page → Page) :
    (a.modifyPage i f).links = a.links := rfl
@[simp] theorem modifyPage_freePageCount (a : FreeArea) (i : ℕ) (f : Page → Page) :
    (a.modifyPage i f).freePageCount = a.freePageCount := rfl
@[simp] theorem modifyPage_pages (a : FreeArea) (i j : ℕ) (f : Page → Page) :
    (a.modifyPage i f).pages j = if j = i then f (a.pages i) else a.pages j := rfl
@[simp] theorem setReserved_blockPageCount (p : Page) :
    p.setReserved.blockPageCount = p.blockPageCount := rfl
@[simp] theorem clearReserved_blockPageCount (p : Page) :
    p.clearReserved.blockPageCount = p.blockPageCount := rfl

end Zonix.Mm
