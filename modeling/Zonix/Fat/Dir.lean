import Zonix.Fat.Core

/-! # Directories and files

`kernel/fs/fat/fat_dir.cpp`.  A path is the list of its bytes without the final NUL. -/

namespace Zonix.Fat

open Prog

/-! ## Names and paths -/

def slash : Byte := 0x2F
def dot : Byte := 0x2E
def space : Byte := 0x20

def toUpper (ch : Byte) : Byte := if 0x61 ≤ ch ∧ ch ≤ 0x7A then ch - 32 else ch

def maxPartLen : ℕ := 13
def maxDepth : ℕ := 16

def nextPart (path : List Byte) : Option (List Byte × List Byte) :=
  let part := path.takeWhile (· != slash)
  if part.length + 1 ≤ maxPartLen then
    some (part.map toUpper, (path.dropWhile (· != slash)).dropWhile (· == slash))
  else none

/-- The component loop of `find_file` and `resolve_parent`.  Every round consumes a byte, so the
length of the path is fuel enough. -/
def splitParts : ℕ → List Byte → List (List Byte) → Except Error (List (List Byte))
  | _, [], parts => .ok parts
  | 0, _ :: _, _ => .error .fail
  | fuel + 1, ch :: path, parts =>
    match nextPart (ch :: path) with
    | none => .error .invalid
    | some (part, rest) =>
      if part = [dot] then splitParts fuel rest parts
      else if part = [dot, dot] then splitParts fuel rest parts.dropLast
      else if parts.length < maxDepth then splitParts fuel rest (parts ++ [part])
      else .error .invalid

def parsePath (relpath : List Byte) : Except Error (List (List Byte)) :=
  let path := relpath.dropWhile (· == slash)
  if path = [] then .error .invalid
  else
    match splitParts path.length path [] with
    | .error e => .error e
    | .ok parts => if parts = [] then .error .invalid else .ok parts

def pathParts (relpath : List Byte) : FatM (List (List Byte)) :=
  match parsePath relpath with
  | .ok parts => pure parts
  | .error e => fail e

/-- A name of the directory as `find_entry` compares it: a C string in upper case. -/
def FatDirEntry.entryName (e : FatDirEntry) : List Byte := (e.getFilename.takeWhile (· != 0)).map toUpper

/-- `make_83_name`: the characters of the name and of the extension, before padding. -/
def make83Name (name : List Byte) : List Byte × List Byte :=
  let base := (name.takeWhile (· != dot)).take 8
  let rest := name.drop base.length
  let rest := if rest.head? = some dot then rest.tail else rest
  (base.map toUpper, (rest.take 3).map toUpper)

/-- A zeroed entry with a padded name, an attribute and a first cluster. -/
def makeEntry (name : List Byte × List Byte) (attr : Byte) (cluster : ℕ) : FatDirEntry :=
  Block.ofBytes fun i =>
    if i < 8 then name.1.getD i space
    else if i < 11 then name.2.getD (i - 8) space
    else if i = 11 then attr
    else if i = 20 ∨ i = 21 then byteOf (cluster >>> 16) (i - 20)
    else if i = 26 ∨ i = 27 then byteOf (cluster &&& 0xFFFF) (i - 26)
    else 0

def FatDirEntry.markDeleted (e : FatDirEntry) : FatDirEntry :=
  Block.ofBytes fun i => if i = 0 then 0xE5 else e.byte i

variable (dev : Device) (g : Geometry)

/-! ## Lookup -/

/-- `for (i = 0; i < sectors_per_cluster_; i++)` over the sectors of a cluster, until `search`
finds something. -/
def scanSectors {β : Type} (cluster : ℕ) (search : ℕ → Sector → FatM (Option β)) : ℕ → ℕ → FatM (Option β)
  | 0, _ => pure none
  | n + 1, i => do
    let sector ← dev.readSector (g.clusterLba cluster i)
    match ← search (g.clusterLba cluster i) sector with
    | some result => pure (some result)
    | none => scanSectors cluster search n (i + 1)

def scanDir {β : Type} (start : ℕ) (search : ℕ → Sector → FatM (Option β)) : FatM (Flow Unit β) :=
  walkChain dev g start (fun _ => true) (fun _ cluster => do
    match ← scanSectors dev g cluster search g.sectorsPerCluster 0 with
    | some result => pure (.stop result)
    | none => pure (.next ())) ()

def searchSlot (name : List Byte) (e : FatDirEntry) : Option Bool :=
  if e.isEnd then some false
  else if !e.isValid then none
  else if e.entryName = name then some true
  else none

def searchSector (name : List Byte) (sector : Sector) : Option (Option ℕ) :=
  (List.range entriesPerSector).findSome? fun j =>
    (searchSlot name (sector.entry j)).map fun here => if here then some j else none

def findEntry (start : ℕ) (name : List Byte) : FatM FatDirEntry := do
  match ← scanDir dev g start fun _ sector =>
      pure ((searchSector name sector).map fun slot => slot.map sector.entry) with
  | .stop (some e) => pure e
  | _ => fail .notFound

def findParts : ℕ → List (List Byte) → FatM FatDirEntry
  | _, [] => fail .invalid
  | cluster, [part] => findEntry dev g cluster part
  | cluster, part :: next :: parts => do
    let e ← findEntry dev g cluster part
    ensure (e.isDirectory = true) .notFound
    findParts e.cluster (next :: parts)

def findFile (filename : List Byte) : FatM FatDirEntry := do
  let parts ← pathParts filename
  findParts dev g g.rootCluster parts

def resolveDirs : ℕ → List (List Byte) → FatM ℕ
  | cluster, [] => pure cluster
  | cluster, part :: parts => do
    let e ← findEntry dev g cluster part
    ensure (e.isDirectory = true) .notFound
    resolveDirs e.cluster parts

/-- The parent directory's first cluster and the last component. -/
def resolveParent (relpath : List Byte) : FatM (ℕ × List Byte) := do
  let parts ← pathParts relpath
  let cluster ← resolveDirs dev g g.rootCluster parts.dropLast
  pure (cluster, parts.getLastD [])

/-! ## Changing a directory -/

def reportMayExist (report value : Bool) : FatM Unit :=
  if report then update fun s => { s with entryMayExist := value } else pure ()

def freeSlot (sector : Sector) : Option ℕ :=
  (List.range entriesPerSector).find? fun j => (sector.entry j).isEnd || (sector.entry j).isDeleted

/-- The sector with `e` in slot `j`; a slot that was the end of the directory moves the end on. -/
def placeEntry (sector : Sector) (j : ℕ) (e : FatDirEntry) : Sector :=
  if (sector.entry j).isEnd = true ∧ j + 1 < entriesPerSector then
    (sector.setEntry j e).setEntry (j + 1) Block.zero
  else sector.setEntry j e

def writeExtension (cluster : ℕ) (e : FatDirEntry) : FatM Unit :=
  writeSectors dev g cluster (fun i => if i = 0 then Block.zero.setEntry 0 e else Block.zero) g.sectorsPerCluster 0

/-- After a failed link: the old tail is restored before its possible target is freed. -/
def restoreTail (report : Bool) (tail next newCluster : ℕ) : FatM Unit := do
  match ← attempt (writeEntry dev g tail next) with
  | .ok _ => rollbackNewChain dev g newCluster
  | .error _ => reportMayExist report true

/-- The part of `add_dir_entry` behind the last cluster `tail` of a full directory. -/
def extendDir (report : Bool) (tail next : ℕ) (e : FatDirEntry) : FatM Unit := do
  let newCluster ← allocCluster dev g
  onError (writeExtension dev g newCluster e) (rollbackNewChain dev g newCluster)
  onError (writeEntry dev g tail newCluster) (restoreTail dev g report tail next newCluster)

/-- One sector of `add_dir_entry`'s search. -/
def placeInSector (report : Bool) (e : FatDirEntry) (lba : ℕ) (sector : Sector) : FatM (Option Unit) :=
  match freeSlot sector with
  | none => pure none
  | some j => do
    -- an error can follow a write that took effect
    reportMayExist report true
    dev.writeSector lba (placeEntry sector j e)
    pure (some ())

/-- One cluster of `add_dir_entry`'s search. -/
def placeInCluster (report : Bool) (e : FatDirEntry) (cluster : ℕ) : FatM (Flow Unit Unit) := do
  match ← scanSectors dev g cluster (placeInSector dev report e) g.sectorsPerCluster 0 with
  | some _ => pure (.stop ())
  | none => do
    let next ← readEntry dev g cluster
    if fat32EocMin ≤ next then do
      extendDir dev g report cluster next e
      pure (.stop ())
    else pure (.next ())

def addDirEntry (report : Bool) (dirCluster : ℕ) (e : FatDirEntry) : FatM Unit := do
  reportMayExist report false
  match ← walkChain dev g dirCluster (fun _ => true) (fun _ cluster => placeInCluster dev g report e cluster) () with
  | .stop _ => pure ()
  | .next _ => fail .full

/-- One sector of `remove_dir_entry`'s search. -/
def removeInSector (name : List Byte) (lba : ℕ) (sector : Sector) : FatM (Option (Option Unit)) :=
  match searchSector name sector with
  | none => pure none
  | some none => pure (some none)
  | some (some j) => do
    dev.writeSector lba (sector.setEntry j (sector.entry j).markDeleted)
    pure (some (some ()))

def removeDirEntry (dirCluster : ℕ) (name : List Byte) : FatM Unit := do
  match ← scanDir dev g dirCluster (removeInSector dev name) with
  | .stop (some _) => pure ()
  | _ => fail .notFound

/-! ## Operations on paths -/

def dotSector (cluster parent : ℕ) : Sector :=
  let up := if parent = g.rootCluster then 0 else parent
  (Block.zero.setEntry 0 (makeEntry ([dot], []) attrDirectory cluster)).setEntry 1
    (makeEntry ([dot, dot], []) attrDirectory up)

def ensureAbsent (parent : ℕ) (name : List Byte) : FatM Unit := do
  match ← attempt (findEntry dev g parent name) with
  | .ok _ => fail .exists
  | .error e => if e = .notFound then pure () else fail e

/-- After a failed publication: a cluster that a partially written entry may refer to stays. -/
def dropUnlessPublished (cluster : ℕ) : FatM Unit := do
  let s ← state
  if s.entryMayExist then pure () else rollbackNewChain dev g cluster

def mkdir (relpath : List Byte) : FatM Unit := do
  let (parent, child) ← resolveParent dev g relpath
  ensureAbsent dev g parent child
  let cluster ← allocCluster dev g
  onError (dev.writeSector (g.clusterLba cluster 0) (dotSector g cluster parent)) (rollbackNewChain dev g cluster)
  onError (addDirEntry dev g true parent (makeEntry (make83Name child) attrDirectory cluster))
    (dropUnlessPublished dev g cluster)

def createFile (relpath : List Byte) : FatM Unit := do
  let (parent, child) ← resolveParent dev g relpath
  ensureAbsent dev g parent child
  addDirEntry dev g false parent (makeEntry (make83Name child) attrArchive 0)

def freeIfPresent (cluster : ℕ) : FatM Unit := if 2 ≤ cluster then freeChain dev g cluster else pure ()

def unlink (relpath : List Byte) : FatM Unit := do
  let (parent, child) ← resolveParent dev g relpath
  let e ← findEntry dev g parent child
  ensure (e.isDirectory = false) .invalid
  freeIfPresent dev g e.cluster
  removeDirEntry dev g parent child

def FatDirEntry.skipped (e : FatDirEntry) : Bool :=
  (e.name 0 == dot && e.name 1 == space) || (e.name 0 == dot && e.name 1 == dot && e.name 2 == space)

/-- Some entry before the end mark of this sector keeps the directory from being empty. -/
def occupied (sector : Sector) : Bool :=
  (sector.entries.takeWhile fun e => !e.isEnd).any fun e => e.isValid && !e.skipped

def isEmptyDir (start : ℕ) : FatM Bool := do
  match ← walkChain dev g start (fun empty => empty) (fun _ cluster => do
      match ← scanSectors dev g cluster (fun _ sector => pure (if occupied sector then some () else none))
          g.sectorsPerCluster 0 with
      | some _ => pure (.next false : Flow Bool Unit)
      | none => pure (.next true)) true with
  | .next empty => pure empty
  | .stop _ => pure false

def rmdir (relpath : List Byte) : FatM Unit := do
  let (parent, child) ← resolveParent dev g relpath
  let e ← findEntry dev g parent child
  ensure (e.isDirectory = true) .invalid
  let empty ← isEmptyDir dev g e.cluster
  ensure (empty = true) .notEmpty
  freeChain dev g e.cluster
  removeDirEntry dev g parent child

/-! ## File data -/

def clusterByte (data : ℕ → Sector) (k : ℕ) : Byte := (data (k / bytesPerSector)).byte (k % bytesPerSector)

/-- `memcpy(cluster_buf + offset, io_buf + done, count)`. -/
def patchCluster (data : ℕ → Sector) (offset : ℕ) (ioBuf : ℕ → Byte) (done count : ℕ) : ℕ → Sector :=
  fun i => Block.ofBytes fun b =>
    let k := bytesPerSector * i + b
    if offset ≤ k ∧ k < offset + count then ioBuf (done + (k - offset)) else (data i).byte b

/-- `memcpy(io_buf + done, cluster_buf + offset, count)`. -/
def patchBuffer (ioBuf : ℕ → Byte) (done : ℕ) (data : ℕ → Sector) (offset count : ℕ) : ℕ → Byte :=
  fun k => if done ≤ k ∧ k < done + count then clusterByte data (offset + (k - done)) else ioBuf k

structure IoState where
  offset : ℕ
  solved : ℕ
  ioBuf : ℕ → Byte

def fileIoStep (size : ℕ) (writeback : Bool) (io : IoState) (cluster : ℕ) : FatM (Flow IoState Unit) := do
  let data ← dev.read (g.clusterLba cluster 0) g.sectorsPerCluster
  if g.bytesPerCluster ≤ io.offset then
    pure (.next { io with offset := io.offset - g.bytesPerCluster })
  else do
    let count := min (g.bytesPerCluster - io.offset) (size - io.solved)
    if writeback then do
      dev.write (g.clusterLba cluster 0) (patchCluster data io.offset io.ioBuf io.solved count) g.sectorsPerCluster
      pure (.next ⟨0, io.solved + count, io.ioBuf⟩)
    else
      pure (.next ⟨0, io.solved + count, patchBuffer io.ioBuf io.solved data io.offset count⟩)

/-- `do_file_io`: the number of bytes moved and the caller's buffer.  `scratch` says whether the
allocation of the bounce buffer succeeds. -/
def doFileIo (scratch : Bool) (e : FatDirEntry) (ioBuf : ℕ → Byte) (offset size : ℕ) (writeback : Bool) :
    FatM (ℕ × (ℕ → Byte)) := do
  ensure (e.isDirectory = false) .invalid
  ensure (offset ≤ e.fileSize) .invalid
  if offset = e.fileSize ∨ size = 0 then pure (0, ioBuf)
  else do
    let size := min size (e.fileSize - offset)
    ensure (g.validCluster e.cluster) .invalid
    ensure (scratch = true) .noMem
    match ← walkChain dev g e.cluster (fun io => decide (io.solved < size)) (fileIoStep dev g size writeback)
        ⟨offset, 0, ioBuf⟩ with
    | .stop _ => fail .badFs
    | .next io => do
      ensure (io.solved = size) .badFs
      pure (io.solved, io.ioBuf)

def readFile (scratch : Bool) (e : FatDirEntry) (ioBuf : ℕ → Byte) (offset size : ℕ) : FatM (ℕ × (ℕ → Byte)) :=
  doFileIo dev g scratch e ioBuf offset size false

def writeFile (scratch : Bool) (e : FatDirEntry) (ioBuf : ℕ → Byte) (offset size : ℕ) : FatM (ℕ × (ℕ → Byte)) :=
  doFileIo dev g scratch e ioBuf offset size true

end Zonix.Fat
