import Zonix.Fat.Device

/-! # FAT entries and cluster chains

`kernel/fs/fat/fat_core.cpp` from `read_entry` on.  All FAT accesses go through the one-sector
cache of the volume; a write goes through to every FAT copy. -/

namespace Zonix.Fat

open Prog

variable (dev : Device) (g : Geometry)

def loadSector (sector : ℕ) : FatM Unit := do
  let data ← dev.readSector (g.lba sector)
  update fun s => { s with buffer := data, bufferSector := sector }

def fetchSector (sector : ℕ) : FatM Unit := do
  let s ← state
  if sector ≠ s.bufferSector then loadSector dev g sector else pure ()

def readEntry (cluster : ℕ) : FatM ℕ := do
  ensure (g.validCluster cluster) .badFs
  fetchSector dev g (g.fatSector cluster)
  let s ← state
  pure (s.buffer.word32 (entOffset cluster) &&& fat32ClusterMask)

def writeCopies (sector : ℕ) (data : Sector) : ℕ → ℕ → FatM Unit
  | 0, _ => pure ()
  | n + 1, i => do
    dev.writeSector (g.copyLba sector i) data
    writeCopies sector data n (i + 1)

def flushBuffer : FatM Unit := do
  let s ← state
  if s.bufferDirty = true ∧ s.bufferSector ≠ fatInvalidSector then do
    writeCopies dev g s.bufferSector s.buffer g.fatCount 0
    update fun s => { s with bufferDirty := false }
  else pure ()

def switchSector (sector : ℕ) : FatM Unit := do
  let s ← state
  if sector ≠ s.bufferSector then do
    flushBuffer dev g
    loadSector dev g sector
  else pure ()

def mergeEntry (old value : ℕ) : ℕ := (old &&& 0xF0000000) ||| (value &&& fat32ClusterMask)

def FatState.putEntry (s : FatState) (off value : ℕ) : FatState :=
  { s with
    buffer := s.buffer.setWord32 off (mergeEntry (s.buffer.word32 off) value)
    bufferDirty := true }

def writeEntry (cluster value : ℕ) : FatM Unit := do
  ensure (g.validCluster cluster) .invalid
  switchSector dev g (g.fatSector cluster)
  update fun s => s.putEntry (entOffset cluster) value
  let s ← state
  writeCopies dev g (g.fatSector cluster) s.buffer g.fatCount 0
  update fun s => { s with bufferDirty := false }

/-! ## Chains -/

/-- The iterator over a chain, with the checkpoint of Brent's cycle detection. -/
structure ClusterChain where
  current : ℕ
  checkpoint : ℕ
  power : ℕ
  distance : ℕ
  visited : ℕ
  started : Bool
  finished : Bool
  deriving Repr, DecidableEq

def ClusterChain.new (start : ℕ) : ClusterChain := ⟨start, start, 1, 0, 0, false, false⟩

def ClusterChain.advance (ch : ClusterChain) (next : ℕ) : ClusterChain :=
  if ch.distance + 1 = ch.power then
    { ch with checkpoint := next, power := u32 (ch.power * 2), distance := 0, current := next }
  else { ch with distance := ch.distance + 1, current := next }

def ClusterChain.enter (ch : ClusterChain) : FatM (ℕ × ClusterChain) := do
  ensure (g.validCluster ch.current ∧ ch.visited < g.clusterCount) .badFs
  pure (ch.current, { ch with visited := ch.visited + 1, started := true })

def ClusterChain.next (ch : ClusterChain) : FatM (ℕ × ClusterChain) :=
  if ch.finished then pure (0, ch)
  else if ch.started then do
    let next ← readEntry dev g ch.current
    if fat32EocMin ≤ next then pure (0, { ch with finished := true })
    else do
      ensure (g.validCluster next) .badFs
      ensure (next ≠ ch.checkpoint) .badFs
      (ch.advance next).enter g
  else ch.enter g

/-- How a round of a loop ends: go on with a new accumulator, or leave the function. -/
inductive Flow (α β : Type) where
  | next (acc : α)
  | stop (result : β)
  deriving Repr, DecidableEq

/-- `while (cond && (cluster = TRY(chain.next())) != 0)`.  A chain has at most `cluster_count`
clusters, so `cluster_count + 2` rounds are enough; `Error::Fail`, which no driver function
returns, would tell that they were not. -/
def walk {α β : Type} (cond : α → Bool) (body : α → ℕ → FatM (Flow α β)) :
    ℕ → ClusterChain → α → FatM (Flow α β)
  | 0, _, _ => fail .fail
  | fuel + 1, ch, acc =>
    if cond acc then do
      let (cluster, ch) ← ch.next dev g
      if cluster = 0 then pure (.next acc)
      else do
        match ← body acc cluster with
        | .next acc => walk cond body fuel ch acc
        | .stop result => pure (.stop result)
    else pure (.next acc)

def walkChain {α β : Type} (start : ℕ) (cond : α → Bool) (body : α → ℕ → FatM (Flow α β)) (acc : α) :
    FatM (Flow α β) :=
  walk dev g cond body (g.clusterCount + 2) (ClusterChain.new start) acc

def freeLoop : ℕ → ℕ → FatM Unit
  | 0, _ => fail .fail
  | fuel + 1, cluster =>
    if cluster < fat32EocMin then do
      let next ← readEntry dev g cluster
      writeEntry dev g cluster fat32Free
      freeLoop fuel next
    else pure ()

def freeChain (start : ℕ) : FatM Unit := do
  -- validated before any link is cleared, which would hide a cycle
  let _ ← walkChain dev g start (fun _ => true) (fun _ _ => pure (.next () : Flow Unit Unit)) ()
  freeLoop dev g (g.clusterCount + 2) start

def rollbackNewChain (start : ℕ) : FatM Unit := do
  let _ ← attempt (freeChain dev g start)
  pure ()

def Geometry.clusterLba (cluster i : ℕ) : ℕ := u32 (g.partitionStart + g.clusterToSector cluster + i)

def writeSectors (cluster : ℕ) (data : ℕ → Sector) : ℕ → ℕ → FatM Unit
  | 0, _ => pure ()
  | n + 1, i => do
    dev.writeSector (g.clusterLba cluster i) (data i)
    writeSectors cluster data n (i + 1)

def zeroCluster (cluster : ℕ) : FatM Unit :=
  writeSectors dev g cluster (fun _ => Block.zero) g.sectorsPerCluster 0

def claimCluster (cluster : ℕ) : FatM ℕ := do
  onError (writeEntry dev g cluster fat32EocMax) (rollbackNewChain dev g cluster)
  onError (zeroCluster dev g cluster) (rollbackNewChain dev g cluster)
  pure cluster

def allocFrom : ℕ → ℕ → FatM ℕ
  | 0, _ => fail .full
  | n + 1, cluster => do
    let value ← readEntry dev g cluster
    if value = fat32Free then claimCluster dev g cluster else allocFrom n (cluster + 1)

def allocCluster : FatM ℕ := allocFrom dev g g.clusterCount 2

end Zonix.Fat
