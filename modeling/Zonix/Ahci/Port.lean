import Zonix.Base.Error
import Zonix.Base.Word
import Zonix.Lib.Blit
import Zonix.Lib.Prog

/-! # An AHCI port

`AhciDevice` of `arch/x86/kernel/drivers/ahci.cpp`: the command slot, the polling loops, the stop sequence and the block
transfers.  The controller answers every register read as it likes; of a command it completes it does what the command
says, of a command that fails it may do any part. -/

namespace Zonix.Ahci

open Prog

abbrev Byte := BitVec 8
abbrev Word := BitVec 32

def sectorSize : ℕ := 512

/-- `MAX_SECTORS`: the sectors of the bounce buffer. -/
def maxSectors : ℕ := 4096 / sectorSize

def enginePollLimit : ℕ := 500000
def commandPollLimit : ℕ := 10000000
def issuePollLimit : ℕ := 100000

/-! ## Registers -/

def portClb : ℕ := 0x00
def portClbu : ℕ := 0x04
def portFb : ℕ := 0x08
def portFbu : ℕ := 0x0C
def portIs : ℕ := 0x10
def portIe : ℕ := 0x14
def portCmdStat : ℕ := 0x18
def portTfd : ℕ := 0x20
def portCi : ℕ := 0x38

def cmdSt : Word := 0x0001
def cmdFre : Word := 0x0010
def cmdFr : Word := 0x4000
def cmdCr : Word := 0x8000

def isUfs : Word := 0x00000010
def isOfs : Word := 0x01000000
def isTfes : Word := 0x40000000

def tfdStsBsy : Word := 0x80
def tfdStsDrq : Word := 0x08
def tfdStsErr : Word := 0x01

def ataCmdIdentify : Byte := 0xEC
def ataCmdReadDmaExt : Byte := 0x25
def ataCmdWriteDmaExt : Byte := 0x35

def fisTypeRegH2D : Byte := 0x27

/-! ## Commands -/

/-- `RegisterHostToDeviceFis`, the fields that `set_command` fills. -/
structure Fis where
  fisType : Byte
  c : Bool
  command : Byte
  lba0 : Byte
  lba1 : Byte
  lba2 : Byte
  device : Byte
  lba3 : Byte
  countl : Byte
  counth : Byte
  deriving Repr, DecidableEq

def setCommand (cmd : Byte) (lba count : ℕ) : Fis where
  fisType := fisTypeRegH2D
  c := true
  command := cmd
  lba0 := BitVec.ofNat 8 lba
  lba1 := BitVec.ofNat 8 (lba >>> 8)
  lba2 := BitVec.ofNat 8 (lba >>> 16)
  device := 0x40
  lba3 := BitVec.ofNat 8 (lba >>> 24)
  countl := BitVec.ofNat 8 count
  counth := BitVec.ofNat 8 (count >>> 8)

/-- The address and the length the device takes from the FIS. -/
def Fis.lba (f : Fis) : ℕ := f.lba0.toNat + 2 ^ 8 * f.lba1.toNat + 2 ^ 16 * f.lba2.toNat + 2 ^ 24 * f.lba3.toNat
def Fis.count (f : Fis) : ℕ := f.countl.toNat + 2 ^ 8 * f.counth.toNat

/-- Slot 0: the command header's direction, the FIS and the byte count of the one PRDT entry. -/
structure Command where
  write : Bool
  fis : Fis
  dbc : ℕ
  deriving Repr, DecidableEq

/-- What `issue_cmd` puts into slot 0. -/
def slotCommand (command : Byte) (lba count : ℕ) (write : Bool) : Command :=
  ⟨write, setCommand command lba count, u32 (count * sectorSize + (2 ^ 32 - 1))⟩

/-! ## The port and the controller -/

inductive DeviceState where
  | offline | initializing | ready | quarantined
  deriving Repr, DecidableEq

inductive Access where
  | read (addr : ℕ) (value : Word)
  | write (addr : ℕ) (value : Word)
  deriving Repr, DecidableEq

/-- The driver's record of the port (`infoBlockCount` is `info.block_count`), the disk behind it, the buffer of the
request under way, and all register accesses and commands so far. -/
structure AhciState where
  state : DeviceState
  infoBlockCount : ℕ
  portBase : ℕ
  memoryConfigured : Bool
  slot : Command
  dmaBuf : ℕ → Byte
  disk : ℕ → Byte
  data : ℕ → Byte
  accesses : List Access
  commands : List Command
  infoBlockCount_lt : infoBlockCount < 2 ^ 32

/-- A controller: the value that each access returns if it is a read, its identification, and the bytes that a
command leaves behind when it fails. -/
structure Hba where
  reg : ℕ → Word
  identity : ℕ → Byte
  torn : ℕ → ℕ → Byte

abbrev AhciM := Prog AhciState Error

variable (hba : Hba)

def AhciState.access (s : AhciState) (a : Access) : AhciState := { s with accesses := s.accesses ++ [a] }

def read32 (off : ℕ) : AhciM Word := fun s =>
  (.ok (hba.reg s.accesses.length), s.access (.read (s.portBase + off) (hba.reg s.accesses.length)))

def write32 (off : ℕ) (value : Word) : AhciM Unit := update fun s => s.access (.write (s.portBase + off) value)

def AhciState.execute (s : AhciState) : AhciState :=
  if s.slot.fis.command = ataCmdReadDmaExt then
    { s with dmaBuf := blit s.dmaBuf 0 s.disk (sectorSize * s.slot.fis.lba) (s.slot.dbc + 1) }
  else if s.slot.fis.command = ataCmdWriteDmaExt then
    { s with disk := blit s.disk (sectorSize * s.slot.fis.lba) s.dmaBuf 0 (s.slot.dbc + 1) }
  else if s.slot.fis.command = ataCmdIdentify then
    { s with dmaBuf := blit s.dmaBuf 0 hba.identity 0 (s.slot.dbc + 1) }
  else s

def AhciState.abort (s : AhciState) : AhciState :=
  if s.slot.fis.command = ataCmdWriteDmaExt then
    { s with disk := blit s.disk (sectorSize * s.slot.fis.lba) (hba.torn s.commands.length) 0 (s.slot.dbc + 1) }
  else { s with dmaBuf := blit s.dmaBuf 0 (hba.torn s.commands.length) 0 (s.slot.dbc + 1) }

/-! ## Issuing a command -/

/-- The wait of `issue_cmd` for the device to become idle. -/
def pollIdle : ℕ → AhciM Unit
  | 0 => pure ()
  | polls + 1 => do
    let tfd ← read32 hba portTfd
    if tfd &&& (tfdStsBsy ||| tfdStsDrq) = 0 then pure ()
    else if polls = 0 then fail .timeout
    else pollIdle polls

def issueCmd (command : Byte) (lba count : ℕ) (write : Bool) : AhciM Unit := do
  ensure (count ≠ 0 ∧ count ≤ maxSectors) .invalid
  pollIdle hba issuePollLimit
  let ci ← read32 hba portCi
  ensure (ci &&& 1 = 0) .busy
  update fun s => { s with slot := slotCommand command lba count write }
  write32 portIs 0xFFFFFFFF
  write32 portCi 1
  update fun s => { s with commands := s.commands ++ [s.slot] }

def pollDone : ℕ → AhciM Unit
  | 0 => fail .timeout
  | polls + 1 => do
    let status ← read32 hba portIs
    let tfd ← read32 hba portTfd
    ensure (status &&& (isOfs ||| isTfes ||| isUfs) = 0 ∧ tfd &&& tfdStsErr = 0) .io
    let ci ← read32 hba portCi
    if ci &&& 1 = 0 then pure () else pollDone polls

/-- `wait_cmd_complete`, with what the controller has done meanwhile. -/
def waitCmdComplete : AhciM Unit := do
  match ← attempt (pollDone hba commandPollLimit) with
  | .ok _ => update (AhciState.execute hba)
  | .error e => do
    update (AhciState.abort hba)
    fail e

/-! ## Stopping the port -/

/-- The wait of `stop_engine` for a bit of the status to clear; the last value read. -/
def pollClear (mask : Word) : ℕ → AhciM Word
  | 0 => do
    let cmd ← read32 hba portCmdStat
    if cmd &&& mask = 0 then pure cmd else fail .timeout
  | polls + 1 => do
    let cmd ← read32 hba portCmdStat
    if cmd &&& mask = 0 then pure cmd else pollClear mask polls

def stopEngine : AhciM Unit := do
  write32 portIe 0
  let cmd ← read32 hba portCmdStat
  write32 portCmdStat (cmd &&& ~~~cmdSt)
  let cmd ← pollClear hba cmdCr enginePollLimit
  write32 portCmdStat (cmd &&& ~~~cmdFre)
  let _ ← pollClear hba cmdFr enginePollLimit
  pure ()

def shutdownLocked : AhciM Unit := do
  let s ← state
  ensure (s.state ≠ .quarantined) .busy
  if s.portBase = 0 then update fun s => { s with state := .offline }
  else
    match ← attempt (stopEngine hba) with
    | .error e => do
      update fun s => { s with state := .quarantined }
      fail e
    | .ok _ => do
      if s.memoryConfigured then do
        write32 portClb 0
        write32 portClbu 0
        write32 portFb 0
        write32 portFbu 0
      update fun s => { s with memoryConfigured := false, portBase := 0, state := .offline }

/-! ## Block transfers -/

structure Request where
  write : Bool
  startLba : ℕ
  blockCount : ℕ
  null : Bool
  startLba_lt : startLba < 2 ^ 32
  blockCount_lt : blockCount < 2 ^ 64

def transferPiece (write : Bool) (lba count : ℕ) : AhciM Unit := do
  match ← attempt (do
    issueCmd hba (if write then ataCmdWriteDmaExt else ataCmdReadDmaExt) lba count write
    waitCmdComplete hba) with
  | .ok _ => pure ()
  | .error completed => do
    let _ ← attempt (shutdownLocked hba)
    fail completed

def fillDma (write : Bool) (off bytes : ℕ) : AhciM Unit :=
  update fun s => if write then { s with dmaBuf := blit s.dmaBuf 0 s.data off bytes } else s

def drainDma (write : Bool) (off bytes : ℕ) : AhciM Unit :=
  update fun s => if write then s else { s with data := blit s.data off s.dmaBuf 0 bytes }

/-- The loop of `transfer_blocks`, with `off` for the `data` pointer. -/
def transferLoop (write : Bool) : ℕ → ℕ → ℕ → ℕ → AhciM Unit
  | 0, _, _, _ => pure ()
  | fuel + 1, lba, off, remaining =>
    if remaining = 0 then pure ()
    else do
      let count := if remaining > maxSectors then maxSectors else remaining
      let bytes := count * sectorSize
      fillDma write off bytes
      transferPiece hba write lba count
      drainDma write off bytes
      transferLoop write fuel (u32 (lba + count)) (off + bytes) (remaining - count)

def transferBlocks (r : Request) : AhciM Unit := do
  let s ← state
  ensure (s.state = .ready) .noDevice
  ensure (r.null = false ∨ r.blockCount = 0) .invalid
  ensure (r.startLba ≤ s.infoBlockCount ∧ r.blockCount ≤ s.infoBlockCount - r.startLba) .invalid
  transferLoop hba r.write r.blockCount r.startLba 0 r.blockCount

end Zonix.Ahci
