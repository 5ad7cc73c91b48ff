import Mathlib.Data.BitVec
import Zonix.Base.Word

/-! # Sectors and directory entries

The packed structures of `include/base/bpb.h` as the bytes they occupy: a sector is 512 bytes, a
directory entry 32, and every field is read and written at its offset in little-endian order. -/

namespace Zonix.Fat

abbrev Byte := BitVec 8

/-- A block of `n` bytes. -/
def Block (n : ℕ) : Type := Fin n → Byte

variable {n : ℕ}

def Block.byte (b : Block n) (i : ℕ) : Byte := if h : i < n then b ⟨i, h⟩ else 0
def Block.ofBytes (f : ℕ → Byte) : Block n := fun i => f i.val

@[simp] theorem byte_ofBytes (f : ℕ → Byte) {i : ℕ} (h : i < n) :
    (Block.ofBytes f : Block n).byte i = f i := by
  simp [Block.byte, Block.ofBytes, h]

theorem Block.ext {a b : Block n} (h : ∀ i, i < n → a.byte i = b.byte i) : a = b := by
  funext i
  simpa [Block.byte] using h i.val i.isLt

def Block.word16 (b : Block n) (off : ℕ) : ℕ := (b.byte off).toNat + 2 ^ 8 * (b.byte (off + 1)).toNat

def Block.word32 (b : Block n) (off : ℕ) : ℕ :=
  (b.byte off).toNat + 2 ^ 8 * (b.byte (off + 1)).toNat + 2 ^ 16 * (b.byte (off + 2)).toNat +
    2 ^ 24 * (b.byte (off + 3)).toNat

def byteOf (v i : ℕ) : Byte := BitVec.ofNat 8 (v >>> (8 * i))

def Block.setWord32 (b : Block n) (off v : ℕ) : Block n :=
  Block.ofBytes fun i => if off ≤ i ∧ i < off + 4 then byteOf v (i - off) else b.byte i

theorem byteOf_toNat (v i : ℕ) : (byteOf v i).toNat = v / 2 ^ (8 * i) % 2 ^ 8 := by
  simp [byteOf, Nat.shiftRight_eq_div_pow]

theorem word32_lt (b : Block n) (off : ℕ) : b.word32 off < 2 ^ 32 := by
  have h0 := (b.byte off).isLt
  have h1 := (b.byte (off + 1)).isLt
  have h2 := (b.byte (off + 2)).isLt
  have h3 := (b.byte (off + 3)).isLt
  unfold Block.word32
  omega

theorem word32_setWord32 (b : Block n) (off v : ℕ) (h : off + 4 ≤ n) (hv : v < 2 ^ 32) :
    (b.setWord32 off v).word32 off = v := by
  have hb : ∀ i, i < 4 → ((b.setWord32 off v).byte (off + i)).toNat = v / 2 ^ (8 * i) % 2 ^ 8 := by
    intro i hi
    rw [Block.setWord32, byte_ofBytes _ (by omega), if_pos (by omega), byteOf_toNat]
    congr 3
    omega
  have h0 := hb 0 (by omega)
  have h1 := hb 1 (by omega)
  have h2 := hb 2 (by omega)
  have h3 := hb 3 (by omega)
  simp only [Nat.add_zero] at h0
  simp only [Block.word32, h0, h1, h2, h3]
  omega

theorem byte_setWord32_ne (b : Block n) (off v i : ℕ) (hi : i < off ∨ off + 4 ≤ i) :
    (b.setWord32 off v).byte i = b.byte i := by
  by_cases hn : i < n
  · rw [Block.setWord32, byte_ofBytes _ hn, if_neg (by omega)]
  · simp [Block.byte, hn]

theorem word32_setWord32_ne (b : Block n) (off off' v : ℕ) (h : off' + 4 ≤ off ∨ off + 4 ≤ off') :
    (b.setWord32 off v).word32 off' = b.word32 off' := by
  simp only [Block.word32]
  rw [byte_setWord32_ne b off v off' (by omega), byte_setWord32_ne b off v (off' + 1) (by omega),
    byte_setWord32_ne b off v (off' + 2) (by omega), byte_setWord32_ne b off v (off' + 3) (by omega)]

/-! ## Directory entries -/

abbrev Sector := Block 512
abbrev FatDirEntry := Block 32

def attrReadOnly : Byte := 0x01
def attrVolumeId : Byte := 0x08
def attrDirectory : Byte := 0x10
def attrArchive : Byte := 0x20
def attrLfn : Byte := 0x0F

namespace FatDirEntry

variable (e : FatDirEntry)

def name (i : ℕ) : Byte := e.byte i
def ext (i : ℕ) : Byte := e.byte (8 + i)
def attr : Byte := e.byte 11
def firstClusterHigh : ℕ := e.word16 20
def firstClusterLow : ℕ := e.word16 26
def fileSize : ℕ := e.word32 28

def isEnd : Bool := name e 0 == 0x00
def isDeleted : Bool := name e 0 == 0xE5
def isDirectory : Bool := attr e &&& attrDirectory != 0
def isValid : Bool :=
  if isEnd e || isDeleted e then false
  else attr e &&& attrVolumeId == 0 && attr e &&& attrLfn != attrLfn

def cluster : ℕ := u32 (firstClusterHigh e <<< 16) + firstClusterLow e

/-- `get_filename`: the bytes put into the buffer before the final NUL. -/
def getFilename : List Byte :=
  let name := ((List.range 8).map (name e)).takeWhile (· != 0x20)
  let ext := ((List.range 3).map (ext e)).takeWhile (· != 0x20)
  if FatDirEntry.ext e 0 != 0x20 then name ++ 0x2E :: ext else name

end FatDirEntry

def Block.entry (s : Sector) (j : ℕ) : FatDirEntry := Block.ofBytes fun i => s.byte (32 * j + i)

def Block.setEntry (s : Sector) (j : ℕ) (e : FatDirEntry) : Sector :=
  Block.ofBytes fun i => if i / 32 = j then e.byte (i % 32) else s.byte i

/-- `SectorArray<FatDirEntry>::COUNT`. -/
def entriesPerSector : ℕ := 16

theorem entry_setEntry (s : Sector) (j : ℕ) (e : FatDirEntry) (h : j < entriesPerSector) :
    (s.setEntry j e).entry j = e := by
  apply Block.ext
  intro i hi
  unfold entriesPerSector at h
  rw [Block.entry, byte_ofBytes _ hi, Block.setEntry, byte_ofBytes _ (by omega), if_pos (by omega)]
  congr 1
  omega

theorem entry_setEntry_ne (s : Sector) (j k : ℕ) (e : FatDirEntry) (h : k ≠ j) (hk : k < entriesPerSector) :
    (s.setEntry j e).entry k = s.entry k := by
  apply Block.ext
  intro i hi
  unfold entriesPerSector at hk
  rw [Block.entry, byte_ofBytes _ hi, Block.setEntry, byte_ofBytes _ (by omega), if_neg (by omega),
    Block.entry, byte_ofBytes _ hi]

/-- A sector or an entry of zero bytes. -/
def Block.zero : Block n := Block.ofBytes fun _ => 0

theorem entry_zero (j : ℕ) : (Block.zero : Sector).entry j = Block.zero := by
  apply Block.ext
  intro i hi
  rw [Block.entry, byte_ofBytes _ hi, Block.zero, Block.zero, byte_ofBytes _ hi]
  unfold Block.byte Block.ofBytes
  split <;> rfl

theorem zero_isEnd : FatDirEntry.isEnd Block.zero = true := by decide

/-- The directory entries of a sector in order. -/
def Block.entries (s : Sector) : List FatDirEntry := (List.range entriesPerSector).map s.entry

end Zonix.Fat
