import Mathlib
import Zonix.Lib.Bitmap
import Zonix.Vm.Swap

/-!
# Swap slots

The slot table of `kernel/mm/swap.cpp` as the code holds it: a bitmap packed into the bytes of a kernel buffer, 32-bit
slot numbers and a cursor. `swapfs_init` sets it up from the swap device, `reserve_slot` and `release_entry` change it,
`swapfs_read` and `swapfs_write` turn a slot into eight blocks of the device.
-/

namespace Zonix.Vm

open Zonix.Lib.Bitmap

inductive DeviceType where
  | none
  | disk
  | swap
deriving DecidableEq, Repr

structure BlockDevice where
  type : DeviceType
  blockCount : UInt32
deriving DecidableEq, Repr

/-- `BlockManager::find_device(type)`. -/
def findDevice (devices : List BlockDevice) (type : DeviceType) : Option BlockDevice :=
  devices.find? (·.type = type)

structure SlotTable where
  device : Option BlockDevice
  slots : Array (BitVec 8)
  slotLimit : UInt32
  nextSlot : UInt32
deriving DecidableEq, Repr

namespace SlotTable

def boot : SlotTable := ⟨none, #[], 0, 1⟩

def occupied (t : SlotTable) (slot : UInt32) : Bool := test t.slots slot.toNat

def setOccupied (t : SlotTable) (slot : UInt32) (value : Bool) : SlotTable :=
  { t with slots := assign t.slots slot.toNat value }

/-- `device_ && device_->type == Swap && !slots_.empty()`. -/
def usable (t : SlotTable) : Bool := t.device.any (·.type = .swap) && !t.slots.isEmpty

def allocatedSlot (t : SlotTable) (entry : Word) : UInt32 :=
  if !t.usable || entry &&& ~~~(entrySlotMask ||| entryFlags) != 0 || entry &&& entryHasPermissions == 0 then 0
  else
    let slot := UInt32.ofNat (entry >>> 8).toNat
    if 0 < slot && slot < t.slotLimit && t.occupied slot then slot else 0

/-- `if (++next_slot_ == slot_limit_) next_slot_ = 1`. -/
def advance (t : SlotTable) : SlotTable :=
  { t with nextSlot := if t.nextSlot + 1 = t.slotLimit then 1 else t.nextSlot + 1 }

/-- The loop of `reserve_slot`, with the number of rounds left. -/
def reserveLoop : ℕ → SlotTable → Except Error UInt32 × SlotTable
  | 0, t => (.error .full, t)
  | n + 1, t =>
    let slot := t.nextSlot
    let t := t.advance
    if !t.occupied slot then (.ok slot, t.setOccupied slot true) else reserveLoop n t

def reserveSlot (t : SlotTable) : Except Error UInt32 × SlotTable :=
  if t.usable then reserveLoop (t.slotLimit.toNat - 1) t else (.error .noDevice, t)

def releaseEntry (entry : Word) (t : SlotTable) : SlotTable :=
  let slot := t.allocatedSlot entry
  if slot ≠ 0 then t.setOccupied slot false else t

def blocksPerPage : ℕ := 8

/-- `swapfs_init` over the registered devices; `granted` says whether the buffer for the bitmap is allocated. -/
def swapfsInit (devices : List BlockDevice) (granted : Bool) (t : SlotTable) : Int × SlotTable :=
  if t.device.isSome then (0, t)
  else
    match findDevice devices .swap with
    | none => (-1, t)
    | some device =>
      let slotLimit := UInt32.ofNat (min (device.blockCount.toNat / blocksPerPage + 1) maxOffsetLimit)
      if slotLimit ≤ 1 then (-1, t)
      else if !granted then (-1, t)
      else (0, ⟨some device, Array.replicate ((slotLimit + 7) / 8).toNat 0, slotLimit, 1⟩)

/-- The first block of `swapfs_read` and `swapfs_write`; the product is a `size_t`, the block number 32 bits wide. -/
def startLba (slot : UInt32) : UInt32 := UInt32.ofNat ((slot - 1).toNat * blocksPerPage)

/-- The blocks `swapfs_read` or `swapfs_write` transfers for an entry, as first block and count, or the error. -/
def swapfsBlocks (t : SlotTable) (entry : Word) : Except Error (UInt32 × ℕ) :=
  if t.device.isNone then .error .noDevice
  else
    let slot := t.allocatedSlot entry
    if slot = 0 then .error .invalid else .ok (startLba slot, blocksPerPage)

/-- A table that is set up: the bitmap has a bit for every slot and the cursor is at a slot. -/
structure Ready (t : SlotTable) : Prop where
  device : ∃ d, t.device = some d ∧ d.type = .swap
  size : (t.slotLimit.toNat + 7) / 8 ≤ t.slots.size
  limit : 2 ≤ t.slotLimit.toNat
  cursor : 1 ≤ t.nextSlot.toNat ∧ t.nextSlot.toNat < t.slotLimit.toNat

variable {t : SlotTable}

theorem Ready.usable (h : t.Ready) : t.usable = true := by
  obtain ⟨d, hd, htype⟩ := h.device
  have hsize : 0 < t.slots.size := by
    have := h.size
    have := h.limit
    omega
  simp [SlotTable.usable, hd, htype, Array.isEmpty, Nat.ne_of_gt hsize]

theorem Ready.inBounds (h : t.Ready) {slot : ℕ} (hs : slot < t.slotLimit.toNat) : slot / 8 < t.slots.size := by
  have := h.size
  omega

variable {slot : UInt32} {res : Except Error UInt32 × SlotTable}

theorem test_setOccupied (hs : slot.toNat / 8 < t.slots.size) (value : Bool) (i : ℕ) :
    test (t.setOccupied slot value).slots i = if i = slot.toNat then value else test t.slots i :=
  test_assign hs value i

theorem Ready.setOccupied (h : t.Ready) (slot : UInt32) (value : Bool) : (t.setOccupied slot value).Ready :=
  ⟨h.device, le_of_le_of_eq h.size (assign_size _ _ _).symm, h.limit, h.cursor⟩

theorem Ready.advance_nextSlot (h : t.Ready) : t.advance.nextSlot.toNat =
    if t.nextSlot.toNat + 1 = t.slotLimit.toNat then 1 else t.nextSlot.toNat + 1 := by
  have hlimit := t.slotLimit.toNat_lt
  have hsucc : (t.nextSlot + 1).toNat = t.nextSlot.toNat + 1 := by
    rw [UInt32.toNat_add]
    exact Nat.mod_eq_of_lt (by have := h.cursor.2; simp only [UInt32.reduceToNat]; omega)
  have hiff : t.nextSlot + 1 = t.slotLimit ↔ t.nextSlot.toNat + 1 = t.slotLimit.toNat := by
    rw [← UInt32.toNat_inj, hsucc]
  simp only [advance, hiff]
  split
  · rfl
  · exact hsucc

theorem Ready.advance (h : t.Ready) : t.advance.Ready := by
  refine ⟨h.device, h.size, h.limit, ?_⟩
  have hc := h.cursor
  have hl := h.limit
  rw [h.advance_nextSlot]
  show _ ∧ _ < t.slotLimit.toNat
  split <;> omega

def ahead (t : SlotTable) (k : ℕ) : ℕ := around t.slotLimit.toNat t.nextSlot.toNat k

theorem Ready.ahead_zero (h : t.Ready) : t.ahead 0 = t.nextSlot.toNat := around_zero h.cursor.2

theorem Ready.ahead_advance (h : t.Ready) {k : ℕ} (hk : k + 1 < t.slotLimit.toNat) :
    t.advance.ahead k = t.ahead (k + 1) := by
  rw [ahead, h.advance_nextSlot]
  exact around_succ h.cursor hk

inductive Searched (t : SlotTable) (n : ℕ) : Except Error UInt32 × SlotTable → Prop
  | found {k : ℕ} {slot next : UInt32} (hk : k < n) (hslot : slot.toNat = t.ahead k)
      (hnext : next.toNat = t.ahead (k + 1)) (hbefore : ∀ j < k, test t.slots (t.ahead j) = true)
      (hfree : t.occupied slot = false) : Searched t n (.ok slot, { t with nextSlot := next }.setOccupied slot true)
  | passed {next : UInt32} (hnext : next.toNat = t.ahead n) (hall : ∀ j < n, test t.slots (t.ahead j) = true) :
      Searched t n (.error .full, { t with nextSlot := next })

variable {n : ℕ} {d : BlockDevice} {v : State}

theorem Ready.reserveLoop_searched (h : t.Ready) (hn : n < t.slotLimit.toNat) :
    Searched t n (reserveLoop n t) := by
  induction n generalizing t with
  | zero => exact .passed h.ahead_zero.symm fun j hj => absurd hj (Nat.not_lt_zero j)
  | succ n ih =>
    have hshift : ∀ k < n + 1, t.advance.ahead k = t.ahead (k + 1) := fun k hk => h.ahead_advance (by omega)
    have hrest := ih h.advance (Nat.lt_of_succ_lt hn)
    rw [reserveLoop]
    cases ho : t.occupied t.nextSlot with
    | false =>
      have ho' : t.advance.occupied t.nextSlot = false := ho
      rw [ho']
      have hnext : t.advance.nextSlot.toNat = t.ahead (0 + 1) := by rw [← h.advance.ahead_zero, hshift 0 (by omega)]
      exact .found (Nat.succ_pos n) h.ahead_zero.symm hnext (fun j hj => absurd hj (Nat.not_lt_zero j)) ho
    | true =>
      have ho' : t.advance.occupied t.nextSlot = true := ho
      rw [ho']
      have hfirst : test t.slots (t.ahead 0) = true := by rw [h.ahead_zero]; exact ho
      have hbehind : ∀ k, k ≤ n → (∀ j < k, test t.slots (t.advance.ahead j) = true) →
          ∀ j < k + 1, test t.slots (t.ahead j) = true := by
        intro k hk hall j hj
        cases j with
        | zero => exact hfirst
        | succ j =>
          rw [← hshift j (by omega)]
          exact hall j (by omega)
      show Searched t (n + 1) (reserveLoop n t.advance)
      generalize reserveLoop n t.advance = res at hrest ⊢
      cases hrest with
      | found hk hslot hnext hbefore hfree =>
        exact .found (Nat.succ_lt_succ hk) (hslot.trans (hshift _ (by omega)))
          (hnext.trans (hshift _ (by omega))) (hbehind _ hk.le hbefore) hfree
      | passed hnext hall => exact .passed (hnext.trans (hshift n (by omega))) (hbehind n le_rfl hall)

theorem Ready.reserveSlot_searched (h : t.Ready) : Searched t (t.slotLimit.toNat - 1) t.reserveSlot := by
  have hl := h.limit
  rw [reserveSlot, h.usable]
  exact h.reserveLoop_searched (by omega)

theorem Searched.device (hs : Searched t n res) :
    res.2.device = t.device ∧ res.2.slotLimit = t.slotLimit ∧ res.2.slots.size = t.slots.size := by
  cases hs with
  | found => exact ⟨rfl, rfl, assign_size _ _ _⟩
  | passed => exact ⟨rfl, rfl, rfl⟩

theorem Searched.nextSlot (hs : Searched t n res) :
    ∃ k ≤ n, res.2.nextSlot.toNat = t.ahead k := by
  cases hs with
  | found hk _ hnext => exact ⟨_, hk, hnext⟩
  | passed hnext => exact ⟨n, le_rfl, hnext⟩

theorem Ready.searched_cursor (h : t.Ready) (hn : n < t.slotLimit.toNat) (hs : Searched t n res) :
    1 ≤ res.2.nextSlot.toNat ∧ res.2.nextSlot.toNat < t.slotLimit.toNat := by
  obtain ⟨k, hk, hnext⟩ := hs.nextSlot
  rw [hnext]
  exact around_mem h.cursor (by omega)

theorem Ready.reserveSlot (h : t.Ready) : t.reserveSlot.2.Ready := by
  have hl := h.limit
  have hs := h.reserveSlot_searched
  obtain ⟨hdev, hlimit, hsize⟩ := hs.device
  have hcur := h.searched_cursor (by omega) hs
  exact ⟨by rw [hdev]; exact h.device, by rw [hlimit, hsize]; exact h.size, by rw [hlimit]; exact hl,
    by rw [hlimit]; exact hcur⟩

/-! ## Setting up and whole runs -/

theorem findDevice_type {devices : List BlockDevice} {type : DeviceType}
    (h : findDevice devices type = some d) : d.type = type := by
  have := List.find?_some h
  simpa using this

structure Fitted (t : SlotTable) (d : BlockDevice) : Prop where
  ready : t.Ready
  limit : t.slotLimit.toNat = min (d.blockCount.toNat / 8 + 1) (2 ^ 24)

theorem swapfsInit_cases (devices : List BlockDevice) (granted : Bool) (t : SlotTable) :
    (swapfsInit devices granted t).2 = t ∨
      ∃ d, (swapfsInit devices granted t).1 = 0 ∧ (swapfsInit devices granted t).2.device = some d ∧
        (swapfsInit devices granted t).2.Fitted d ∧ ∀ i, test (swapfsInit devices granted t).2.slots i = false := by
  rw [swapfsInit]
  by_cases hset : t.device.isSome = true
  · rw [if_pos hset]
    exact Or.inl rfl
  rw [if_neg hset]
  cases hfind : findDevice devices .swap with
  | none => exact Or.inl rfl
  | some d =>
    obtain ⟨limit, hlimit⟩ : ∃ limit, limit = UInt32.ofNat (min (d.blockCount.toNat / blocksPerPage + 1) maxOffsetLimit) :=
      ⟨_, rfl⟩
    have hval : limit.toNat = min (d.blockCount.toNat / 8 + 1) (2 ^ 24) := by
      rw [hlimit, UInt32.toNat_ofNat']
      exact Nat.mod_eq_of_lt (by rw [maxOffsetLimit]; omega)
    simp only [← hlimit]
    by_cases hsmall : limit ≤ 1
    · rw [if_pos hsmall]
      exact Or.inl rfl
    rw [if_neg hsmall]
    cases granted with
    | false => exact Or.inl rfl
    | true =>
      have htwo : 2 ≤ limit.toNat := by
        rw [UInt32.le_iff_toNat_le] at hsmall
        exact Nat.lt_of_not_le hsmall
      have hbytes : ((limit + 7) / 8).toNat = (limit.toNat + 7) / 8 := by
        rw [UInt32.toNat_div, UInt32.toNat_add]
        simp only [UInt32.reduceToNat]
        rw [Nat.mod_eq_of_lt (by omega)]
      refine Or.inr ⟨d, rfl, rfl, ⟨⟨⟨d, rfl, findDevice_type hfind⟩, ?_, htwo, le_rfl, htwo⟩, hval⟩,
        test_replicate_zero _⟩
      show (limit.toNat + 7) / 8 ≤ (Array.replicate ((limit + 7) / 8).toNat 0).size
      rw [Array.size_replicate, hbytes]

/-- The tables that calls of `swapfs_init`, `reserve_slot` and `release_entry` can make, in any order. -/
inductive Reached : SlotTable → Prop
  | boot : Reached boot
  | init {t : SlotTable} (devices : List BlockDevice) (granted : Bool) : Reached t → Reached (swapfsInit devices granted t).2
  | reserve {t : SlotTable} : Reached t → Reached t.reserveSlot.2
  | release {t : SlotTable} (entry : Word) : Reached t → Reached (releaseEntry entry t)

theorem Fitted.reserveSlot (h : t.Fitted d) : t.reserveSlot.2.Fitted d := by
  refine ⟨h.ready.reserveSlot, ?_⟩
  rw [h.ready.reserveSlot_searched.device.2.1]
  exact h.limit

theorem Fitted.releaseEntry (h : t.Fitted d) (entry : Word) : (releaseEntry entry t).Fitted d := by
  rw [SlotTable.releaseEntry]
  split
  · exact ⟨h.ready.setOccupied _ _, h.limit⟩
  · exact h

theorem releaseEntry_device (entry : Word) (t : SlotTable) : (releaseEntry entry t).device = t.device := by
  rw [SlotTable.releaseEntry]
  split <;> rfl

theorem reserveSlot_noDevice (h : t.device = none) : t.reserveSlot.2 = t := by
  rw [SlotTable.reserveSlot, if_neg]
  simp [SlotTable.usable, h]

theorem Reached.fitted (h : t.Reached) (hd : t.device = some d) : t.Fitted d := by
  induction h generalizing d with
  | boot => cases hd
  | @init t devices granted _ ih =>
    obtain hsame | ⟨d', -, hd', hfit, -⟩ := swapfsInit_cases devices granted t
    · rw [hsame] at hd ⊢
      exact ih hd
    · obtain rfl : d' = d := Option.some.inj (hd'.symm.trans hd)
      exact hfit
  | @reserve t _ ih =>
    cases hdev : t.device with
    | none =>
      rw [reserveSlot_noDevice hdev, hdev] at hd
      cases hd
    | some d' =>
      have hfit := ih hdev
      rw [hfit.ready.reserveSlot_searched.device.1] at hd
      exact (ih hd).reserveSlot
  | @release t entry _ ih =>
    rw [releaseEntry_device] at hd
    exact (ih hd).releaseEntry entry
theorem allocatedSlot_spec {entry : Word} (h : t.allocatedSlot entry ≠ 0) :
    1 ≤ t.allocatedSlot entry ∧ t.allocatedSlot entry < t.slotLimit ∧ t.occupied (t.allocatedSlot entry) = true := by
  rw [allocatedSlot] at h ⊢
  generalize UInt32.ofNat (entry >>> 8).toNat = slot at h ⊢
  split at h
  · exact absurd rfl h
  · rename_i hgood
    rw [if_neg hgood]
    by_cases hok : (0 < slot && slot < t.slotLimit && t.occupied slot) = true
    · rw [if_pos hok]
      simp only [Bool.and_eq_true, decide_eq_true_eq] at hok
      exact ⟨UInt32.lt_iff_toNat_lt.1 hok.1.1, hok.1.2, hok.2⟩
    · rw [if_neg hok] at h
      exact absurd rfl h

/-! ## The table refines the bitmap of the address-space model -/

structure Refines (t : SlotTable) (v : State) : Prop where
  device : v.device = t.usable
  limit : v.slotLimit = t.slotLimit.toNat
  cursor : v.nextSlot = t.nextSlot.toNat
  occupied : ∀ i, v.occupied i = test t.slots i

theorem Refines.setOccupied (hr : Refines t v) (hs : slot.toNat / 8 < t.slots.size)
    (value : Bool) : Refines (t.setOccupied slot value) (Vm.setOccupied slot.toNat value v) := by
  refine ⟨?_, hr.limit, hr.cursor, ?_⟩
  · have hsize : (t.setOccupied slot value).slots.size = t.slots.size := assign_size _ _ _
    show v.device = _
    rw [hr.device, usable, usable, Array.isEmpty, Array.isEmpty, hsize]
    rfl
  · intro i
    rw [test_setOccupied hs, ← hr.occupied]
    rfl

theorem Ready.reserveLoop_refines (h : t.Ready) (hr : Refines t v) (n : ℕ) :
    (Vm.reserveLoop n v).1 = (reserveLoop n t).1.toOption.map UInt32.toNat ∧
      Refines (reserveLoop n t).2 (Vm.reserveLoop n v).2 := by
  induction n generalizing t v with
  | zero => exact ⟨rfl, hr⟩
  | succ n ih =>
    have hadv : Refines t.advance
        { v with nextSlot := if v.nextSlot + 1 = v.slotLimit then 1 else v.nextSlot + 1 } := by
      refine ⟨hr.device, hr.limit, ?_, hr.occupied⟩
      rw [h.advance_nextSlot, hr.cursor, hr.limit]
    have hsame : v.occupied v.nextSlot = t.advance.occupied t.nextSlot := by
      rw [hr.cursor]
      exact hr.occupied _
    rw [Vm.reserveLoop, reserveLoop]
    simp only [hsame]
    cases t.advance.occupied t.nextSlot with
    | true => exact ih h.advance hadv
    | false =>
      refine ⟨congrArg some hr.cursor, ?_⟩
      have hbound : t.nextSlot.toNat / 8 < t.advance.slots.size := h.advance.inBounds h.cursor.2
      have hset := hadv.setOccupied hbound true
      rw [← hr.cursor] at hset
      exact hset

theorem Ready.reserveSlot_refines (h : t.Ready) (hr : Refines t v) :
    (Vm.reserveSlot v).1 = t.reserveSlot.1.toOption.map UInt32.toNat ∧ Refines t.reserveSlot.2 (Vm.reserveSlot v).2 := by
  rw [Vm.reserveSlot, SlotTable.reserveSlot, hr.device, h.usable, hr.limit]
  exact h.reserveLoop_refines hr _

theorem Refines.allocatedSlot (hr : Refines t v) (entry : Word) :
    Vm.allocatedSlot v entry = (t.allocatedSlot entry).toNat := by
  have hval : (entry >>> 8).toNat % 2 ^ 32 = (UInt32.ofNat (entry >>> 8).toNat).toNat := (UInt32.toNat_ofNat').symm
  rw [Vm.allocatedSlot, SlotTable.allocatedSlot, hr.device, hr.limit, hval]
  generalize UInt32.ofNat (entry >>> 8).toNat = slot
  split
  · rfl
  · have hocc : v.occupied slot.toNat = t.occupied slot := hr.occupied _
    simp only [hocc, UInt32.lt_iff_toNat_lt, UInt32.toNat_zero]
    split <;> rfl

theorem Ready.releaseEntry_refines (h : t.Ready) (hr : Refines t v) (entry : Word) :
    Refines (releaseEntry entry t) (Vm.releaseEntry entry v) := by
  have hslot := hr.allocatedSlot entry
  rw [Vm.releaseEntry, SlotTable.releaseEntry, hslot]
  by_cases hzero : t.allocatedSlot entry = 0
  · simp only [hzero, ne_eq, not_true_eq_false, if_false]
    exact hr
  · have hnat : (t.allocatedSlot entry).toNat ≠ 0 := fun he => hzero (UInt32.toNat_inj.1 he)
    simp only [ne_eq, hzero, hnat, not_false_eq_true, if_true]
    exact hr.setOccupied (h.inBounds (UInt32.lt_iff_toNat_lt.1 (allocatedSlot_spec hzero).2.1)) false

/-! ## The search is complete -/

/-- Every slot is occupied. -/
def Full (t : SlotTable) : Prop := ∀ slot : UInt32, 1 ≤ slot → slot < t.slotLimit → t.occupied slot = true

/-- `slot` was the first free one going round from the cursor, and `t'` differs from `t` in exactly its bit. -/
structure Takes (t t' : SlotTable) (slot : UInt32) : Prop where
  free : t.occupied slot = false
  first : ∃ k < t.slotLimit.toNat - 1, slot.toNat = t.ahead k ∧ ∀ j < k, test t.slots (t.ahead j) = true
  bits : ∀ i, test t'.slots i = if i = slot.toNat then true else test t.slots i

theorem Ready.full_iff (h : t.Ready) : t.Full ↔ ∀ k < t.slotLimit.toNat - 1, test t.slots (t.ahead k) = true := by
  constructor
  · intro hfull k hk
    obtain ⟨hlow, hhigh⟩ := around_mem h.cursor (show k < t.slotLimit.toNat by omega)
    have hval : (UInt32.ofNat (t.ahead k)).toNat = t.ahead k := by
      rw [UInt32.toNat_ofNat']
      exact Nat.mod_eq_of_lt (lt_trans hhigh t.slotLimit.toNat_lt)
    have hocc := hfull (UInt32.ofNat (t.ahead k)) (by rw [UInt32.le_iff_toNat_le, hval]; exact hlow)
      (by rw [UInt32.lt_iff_toNat_lt, hval]; exact hhigh)
    rwa [occupied, hval] at hocc
  · intro hall slot hlow hhigh
    rw [UInt32.le_iff_toNat_le] at hlow
    rw [UInt32.lt_iff_toNat_lt] at hhigh
    obtain ⟨k, hk, hslot⟩ := exists_around h.cursor ⟨hlow, hhigh⟩
    have hocc := hall k hk
    rwa [ahead, hslot] at hocc

theorem Ready.reserveSlot_full (h : t.Ready) :
    (t.reserveSlot.1 = .error .full ↔ t.Full) ∧ (t.Full → t.reserveSlot.2.slots = t.slots) := by
  have hs := h.reserveSlot_searched
  generalize t.reserveSlot = res at hs ⊢
  rw [h.full_iff]
  cases hs with
  | @found k slot next hk hslot hnext hbefore hfree =>
    have hnot : ¬∀ k < t.slotLimit.toNat - 1, test t.slots (t.ahead k) = true := by
      intro hall
      have hocc := hall k hk
      rw [← hslot] at hocc
      exact Bool.false_ne_true (hfree.symm.trans hocc)
    exact ⟨⟨nofun, fun hall => absurd hall hnot⟩, fun hall => absurd hall hnot⟩
  | passed hnext hall => exact ⟨⟨fun _ => hall, fun _ => rfl⟩, fun _ => rfl⟩

theorem Ready.reserveSlot_takes (h : t.Ready) (hfull : ¬t.Full) :
    ∃ slot, t.reserveSlot.1 = .ok slot ∧ Takes t t.reserveSlot.2 slot := by
  have hs := h.reserveSlot_searched
  have hl := h.limit
  generalize t.reserveSlot = res at hs ⊢
  rw [h.full_iff] at hfull
  cases hs with
  | @found k slot next hk hslot hnext hbefore hfree =>
    have hmem := around_mem h.cursor (show k < t.slotLimit.toNat by omega)
    have hin : slot.toNat / 8 < t.slots.size := h.inBounds (by rw [hslot]; exact hmem.2)
    exact ⟨slot, rfl, hfree, ⟨k, hk, hslot, hbefore⟩, test_assign hin true⟩
  | passed hnext hall => exact absurd hall hfull

/-! ## Slots and blocks -/

/-- The blocks of a slot. -/
def blocks (slot : UInt32) : Finset ℕ := Finset.Ico ((slot.toNat - 1) * 8) (slot.toNat * 8)

theorem blocks_disjoint {slot' : UInt32} (hne : slot ≠ slot') :
    Disjoint (blocks slot) (blocks slot') := by
  have hnat : slot.toNat ≠ slot'.toNat := fun he => hne (UInt32.toNat_inj.1 he)
  rw [Finset.disjoint_left]
  intro b hb hb'
  rw [blocks, Finset.mem_Ico] at hb hb'
  omega

theorem Fitted.startLba (h : t.Fitted d) (hlow : 1 ≤ slot)
    (hhigh : slot < t.slotLimit) :
    (startLba slot).toNat = (slot.toNat - 1) * 8 ∧ slot.toNat * 8 ≤ d.blockCount.toNat := by
  have hl := h.limit
  have hone : (1 : UInt32).toNat = 1 := rfl
  have hpred : (slot - 1).toNat = slot.toNat - 1 := UInt32.toNat_sub_of_le _ _ hlow
  rw [UInt32.le_iff_toNat_le] at hlow
  rw [UInt32.lt_iff_toNat_lt] at hhigh
  rw [SlotTable.startLba, UInt32.toNat_ofNat', hpred, blocksPerPage]
  refine ⟨Nat.mod_eq_of_lt ?_, ?_⟩
  · omega
  · omega

theorem swapfsBlocks_ok {entry : Word} {lba : UInt32} (h : t.swapfsBlocks entry = .ok (lba, n)) :
    ∃ slot, 1 ≤ slot ∧ slot < t.slotLimit ∧ t.occupied slot = true ∧ lba = SlotTable.startLba slot ∧ n = 8 := by
  rw [swapfsBlocks] at h
  split at h
  · cases h
  · by_cases hzero : t.allocatedSlot entry = 0
    · simp only [hzero, if_true] at h
      cases h
    · simp only [hzero, if_false] at h
      cases h
      obtain ⟨hlow, hhigh, hocc⟩ := allocatedSlot_spec hzero
      exact ⟨t.allocatedSlot entry, hlow, hhigh, hocc, rfl, rfl⟩

theorem slot_search_complete :
    (∀ t : SlotTable, t.Ready →
      ((t.reserveSlot.1 = .error .full ↔ t.Full) ∧ (t.Full → t.reserveSlot.2.slots = t.slots)) ∧
      (¬t.Full → ∃ slot, t.reserveSlot.1 = .ok slot ∧ Takes t t.reserveSlot.2 slot) ∧
      (1 ≤ t.reserveSlot.2.nextSlot.toNat ∧ t.reserveSlot.2.nextSlot.toNat < t.slotLimit.toNat) ∧
      t.reserveSlot.2.slotLimit = t.slotLimit) ∧
    ∀ t : SlotTable, t.Reached → ∀ d, t.device = some d →
      t.Ready ∧
      (∀ slot, 1 ≤ slot → slot < t.slotLimit →
        (SlotTable.startLba slot).toNat = (slot.toNat - 1) * 8 ∧ (∀ b ∈ blocks slot, b < d.blockCount.toNat) ∧
        ∀ slot', slot ≠ slot' → Disjoint (blocks slot) (blocks slot')) ∧
      ∀ entry lba n, t.swapfsBlocks entry = .ok (lba, n) →
        ∃ slot, 1 ≤ slot ∧ slot < t.slotLimit ∧ t.occupied slot = true ∧ lba = SlotTable.startLba slot ∧ n = 8 := by
  constructor
  · intro t h
    have hl := h.limit
    have hs := h.reserveSlot_searched
    exact ⟨h.reserveSlot_full, h.reserveSlot_takes, h.searched_cursor (by omega) hs, hs.device.2.1⟩
  · intro t ht d hd
    have hfit := ht.fitted hd
    refine ⟨hfit.ready, ?_, fun _ _ _ h => swapfsBlocks_ok h⟩
    intro slot hlow hhigh
    obtain ⟨hlba, hin⟩ := hfit.startLba hlow hhigh
    refine ⟨hlba, ?_, fun _ hne => blocks_disjoint hne⟩
    intro b hb
    rw [blocks, Finset.mem_Ico] at hb
    omega

/-- Four slots on a device of 32 blocks; slots 1, 2 and 3 are occupied and the cursor is at the third. -/
def fourSlots : SlotTable := ⟨some ⟨.swap, 32⟩, #[0b01110], 5, 3⟩

example : fourSlots.reserveSlot = (.ok 4, ⟨some ⟨.swap, 32⟩, #[0b11110], 5, 1⟩) := by rfl

theorem slot_search_complete_fourSlots :
    ∃ slot, fourSlots.reserveSlot.1 = .ok slot ∧ Takes fourSlots fourSlots.reserveSlot.2 slot := by
  have hready : fourSlots.Ready := ⟨⟨_, rfl, rfl⟩, by decide, by decide, by decide⟩
  refine (slot_search_complete.1 fourSlots hready).2.1 fun hfull => ?_
  exact absurd (hfull 4 (by decide) (by decide)) (by decide)

end SlotTable

end Zonix.Vm
