import Mathlib
import Zonix.Lib.Blit
import Zonix.Lib.Tight
import Zonix.Vm.PageTable

/-!
# Copies between the kernel and user memory

`pmm::user_address` of `kernel/mm/pmm.cpp` and `user_range_valid`, `copy_user` of `kernel/mm/vmm.cpp` over physical
memory as bytes. A kernel alias of a user address is its physical address; the kernel's own buffer lies elsewhere.
-/

namespace Zonix.Vm

open Zonix.Lib.Radix Zonix.Lib.Bits

abbrev Byte := BitVec 8

/-- The frames of a memory as tables of little-endian words. -/
def heapOf (mem : ℕ → Byte) : Heap 512 Word := fun f i =>
  BitVec.ofNat 64 ((List.range 8).foldr (fun k n => (mem (f * pgSize + 8 * i + k)).toNat + 256 * n) 0)

def userLeafAddress (a : Arch) (entry : Word) (va l : ℕ) (write : Bool) : Option ℕ :=
  if a.pteUserAccessible entry write then some ((a.leafBase entry l).toNat + va % 2 ^ levelShift l) else none

/-- The walk of `user_address` from a table at level `l` on. -/
def userAddressFrom (a : Arch) (h : Heap 512 Word) (va : ℕ) (write : Bool) : ℕ → ℕ → Option ℕ
  | 0, table =>
    let entry := h table (levelIndex va 0)
    if a.ptePresent entry then userLeafAddress a entry va 0 write else none
  | l + 1, table =>
    let entry := h table (levelIndex va (l + 1))
    if a.ptePresent entry then
      if a.pteIsBlock entry then userLeafAddress a entry va (l + 1) write
      else if a.pteUserTableAccessible entry write then
        userAddressFrom a h va write l (physToPage (a.pteAddr entry))
      else none
    else none

def userAddress (a : Arch) (h : Heap 512 Word) (pgdir userVa : ℕ) (write : Bool) : Option ℕ :=
  if pgSize ≤ userVa ∧ userVa < a.userSpaceTop then userAddressFrom a h userVa write (a.ptWalkLevels - 1) pgdir
  else none

def chunkBytes (va byteCount : ℕ) : ℕ := min (pgSize - va % pgSize) byteCount

def userRangeLoop (a : Arch) (h : Heap 512 Word) (pgdir : ℕ) (write : Bool) : ℕ → ℕ → ℕ → Bool
  | 0, _, _ => true
  | fuel + 1, va, byteCount =>
    if byteCount = 0 then true
    else (userAddress a h pgdir va write).isSome &&
      userRangeLoop a h pgdir write fuel (va + chunkBytes va byteCount) (byteCount - chunkBytes va byteCount)

def userRangeValid (a : Arch) (h : Heap 512 Word) (mm : Option ℕ) (userVa byteCount : ℕ) (write : Bool) : Bool :=
  match mm with
  | none => false
  | some pgdir =>
    if userVa < pgSize ∨ a.userSpaceTop ≤ userVa ∨ a.userSpaceTop - userVa < byteCount then false
    else userRangeLoop a h pgdir write byteCount userVa byteCount

/-- Physical memory without the kernel buffer, the buffer, and the ranges copied so far: physical address, offset in
the buffer and length. -/
structure CopyState where
  mem : ℕ → Byte
  buf : ℕ → Byte
  touched : List (ℕ × ℕ × ℕ)

def CopyState.copy (s : CopyState) (toUser : Bool) (pa off n : ℕ) : CopyState :=
  { mem := if toUser then blit s.mem pa s.buf off n else s.mem
    buf := if toUser then s.buf else blit s.buf off s.mem pa n
    touched := s.touched ++ [(pa, off, n)] }

def copyLoop (a : Arch) (pgdir : ℕ) (toUser : Bool) : ℕ → ℕ → ℕ → ℕ → CopyState → Error × CopyState
  | 0, _, _, _, s => (.none, s)
  | fuel + 1, va, off, byteCount, s =>
    if byteCount = 0 then (.none, s)
    else
      match userAddress a (heapOf s.mem) pgdir va toUser with
      | none => (.invalid, s)
      | some pa =>
        let chunk := chunkBytes va byteCount
        copyLoop a pgdir toUser fuel (va + chunk) (off + chunk) (byteCount - chunk) (s.copy toUser pa off chunk)

def copyUser (a : Arch) (mm : Option ℕ) (userVa : ℕ) (null : Bool) (byteCount : ℕ) (toUser : Bool) (s : CopyState) :
    Error × CopyState :=
  match mm with
  | none => (.invalid, s)
  | some pgdir =>
    if null = false ∧ userRangeValid a (heapOf s.mem) mm userVa byteCount toUser = true then
      copyLoop a pgdir toUser byteCount userVa 0 byteCount s
    else (.invalid, s)

/-! ## User access as the hardware decides it -/

def Attrs.allows (x : Attrs) (write : Bool) : Bool := x.user && x.read && (!write || x.write)

theorem pteUserAccessible_eq (a : Arch) (w : Word) (l : ℕ) (write : Bool) (hp : a.ptePresent w = true) :
    a.pteUserAccessible w write = (a.attrs w l).allows write := by
  cases a with
  | x86 =>
    have hp : X86.ptePresent w = true := hp
    simp [Arch.pteUserAccessible, X86.pteUserAccessible, Arch.attrs, Attrs.allows, hp]
  | aarch64 =>
    have hp : AArch64.ptePresent w = true := hp
    simp [Arch.pteUserAccessible, AArch64.pteUserAccessible, Arch.attrs, Attrs.allows, hp]
  | riscv64 =>
    have hp : Riscv.ptePresent w = true := hp
    simp [Arch.pteUserAccessible, Riscv.pteUserAccessible, Arch.attrs, Attrs.allows, hp]

theorem allows_limit (a : Arch) (w : Word) (x : Attrs) (write : Bool) (hp : a.ptePresent w = true) :
    (x.limit (a.limits w)).allows write = (x.allows write && a.pteUserTableAccessible w write) := by
  cases a with
  | x86 =>
    have hp : X86.ptePresent w = true := hp
    simp only [Attrs.allows, Attrs.limit, Arch.limits, Arch.pteUserTableAccessible, X86.pteUserTableAccessible,
      X86.pteUserAccessible, hp, Bool.not_not, Bool.true_and]
    cases write <;> cases x.user <;> cases x.read <;> cases x.write <;> simp
  | aarch64 =>
    simp only [Attrs.allows, Attrs.limit, Arch.limits, Arch.pteUserTableAccessible, AArch64.pteUserTableAccessible,
      Bool.not_not]
    cases write <;> cases x.user <;> cases x.read <;> cases x.write <;> simp
  | riscv64 =>
    simp [Attrs.allows, Attrs.limit, Arch.limits, Arch.pteUserTableAccessible, Riscv.pteUserTableAccessible]

theorem userAddressFrom_eq (a : Arch) (h : Heap 512 Word) (va : ℕ) (write : Bool) (l f : ℕ) :
    userAddressFrom a h va write l f = (translateWith a a.limits h va l f).bind fun x =>
      if x.attrs.allows write then some x.pa else none := by
  induction l generalizing f with
  | zero =>
    simp only [userAddressFrom, translateWith]
    by_cases hp : a.ptePresent (h f (levelIndex va 0)) = true
    · rw [if_pos hp, if_pos hp, userLeafAddress, pteUserAccessible_eq a _ 0 write hp]
      rfl
    · rw [if_neg hp, if_neg hp]
      rfl
  | succ l ih =>
    simp only [userAddressFrom, translateWith, Arch.tableOf]
    by_cases hp : a.ptePresent (h f (levelIndex va (l + 1))) = true
    · cases hb : a.pteIsBlock (h f (levelIndex va (l + 1))) with
      | true =>
        rw [if_pos hp, if_pos rfl, hp, if_pos rfl]
        simp only [Bool.not_true, Bool.and_false, Bool.false_eq_true, if_false]
        rw [userLeafAddress, pteUserAccessible_eq a _ (l + 1) write hp]
        rfl
      | false =>
        rw [if_pos hp, if_neg (by simp), ih]
        simp only [hp, Bool.not_false, Bool.and_self, if_true]
        cases translateWith a a.limits h va l (physToPage (a.pteAddr (h f (levelIndex va (l + 1))))) with
        | none => simp
        | some x =>
          simp only [Option.map_some, Option.bind_some, allows_limit a _ x.attrs write hp]
          cases a.pteUserTableAccessible (h f (levelIndex va (l + 1))) write <;> simp
    · simp [hp]

/-! ## Addresses of one page -/

variable {a : Arch} {h h' : Heap 512 Word} {pgdir va i n l f : ℕ} {write : Bool}

theorem two_pow_levelShift (l : ℕ) : 2 ^ levelShift l = 4096 * 2 ^ (9 * l) := by
  rw [levelShift, pow_add]
  rfl

theorem levelIndex_add (hi : va % pgSize + i < pgSize) (l : ℕ) : levelIndex (va + i) l = levelIndex va l := by
  have hpage : (va + i) / 4096 = va / 4096 := by
    unfold pgSize at hi
    omega
  apply Fin.ext
  simp only [levelIndex, two_pow_levelShift, ← Nat.div_div_eq_div_mul, hpage]

theorem mod_levelShift_add (hi : va % pgSize + i < pgSize) (l : ℕ) :
    (va + i) % 2 ^ levelShift l = va % 2 ^ levelShift l + i := by
  have hpage : (va + i) / 4096 = va / 4096 ∧ (va + i) % 4096 = va % 4096 + i := by
    unfold pgSize at hi
    omega
  rw [two_pow_levelShift, Nat.mod_mul, Nat.mod_mul, hpage.1, hpage.2]
  omega

theorem userLeafAddress_add (entry : Word) (hi : va % pgSize + i < pgSize) :
    userLeafAddress a entry (va + i) l write = (userLeafAddress a entry va l write).map (· + i) := by
  rw [userLeafAddress, userLeafAddress, mod_levelShift_add hi]
  split
  · simp [Nat.add_assoc]
  · rfl

theorem userAddressFrom_add (hi : va % pgSize + i < pgSize) (l f : ℕ) :
    userAddressFrom a h (va + i) write l f = (userAddressFrom a h va write l f).map (· + i) := by
  induction l generalizing f with
  | zero =>
    simp only [userAddressFrom, levelIndex_add hi, userLeafAddress_add _ hi]
    split <;> rfl
  | succ l ih =>
    simp only [userAddressFrom, levelIndex_add hi, userLeafAddress_add _ hi, ih]
    split
    · split
      · rfl
      · split <;> rfl
    · rfl

theorem userAddress_add (hi : va % pgSize + i < pgSize) :
    userAddress a h pgdir (va + i) write = (userAddress a h pgdir va write).map (· + i) := by
  have hrange : (pgSize ≤ va + i ∧ va + i < a.userSpaceTop) ↔ (pgSize ≤ va ∧ va < a.userSpaceTop) := by
    unfold pgSize at hi ⊢
    cases a with
    | x86 =>
      simp only [Arch.userSpaceTop]
      omega
    | aarch64 =>
      simp only [Arch.userSpaceTop]
      omega
    | riscv64 =>
      simp only [Arch.userSpaceTop]
      omega
  simp only [userAddress, hrange, userAddressFrom_add hi]
  split <;> rfl

theorem userLeafAddress_mod {entry : Word} {pa : ℕ} (hpa : userLeafAddress a entry va l write = some pa) :
    pa % pgSize = va % pgSize := by
  rw [userLeafAddress] at hpa
  split at hpa
  · rw [Option.some.injEq] at hpa
    rw [← hpa, Arch.leafBase, toNat_and_not_lowMask, two_pow_levelShift, pgSize, Nat.mod_mul, Nat.mul_comm 4096,
      ← Nat.mul_assoc]
    omega
  · cases hpa

theorem userAddressFrom_mod {pa : ℕ} (hpa : userAddressFrom a h va write l f = some pa) : pa % pgSize = va % pgSize := by
  induction l generalizing f with
  | zero =>
    simp only [userAddressFrom] at hpa
    split at hpa
    · exact userLeafAddress_mod hpa
    · cases hpa
  | succ l ih =>
    simp only [userAddressFrom] at hpa
    split at hpa
    · split at hpa
      · exact userLeafAddress_mod hpa
      · split at hpa
        · exact ih hpa
        · cases hpa
    · cases hpa

theorem userAddress_mod {pa : ℕ} (hpa : userAddress a h pgdir va write = some pa) : pa % pgSize = va % pgSize := by
  rw [userAddress] at hpa
  split at hpa
  · exact userAddressFrom_mod hpa
  · cases hpa

/-! ## The range check -/

theorem chunkBytes_pos (va : ℕ) (hn : n ≠ 0) : 0 < chunkBytes va n ∧ chunkBytes va n ≤ n := by
  unfold chunkBytes pgSize
  omega

theorem chunkBytes_page (hi : i < chunkBytes va n) : va % pgSize + i < pgSize := by
  unfold chunkBytes pgSize at *
  omega

theorem userRangeLoop_iff (fuel va n : ℕ) (hfuel : n ≤ fuel) :
    userRangeLoop a h pgdir write fuel va n = true ↔ ∀ i < n, (userAddress a h pgdir (va + i) write).isSome = true := by
  induction fuel generalizing va n with
  | zero =>
    obtain rfl : n = 0 := by omega
    simp [userRangeLoop]
  | succ fuel ih =>
    rw [userRangeLoop]
    by_cases hz : n = 0
    · simp [hz]
    · obtain ⟨hpos, hle⟩ := chunkBytes_pos va hz
      have hpage : ∀ i < chunkBytes va n, (userAddress a h pgdir (va + i) write).isSome =
          (userAddress a h pgdir va write).isSome := fun i hi => by
        rw [userAddress_add (chunkBytes_page hi), Option.isSome_map]
      rw [if_neg hz, Bool.and_eq_true, ih _ _ (by omega)]
      constructor
      · rintro ⟨hfirst, hrest⟩ i hi
        by_cases hin : i < chunkBytes va n
        · rw [hpage i hin, hfirst]
        · have := hrest (i - chunkBytes va n) (by omega)
          rwa [Nat.add_assoc, Nat.add_sub_cancel' (by omega)] at this
      · intro hall
        refine ⟨by rw [← hpage 0 hpos]; exact hall 0 (by omega), fun i hi => ?_⟩
        rw [Nat.add_assoc]
        exact hall _ (by omega)

def UserReachable (a : Arch) (h : Heap 512 Word) (pgdir va : ℕ) (write : Bool) : Prop :=
  ∃ x, translate a h pgdir va = some x ∧ x.attrs.allows write = true

/-- The physical address behind `va`. -/
def userPa (a : Arch) (h : Heap 512 Word) (pgdir va : ℕ) : ℕ := ((translate a h pgdir va).map Mapping.pa).getD 0

theorem userAddress_eq (hva : pgSize ≤ va ∧ va < a.userSpaceTop) (hr : UserReachable a h pgdir va write) :
    userAddress a h pgdir va write = some (userPa a h pgdir va) := by
  obtain ⟨x, hx, hallow⟩ := hr
  have hx' : translateWith a a.limits h va (a.ptWalkLevels - 1) pgdir = some x := hx
  rw [userAddress, if_pos hva, userAddressFrom_eq, hx', userPa, hx]
  exact if_pos hallow

theorem userAddress_isSome (hva : pgSize ≤ va ∧ va < a.userSpaceTop) :
    (userAddress a h pgdir va write).isSome = true ↔ UserReachable a h pgdir va write := by
  constructor
  · intro hs
    rw [userAddress, if_pos hva, userAddressFrom_eq] at hs
    obtain ⟨pa, hpa⟩ := Option.isSome_iff_exists.1 hs
    obtain ⟨x, hx, hallow⟩ := Option.bind_eq_some_iff.1 hpa
    refine ⟨x, hx, ?_⟩
    by_contra hn
    rw [if_neg hn] at hallow
    cases hallow
  · intro hr
    rw [userAddress_eq hva hr]
    rfl

/-- The range is in user space and user mode may access all of it. -/
def UserRange (a : Arch) (h : Heap 512 Word) (pgdir va n : ℕ) (write : Bool) : Prop :=
  pgSize ≤ va ∧ va + n ≤ a.userSpaceTop ∧ ∀ i < n, UserReachable a h pgdir (va + i) write

theorem userRangeValid_iff (hn : 0 < n) :
    userRangeValid a h (some pgdir) va n write = true ↔ UserRange a h pgdir va n write := by
  rw [userRangeValid]
  by_cases hout : va < pgSize ∨ a.userSpaceTop ≤ va ∨ a.userSpaceTop - va < n
  · rw [if_pos hout]
    refine ⟨nofun, fun hr => ?_⟩
    have := hr.1
    have := hr.2.1
    omega
  · rw [if_neg hout, userRangeLoop_iff n va n (Nat.le_refl n)]
    have hin : ∀ i < n, pgSize ≤ va + i ∧ va + i < a.userSpaceTop := fun i hi => by omega
    constructor
    · intro hall
      exact ⟨by omega, by omega, fun i hi => (userAddress_isSome (hin i hi)).1 (hall i hi)⟩
    · intro hr i hi
      exact (userAddress_isSome (hin i hi)).2 (hr.2.2 i hi)

/-! ## The copy loop -/

def tableFrames (a : Arch) (h : Heap 512 Word) (pgdir : ℕ) : Multiset ℕ := nodes a.tableOf h (a.ptWalkLevels - 1) pgdir

theorem userAddress_congr (hh : ∀ g ∈ tableFrames a h pgdir, h' g = h g) (va : ℕ) :
    userAddress a h' pgdir va write = userAddress a h pgdir va write := by
  rw [userAddress, userAddress, userAddressFrom_eq, userAddressFrom_eq, translateWith_congr hh]

theorem heapOf_congr {mem mem' : ℕ → Byte} {g : ℕ} (hm : ∀ j, j / pgSize = g → mem' j = mem j) :
    heapOf mem' g = heapOf mem g := by
  funext i
  have hi := i.isLt
  have hbyte : ∀ k < 8, mem' (g * pgSize + 8 * i + k) = mem (g * pgSize + 8 * i + k) := by
    intro k hk
    refine hm _ ?_
    rw [pgSize]
    omega
  have hfold : ∀ l : List ℕ, (∀ k ∈ l, k < 8) →
      l.foldr (fun k n => (mem' (g * pgSize + 8 * i + k)).toNat + 256 * n) 0 =
        l.foldr (fun k n => (mem (g * pgSize + 8 * i + k)).toNat + 256 * n) 0 := by
    intro l hl
    induction l with
    | nil => rfl
    | cons k l ih =>
      rw [List.foldr_cons, List.foldr_cons, ih fun k' hk' => hl k' (List.mem_cons_of_mem _ hk'),
        hbyte k (hl k List.mem_cons_self)]
  rw [heapOf, heapOf, hfold _ fun k hk => List.mem_range.1 hk]

theorem heapOf_blit {mem buf : ℕ → Byte} {pa off g : ℕ} (hg : ∀ i < n, (pa + i) / pgSize ≠ g) :
    heapOf (blit mem pa buf off n) g = heapOf mem g := by
  refine heapOf_congr fun j hj => blit_out fun hin => hg (j - pa) (by omega) ?_
  rw [Nat.add_sub_cancel' hin.1, hj]

theorem heapOf_scatter {mem src : ℕ → Byte} {p : ℕ → ℕ} {g : ℕ} (hg : ∀ i < n, p i / pgSize ≠ g) :
    heapOf (scatter mem p src n) g = heapOf mem g := by
  refine heapOf_congr fun j hj => scatter_out fun i hi hpj => hg i hi ?_
  rw [hpj, hj]

/-- What `n` bytes copied between the places `p` and offset `off` of the buffer make of a state. -/
def CopyState.moved (s : CopyState) (toUser : Bool) (p : ℕ → ℕ) (off n : ℕ) : (ℕ → Byte) × (ℕ → Byte) :=
  if toUser then (scatter s.mem p (fun i => s.buf (off + i)) n, s.buf)
  else (s.mem, blit s.buf off (fun i => s.mem (p i)) 0 n)

/-- The range of one `memcpy` is inside a frame, where `p` places the bytes from the range's offset on. -/
def CopyRange (p : ℕ → ℕ) (off n : ℕ) (c : ℕ × ℕ × ℕ) : Prop :=
  ∃ i, i + c.2.2 ≤ n ∧ c.2.1 = off + i ∧ c.1 % pgSize + c.2.2 ≤ pgSize ∧ ∀ j < c.2.2, c.1 + j = p (i + j)

variable {s : CopyState} {toUser : Bool} {off : ℕ} {p : ℕ → ℕ}

theorem moved_zero (s : CopyState) (toUser : Bool) (p : ℕ → ℕ) (off : ℕ) :
    s.moved toUser p off 0 = (s.mem, s.buf) := by
  rw [CopyState.moved, blit_zero]
  cases toUser <;> rfl

theorem moved_copy {k m : ℕ} (hp : ∀ j < k, p j = p 0 + j) :
    (s.copy toUser (p 0) off k).moved toUser (fun i => p (k + i)) (off + k) m = s.moved toUser p off (k + m) := by
  cases toUser with
  | true =>
    simp only [CopyState.moved, CopyState.copy, if_true]
    rw [scatter_add, scatter_run s.mem hp s.buf off]
    simp only [Nat.add_assoc]
  | false =>
    simp only [CopyState.moved, CopyState.copy, Bool.false_eq_true, if_false]
    have hhead : blit s.buf off s.mem (p 0) k = blit s.buf off (fun i => s.mem (p i)) 0 k :=
      blit_shift (fun j hj => by rw [Nat.zero_add, hp j hj]) _ _
    have htail : ∀ b, blit b (off + k) (fun i => s.mem (p (k + i))) 0 m = blit b (off + k) (fun i => s.mem (p i)) k m :=
      fun b => blit_shift (fun j _ => by rw [Nat.zero_add]) _ _
    rw [hhead, htail, ← blit_add s.buf (fun i => s.mem (p i)) off 0 k m, Nat.zero_add]

theorem copyLoop_spec (fuel va off n : ℕ) (hfuel : n ≤ fuel) (s : CopyState) (p : ℕ → ℕ)
    (hp : ∀ i < n, userAddress a (heapOf s.mem) pgdir (va + i) toUser = some (p i))
    (hpriv : toUser = true → ∀ i < n, p i / pgSize ∉ tableFrames a (heapOf s.mem) pgdir) :
    ∃ l, (∀ c ∈ l, CopyRange p off n c) ∧ copyLoop a pgdir toUser fuel va off n s =
      (.none, ⟨(s.moved toUser p off n).1, (s.moved toUser p off n).2, s.touched ++ l⟩) := by
  induction fuel generalizing va off n s p with
  | zero =>
    obtain rfl : n = 0 := by omega
    refine ⟨[], nofun, ?_⟩
    rw [moved_zero, List.append_nil]
    rfl
  | succ fuel ih =>
    rw [copyLoop]
    by_cases hz : n = 0
    · refine ⟨[], nofun, ?_⟩
      rw [if_pos hz, hz, moved_zero, List.append_nil]
    · obtain ⟨hpos, hle⟩ := chunkBytes_pos va hz
      have hfirst : userAddress a (heapOf s.mem) pgdir va toUser = some (p 0) := hp 0 (by omega)
      obtain ⟨k, hk⟩ : ∃ k, chunkBytes va n = k := ⟨_, rfl⟩
      rw [hk] at hpos hle
      obtain ⟨m, rfl⟩ : ∃ m, n = k + m := ⟨n - k, by omega⟩
      have hrun : ∀ j < k, p j = p 0 + j := fun j hj => by
        have hpage : userAddress a (heapOf s.mem) pgdir (va + j) toUser =
            (userAddress a (heapOf s.mem) pgdir va toUser).map (· + j) :=
          userAddress_add (chunkBytes_page (hk.symm ▸ hj))
        rw [hp j (by omega), hfirst, Option.map_some, Option.some.injEq] at hpage
        exact hpage
      have hsame : ∀ g ∈ tableFrames a (heapOf s.mem) pgdir,
          heapOf (s.copy toUser (p 0) off k).mem g = heapOf s.mem g := by
        intro g hg
        cases toUser with
        | true =>
          refine heapOf_blit fun j hj hpg => hpriv rfl j (by omega) ?_
          rw [hrun j hj, hpg]
          exact hg
        | false => rfl
      have hframes : tableFrames a (heapOf (s.copy toUser (p 0) off k).mem) pgdir = tableFrames a (heapOf s.mem) pgdir :=
        nodes_congr hsame
      obtain ⟨l, hl, hloop⟩ := ih (va + k) (off + k) m (by omega) (s.copy toUser (p 0) off k) (fun i => p (k + i))
        (fun i hi => by rw [userAddress_congr hsame, Nat.add_assoc]; exact hp (k + i) (by omega))
        (fun ht i hi => by rw [hframes]; exact hpriv ht (k + i) (by omega))
      refine ⟨(p 0, off, k) :: l, fun c hc => ?_, ?_⟩
      · rw [List.mem_cons] at hc
        cases hc with
        | inl hc =>
          have hlast : va % pgSize + (k - 1) < pgSize :=
            chunkBytes_page (show k - 1 < chunkBytes va (k + m) by omega)
          have hmod := userAddress_mod hfirst
          rw [hc]
          refine ⟨0, (Nat.zero_add k).le.trans (Nat.le_add_right k m), rfl, ?_, fun j hj => ?_⟩
          · rw [hmod]
            simp only
            omega
          · rw [Nat.zero_add, hrun j hj]
        | inr hc =>
          obtain ⟨i, hi, hoff, hpg, hplace⟩ := hl c hc
          refine ⟨k + i, by omega, by omega, hpg, fun j hj => ?_⟩
          rw [hplace j hj, Nat.add_assoc]
      · rw [if_neg hz, hfirst]
        simp only [hk, Nat.add_sub_cancel_left]
        rw [hloop, moved_copy hrun, CopyState.copy, List.append_assoc]
        rfl

/-! ## Copies as a whole -/

/-- No user mapping shows one of the page tables. -/
def TablesPrivate (a : Arch) (h : Heap 512 Word) (pgdir : ℕ) : Prop :=
  ∀ va, UserReachable a h pgdir va true → userPa a h pgdir va / pgSize ∉ tableFrames a h pgdir

theorem copyUser_valid {va n : ℕ} (hn : 0 < n) (hpt : TablesPrivate a (heapOf s.mem) pgdir)
    (hr : UserRange a (heapOf s.mem) pgdir va n toUser) :
    ∃ l, (∀ c ∈ l, CopyRange (fun i => userPa a (heapOf s.mem) pgdir (va + i)) 0 n c) ∧
      copyUser a (some pgdir) va false n toUser s =
        (.none, ⟨(s.moved toUser (fun i => userPa a (heapOf s.mem) pgdir (va + i)) 0 n).1,
          (s.moved toUser (fun i => userPa a (heapOf s.mem) pgdir (va + i)) 0 n).2, s.touched ++ l⟩) := by
  obtain ⟨l, hl, hloop⟩ := copyLoop_spec n va 0 n (Nat.le_refl n) s
    (fun i => userPa a (heapOf s.mem) pgdir (va + i))
    (fun i hi => userAddress_eq ⟨by have := hr.1; omega, by have := hr.2.1; omega⟩ (hr.2.2 i hi))
    (fun ht i hi => hpt (va + i) (ht ▸ hr.2.2 i hi))
  refine ⟨l, hl, ?_⟩
  rw [copyUser, if_pos ⟨rfl, (userRangeValid_iff hn).2 hr⟩]
  exact hloop

theorem copyUser_zero (hva : pgSize ≤ va ∧ va < a.userSpaceTop) : copyUser a (some pgdir) va false 0 toUser s = (.none, s) := by
  have hvalid : userRangeValid a (heapOf s.mem) (some pgdir) va 0 toUser = true := by
    rw [userRangeValid, if_neg (by omega)]
    rfl
  rw [copyUser, if_pos ⟨rfl, hvalid⟩]
  rfl

/-! Memory changes that leave the tables alone. -/

theorem translate_congr (hh : ∀ g ∈ tableFrames a h pgdir, h' g = h g) (va : ℕ) :
    translate a h' pgdir va = translate a h pgdir va := translateWith_congr hh

theorem userPa_congr (hh : ∀ g ∈ tableFrames a h pgdir, h' g = h g) (va : ℕ) :
    userPa a h' pgdir va = userPa a h pgdir va := by
  rw [userPa, userPa, translate_congr hh]

theorem UserRange.congr (hr : UserRange a h pgdir va n write) (hh : ∀ g ∈ tableFrames a h pgdir, h' g = h g) :
    UserRange a h' pgdir va n write := by
  refine ⟨hr.1, hr.2.1, fun i hi => ?_⟩
  rw [UserReachable, translate_congr hh]
  exact hr.2.2 i hi

theorem TablesPrivate.congr (hp : TablesPrivate a h pgdir) (hh : ∀ g ∈ tableFrames a h pgdir, h' g = h g) :
    TablesPrivate a h' pgdir := by
  intro va hr
  rw [UserReachable, translate_congr hh] at hr
  rw [userPa_congr hh, tableFrames, nodes_congr hh]
  exact hp va hr

theorem UserRange.take {m : ℕ} (hr : UserRange a h pgdir va n write) (hm : m ≤ n) : UserRange a h pgdir va m write :=
  ⟨hr.1, by have := hr.2.1; omega, fun i hi => hr.2.2 i (by omega)⟩

theorem UserRange.sub {d m : ℕ} (hr : UserRange a h pgdir va n write) (hm : d + m ≤ n) :
    UserRange a h pgdir (va + d) m write := by
  refine ⟨by have := hr.1; omega, by have := hr.2.1; omega, fun i hi => ?_⟩
  rw [Nat.add_assoc]
  exact hr.2.2 (d + i) (by omega)

/-- Copies between the kernel and user memory transfer the whole range or nothing. -/
theorem copy_user_all_or_nothing (a : Arch) (pgdir va n : ℕ) (toUser : Bool) (s : CopyState) (hn : 0 < n)
    (hpt : TablesPrivate a (heapOf s.mem) pgdir) :
    ((copyUser a (some pgdir) va false n toUser s).1 = .none ↔ UserRange a (heapOf s.mem) pgdir va n toUser) ∧
    (UserRange a (heapOf s.mem) pgdir va n toUser →
      ((copyUser a (some pgdir) va false n toUser s).2.mem, (copyUser a (some pgdir) va false n toUser s).2.buf) =
        s.moved toUser (fun i => userPa a (heapOf s.mem) pgdir (va + i)) 0 n ∧
      ∃ l, (copyUser a (some pgdir) va false n toUser s).2.touched = s.touched ++ l ∧
        ∀ c ∈ l, CopyRange (fun i => userPa a (heapOf s.mem) pgdir (va + i)) 0 n c) ∧
    (¬UserRange a (heapOf s.mem) pgdir va n toUser → (copyUser a (some pgdir) va false n toUser s).2 = s) := by
  have hbad : ¬UserRange a (heapOf s.mem) pgdir va n toUser →
      copyUser a (some pgdir) va false n toUser s = (.invalid, s) := by
    intro hr
    rw [copyUser, if_neg fun hv => hr ((userRangeValid_iff hn).1 hv.2)]
  refine ⟨⟨fun hok => ?_, fun hr => ?_⟩, fun hr => ?_, fun hr => by rw [hbad hr]⟩
  · by_contra hr
    rw [hbad hr] at hok
    cases hok
  · obtain ⟨l, -, hcopy⟩ := copyUser_valid hn hpt hr
    rw [hcopy]
  · obtain ⟨l, hl, hcopy⟩ := copyUser_valid hn hpt hr
    rw [hcopy]
    exact ⟨rfl, l, rfl, hl⟩

/-- Tables in the frames 1 to 4 that map the pages 1 and 2 to the frames 5 and 6. -/
def twoPages : ℕ → Byte
  | 0x1000 => 0x07 | 0x1001 => 0x20
  | 0x2000 => 0x07 | 0x2001 => 0x30
  | 0x3000 => 0x07 | 0x3001 => 0x40
  | 0x4008 => 0x07 | 0x4009 => 0x50
  | 0x4010 => 0x07 | 0x4011 => 0x60
  | _ => 0

theorem twoPages_root : ∀ i, heapOf twoPages 1 i = if i = 0 then 0x2007 else 0 := by decide +kernel
theorem twoPages_pdpt : ∀ i, heapOf twoPages 2 i = if i = 0 then 0x3007 else 0 := by decide +kernel
theorem twoPages_pd : ∀ i, heapOf twoPages 3 i = if i = 0 then 0x4007 else 0 := by decide +kernel

theorem twoPages_pt : ∀ i, heapOf twoPages 4 i = if i = 1 then 0x5007 else if i = 2 then 0x6007 else 0 := by
  decide +kernel

theorem translateWith_only {lim : Word → Limits} {g : ℕ} {j : Fin 512} {w : Word} {x : Mapping}
    (hw : ∀ i, h f i = if i = j then w else 0) (hg : a.tableOf w = some g) (hx : translateWith a lim h va (l + 1) f = some x) :
    ∃ y, translateWith a lim h va l g = some y ∧ y.pa = x.pa := by
  rw [translateWith] at hx
  simp only [hw] at hx
  by_cases hj : levelIndex va (l + 1) = j
  · rw [if_pos hj, hg] at hx
    obtain ⟨y, hy, hyx⟩ := Option.map_eq_some_iff.1 hx
    exact ⟨y, hy, by rw [← hyx]⟩
  · have hnone : a.tableOf 0 = none := by cases a <;> decide
    rw [if_neg hj, hnone] at hx
    simp only [a.ptePresent_zero, Bool.false_eq_true, if_false] at hx
    cases hx

theorem twoPages_private : TablesPrivate .x86 (heapOf twoPages) 1 := by
  have h1 : Arch.x86.tableOf 0x2007 = some 2 := by decide
  have h2 : Arch.x86.tableOf 0x3007 = some 3 := by decide
  have h3 : Arch.x86.tableOf 0x4007 = some 4 := by decide
  have hzero : Arch.x86.tableOf 0 = none := by decide
  have hframes : tableFrames .x86 (heapOf twoPages) 1 = {1} + ({2} + ({3} + {4})) := by
    have hone : ∀ {f : ℕ} {w : Word} {g : ℕ} (l : ℕ), (∀ i, heapOf twoPages f i = if i = 0 then w else 0) →
        Arch.x86.tableOf w = some g → nodes Arch.x86.tableOf (heapOf twoPages) (l + 1) f =
          {f} + nodes Arch.x86.tableOf (heapOf twoPages) l g := by
      intro f w g l hw hg
      refine nodes_only (i := 0) (by rw [hw, if_pos rfl, hg]) fun k hk => ?_
      rw [hw, if_neg hk, hzero]
    show nodes Arch.x86.tableOf (heapOf twoPages) 3 1 = _
    rw [hone 2 twoPages_root h1, hone 1 twoPages_pdpt h2, hone 0 twoPages_pd h3, nodes_zero]
  rintro va ⟨x, hx, -⟩
  have hpa : userPa .x86 (heapOf twoPages) 1 va = x.pa := by
    rw [userPa, hx]
    rfl
  obtain ⟨y, hy, hyx⟩ := translateWith_only twoPages_root h1 hx
  obtain ⟨z, hz, hzy⟩ := translateWith_only twoPages_pdpt h2 hy
  obtain ⟨u, hu, huz⟩ := translateWith_only twoPages_pd h3 hz
  have hleaf : u.pa / pgSize = 5 ∨ u.pa / pgSize = 6 := by
    have hmod : va % 2 ^ levelShift 0 < 4096 := Nat.mod_lt _ (by decide)
    have hpage : ∀ (w : Word) (k : ℕ), (Arch.x86.leafBase w 0).toNat = k * 4096 →
        some (leafMapping .x86 w 0 va) = some u → u.pa / pgSize = k := by
      intro w k hk hu
      obtain rfl := Option.some.inj hu
      simp only [leafMapping, pgSize, hk]
      omega
    simp only [translateWith, twoPages_pt] at hu
    by_cases hi : levelIndex va 0 = 1
    · rw [if_pos hi, if_pos (by decide)] at hu
      exact .inl (hpage _ 5 (by decide) hu)
    · by_cases hj : levelIndex va 0 = 2
      · rw [if_neg hi, if_pos hj, if_pos (by decide)] at hu
        exact .inr (hpage _ 6 (by decide) hu)
      · rw [if_neg hi, if_neg hj, if_neg (by decide)] at hu
        cases hu
  rw [hframes, hpa, ← hyx, ← hzy, ← huz]
  rcases hleaf with h | h
  · rw [h]
    decide
  · rw [h]
    decide

theorem twoPages_range : UserRange .x86 (heapOf twoPages) 1 0x1FF0 32 true := by
  rw [← userRangeValid_iff (by decide)]
  decide +kernel

/-- Thirty-two bytes across the boundary of the two pages. -/
theorem copy_user_two_pages :
    TablesPrivate .x86 (heapOf twoPages) 1 ∧
      (copyUser .x86 (some 1) 0x1FF0 false 32 true ⟨twoPages, fun i => BitVec.ofNat 8 i, []⟩).1 = .none :=
  ⟨twoPages_private, (copy_user_all_or_nothing .x86 1 0x1FF0 32 true ⟨twoPages, fun i => BitVec.ofNat 8 i, []⟩ (by decide)
    twoPages_private).1.2 twoPages_range⟩

end Zonix.Vm
