import Mathlib
import Zonix.Base.Word
import Zonix.Vm.UserCopy

/-!
# Read and write system calls

`sys_file_io` of `kernel/syscall/file.cpp` with the descriptor table of `kernel/fs/fd.cpp`. A file object is whatever
answers its calls: the reply to each, and for a read the bytes that it puts into the bounce buffer.
-/

namespace Zonix.Syscall

open Zonix.Vm

/-! ## Descriptors and files -/

def maxFd : ℕ := 16

/-- `fd::Entry`; `file` is nothing for an empty handle. -/
structure FdEntry where
  file : Option ℕ
  offset : ℕ
  used : Bool
  offset_lt : offset < 2 ^ 64
  deriving Repr, DecidableEq

abbrev FdTable := Fin maxFd → FdEntry

def FdTable.get (t : FdTable) (fd : ℤ) : Option (Fin maxFd) :=
  if h : 0 ≤ fd ∧ fd < maxFd then
    let i : Fin maxFd := ⟨fd.toNat, by omega⟩
    if (t i).used = true ∧ (t i).file.isSome = true then some i else none
  else none

/-- The answer to the `n`-th call of a file, and the bytes it delivers to a read. -/
structure File where
  reply : ℕ → Except Error ℤ
  deliver : ℕ → ℕ → Byte

/-- A call of `vfs::read` or `vfs::write`; `input` holds the bytes handed to a write. -/
structure FileCall where
  size : ℕ
  offset : ℕ
  input : List Byte
  deriving Repr, DecidableEq

/-- User memory, the bounce page, the descriptor table and the calls of the file so far. -/
structure IoState where
  mem : ℕ → Byte
  buf : ℕ → Byte
  files : FdTable
  calls : List FileCall

/-! ## The system call -/

variable (a : Arch) (mm : Option ℕ) (file : File) (fd : Fin maxFd)

/-- `copy_from_user` and `copy_to_user` with the bounce page. -/
def copyBounce (va n : ℕ) (toUser : Bool) (s : IoState) : Error × IoState :=
  let out := copyUser a mm va false n toUser ⟨s.mem, s.buf, []⟩
  (out.1, { s with mem := out.2.mem, buf := out.2.buf })

def callFile (toUser : Bool) (chunk : ℕ) (s : IoState) : Except Error ℤ × IoState :=
  (file.reply s.calls.length,
    { s with
      buf := if toUser then blit s.buf 0 (file.deliver s.calls.length) 0 chunk else s.buf
      calls := s.calls ++ [⟨chunk, (s.files fd).offset, if toUser then [] else (List.range chunk).map s.buf⟩] })

def IoState.advance (s : IoState) (fd : Fin maxFd) (bytes : ℕ) : IoState :=
  { s with files := Function.update s.files fd ⟨(s.files fd).file, u64 ((s.files fd).offset + bytes), (s.files fd).used,
      u64_lt _⟩ }

def fileIoRound (va chunk : ℕ) (toUser : Bool) (s : IoState) : Option ℕ × IoState :=
  let pre := if toUser then (Error.none, s) else copyBounce a mm va chunk false s
  if pre.1 ≠ .none then (none, pre.2)
  else
    let called := callFile file fd toUser chunk pre.2
    match called.1 with
    | .error _ => (none, called.2)
    | .ok value =>
      if value < 0 ∨ chunk < value.toNat then (none, called.2)
      else
        let post := if toUser then copyBounce a mm va value.toNat true called.2 else (Error.none, called.2)
        if post.1 ≠ .none then (none, post.2)
        else (some value.toNat, post.2.advance fd value.toNat)

def fileIoLoop (userBuf count : ℕ) (toUser : Bool) : ℕ → ℕ → IoState → (Bool × ℕ) × IoState
  | 0, done, s => ((false, done), s)
  | fuel + 1, done, s =>
    if done < count then
      let chunk := if count - done > pgSize then pgSize else count - done
      match fileIoRound a mm file fd (userBuf + done) chunk toUser s with
      | (none, s) => ((true, done), s)
      | (some bytes, s) =>
        if bytes < chunk then ((false, done + bytes), s)
        else fileIoLoop userBuf count toUser fuel (done + bytes) s
    else ((false, done), s)

/-- `task` is nothing when there is no current task; `allocated` says whether the bounce page was. -/
def sysFileIo (task : Option (Option ℕ)) (fd : ℤ) (userBuf count : ℕ) (toUser allocated : Bool) (s : IoState) :
    ℤ × IoState :=
  if count = 0 then (0, s)
  else
    match task with
    | none => (-1, s)
    | some mm =>
      if userRangeValid a (heapOf s.mem) mm userBuf count toUser = false then (-1, s)
      else
        match s.files.get fd with
        | none => (-1, s)
        | some i =>
          if allocated = false then (-1, s)
          else
            let out := fileIoLoop a mm file i userBuf count toUser count 0 s
            (if out.1.1 = true ∧ out.1.2 = 0 then -1 else out.1.2, out.2)

/-! ## One round -/

variable {a : Arch} {pgdir va n v chunk : ℕ} {file : File} {fd : Fin maxFd} {toUser : Bool} {s s' : IoState}

theorem copyBounce_from (hn : 0 < n) (hpt : TablesPrivate a (heapOf s.mem) pgdir)
    (hr : UserRange a (heapOf s.mem) pgdir va n false) :
    copyBounce a (some pgdir) va n false s =
      (.none, { s with buf := blit s.buf 0 (fun i => s.mem (userPa a (heapOf s.mem) pgdir (va + i))) 0 n }) := by
  obtain ⟨l, -, hcopy⟩ := copyUser_valid (s := ⟨s.mem, s.buf, []⟩) hn hpt hr
  rw [copyBounce, hcopy]
  rfl

theorem copyBounce_to (hn : 0 < n) (hv : v ≤ n) (hpt : TablesPrivate a (heapOf s.mem) pgdir)
    (hr : UserRange a (heapOf s.mem) pgdir va n true) :
    copyBounce a (some pgdir) va v true s =
      (.none, { s with mem := scatter s.mem (fun i => userPa a (heapOf s.mem) pgdir (va + i)) s.buf v }) := by
  by_cases hz : v = 0
  · have hva : pgSize ≤ va ∧ va < a.userSpaceTop := by
      have := hr.1
      have := hr.2.1
      omega
    rw [copyBounce, hz, copyUser_zero hva]
    rfl
  · obtain ⟨l, -, hcopy⟩ := copyUser_valid (s := ⟨s.mem, s.buf, []⟩) (Nat.pos_of_ne_zero hz) hpt (hr.take hv)
    rw [copyBounce, hcopy]
    simp only [CopyState.moved, if_true, Nat.zero_add]

def Accepts (reply : Except Error ℤ) (chunk v : ℕ) : Prop := reply = .ok (v : ℤ) ∧ v ≤ chunk

def Refuses (reply : Except Error ℤ) (chunk : ℕ) : Prop := ∀ v, ¬Accepts reply chunk v

theorem accepts_or_refuses (reply : Except Error ℤ) (chunk : ℕ) : (∃ v, Accepts reply chunk v) ∨ Refuses reply chunk := by
  by_cases h : ∃ v, Accepts reply chunk v
  · exact .inl h
  · exact .inr fun v hv => h ⟨v, hv⟩

def roundCall (a : Arch) (pgdir : ℕ) (fd : Fin maxFd) (va chunk : ℕ) (toUser : Bool) (s : IoState) : FileCall :=
  ⟨chunk, (s.files fd).offset,
    if toUser then [] else (List.range chunk).map fun i => s.mem (userPa a (heapOf s.mem) pgdir (va + i))⟩

structure Refused (a : Arch) (pgdir : ℕ) (fd : Fin maxFd) (va chunk : ℕ) (toUser : Bool) (s s' : IoState) : Prop where
  mem : s'.mem = s.mem
  files : s'.files = s.files
  calls : s'.calls = s.calls ++ [roundCall a pgdir fd va chunk toUser s]

structure Accepted (a : Arch) (pgdir : ℕ) (file : File) (fd : Fin maxFd) (va chunk v : ℕ) (toUser : Bool) (s s' : IoState) :
    Prop where
  mem : s'.mem = if toUser then
    scatter s.mem (fun i => userPa a (heapOf s.mem) pgdir (va + i)) (file.deliver s.calls.length) v else s.mem
  files : s'.files = (s.advance fd v).files
  calls : s'.calls = s.calls ++ [roundCall a pgdir fd va chunk toUser s]

def calledState (a : Arch) (pgdir : ℕ) (file : File) (fd : Fin maxFd) (va chunk : ℕ) (toUser : Bool) (s : IoState) : IoState :=
  { s with
    buf := if toUser then blit s.buf 0 (file.deliver s.calls.length) 0 chunk
      else blit s.buf 0 (fun i => s.mem (userPa a (heapOf s.mem) pgdir (va + i))) 0 chunk
    calls := s.calls ++ [roundCall a pgdir fd va chunk toUser s] }

theorem fileIoRound_eq (hn : 0 < chunk) (hpt : TablesPrivate a (heapOf s.mem) pgdir)
    (hr : UserRange a (heapOf s.mem) pgdir va chunk toUser) :
    fileIoRound a (some pgdir) file fd va chunk toUser s =
      let called := calledState a pgdir file fd va chunk toUser s
      match file.reply s.calls.length with
      | .error _ => (none, called)
      | .ok value =>
        if value < 0 ∨ chunk < value.toNat then (none, called)
        else
          let post := if toUser then copyBounce a (some pgdir) va value.toNat true called else (Error.none, called)
          if post.1 ≠ .none then (none, post.2)
          else (some value.toNat, post.2.advance fd value.toNat) := by
  cases toUser with
  | true => rfl
  | false =>
    have hbytes : (List.range chunk).map (blit s.buf 0 (fun i => s.mem (userPa a (heapOf s.mem) pgdir (va + i))) 0 chunk) =
        (List.range chunk).map fun i => s.mem (userPa a (heapOf s.mem) pgdir (va + i)) := by
      refine List.map_congr_left fun i hi => ?_
      rw [List.mem_range] at hi
      rw [blit_in ⟨Nat.zero_le i, by omega⟩, Nat.zero_add, Nat.sub_zero]
    rw [fileIoRound]
    simp only [Bool.false_eq_true, if_false, copyBounce_from hn hpt hr, callFile, hbytes, ne_eq, not_true_eq_false]
    rfl

theorem fileIoRound_refused (fd : Fin maxFd) (hn : 0 < chunk) (hpt : TablesPrivate a (heapOf s.mem) pgdir)
    (hr : UserRange a (heapOf s.mem) pgdir va chunk toUser) (href : Refuses (file.reply s.calls.length) chunk) :
    ∃ s', fileIoRound a (some pgdir) file fd va chunk toUser s = (none, s') ∧ Refused a pgdir fd va chunk toUser s s' := by
  refine ⟨calledState a pgdir file fd va chunk toUser s, ?_, rfl, rfl, rfl⟩
  rw [fileIoRound_eq hn hpt hr]
  cases hrep : file.reply s.calls.length with
  | error e => rfl
  | ok value =>
    have hbad : value < 0 ∨ chunk < value.toNat := by
      by_contra hcon
      exact href value.toNat ⟨by rw [hrep, Int.toNat_of_nonneg (by omega)], by omega⟩
    simp only [if_pos hbad]

theorem fileIoRound_accepted (fd : Fin maxFd) (hn : 0 < chunk) (hpt : TablesPrivate a (heapOf s.mem) pgdir)
    (hr : UserRange a (heapOf s.mem) pgdir va chunk toUser) (hacc : Accepts (file.reply s.calls.length) chunk v) :
    ∃ s', fileIoRound a (some pgdir) file fd va chunk toUser s = (some v, s') ∧
      Accepted a pgdir file fd va chunk v toUser s s' := by
  have hgood : ¬((v : ℤ) < 0 ∨ chunk < v) := by
    have := hacc.2
    omega
  rw [fileIoRound_eq hn hpt hr, hacc.1]
  simp only [Int.toNat_natCast, if_neg hgood]
  cases toUser with
  | true =>
    have hto := copyBounce_to (s := calledState a pgdir file fd va chunk true s) hn hacc.2 hpt hr
    simp only [if_true, hto, ne_eq, not_true_eq_false, if_false]
    refine ⟨_, rfl, ?_, rfl, rfl⟩
    simp only [if_true]
    refine scatter_congr (fun _ _ => rfl) fun i hi => ?_
    have := hacc.2
    exact (blit_in (by omega)).trans (by rw [Nat.zero_add, Nat.sub_zero])
  | false => exact ⟨_, rfl, rfl, rfl, rfl⟩

theorem Accepted.tables (hpt : TablesPrivate a (heapOf s.mem) pgdir)
    (hr : UserRange a (heapOf s.mem) pgdir va chunk toUser) (hv : v ≤ chunk)
    (h : Accepted a pgdir file fd va chunk v toUser s s') :
    ∀ g ∈ tableFrames a (heapOf s.mem) pgdir, heapOf s'.mem g = heapOf s.mem g := by
  intro g hg
  rw [h.mem]
  cases toUser with
  | true =>
    refine heapOf_scatter fun i hi hpage => hpt (va + i) (hr.2.2 i (by omega)) ?_
    rw [hpage]
    exact hg
  | false => rfl

/-! ## The loop -/

theorem advance_zero (s : IoState) (fd : Fin maxFd) : (s.advance fd 0).files = s.files := by
  have hlt := (s.files fd).offset_lt
  simp only [IoState.advance, Nat.add_zero, u64_eq hlt, Function.update_eq_self]

theorem advance_offset (s : IoState) (fd : Fin maxFd) (n : ℕ) :
    ((s.advance fd n).files fd).offset = u64 ((s.files fd).offset + n) := by
  simp only [IoState.advance, Function.update_self]

theorem advance_add (s s' : IoState) (fd : Fin maxFd) (x y : ℕ) (h : s'.files = (s.advance fd x).files) :
    (s'.advance fd y).files = (s.advance fd (x + y)).files := by
  have hadd : u64 (u64 ((s.files fd).offset + x) + y) = u64 ((s.files fd).offset + (x + y)) := by
    simp only [u64]
    omega
  simp only [IoState.advance, h, Function.update_self, Function.update_idem, hadd]

def pageCall (a : Arch) (pgdir : ℕ) (fd : Fin maxFd) (userBuf count : ℕ) (toUser : Bool) (done : ℕ) (s : IoState) (j : ℕ) :
    FileCall :=
  ⟨min (count - (done + j * pgSize)) pgSize, u64 ((s.files fd).offset + j * pgSize),
    if toUser then [] else (List.range (min (count - (done + j * pgSize)) pgSize)).map fun i =>
      s.mem (userPa a (heapOf s.mem) pgdir (userBuf + (done + j * pgSize) + i))⟩

structure LoopRun (a : Arch) (pgdir : ℕ) (file : File) (fd : Fin maxFd) (userBuf count : ℕ) (toUser : Bool) (done k : ℕ)
    (s : IoState) (out : (Bool × ℕ) × IoState) : Prop where
  more : done + k * pgSize < count
  full : ∀ j < k, file.reply (s.calls.length + j) = .ok (pgSize : ℤ)
  calls : out.2.calls = s.calls ++ (List.range (k + 1)).map (pageCall a pgdir fd userBuf count toUser done s)
  result : Refuses (file.reply (s.calls.length + k)) (min (count - (done + k * pgSize)) pgSize) ∧
      out.1 = (true, done + k * pgSize) ∨
    ∃ v, Accepts (file.reply (s.calls.length + k)) (min (count - (done + k * pgSize)) pgSize) v ∧
      (v < min (count - (done + k * pgSize)) pgSize ∨ done + k * pgSize + v = count) ∧
      out.1 = (false, done + k * pgSize + v)
  files : out.2.files = (s.advance fd (out.1.2 - done)).files
  mem : out.2.mem = if toUser then
    scatter s.mem (fun i => userPa a (heapOf s.mem) pgdir (userBuf + done + i))
      (fun i => file.deliver (s.calls.length + i / pgSize) (i % pgSize)) (out.1.2 - done) else s.mem

variable {userBuf count done k : ℕ} {out : (Bool × ℕ) × IoState}

theorem roundCall_eq (a : Arch) (pgdir : ℕ) (fd : Fin maxFd) (userBuf count done : ℕ) (toUser : Bool) (s : IoState) :
    roundCall a pgdir fd (userBuf + done) (min (count - done) pgSize) toUser s =
      pageCall a pgdir fd userBuf count toUser done s 0 := by
  simp only [roundCall, pageCall, Nat.zero_mul, Nat.add_zero, u64_eq (s.files fd).offset_lt]

theorem Refused.loopRun (hmore : done < count) (href : Refuses (file.reply s.calls.length) (min (count - done) pgSize))
    (h : Refused a pgdir fd (userBuf + done) (min (count - done) pgSize) toUser s s') :
    LoopRun a pgdir file fd userBuf count toUser done 0 s ((true, done), s') where
  more := by omega
  full := nofun
  calls := by rw [h.calls, roundCall_eq]; rfl
  result := .inl ⟨by simpa using href, by simp⟩
  files := by rw [h.files, Nat.sub_self, advance_zero]
  mem := by
    rw [h.mem, Nat.sub_self]
    cases toUser <;> rfl

theorem Accepted.loopRun (hmore : done < count) (hacc : Accepts (file.reply s.calls.length) (min (count - done) pgSize) v)
    (hlast : v < min (count - done) pgSize ∨ done + v = count)
    (h : Accepted a pgdir file fd (userBuf + done) (min (count - done) pgSize) v toUser s s') :
    LoopRun a pgdir file fd userBuf count toUser done 0 s ((false, done + v), s') where
  more := by omega
  full := nofun
  calls := by rw [h.calls, roundCall_eq]; rfl
  result := .inr ⟨v, by simpa using hacc, by simpa using hlast, by simp⟩
  files := by rw [h.files, Nat.add_sub_cancel_left]
  mem := by
    rw [h.mem, Nat.add_sub_cancel_left]
    cases toUser with
    | true =>
      have hv := hacc.2
      refine scatter_congr (fun _ _ => rfl) fun i hi => ?_
      have hpage : i / pgSize = 0 ∧ i % pgSize = i := by
        unfold pgSize at hv ⊢
        omega
      rw [hpage.1, hpage.2, Nat.add_zero]
    | false => rfl

theorem Accepted.next {s₁ : IoState} (hmore : done + pgSize < count) (hfull : file.reply s.calls.length = .ok (pgSize : ℤ))
    (h : Accepted a pgdir file fd (userBuf + done) pgSize pgSize toUser s s₁)
    (htab : ∀ g ∈ tableFrames a (heapOf s.mem) pgdir, heapOf s₁.mem g = heapOf s.mem g)
    (hrest : LoopRun a pgdir file fd userBuf count toUser (done + pgSize) k s₁ out) :
    LoopRun a pgdir file fd userBuf count toUser done (k + 1) s out := by
  have hlen : s₁.calls.length = s.calls.length + 1 := by
    rw [h.calls, List.length_append]
    rfl
  have hshift : ∀ j, done + pgSize + j * pgSize = done + (j + 1) * pgSize := fun j => by
    rw [Nat.add_mul, Nat.one_mul]
    omega
  have hle : done + pgSize ≤ out.1.2 := by
    rcases hrest.result with ⟨-, hout⟩ | ⟨v, -, -, hout⟩
    · rw [hout]
      exact Nat.le_add_right _ _
    · rw [hout]
      simp only
      omega
  refine ⟨?_, ?_, ?_, ?_, ?_, ?_⟩
  · rw [← hshift]
    exact hrest.more
  · intro j hj
    cases j with
    | zero => exact hfull
    | succ j =>
      have := hrest.full j (by omega)
      rwa [hlen, Nat.add_assoc, Nat.add_comm 1 j] at this
  · have hcall : ∀ j, pageCall a pgdir fd userBuf count toUser (done + pgSize) s₁ j =
        pageCall a pgdir fd userBuf count toUser done s (j + 1) := by
      intro j
      have hoff : (s₁.files fd).offset = u64 ((s.files fd).offset + pgSize) := by
        rw [h.files, advance_offset]
      have hadd : u64 (u64 ((s.files fd).offset + pgSize) + j * pgSize) = u64 ((s.files fd).offset + (j + 1) * pgSize) := by
        rw [Nat.add_mul, Nat.one_mul]
        simp only [u64]
        omega
      simp only [pageCall, hshift, hoff, hadd]
      cases toUser with
      | true => rfl
      | false =>
        have hmem : s₁.mem = s.mem := h.mem
        simp only [hmem]
    have hmin : min (count - done) pgSize = pgSize := by omega
    have hround := roundCall_eq a pgdir fd userBuf count done toUser s
    rw [hmin] at hround
    rw [hrest.calls, h.calls, hround, List.range_succ_eq_map (n := k + 1), List.map_cons, List.map_map, List.append_assoc]
    exact congrArg (s.calls ++ _ :: ·) (List.map_congr_left fun j _ => hcall j)
  · have := hrest.result
    rw [hlen, hshift, Nat.add_assoc, Nat.add_comm 1 k] at this
    exact this
  · rw [hrest.files, advance_add s s₁ fd pgSize _ h.files, show pgSize + (out.1.2 - (done + pgSize)) = out.1.2 - done by omega]
  · have hsum : out.1.2 - done = pgSize + (out.1.2 - (done + pgSize)) := by omega
    rw [hrest.mem, hsum]
    cases toUser with
    | true =>
      have hmem : s₁.mem = scatter s.mem (fun i => userPa a (heapOf s.mem) pgdir (userBuf + done + i))
        (file.deliver s.calls.length) pgSize := h.mem
      simp only [if_true]
      have hhead : scatter s.mem (fun i => userPa a (heapOf s.mem) pgdir (userBuf + done + i))
          (fun i => file.deliver (s.calls.length + i / pgSize) (i % pgSize)) pgSize =
          scatter s.mem (fun i => userPa a (heapOf s.mem) pgdir (userBuf + done + i)) (file.deliver s.calls.length) pgSize := by
        refine scatter_congr (fun _ _ => rfl) fun i hi => ?_
        rw [Nat.div_eq_of_lt hi, Nat.mod_eq_of_lt hi, Nat.add_zero]
      rw [scatter_add, hhead, ← hmem]
      refine scatter_congr (fun i _ => ?_) fun i _ => ?_
      · rw [userPa_congr htab, show userBuf + (done + pgSize) + i = userBuf + done + (pgSize + i) by omega]
      · rw [hlen, Nat.add_div_left _ (by decide), Nat.add_mod_left, Nat.add_assoc, Nat.add_comm 1]
    | false =>
      have hmem : s₁.mem = s.mem := h.mem
      simp only [Bool.false_eq_true, if_false, hmem]

theorem fileIoLoop_spec (fd : Fin maxFd) (file : File) (fuel done : ℕ) (hfuel : count - done ≤ fuel) (hmore : done < count) (s : IoState)
    (hpt : TablesPrivate a (heapOf s.mem) pgdir) (hr : UserRange a (heapOf s.mem) pgdir userBuf count toUser) :
    ∃ k, LoopRun a pgdir file fd userBuf count toUser done k s
      (fileIoLoop a (some pgdir) file fd userBuf count toUser fuel done s) := by
  induction fuel generalizing done s with
  | zero => omega
  | succ fuel ih =>
    have hchunk : (if count - done > pgSize then pgSize else count - done) = min (count - done) pgSize := by
      split <;> omega
    have hpos : 0 < min (count - done) pgSize := by
      have : 0 < pgSize := by decide
      omega
    have hsub : UserRange a (heapOf s.mem) pgdir (userBuf + done) (min (count - done) pgSize) toUser :=
      hr.sub (by omega)
    rw [fileIoLoop, if_pos hmore, hchunk]
    simp only
    rcases accepts_or_refuses (file.reply s.calls.length) (min (count - done) pgSize) with ⟨v, hacc⟩ | href
    · obtain ⟨s₁, hround, hs₁⟩ := fileIoRound_accepted fd hpos hpt hsub hacc
      have hv := hacc.2
      rw [hround]
      simp only
      by_cases hshort : v < min (count - done) pgSize
      · rw [if_pos hshort]
        exact ⟨0, hs₁.loopRun hmore hacc (.inl hshort)⟩
      · rw [if_neg hshort]
        by_cases hend : done + v = count
        · have hstop : fileIoLoop a (some pgdir) file fd userBuf count toUser fuel (done + v) s₁ = ((false, done + v), s₁) := by
            cases fuel with
            | zero => rfl
            | succ fuel => rw [fileIoLoop, if_neg (by omega)]
          rw [hstop]
          exact ⟨0, hs₁.loopRun hmore hacc (.inr hend)⟩
        · obtain rfl : v = pgSize := by omega
          have hmin : min (count - done) pgSize = pgSize := by omega
          have htab := hs₁.tables hpt hsub hacc.2
          rw [hmin] at hs₁
          obtain ⟨k, hk⟩ := ih (done + pgSize) (by omega) (by omega) s₁ (hpt.congr htab) (hr.congr htab)
          exact ⟨k + 1, hs₁.next (by omega) hacc.1 htab hk⟩
    · obtain ⟨s₁, hround, hs₁⟩ := fileIoRound_refused fd hpos hpt hsub href
      rw [hround]
      exact ⟨0, hs₁.loopRun hmore href⟩

/-! ## The whole call -/

/-- The call transfers `k` whole pages and makes one more call of the file; its result and what it leaves. -/
structure IoRun (a : Arch) (pgdir : ℕ) (file : File) (fd : Fin maxFd) (userBuf count : ℕ) (toUser : Bool) (k : ℕ)
    (s : IoState) (out : ℤ × IoState) : Prop where
  more : k * pgSize < count
  full : ∀ j < k, file.reply (s.calls.length + j) = .ok (pgSize : ℤ)
  calls : out.2.calls = s.calls ++ (List.range (k + 1)).map (pageCall a pgdir fd userBuf count toUser 0 s)
  result : Refuses (file.reply (s.calls.length + k)) (min (count - k * pgSize) pgSize) ∧
      out.1 = (if k = 0 then -1 else ((k * pgSize : ℕ) : ℤ)) ∨
    ∃ v, Accepts (file.reply (s.calls.length + k)) (min (count - k * pgSize) pgSize) v ∧
      (v < min (count - k * pgSize) pgSize ∨ k * pgSize + v = count) ∧ out.1 = ((k * pgSize + v : ℕ) : ℤ)
  files : out.2.files = (s.advance fd out.1.toNat).files
  mem : out.2.mem = if toUser then
    scatter s.mem (fun i => userPa a (heapOf s.mem) pgdir (userBuf + i))
      (fun i => file.deliver (s.calls.length + i / pgSize) (i % pgSize)) out.1.toNat else s.mem

theorem LoopRun.ioRun (h : LoopRun a pgdir file fd userBuf count toUser 0 k s out) :
    IoRun a pgdir file fd userBuf count toUser k s (if out.1.1 = true ∧ out.1.2 = 0 then -1 else out.1.2, out.2) := by
  have hpg : 0 < pgSize := by decide
  have hnat : (if out.1.1 = true ∧ out.1.2 = 0 then (-1 : ℤ) else out.1.2).toNat = out.1.2 := by
    split
    · rename_i hz
      rw [hz.2]
      rfl
    · exact Int.toNat_natCast _
  have hmore := h.more
  have hres := h.result
  have hfiles := h.files
  have hmem := h.mem
  simp only [Nat.zero_add, Nat.add_zero, Nat.sub_zero] at hmore hres hfiles hmem
  refine ⟨hmore, h.full, h.calls, ?_, by rw [hnat]; exact hfiles, by rw [hnat]; exact hmem⟩
  rcases hres with ⟨href, hout⟩ | ⟨v, hacc, hlast, hout⟩
  · refine .inl ⟨href, ?_⟩
    rw [hout]
    by_cases hk : k = 0
    · simp [hk]
    · simp [hk, hpg.ne']
  · refine .inr ⟨v, hacc, hlast, ?_⟩
    rw [hout]
    simp

/-- A read or write call is one transfer: nothing happens when the range or the descriptor is bad, and otherwise the
file gets whole pages until a short, failing or invalid reply. -/
theorem sys_file_io (a : Arch) (pgdir : ℕ) (file : File) (fd : ℤ) (userBuf count : ℕ) (toUser : Bool) (s : IoState)
    (hcount : 0 < count) (hpt : TablesPrivate a (heapOf s.mem) pgdir) :
    (¬UserRange a (heapOf s.mem) pgdir userBuf count toUser ∨ s.files.get fd = none →
      sysFileIo a file (some (some pgdir)) fd userBuf count toUser true s = (-1, s)) ∧
    ∀ i, UserRange a (heapOf s.mem) pgdir userBuf count toUser → s.files.get fd = some i →
      ∃ k, IoRun a pgdir file i userBuf count toUser k s
        (sysFileIo a file (some (some pgdir)) fd userBuf count toUser true s) := by
  have hvalid : userRangeValid a (heapOf s.mem) (some pgdir) userBuf count toUser = true ↔
    UserRange a (heapOf s.mem) pgdir userBuf count toUser := userRangeValid_iff hcount
  constructor
  · intro hbad
    rw [sysFileIo, if_neg hcount.ne']
    simp only
    by_cases hr : UserRange a (heapOf s.mem) pgdir userBuf count toUser
    · rw [hvalid.2 hr, if_neg (by decide), hbad.resolve_left (not_not_intro hr)]
    · rw [if_pos (Bool.eq_false_iff.2 fun ht => hr (hvalid.1 ht))]
  · intro i hr hget
    obtain ⟨k, hrun⟩ := fileIoLoop_spec i file count 0 (Nat.le_refl count) hcount s hpt hr
    refine ⟨k, ?_⟩
    rw [sysFileIo, if_neg hcount.ne']
    simp only [hvalid.2 hr, hget, Bool.true_eq_false, if_false]
    exact hrun.ioRun

def sampleTable : FdTable := fun i => if i.val = 3 then ⟨some 0, 100, true, by decide⟩ else ⟨none, 0, false, by decide⟩

def sampleIo : IoState := ⟨twoPages, fun _ => 0, sampleTable, []⟩

/-- A file that delivers all it is asked for, up to 32 bytes. -/
def sampleFile : File := ⟨fun _ => .ok 32, fun _ i => BitVec.ofNat 8 i⟩

/-- A read of 32 bytes across two pages into a buffer of user memory. -/
theorem sys_file_io_two_pages :
    TablesPrivate .x86 (heapOf sampleIo.mem) 1 ∧ UserRange .x86 (heapOf sampleIo.mem) 1 0x1FF0 32 true ∧
      ∃ k, IoRun .x86 1 sampleFile ⟨3, by decide⟩ 0x1FF0 32 true k sampleIo
        (sysFileIo .x86 sampleFile (some (some 1)) 3 0x1FF0 32 true true sampleIo) :=
  ⟨twoPages_private, twoPages_range, (sys_file_io .x86 1 sampleFile 3 0x1FF0 32 true sampleIo (by decide)
    twoPages_private).2 ⟨3, by decide⟩ twoPages_range (by decide)⟩

end Zonix.Syscall
