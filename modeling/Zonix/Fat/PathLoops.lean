import Zonix.Fat.FileIo

/-! # The two path walkers

`next_part`, `find_file` and `resolve_parent` of `kernel/fs/fat/fat_dir.cpp` loop by loop: the component buffer with its
size, the bounded vector of components, the walk by index.  `find_file` writes every entry it passes to its `result`;
`resolve_parent` copies the last component to a buffer of `nameSize` bytes.  Both are the walkers of `Zonix.Fat.Dir`. -/

namespace Zonix.Fat.PathLoops

open Prog

/-- The copy loop of `next_part` with a buffer of `n` bytes of which `buf` are written; the path ends at its NUL. -/
def copyPart (n : ℕ) : List Byte → List Byte → Option (List Byte × List Byte)
  | [], buf => some (buf, [])
  | ch :: path, buf =>
    if ch = slash then some (buf, ch :: path)
    else if n ≤ buf.length + 1 then none
    else copyPart n path (buf ++ [toUpper ch])

/-- `str_skip_char`. -/
def strSkipChar (ch : Byte) : List Byte → List Byte
  | [] => []
  | c :: str => if c = ch then strSkipChar ch str else c :: str

def nextPart (n : ℕ) (path : List Byte) : Option (List Byte × List Byte) :=
  (copyPart n path []).map fun (buf, rest) => (buf, strSkipChar slash rest)

/-- `inplace_vector::try_push_back`. -/
def tryPushBack (parts : List (List Byte)) (part : List Byte) : Option (List (List Byte)) :=
  if parts.length < maxDepth then some (parts ++ [part]) else none

/-- `while (*path)` of `find_file`; every round consumes a byte, so the length of the path is fuel enough. -/
def findFileParts : ℕ → List Byte → List (List Byte) → Except Error (List (List Byte))
  | _, [], parts => .ok parts
  | 0, _ :: _, _ => .error .fail
  | fuel + 1, ch :: path, parts =>
    match nextPart maxPartLen (ch :: path) with
    | none => .error .invalid
    | some (part, path) =>
      if part = [dot] then findFileParts fuel path parts
      else if part = [dot, dot] then
        if parts ≠ [] then findFileParts fuel path parts.dropLast else findFileParts fuel path parts
      else
        match tryPushBack parts part with
        | none => .error .invalid
        | some parts => findFileParts fuel path parts

/-- `while (*cursor)` of `resolve_parent`. -/
def resolveParentParts : ℕ → List Byte → List (List Byte) → Except Error (List (List Byte))
  | _, [], parts => .ok parts
  | 0, _ :: _, _ => .error .fail
  | fuel + 1, ch :: cursor, parts =>
    match nextPart maxPartLen (ch :: cursor) with
    | none => .error .invalid
    | some (part, cursor) =>
      if part = [dot] then resolveParentParts fuel cursor parts
      else if part = [dot, dot] then
        if parts ≠ [] then resolveParentParts fuel cursor parts.dropLast else resolveParentParts fuel cursor parts
      else
        match tryPushBack parts part with
        | none => .error .invalid
        | some parts => resolveParentParts fuel cursor parts

def ofExcept {α : Type} : Except Error α → FatM α
  | .ok a => pure a
  | .error e => fail e

variable (dev : Device) (g : Geometry)

/-- The walk of `find_file` from component `i` on, with `n` rounds left. -/
def findFileWalk (parts : List (List Byte)) : ℕ → ℕ → ℕ → FatDirEntry → FatM FatDirEntry
  | 0, _, _, result => pure result
  | n + 1, i, cluster, result =>
    if i < parts.length then do
      let result ← findEntry dev g cluster (parts.getD i [])
      if i + 1 < parts.length ∧ result.isDirectory = false then fail .notFound
      else findFileWalk parts n (i + 1) result.cluster result
    else pure result

/-- `find_file`; `result` is what the caller's entry held before. -/
def findFile (filename : List Byte) (result : FatDirEntry) : FatM FatDirEntry := do
  let path := strSkipChar slash filename
  ensure (path ≠ []) .invalid
  let parts ← ofExcept (findFileParts path.length path [])
  ensure (parts ≠ []) .invalid
  findFileWalk dev g parts parts.length 0 g.rootCluster result

/-- The walk of `resolve_parent` from component `i` on, with `n` rounds left. -/
def resolveParentWalk (parts : List (List Byte)) : ℕ → ℕ → ℕ → FatM ℕ
  | 0, _, cluster => pure cluster
  | n + 1, i, cluster =>
    if i + 1 < parts.length then do
      let entry ← findEntry dev g cluster (parts.getD i [])
      ensure (entry.isDirectory = true) .notFound
      resolveParentWalk parts n (i + 1) entry.cluster
    else pure cluster

/-- `resolve_parent` with the parent's first cluster and the child's name as its results. -/
def resolveParent (relpath : List Byte) (nameSize : ℕ) : FatM (ℕ × List Byte) := do
  ensure (0 < nameSize) .invalid
  let path := strSkipChar slash relpath
  ensure (path ≠ []) .invalid
  let parts ← ofExcept (resolveParentParts path.length path [])
  ensure (parts ≠ []) .invalid
  let childName := (parts.getLastD []).take (nameSize - 1)
  let cluster ← resolveParentWalk dev g parts parts.length 0 g.rootCluster
  pure (cluster, childName)

/-! ## The component loops -/

theorem resolveParentParts_eq (fuel : ℕ) (path : List Byte) (parts : List (List Byte)) :
    resolveParentParts fuel path parts = findFileParts fuel path parts := by
  induction fuel generalizing path parts with
  | zero => cases path <;> rfl
  | succ fuel ih =>
    cases path with
    | nil => rfl
    | cons ch path => simp only [resolveParentParts, findFileParts, ih]

theorem strSkipChar_eq (ch : Byte) (str : List Byte) : strSkipChar ch str = str.dropWhile (· == ch) := by
  induction str with
  | nil => rfl
  | cons c str ih =>
    rw [strSkipChar, List.dropWhile_cons, ih]
    by_cases hc : c = ch <;> simp [hc]

theorem copyPart_eq {n : ℕ} (path buf : List Byte) (hbuf : buf.length < n) : copyPart n path buf =
    if buf.length + (path.takeWhile (· != slash)).length < n then
      some (buf ++ (path.takeWhile (· != slash)).map toUpper, path.dropWhile (· != slash))
    else none := by
  induction path generalizing buf with
  | nil =>
    rw [copyPart, List.takeWhile_nil, List.length_nil, Nat.add_zero, if_pos hbuf, List.map_nil, List.append_nil,
      List.dropWhile_nil]
  | cons ch path ih =>
    rw [copyPart]
    by_cases hch : ch = slash
    · have hstop : (ch != slash) = false := by simp [hch]
      rw [if_pos hch, List.takeWhile_cons, List.dropWhile_cons, hstop]
      simp [hbuf]
    · have hgo : (ch != slash) = true := by simpa using hch
      rw [if_neg hch, List.takeWhile_cons, List.dropWhile_cons, hgo]
      simp only [if_true, List.length_cons, List.map_cons]
      by_cases hfull : n ≤ buf.length + 1
      · rw [if_pos hfull, if_neg (by omega)]
      · rw [if_neg hfull, ih _ (by rw [List.length_append, List.length_singleton]; omega)]
        simp only [List.length_append, List.length_singleton, List.append_assoc, List.singleton_append]
        rw [Nat.add_assoc, Nat.add_comm 1]

theorem nextPart_eq (path : List Byte) : nextPart maxPartLen path = Fat.nextPart path := by
  rw [nextPart, copyPart_eq path [] (by decide), Fat.nextPart]
  simp only [List.length_nil, Nat.zero_add, List.nil_append, Nat.lt_iff_add_one_le]
  split
  · rw [Option.map_some, strSkipChar_eq]
  · rfl

theorem findFileParts_eq (fuel : ℕ) (path : List Byte) (parts : List (List Byte)) :
    findFileParts fuel path parts = splitParts fuel path parts := by
  induction fuel generalizing path parts with
  | zero => cases path <;> rfl
  | succ fuel ih =>
    cases path with
    | nil => rfl
    | cons ch path =>
      have hpop : ∀ rest, (if parts ≠ [] then splitParts fuel rest parts.dropLast else splitParts fuel rest parts) =
          splitParts fuel rest parts.dropLast := by
        intro rest
        by_cases hnil : parts = []
        · rw [hnil]
          rfl
        · rw [if_pos hnil]
      simp only [findFileParts, splitParts, nextPart_eq, ih, hpop, tryPushBack]
      cases Fat.nextPart (ch :: path) with
      | none => rfl
      | some r =>
        simp only
        split
        · rfl
        · split
          · rfl
          · by_cases hroom : parts.length < maxDepth
            · rw [if_pos hroom, if_pos hroom]
            · rw [if_neg hroom, if_neg hroom]

variable {path : List Byte}

theorem nextPart_shorter {ch : Byte} {part rest : List Byte}
    (h : Fat.nextPart (ch :: path) = some (part, rest)) : rest.length ≤ path.length := by
  simp only [Fat.nextPart] at h
  split at h
  · obtain ⟨-, rfl⟩ := Prod.mk.inj (Option.some.inj h)
    by_cases hch : ch = slash
    · rw [List.dropWhile_cons, if_neg (by simp [hch]), List.dropWhile_cons, if_pos (by simp [hch])]
      exact List.length_dropWhile_le _ _
    · rw [List.dropWhile_cons, if_pos (by simpa using hch)]
      exact (List.length_dropWhile_le _ _).trans (List.length_dropWhile_le _ _)
  · cases h

theorem splitParts_fuel {fuel : ℕ} (hfuel : path.length ≤ fuel) (parts : List (List Byte)) :
    splitParts fuel path parts ≠ .error .fail := by
  induction fuel generalizing path parts with
  | zero =>
    rw [List.length_eq_zero_iff.1 (Nat.le_zero.1 hfuel)]
    intro h
    cases h
  | succ fuel ih =>
    cases path with
    | nil =>
      intro h
      cases h
    | cons ch path =>
      rw [splitParts]
      cases hpart : Fat.nextPart (ch :: path) with
      | none =>
        intro h
        cases h
      | some r =>
        obtain ⟨part, rest⟩ := r
        have hrest := nextPart_shorter hpart
        rw [List.length_cons] at hfuel
        have hih : ∀ parts, splitParts fuel rest parts ≠ .error .fail := fun parts => ih (by omega) parts
        simp only
        split
        · exact hih _
        · split
          · exact hih _
          · split
            · exact hih _
            · intro h
              cases h

/-! ## The walks -/

theorem getD_last {parts : List (List Byte)} {i : ℕ} (hi : i + 1 = parts.length) :
    parts.getD i [] = parts.getLastD [] := by
  have hne : parts ≠ [] := by
    rintro rfl
    cases hi
  rw [List.getLastD_eq_getLast?, List.getLast?_eq_getElem?, ← hi, Nat.add_sub_cancel, List.getD_eq_getElem?_getD]

theorem ensure_directory {α : Type} (e : FatDirEntry) (k : FatM α) :
    (if e.isDirectory = false then fail .notFound else k) =
      ensure (e.isDirectory = true) .notFound >>= fun _ => k := by
  cases e.isDirectory <;> rfl

theorem findFileWalk_eq (parts : List (List Byte)) (n i cluster : ℕ) (result : FatDirEntry)
    (hn : i + (n + 1) = parts.length) : findFileWalk dev g parts (n + 1) i cluster result =
      resolveParentWalk dev g parts (n + 1) i cluster >>= fun d => findEntry dev g d (parts.getLastD []) := by
  induction n generalizing i cluster result with
  | zero =>
    rw [findFileWalk, resolveParentWalk, if_pos (by omega), if_neg (by omega), pure_bind, getD_last (by omega)]
    have hend : ¬i + 1 < parts.length := by omega
    simp only [hend, false_and, if_false, findFileWalk]
    exact bind_pure_self _
  | succ n ih =>
    rw [findFileWalk, resolveParentWalk, if_pos (by omega), if_pos (by omega), bind_assoc]
    congr 1
    funext e
    have hmore : i + 1 < parts.length := by omega
    simp only [hmore, true_and, bind_assoc]
    rw [ensure_directory, ih (i + 1) e.cluster e (by omega)]

theorem resolveParentWalk_eq (parts : List (List Byte)) (n i cluster : ℕ) (hn : i + (n + 1) = parts.length) :
    resolveParentWalk dev g parts (n + 1) i cluster = resolveDirs dev g cluster (parts.drop i).dropLast := by
  induction n generalizing i cluster with
  | zero =>
    rw [resolveParentWalk, if_neg (by omega), List.dropLast_eq_take, List.length_drop,
      show parts.length - i - 1 = 0 by omega, List.take_zero, resolveDirs]
  | succ n ih =>
    have hi : i < parts.length := by omega
    have hdrop : (parts.drop i).dropLast = parts.getD i [] :: (parts.drop (i + 1)).dropLast := by
      rw [List.drop_eq_getElem_cons hi, List.dropLast_cons_of_ne_nil, List.getD_eq_getElem?_getD,
        List.getElem?_eq_getElem hi, Option.getD_some]
      rw [ne_eq, List.drop_eq_nil_iff]
      omega
    rw [resolveParentWalk, if_pos (by omega), hdrop, resolveDirs]
    simp only [ih (i + 1) _ (by omega)]

/-! ## The walkers -/

theorem pathParts_eq {α : Type} (path : List Byte) (k : List (List Byte) → FatM α) :
    (do
      ensure (strSkipChar slash path ≠ []) .invalid
      let parts ← ofExcept (splitParts (strSkipChar slash path).length (strSkipChar slash path) [])
      ensure (parts ≠ []) .invalid
      k parts) = pathParts path >>= k := by
  rw [pathParts, parsePath, ← strSkipChar_eq]
  by_cases hpath : strSkipChar slash path = []
  · have hstop : (ensure (strSkipChar slash path ≠ []) .invalid : FatM Unit) = fail .invalid := if_neg (not_not.2 hpath)
    simp only [hstop, hpath, if_true]
    rfl
  · have hgo : (ensure (strSkipChar slash path ≠ []) .invalid : FatM Unit) = pure () := if_pos hpath
    simp only [hgo, pure_bind, hpath, if_false]
    cases splitParts (strSkipChar slash path).length (strSkipChar slash path) [] with
    | error e => rfl
    | ok parts =>
      by_cases hne : parts = []
      · subst hne
        rfl
      · have hsome : (ensure (parts ≠ []) .invalid : FatM Unit) = pure () := if_pos hne
        simp only [ofExcept, hne, if_false, pure_bind, hsome]

theorem pathParts_congr {α : Type} {k k' : List (List Byte) → FatM α}
    (h : ∀ parts, parsePath path = .ok parts → k parts = k' parts) : pathParts path >>= k = pathParts path >>= k' := by
  rw [pathParts]
  cases hparse : parsePath path with
  | error e => rfl
  | ok parts => exact h parts hparse

theorem splitParts_length {fuel : ℕ} {parts out : List (List Byte)}
    (hparts : ∀ part ∈ parts, part.length + 1 ≤ maxPartLen) (h : splitParts fuel path parts = .ok out) :
    ∀ part ∈ out, part.length + 1 ≤ maxPartLen := by
  induction fuel generalizing path parts with
  | zero =>
    cases path with
    | nil =>
      cases h
      exact hparts
    | cons ch path => cases h
  | succ fuel ih =>
    cases path with
    | nil =>
      cases h
      exact hparts
    | cons ch path =>
      rw [splitParts] at h
      cases hpart : Fat.nextPart (ch :: path) with
      | none =>
        rw [hpart] at h
        cases h
      | some r =>
        obtain ⟨part, rest⟩ := r
        have hlen : part.length + 1 ≤ maxPartLen := by
          simp only [Fat.nextPart] at hpart
          split at hpart
          · rename_i hfit
            obtain ⟨rfl, -⟩ := Prod.mk.inj (Option.some.inj hpart)
            rw [List.length_map]
            exact hfit
          · cases hpart
        rw [hpart] at h
        simp only at h
        split at h
        · exact ih hparts h
        · split at h
          · exact ih (fun p hp => hparts p (List.mem_of_mem_dropLast hp)) h
          · split at h
            · refine ih (fun p hp => ?_) h
              rcases List.mem_append.1 hp with hp | hp
              · exact hparts p hp
              · rw [List.mem_singleton.1 hp]
                exact hlen
            · cases h

theorem parsePath_length {parts : List (List Byte)} (h : parsePath path = .ok parts) :
    ∀ part ∈ parts, part.length + 1 ≤ maxPartLen := by
  simp only [parsePath] at h
  split at h
  · cases h
  · split at h
    · cases h
    · rename_i out hout
      split at h
      · cases h
      · cases h
        exact splitParts_length (fun part hp => absurd hp List.not_mem_nil) hout

theorem exists_length {parts : List (List Byte)} (hne : parts ≠ []) : ∃ n, parts.length = n + 1 :=
  Nat.exists_eq_succ_of_ne_zero fun h0 => hne (List.length_eq_zero_iff.1 h0)

theorem resolveParent_refines (path : List Byte) {nameSize : ℕ} (hname : maxPartLen ≤ nameSize) :
    resolveParent dev g path nameSize = Fat.resolveParent dev g path := by
  have hpos : 0 < nameSize := lt_of_lt_of_le (by decide) hname
  have hsize : (ensure (0 < nameSize) .invalid : FatM Unit) = pure () := if_pos hpos
  simp only [resolveParent, hsize, pure_bind, resolveParentParts_eq, findFileParts_eq]
  rw [pathParts_eq, Fat.resolveParent]
  refine pathParts_congr fun parts hparse => ?_
  have hne := (parsePath_mem hparse).1
  obtain ⟨n, hn⟩ := exists_length hne
  have hlast : parts.getLastD [] ∈ parts := by
    rw [List.getLastD_eq_getLast?, List.getLast?_eq_some_getLast hne, Option.getD_some]
    exact List.getLast_mem hne
  have hwalk := resolveParentWalk_eq dev g parts n 0 g.rootCluster (by omega)
  rw [← hn, List.drop_zero] at hwalk
  have hlen := parsePath_length hparse _ hlast
  rw [hwalk, List.take_of_length_le (by omega)]

theorem findFile_refines (path : List Byte) (result : FatDirEntry) :
    findFile dev g path result = Fat.findFile dev g path := by
  simp only [findFile, findFileParts_eq]
  rw [pathParts_eq, Fat.findFile]
  refine pathParts_congr fun parts hparse => ?_
  have hne := (parsePath_mem hparse).1
  obtain ⟨n, hn⟩ := exists_length hne
  have hwalk := resolveParentWalk_eq dev g parts n 0 g.rootCluster (by omega)
  rw [List.drop_zero] at hwalk
  rw [hn, findFileWalk_eq dev g parts n 0 g.rootCluster result (by omega), hwalk]
  obtain ⟨part, rest, rfl⟩ := List.exists_cons_of_ne_nil hne
  rw [findParts_eq]

theorem lookup_paths_agree (path : List Byte) (result : FatDirEntry) (nameSize : ℕ) (hname : maxPartLen ≤ nameSize) :
    findFile dev g path result = (do
      let (parent, child) ← resolveParent dev g path nameSize
      findEntry dev g parent child) := by
  rw [findFile_refines, resolveParent_refines dev g path hname]
  exact findFile_eq dev g path

/-- "/a/../d", with the buffer that the callers use. -/
theorem lookup_paths_agree_dots :
    findFile (steadyDevice sampleGeometry) sampleGeometry [0x2F, 0x61, 0x2F, 0x2E, 0x2E, 0x2F, 0x64] Block.zero = (do
      let (parent, child) ← resolveParent (steadyDevice sampleGeometry) sampleGeometry
        [0x2F, 0x61, 0x2F, 0x2E, 0x2E, 0x2F, 0x64] 13
      findEntry (steadyDevice sampleGeometry) sampleGeometry parent child) :=
  lookup_paths_agree _ _ _ _ 13 (by decide)

end Zonix.Fat.PathLoops
