import Mathlib.Data.List.Perm.Subperm
import Zonix.Sched.Ledger

/-! # Every run of the process table

From `TaskManager::init` on, whatever the interleaving of `fork`, `exit`, `wait` and the scheduler. -/

namespace Zonix.Sched

open Linked Function

variable {T : Type} [DecidableEq T] {k k' : Kernel T} {tr : List Event} {idle child : T} {fuel : ℕ}

/-! ## Boot -/

theorem initIdle_listed {links : Links (Node T)}
    (heads : Family links (fun n => n = .procList ∨ (∃ b, n = .bucket b) ∨ n = .list idle ∨ n = .hash idle ∨
      n = .child idle ∨ n = .childList idle) fun _ => []) : ∃ tb, Listed (Kernel.initIdle links idle) tb := by
  have hone : ∀ u, update (fun _ => false) idle true u = true → u = idle := fun u hu => by
    by_contra hne
    simp [hne] at hu
  have hempty : Represents links (update (fun _ => false) idle true) (⟨[], fun _ => [], fun _ => []⟩ : Table T) := by
    refine heads.congr (fun n hn => ?_) (fun n _ => by cases n <;> rfl)
    cases n with
    | procList => exact Or.inl rfl
    | bucket b => exact Or.inr (Or.inl ⟨b, rfl⟩)
    | childList u => simp [hone u hn]
    | list u | hash u | child u => simp [hone u hn.1]
  refine ⟨_, hempty.addProcess (t := idle) (by simp) (by simp) (by simp) (pidHash 0), fun t => ?_, fun b t => ?_, fun p t => ?_,
    rfl, fun c hc => by simp [Kernel.initIdle, Kernel.addProcess] at hc⟩
  · by_cases ht : t = idle
    · simp [Kernel.initIdle, Kernel.addProcess, ht]
    · simp [Kernel.initIdle, Kernel.addProcess, ht]
  · by_cases ht : t = idle
    · by_cases hb : b = pidHash 0
      · simp [Kernel.initIdle, Kernel.addProcess, ht, hb]
      · simp [Kernel.initIdle, Kernel.addProcess, ht, hb, Ne.symm hb]
    · by_cases hb : b = pidHash 0
      · simp [Kernel.initIdle, Kernel.addProcess, ht, hb]
      · simp [Kernel.initIdle, Kernel.addProcess, ht, hb]
  · simp [Kernel.initIdle, Kernel.addProcess]

theorem initIdle_sane (links : Links (Node T)) (idle : T) : Sane (Kernel.initIdle links idle) := by
  have hone : ∀ u, update (fun _ => false) idle true u = true → u = idle := fun u hu => by
    by_contra hne
    simp [hne] at hu
  refine ⟨fun t ht => ht, fun t p ht hp => ?_, fun i hi => ?_, ⟨?_, rfl⟩, ⟨?_, ?_⟩, fun t ht => absurd rfl ht, fun t c htc => ?_,
    fun c hc hpub => ?_⟩
  · simp [Kernel.initIdle, Kernel.addProcess] at hp
  · simp [Kernel.initIdle, Kernel.addProcess] at hi
  · simp [Kernel.initIdle, Kernel.addProcess]
  · simp [Kernel.initIdle, Kernel.addProcess]
  · simp [Kernel.initIdle, Kernel.addProcess]
  · simp [Kernel.initIdle, Kernel.addProcess] at htc
  · rw [hone c hc] at hpub
    simp [Kernel.initIdle, Kernel.addProcess] at hpub

theorem initIdle_ledger (links : Links (Node T)) (idle : T) : Ledger (Kernel.initIdle links idle) [] := by
  have hone : ∀ u, update (fun _ => false) idle true u = true → u = idle := fun u hu => by
    by_contra hne
    simp [hne] at hu
  refine ⟨rfl, show (1 : ℤ) = (0 + 1 : ℤ).bmod (2 ^ 32) by decide,
    fun _ _ => show (0 : ℤ) = (0 : ℤ).bmod (2 ^ 32) by decide, fun _ _ => Nat.le_refl 0, fun t u ht hu _ => (hone t ht).trans (hone u hu).symm, fun i hi => ?_,
    fun _ _ h => by simp at h, fun _ _ _ _ h => by simp at h, fun t ht hz => ?_, fun _ _ _ h => by simp at h, List.nodup_nil,
    List.nodup_nil, fun _ _ _ _ _ h => by simp at h, fun t q _ hq => ?_, fun _ _ _ _ h => by simp at h⟩
  · simp [Kernel.initIdle, Kernel.addProcess] at hi
  · simp [Kernel.initIdle, Kernel.addProcess, hone t ht] at hz
  · simp [Kernel.initIdle, Kernel.addProcess] at hq

theorem boot_inv {links : Links (Node T)} (heads : Family links (fun n => n = .procList ∨ (∃ b, n = .bucket b) ∨
      n = .list idle ∨ n = .hash idle ∨ n = .child idle ∨ n = .childList idle) fun _ => []) (hne : child ≠ idle)
    (h : (Kernel.initIdle links idle).initInitProc fuel child = some k) :
    Inv k ∧ Ledger k [.forked 0 1 1] ∧ k.init = some child := by
  have hI : Inv (Kernel.initIdle links idle) := by
    refine ⟨initIdle_listed heads, initIdle_sane links idle, ⟨fun t => ?_, fun t a c hpc => ?_, fun t a hpc => ?_, fun a hpc => ?_⟩,
      Or.inl rfl⟩
    all_goals simp_all [Kernel.initIdle, Kernel.addProcess]
  have hfree : (Kernel.initIdle links idle).live child = false := by simp [Kernel.initIdle, Kernel.addProcess, hne]
  have hI₁ := hI.forkBegin rfl hfree
  have hpc : ((Kernel.initIdle links idle).forkBegin child).pc ((Kernel.initIdle links idle).forkBegin child).current =
      .forking child := by simp [Kernel.forkBegin]
  simp only [Kernel.initInitProc, bind, Option.bind_eq_some_iff] at h
  obtain ⟨k₂, hpub, found, hfind, init, hinit, h⟩ := h
  have hI₂ := hI₁.forkPublish hpc hpub
  obtain ⟨tb₁, hL₁⟩ := hI₁.listed
  obtain ⟨tb₂, hL₂⟩ := hI₂.listed
  obtain ⟨hlive, hunpub, hparent⟩ := hI₁.sane.forking _ _ hpc
  have hl₂ := ((initIdle_ledger links idle).forkBegin (hI.sane.fresh hfree)).forkPublish hI₁.sane hpc
  obtain ⟨L, tb', rfl, -⟩ := forkPublish_cases hL₁ hunpub hlive hparent (hI₁.sane.live _ hI₁.sane.current.1) hpub
  -- `find_process(1)` finds the task that was just published
  have hfound : init = child := by
    rw [findProcess_found hL₂ hfind (by omega)] at hinit
    have hmem := List.mem_of_find?_eq_some hinit
    have hpid := List.find?_some hinit
    obtain ⟨hpubi, -⟩ := (hL₂.hash _ init).mp hmem
    by_contra hic
    have hii : init = idle := by
      by_contra hii
      simp [Kernel.forkBegin, Kernel.initIdle, Kernel.addProcess, hic, hii] at hpubi
    simp [Kernel.forkBegin, Kernel.initIdle, Kernel.addProcess, hic] at hpid
  subst hfound
  cases h
  exact ⟨hI₂.setInit (by simp) (by simp), (hl₂ ..).setInit (by simp [Kernel.forkBegin, Kernel.initIdle, Kernel.addProcess]), rfl⟩

theorem Reach.inv (h : Reach k tr) : Inv k ∧ Ledger k tr ∧ ∃ i, k.init = some i := by
  induction h with
  | boot heads hne h =>
    obtain ⟨hI, hl, hi⟩ := boot_inv heads hne h
    exact ⟨hI, hl, _, hi⟩
  | step _ hstep ih =>
    obtain ⟨hI, hl, i, hi⟩ := ih
    obtain ⟨hl', hinit⟩ := hl.step hI hi hstep
    exact ⟨hI.step hi hstep, hl', i, hinit.trans hi⟩

/-! ## A sample run

Init forks a task and waits for it; the task exits with 7. -/

def sampleIdle : Kernel (Fin 3) := Kernel.initIdle ⟨id, id⟩ 0

def sampleBoot : Kernel (Fin 3) := (sampleIdle.initInitProc 4 1).getD sampleIdle

def sampleInit : Kernel (Fin 3) := (sampleBoot.schedule 4).getD sampleIdle

def sampleForked : Kernel (Fin 3) := ((sampleInit.forkBegin 2).forkPublish 2).getD sampleIdle

def sampleAsleep : Kernel (Fin 3) := ((sampleForked.waitRound 4 0).map Prod.snd).getD sampleIdle

def sampleExited : Kernel (Fin 3) := (sampleAsleep.exit 4 7).getD sampleIdle

def sampleAgain : Kernel (Fin 3) :=
  { sampleExited with
    waitState := update sampleExited.waitState sampleExited.current false
    pc := update sampleExited.pc sampleExited.current (.again 0) }

def sampleReaped : Kernel (Fin 3) := ((sampleAgain.waitRound 4 0).map Prod.snd).getD sampleIdle

theorem eq_some_getD {α : Type} {o : Option α} (d : α) (h : o.isSome = true) : o = some (o.getD d) := by
  cases o with
  | none => cases h
  | some a => rfl

theorem waitRound_getD {o : Kernel.Outcome T} {pid : ℤ} (d : Kernel T) (h : (k.waitRound fuel pid).map Prod.fst = some o) :
    k.waitRound fuel pid = some (o, ((k.waitRound fuel pid).map Prod.snd).getD d) := by
  cases hr : k.waitRound fuel pid with
  | none => simp [hr] at h
  | some r =>
    simp only [hr, Option.map_some, Option.some.injEq] at h
    rw [← h]
    rfl

theorem sampleAsleep_reach : Reach sampleAsleep [.forked 0 1 1, .forked 1 2 2] := by
  have hboot : Reach sampleBoot [.forked 0 1 1] := by
    refine .boot ⟨fun n _ => ⟨⟨rfl, rfl⟩, by simp⟩, fun m n _ _ hne y hy => ?_⟩ (by decide) (eq_some_getD _ (by decide +kernel))
    simp only [List.mem_singleton] at hy ⊢
    exact hy ▸ hne
  have hinit : Reach sampleInit _ := hboot.step (.yield (by decide +kernel) (eq_some_getD _ (by decide +kernel)))
  have hbegin := hinit.step (.forkBegin 2 (by decide +kernel) (by decide +kernel) (by decide +kernel))
  have hforked : Reach sampleForked _ := 
    hbegin.step (.forkPublish (show _ = Pc.forking 2 by decide +kernel) (eq_some_getD _ (by decide +kernel)))
  exact hforked.step (.wait 0 (by decide) (by decide +kernel) (waitRound_getD (o := .sleeping) _ rfl))

theorem sampleReaped_reach : Reach sampleReaped [.forked 0 1 1, .forked 1 2 2, .exited 2 7, .reaped 1 2 2 7] := by
  have hexited : Reach sampleExited _ :=
    sampleAsleep_reach.step (.exit 7 (by decide +kernel) (by decide +kernel) (eq_some_getD _ (by decide +kernel)))
  have hagain := hexited.step (.resume (show _ = Pc.asleep 0 by decide +kernel))
  exact hagain.step (.wait 0 (by decide) (by decide +kernel) (waitRound_getD (o := .reaped 2 2 7) _ rfl))

/-! ## The process table -/

/-- The lists run through `tb`, and hold each published task where it belongs and once. -/
structure Consistent (k : Kernel T) (tb : Table T) : Prop where
  proc : Ring k.links .procList (tb.proc.map .list)
  hash : ∀ b, Ring k.links (.bucket b) ((tb.hash b).map .hash)
  kids : ∀ p, k.live p = true → Ring k.links (.childList p) ((tb.kids p).map .child)
  onProc : ∀ t, tb.proc.count t = if k.published t then 1 else 0
  onHash : ∀ b t, (tb.hash b).count t = if k.published t ∧ pidHash (k.pid t) = b then 1 else 0
  onKids : ∀ p t, k.live p = true → (tb.kids p).count t = if k.published t ∧ k.parent t = some p then 1 else 0
  pids : ∀ t u, k.published t = true → k.published u = true → k.pid t = k.pid u → t = u
  count : k.processCount = tb.proc.length
  parent : ∀ t p, k.live t = true → k.parent t = some p → k.live p = true ∧ k.state p ≠ .zombie
  destroyed : ∀ t, k.live t = false → t ∉ tb.proc ∧ (∀ b, t ∉ tb.hash b) ∧ ∀ p, t ∉ tb.kids p
  cursor : k.cursor = none ∨ k.cursor = some .procList ∨ ∃ t, k.published t = true ∧ k.cursor = some (.list t)
  find : ∀ (pid : ℤ) (fuel : ℕ), 0 < pid → k.processCount < fuel → ∃ found, k.findProcess fuel pid = some found ∧
    ∀ t, found = some t ↔ k.published t = true ∧ k.pid t = pid

omit [DecidableEq T] in
theorem Ledger.pids (hl : Ledger k tr) (hforks : forks tr < 2 ^ 31) (t u : T) (ht : k.published t = true)
    (hu : k.published u = true) (he : k.pid t = k.pid u) : t = u := by
  have hrt := hl.range t ht
  have hru := hl.range u hu
  rw [hl.number t ht, hl.number u hu, Int.bmod_eq_of_le (by omega) (by omega), Int.bmod_eq_of_le (by omega) (by omega)] at he
  exact hl.distinct t u ht hu (by exact_mod_cast he)

theorem count_eq_ite {l : List T} (hnd : l.Nodup) {t : T} {q : Prop} [Decidable q] (hq : t ∈ l ↔ q) :
    l.count t = if q then 1 else 0 := by
  split
  · rename_i h
    exact List.count_eq_one_of_mem hnd (hq.mpr h)
  · rename_i h
    exact List.count_eq_zero.mpr fun hm => h (hq.mp hm)

theorem findProcess_iff {tb : Table T} (hL : Listed k tb)
    (hpids : ∀ t u, k.published t = true → k.published u = true → k.pid t = k.pid u → t = u) {pid : ℤ} (hpid : 0 < pid)
    (hfuel : k.processCount < fuel) : ∃ found, k.findProcess fuel pid = some found ∧
      ∀ t, found = some t ↔ k.published t = true ∧ k.pid t = pid := by
  have hsub : tb.hash (pidHash pid) ⊆ tb.proc := fun t ht => (hL.proc t).mpr ((hL.hash _ t).mp ht).1
  have hlen := (List.subperm_of_subset (hL.repr.hash_nodup (pidHash pid)) hsub).length_le
  have hcount := hL.count
  refine ⟨_, findProcess_eq hL hpid (by omega), fun t => ⟨fun h => ?_, fun ⟨hpub, ht⟩ => ?_⟩⟩
  · have hmem := List.mem_of_find?_eq_some h
    exact ⟨((hL.hash _ t).mp hmem).1, by simpa using List.find?_some h⟩
  · have hmem : t ∈ tb.hash (pidHash pid) := (hL.hash _ t).mpr ⟨hpub, by rw [ht]⟩
    obtain ⟨u, hu⟩ : ∃ u, (tb.hash (pidHash pid)).find? (fun t => k.pid t = pid) = some u := by
      rw [← Option.isSome_iff_exists, List.find?_isSome]
      exact ⟨t, hmem, by simpa using ht⟩
    have hpubu := ((hL.hash _ u).mp (List.mem_of_find?_eq_some hu)).1
    have hpidu : k.pid u = pid := by simpa using List.find?_some hu
    rw [hu, hpids u t hpubu hpub (hpidu.trans ht.symm)]

theorem process_table_consistent (h : Reach k tr) (hforks : forks tr < 2 ^ 31) : ∃ tb, Consistent k tb := by
  obtain ⟨hI, hl, -⟩ := h.inv
  obtain ⟨tb, hL⟩ := hI.listed
  have hs := hI.sane
  have hR := hL.repr
  have hpids := hl.pids hforks
  refine ⟨tb, hR.proc_ring, hR.hash_ring, fun p hp => hR.kids_ring hp, fun t => count_eq_ite hR.proc_nodup (hL.proc t),
    fun b t => count_eq_ite (hR.hash_nodup b) (hL.hash b t), fun p t hp => count_eq_ite (hR.kids_nodup hp) (hL.kids p t), hpids,
    hL.count, fun t p ht hp => ?_, fun t ht => ?_, ?_, fun pid fuel hpid hfuel => findProcess_iff hL hpids hpid hfuel⟩
  · cases hpub : k.published t with
    | true =>
      obtain ⟨hpp, hz⟩ := hs.parent t p hpub hp
      exact ⟨hs.live p hpp, hz⟩
    | false =>
      -- a task inside `fork`
      obtain ⟨q, hq⟩ := hs.limbo t ht hpub
      have hpq := (hs.forking q t hq).2.2
      obtain ⟨hpubq, hz⟩ := hs.busy q (by simp [hq])
      rw [hp, Option.some.injEq] at hpq
      exact hpq ▸ ⟨hs.live q hpubq, hz⟩
  · have hpub := hs.fresh ht
    exact ⟨by simp [hL.proc, hpub], by simp [hL.hash, hpub], by simp [hL.kids, hpub]⟩
  · cases hc : k.cursor with
    | none => exact Or.inl rfl
    | some n =>
      rcases hL.cursor n hc with rfl | ⟨t, ht, rfl⟩
      · exact Or.inr (Or.inl rfl)
      · exact Or.inr (Or.inr ⟨t, (hL.proc t).mp ht, rfl⟩)

theorem process_table_consistent_reaped : ∃ tb, Consistent sampleReaped tb :=
  process_table_consistent sampleReaped_reach (by decide)

/-! ## Exit status delivery -/

/-- No task sleeps in `wait` over a zombie it waits for; each exit status is taken once, by the forker or
by init, and it is the one that was passed to `exit`. -/
structure Delivered (k : Kernel T) (tr : List Event) : Prop where
  noLostWakeup : ∀ t a c, (k.pc t = .asleep a ∨ k.pc t = .again a) → k.state t = .sleeping → k.published c = true →
    k.parent c = some t → k.matching a c → k.state c ≠ .zombie
  exitedOnce : (tr.filterMap Event.exitedTask).Nodup
  reapedOnce : (tr.filterMap Event.reapedTask).Nodup
  status : ∀ q s p c, .reaped q s p c ∈ tr → .exited s c ∈ tr ∧ Forker tr q s p

/-- What one more step may do: `wait` takes a zombie child of the caller, returns `NotFound` to a caller
without a child that matches, and nothing else releases a published task. -/
structure Released (k : Kernel T) (es : List Event) (k' : Kernel T) : Prop where
  reaped : ∀ q s p c, .reaped q s p c ∈ es → ∃ z, k.published z = true ∧ k.state z = .zombie ∧
    k.parent z = some k.current ∧ q = k.serial k.current ∧ s = k.serial z ∧ p = k.pid z ∧ c = k.exitCode z
  storage : ∀ t, k.published t = true → k'.live t = false →
    k.state t = .zombie ∧ .reaped (k.serial k.current) (k.serial t) (k.pid t) (k.exitCode t) ∈ es

theorem Inv.released {es : List Event} {i : T} (hI : Inv k) (hi : k.init = some i) (h : Step k es k') : Released k es k' := by
  obtain ⟨tb, hL⟩ := hI.listed
  have hs := hI.sane
  -- most steps end with the storage that they start with
  have hkeep : ∀ k' : Kernel T, (∀ t, k.live t = true → k'.live t = true) → Released k [] k' := fun k' hlive => by
    refine ⟨fun q s p c h => by simp at h, fun t ht hfree => ?_⟩
    simp [hlive t (hs.live t ht)] at hfree
  cases h with
  | forkBegin c =>
    refine hkeep _ fun t ht => ?_
    by_cases htc : t = c
    · simp [Kernel.forkBegin, htc]
    · simpa [Kernel.forkBegin, htc] using ht
  | forkFail hpc h =>
    simp only [Kernel.forkFail, bind, Option.bind_eq_some_iff] at h
    obtain ⟨k₁, hdel, h⟩ := h
    obtain ⟨-, rfl⟩ := hL.delete hdel
    cases h
    rename_i c
    obtain ⟨-, hc, -⟩ := hs.forking _ c hpc
    refine ⟨fun q s p d h => by simp at h, fun t ht hfree => ?_⟩
    have htc : t ≠ c := fun he => by simp [he, hc] at ht
    simp [htc, hs.live t ht] at hfree
  | forkPublish hpc h =>
    obtain ⟨hlive, hpub, hp⟩ := hs.forking _ _ hpc
    obtain ⟨L, tb', rfl, -⟩ := forkPublish_cases hL hpub hlive hp (hs.live _ hs.current.1) h
    refine ⟨fun q s p c h => by simp at h, fun t ht hfree => ?_⟩
    simp [hs.live t ht] at hfree
  | exit code _ hinit h =>
    have hne : i ≠ k.current := fun he => hinit (he ▸ hi)
    obtain ⟨L, n, cur, st, tb', rfl, -, -⟩ := exit_cases hL hs.live hs.current.1 hi (hs.init i hi).1 hne h
    refine ⟨fun q s p c h => by simp at h, fun t ht hfree => ?_⟩
    simp [hs.live t ht] at hfree
  | wait pid _ _ h =>
    obtain ⟨hw, -⟩ := waitRound_cases hL (hs.live _ hs.current.1) h
    cases hw with
    | @reaped z _ _ pub parent zombie =>
      refine ⟨fun q s p c h => ?_, fun t ht hfree => ?_⟩
      · simp only [Kernel.Outcome.events, List.mem_singleton, Event.reaped.injEq] at h
        obtain ⟨rfl, rfl, rfl, rfl⟩ := h
        exact ⟨z, pub, zombie, parent, rfl, rfl, rfl, rfl⟩
      · have htz : t = z := by
          by_contra htz
          simp [htz, hs.live t ht] at hfree
        rw [htz]
        exact ⟨zombie, by simp [Kernel.Outcome.events]⟩
    | notFound | sleeping => exact hkeep _ fun t ht => ht
  | adoptMemory | resume => exact hkeep _ fun t ht => ht
  | yield _ h | preempt _ _ h =>
    obtain ⟨n, cur, st, rfl, -, -⟩ := schedule_cases hL h
    exact hkeep _ fun t ht => ht
  | block _ hsleep h =>
    obtain ⟨-, rfl⟩ := sleep_eq hsleep
    obtain ⟨n, cur, st, rfl, -, -⟩ := schedule_cases (hL.setState _) h
    exact hkeep _ fun t ht => ht
  | wakeup _ _ h =>
    obtain ⟨-, rfl⟩ := wakeup_eq h
    exact hkeep _ fun t ht => ht

theorem exit_status_delivered (h : Reach k tr) : Delivered k tr ∧ (∀ es k', Step k es k' → Released k es k') ∧
    ∀ fuel pid k', k.waitRound fuel pid = some (.notFound, k') →
      ∀ c, k.published c = true → k.parent c = some k.current → ¬ k.matching pid c := by
  obtain ⟨hI, hl, i, hi⟩ := h.inv
  refine ⟨⟨hI.waits.noLost, hl.exitedOnce, hl.reapedOnce, hl.delivered⟩, fun es k' hstep => hI.released hi hstep,
    fun fuel pid k' hwait => ?_⟩
  obtain ⟨tb, hL⟩ := hI.listed
  obtain ⟨hw, -⟩ := waitRound_cases hL (hI.sane.live _ hI.sane.current.1) hwait
  cases hw with
  | notFound childless => exact childless

theorem exit_status_delivered_reaped :
    sampleReaped.live 2 = false ∧ Delivered sampleReaped [.forked 0 1 1, .forked 1 2 2, .exited 2 7, .reaped 1 2 2 7] :=
  ⟨by decide +kernel, (exit_status_delivered sampleReaped_reach).1⟩

end Zonix.Sched
