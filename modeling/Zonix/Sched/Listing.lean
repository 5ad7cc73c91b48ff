import Zonix.Sched.Table

/-! # What is on the lists

The invariant of the process table, and what the edits of `set_links`, `remove_links`, `exit` and the
constructor of a task do to it. -/

namespace Zonix.Sched

open Linked Function

variable {T : Type}

structure Listed (k : Kernel T) (tb : Table T) : Prop where
  repr : Represents k.links k.live tb
  proc : ∀ t, t ∈ tb.proc ↔ k.published t = true
  hash : ∀ b t, t ∈ tb.hash b ↔ k.published t = true ∧ pidHash (k.pid t) = b
  kids : ∀ p t, t ∈ tb.kids p ↔ k.published t = true ∧ k.parent t = some p
  count : k.processCount = tb.proc.length
  cursor : ∀ c, k.cursor = some c → c = .procList ∨ ∃ t ∈ tb.proc, c = .list t

namespace Listed

variable {k k' : Kernel T} {tb : Table T} {t : T}

theorem congr (hL : Listed k tb) (hlinks : k'.links = k.links) (hlive : k'.live = k.live)
    (hpub : k'.published = k.published) (hpid : k'.pid = k.pid) (hparent : k'.parent = k.parent)
    (hcount : k'.processCount = k.processCount)
    (hcursor : ∀ c, k'.cursor = some c → c = .procList ∨ ∃ t ∈ tb.proc, c = .list t) : Listed k' tb := by
  refine ⟨?_, ?_, ?_, ?_, ?_, hcursor⟩
  · rw [hlinks, hlive]
    exact hL.repr
  · rw [hpub]
    exact hL.proc
  · rw [hpub, hpid]
    exact hL.hash
  · rw [hpub, hparent]
    exact hL.kids
  · rw [hcount]
    exact hL.count

theorem setState (hL : Listed k tb) (st : T → TaskState) : Listed { k with state := st } tb :=
  hL.congr rfl rfl rfl rfl rfl rfl hL.cursor

theorem next_mem (hL : Listed k tb) (ht : t ∈ tb.proc) :
    k.links.next (.list t) = .procList ∨ ∃ u ∈ tb.proc, k.links.next (.list t) = .list u := by
  obtain ⟨l₁, l₂, hsplit⟩ := List.append_of_mem ht
  have hring := hL.repr.proc_ring
  rw [hsplit, List.map_append, List.map_cons] at hring
  rw [hring.next_member]
  cases l₂ with
  | nil => exact Or.inl rfl
  | cons u l₂ => exact Or.inr ⟨u, by simp [hsplit], rfl⟩

theorem head_next (hL : Listed k tb) :
    k.links.next .procList = .procList ∨ ∃ u ∈ tb.proc, k.links.next .procList = .list u := by
  rw [hL.repr.proc_ring.next_head]
  cases hp : tb.proc with
  | nil => exact Or.inl rfl
  | cons u l => exact Or.inr ⟨u, by simp, rfl⟩

variable [DecidableEq T] {c p i : T}

theorem alloc (hL : Listed k tb) (hdead : k.live t = false) (hlive : ∀ u, k.published u = true → k.live u = true)
    (hparent : ∀ u, k.published u = true → k.parent u ≠ some t) : Listed (k.forkBegin t) tb := by
  have hpub : k.published t = false := by
    by_contra hne
    simp [hlive t (by simpa using hne)] at hdead
  have hne : ∀ u, k.published u = true → u ≠ t := fun u hu he => by simp [he, hpub] at hu
  have hkids : tb.kids t = [] := by
    rw [List.eq_nil_iff_forall_not_mem]
    intro u hu
    exact hparent u ((hL.kids t u).mp hu).1 ((hL.kids t u).mp hu).2
  refine ⟨?_, hL.proc, fun b u => ?_, fun p u => ?_, hL.count, hL.cursor⟩
  · refine hL.repr.alloc hdead ?_ ?_ ?_ hkids
    · simp [hL.proc, hpub]
    · simp [hL.hash, hpub]
    · simp [hL.kids, hpub]
  · rw [hL.hash b u]
    refine and_congr_right fun hu => ?_
    simp [Kernel.forkBegin, hne u hu]
  · rw [hL.kids p u]
    refine and_congr_right fun hu => ?_
    simp [Kernel.forkBegin, hne u hu]

theorem delete (hL : Listed k tb) (h : k.delete t = some k') :
    Listed k' tb ∧ k' = { k with live := update k.live t false } := by
  unfold Kernel.delete at h
  split at h
  · cases h
    exact ⟨⟨hL.repr.free t, hL.proc, hL.hash, hL.kids, hL.count, hL.cursor⟩, rfl⟩
  · cases h

theorem publish (hL : Listed k tb) (hpub : k.published t = false) (hlive : k.live t = true) (hp : k.parent t = some p)
    (hplive : k.live p = true) :
    ∃ L tb', k.setLinks t = { k with links := L, processCount := k.processCount + 1 } ∧
      Listed { k with links := L, processCount := k.processCount + 1, published := update k.published t true } tb' := by
  have hproc : t ∉ tb.proc := by simp [hL.proc, hpub]
  have hhash : ∀ b, t ∉ tb.hash b := by simp [hL.hash, hpub]
  have hkids : ∀ q, t ∉ tb.kids q := by simp [hL.kids, hpub]
  have hadd := (hL.repr.addProcess hlive hproc hhash (pidHash (k.pid t))).addChild hlive hplive hkids
  have hlinks : k.setLinks t = { k with
      links := ((k.links.addAfter (.bucket (pidHash (k.pid t))) (.hash t)).addAfter .procList (.list t)).addAfter
        (.childList p) (.child t)
      processCount := k.processCount + 1 } := by
    simp only [Kernel.setLinks, Kernel.addProcess, hp]
  refine ⟨_, _, hlinks, hadd, fun u => ?_, fun b u => ?_, fun q u => ?_, ?_, fun n hn => ?_⟩
  · by_cases hu : u = t
    · simp [hu]
    · simp [hu, hL.proc]
  · by_cases hu : u = t
    · subst hu
      by_cases hb : b = pidHash (k.pid u)
      · simp [hb]
      · simp [hb, hhash, Ne.symm hb]
    · by_cases hb : b = pidHash (k.pid t)
      · subst hb
        simp [hu, hL.hash]
      · simp [hb, hu, hL.hash]
  · by_cases hu : u = t
    · subst hu
      by_cases hq : q = p
      · simp [hq, hp]
      · simp [hq, hkids, hp, Ne.symm hq]
    · by_cases hq : q = p
      · subst hq
        simp [hu, hL.kids]
      · simp [hq, hu, hL.kids]
  · simp [hL.count]
  · rcases hL.cursor n hn with rfl | ⟨u, hu, rfl⟩
    · exact Or.inl rfl
    · exact Or.inr ⟨u, by simp [hu], rfl⟩

theorem remove (hL : Listed k tb) (hpub : k.published t = true) (hp : k.parent t = some p) (hplive : k.live p = true) :
    ∃ L c tb', k.removeLinks t = { k with links := L, processCount := k.processCount - 1, cursor := c } ∧
      Listed { k with links := L, processCount := k.processCount - 1, cursor := c, published := update k.published t false }
        tb' := by
  have hproc : t ∈ tb.proc := (hL.proc t).mpr hpub
  have hhash : t ∈ tb.hash (pidHash (k.pid t)) := (hL.hash _ t).mpr ⟨hpub, rfl⟩
  have hkids : t ∈ tb.kids p := (hL.kids p t).mpr ⟨hpub, hp⟩
  have hrem := (hL.repr.removeProcess hproc hhash).removeChild hplive hkids
  have hlinks : k.removeLinks t = { k with
      links := ((k.links.unlink (.hash t)).unlink (.list t)).unlink (.child t)
      processCount := k.processCount - 1
      cursor := if k.cursor = some (.list t) then none else k.cursor } := by
    simp only [Kernel.removeLinks, Kernel.removeProcess, Kernel.taskRemoved]
    split <;> rfl
  refine ⟨_, _, _, hlinks, hrem, fun u => ?_, fun b u => ?_, fun q u => ?_, ?_, fun n hn => ?_⟩
  · rw [hL.repr.proc_nodup.mem_erase_iff, hL.proc]
    by_cases hu : u = t
    · simp [hu]
    · simp [hu]
  · by_cases hb : b = pidHash (k.pid t)
    · subst hb
      simp only [update_self, (hL.repr.hash_nodup _).mem_erase_iff, hL.hash]
      by_cases hu : u = t
      · simp [hu]
      · simp [hu]
    · by_cases hu : u = t
      · simp [hb, hu, hL.hash, Ne.symm hb]
      · simp [hb, hu, hL.hash]
  · by_cases hq : q = p
    · subst hq
      simp only [update_self, (hL.repr.kids_nodup hplive).mem_erase_iff, hL.kids]
      by_cases hu : u = t
      · simp [hu]
      · simp [hu]
    · by_cases hu : u = t
      · simp [hq, hu, hL.kids, hp, Ne.symm hq]
      · simp [hq, hu, hL.kids]
  · have hpos := List.length_pos_of_mem hproc
    simp only [List.length_erase_of_mem hproc, hL.count]
    omega
  · split at hn
    · cases hn
    · rename_i hne
      rcases hL.cursor n hn with rfl | ⟨u, hu, rfl⟩
      · exact Or.inl rfl
      · have hut : u ≠ t := fun he => hne (he ▸ hn)
        exact Or.inr ⟨u, (List.mem_erase_of_ne hut).mpr hu, rfl⟩

theorem reparent (hL : Listed k tb) (hc : c ∈ tb.kids p) (hplive : k.live p = true) (hilive : k.live i = true)
    (hclive : k.live c = true) (hne : i ≠ p) :
    Listed { k with
      parent := update k.parent c (some i)
      links := (k.links.unlink (.child c)).addAfter (.childList i) (.child c) }
      { tb with kids := update (update tb.kids p ((tb.kids p).erase c)) i (c :: tb.kids i) } := by
  obtain ⟨hpub, hparent⟩ := (hL.kids p c).mp hc
  have hnd := hL.repr.kids_nodup hplive
  have hnone : ∀ q, c ∉ update tb.kids p ((tb.kids p).erase c) q := by
    intro q hq
    by_cases hqp : q = p
    · subst hqp
      rw [update_self] at hq
      exact hnd.not_mem_erase hq
    · rw [update_of_ne hqp, hL.kids, hparent] at hq
      exact hqp (Option.some.inj hq.2).symm
  have hedit := (hL.repr.removeChild hplive hc).addChild hclive hilive hnone
  simp only [update_of_ne hne] at hedit
  refine ⟨hedit, hL.proc, hL.hash, fun q u => ?_, hL.count, hL.cursor⟩
  by_cases hq : q = i
  · subst hq
    by_cases hu : u = c
    · simp [hu, hpub]
    · simp [hu, hL.kids]
  · by_cases hqp : q = p
    · subst hqp
      simp only [update_of_ne hq, update_self, hnd.mem_erase_iff, hL.kids]
      by_cases hu : u = c
      · simp [hu, Ne.symm hq]
      · simp [hu]
    · by_cases hu : u = c
      · simp [hq, hqp, hu, hL.kids, hparent, Ne.symm hq, Ne.symm hqp]
      · simp [hq, hqp, hu, hL.kids]

end Listed

end Zonix.Sched
