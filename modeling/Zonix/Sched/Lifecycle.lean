import Zonix.Sched.Calls

/-! # The life of a task

`Sane`: who may be a parent, a zombie, on the CPU or half made.  `Waits`: no task sleeps in `wait` over
a zombie it waits for.  Every step keeps both. -/

namespace Zonix.Sched

open Linked Function

variable {T : Type}

/-- Parents, init and the task on the CPU are published and alive; a live task that is not published is
the child of a task inside `fork`. -/
structure Sane (k : Kernel T) : Prop where
  live : ∀ t, k.published t = true → k.live t = true
  parent : ∀ t p, k.published t = true → k.parent t = some p → k.published p = true ∧ k.state p ≠ .zombie
  init : ∀ i, k.init = some i → k.published i = true ∧ k.state i ≠ .zombie
  idle : k.published k.idle = true ∧ k.parent k.idle = none
  current : k.published k.current = true ∧ k.state k.current ≠ .zombie
  busy : ∀ t, k.pc t ≠ .outside → k.published t = true ∧ k.state t ≠ .zombie
  forking : ∀ t c, k.pc t = .forking c → k.live c = true ∧ k.published c = false ∧ k.parent c = some t
  limbo : ∀ c, k.live c = true → k.published c = false → ∃ t, k.pc t = .forking c

structure Waits (k : Kernel T) : Prop where
  waitState : ∀ t, k.waitState t = true ↔ ∃ a, k.pc t = .asleep a
  noLost : ∀ t a c, (k.pc t = .asleep a ∨ k.pc t = .again a) → k.state t = .sleeping → k.published c = true →
    k.parent c = some t → k.matching a c → k.state c ≠ .zombie
  again : ∀ t a, k.pc t = .again a → k.state t = .sleeping → t = k.current
  idleAgain : ∀ a, k.pc k.idle = .again a → k.current = k.idle

def Awake (k : Kernel T) : Prop := k.current = k.idle ∨ k.state k.current ≠ .sleeping

variable {k k' : Kernel T} {tb : Table T} {t c i cur : T} {st : T → TaskState}

theorem update_ne_zombie [DecidableEq T] {s : TaskState} {u : T} (hs : s ≠ .zombie) (hu : k.state u ≠ .zombie) :
    update k.state t s u ≠ .zombie := by
  by_cases hut : u = t
  · simpa [hut] using hs
  · simpa [hut] using hu

theorem Sane.setState (hs : Sane k) (st : T → TaskState) (hz : ∀ u, k.state u ≠ .zombie → st u ≠ .zombie) : Sane { k with state := st } := by
  refine ⟨hs.live, fun t q ht hq => (hs.parent t q ht hq).imp_right (hz q), fun i hi => (hs.init i hi).imp_right (hz i), hs.idle, hs.current.imp_right (hz _),
    fun t ht => (hs.busy t ht).imp_right (hz t), hs.forking, hs.limbo⟩

/-! ## A switch -/

theorem Sane.switch (hs : Sane k) (hw : Switched k cur st) (n : Option (Node T)) :
    Sane { k with cursor := n, current := cur, state := st } := by
  have hz : ∀ {t}, k.state t ≠ .zombie → st t ≠ .zombie := fun h he => h ((hw.zombie _).mp he)
  refine ⟨hs.live, fun t p ht hp => ?_, fun i hi => ?_, hs.idle, ⟨?_, ?_⟩, fun t ht => ?_, hs.forking, hs.limbo⟩
  · exact (hs.parent t p ht hp).imp_right hz
  · exact (hs.init i hi).imp_right hz
  · exact hw.picked.elim (fun h => h ▸ hs.idle.1) id
  · by_cases hc : cur = k.current
    · exact hz (hc ▸ hs.current.2)
    · simp [hw.moved hc]
  · exact (hs.busy t ht).imp_right hz

theorem Waits.switch (hq : Waits k) (hw : Switched k cur st)
    (hagain : ∀ a, k.pc k.current = .again a → k.current ≠ k.idle ∧ k.state k.current ≠ .sleeping) (n : Option (Node T)) :
    Waits { k with cursor := n, current := cur, state := st } ∧ Awake { k with cursor := n, current := cur, state := st } := by
  refine ⟨⟨hq.waitState, fun t a c hpc hsl hc hp hm hzc => ?_, fun t a hpc hsl => ?_, fun a hpc => ?_⟩, hw.awake⟩
  · exact hq.noLost t a c hpc (hw.sleeping t hsl) hc hp hm ((hw.zombie c).mp hzc)
  · have hsl := hw.sleeping t hsl
    have ht := hq.again t a hpc hsl
    subst ht
    exact absurd hsl (hagain a hpc).2
  · have hc := hq.idleAgain a hpc
    exact absurd hc (hagain a (hc ▸ hpc)).1

/-! ## `fork` -/

theorem Sane.fresh (hs : Sane k) (hfree : k.live c = false) : k.published c = false := by
  by_contra hne
  simp [hs.live c (by simpa using hne)] at hfree

variable [DecidableEq T]

theorem Sane.forkBegin (hs : Sane k) (hpc : k.pc k.current = .outside) (hfree : k.live c = false) :
    Sane (k.forkBegin c) := by
  have hc := hs.fresh hfree
  have hne : ∀ u, k.published u = true → u ≠ c := fun u hu he => by simp [he, hc] at hu
  have hcur := hne _ hs.current.1
  have hpcne : ∀ u, u ≠ c → u ≠ k.current → (k.forkBegin c).pc u = k.pc u := fun u huc hu => by
    simp [Kernel.forkBegin, huc, hu]
  have hbusy : ∀ u, (k.forkBegin c).pc u ≠ .outside → u = k.current ∨ (u ≠ c ∧ u ≠ k.current ∧ k.pc u ≠ .outside) := by
    intro u hu
    by_cases hucur : u = k.current
    · exact Or.inl hucur
    · by_cases huc : u = c
      · simp [Kernel.forkBegin, huc, Ne.symm hcur] at hu
      · exact Or.inr ⟨huc, hucur, hpcne u huc hucur ▸ hu⟩
  refine ⟨fun t ht => ?_, fun t p ht hp => ?_, fun i hi => ?_, ?_, ?_, fun t ht => ?_, fun t d htd => ?_, fun d hd hpub => ?_⟩
  · simpa [Kernel.forkBegin, hne t ht] using hs.live t ht
  · have hp' : k.parent t = some p := by simpa [Kernel.forkBegin, hne t ht] using hp
    obtain ⟨hpp, hz⟩ := hs.parent t p ht hp'
    exact ⟨hpp, by simpa [Kernel.forkBegin, hne p hpp] using hz⟩
  · obtain ⟨hpub, hz⟩ := hs.init i hi
    exact ⟨hpub, by simpa [Kernel.forkBegin, hne i hpub] using hz⟩
  · exact ⟨hs.idle.1, by simpa [Kernel.forkBegin, hne _ hs.idle.1] using hs.idle.2⟩
  · exact ⟨hs.current.1, by simpa [Kernel.forkBegin, hcur] using hs.current.2⟩
  · rcases hbusy t ht with rfl | ⟨htc, -, hpct⟩
    · exact ⟨hs.current.1, by simpa [Kernel.forkBegin, hcur] using hs.current.2⟩
    · obtain ⟨hpub, hz⟩ := hs.busy t hpct
      exact ⟨hpub, by simpa [Kernel.forkBegin, htc] using hz⟩
  · rcases hbusy t (by rw [htd]; simp) with rfl | ⟨htc, htcur, -⟩
    · have hd : c = d := by simpa [Kernel.forkBegin] using htd
      subst hd
      exact ⟨by simp [Kernel.forkBegin], hc, by simp [Kernel.forkBegin]⟩
    · rw [hpcne t htc htcur] at htd
      obtain ⟨hlive, hpub, hp⟩ := hs.forking t d htd
      have hdc : d ≠ c := fun he => by simp [he, hfree] at hlive
      exact ⟨by simpa [Kernel.forkBegin, hdc] using hlive, hpub, by simpa [Kernel.forkBegin, hdc] using hp⟩
  · by_cases hdc : d = c
    · exact ⟨k.current, by simp [Kernel.forkBegin, hdc]⟩
    · obtain ⟨t, ht⟩ := hs.limbo d (by simpa [Kernel.forkBegin, hdc] using hd) hpub
      have htc := hne t (hs.busy t (by rw [ht]; simp)).1
      have htcur : t ≠ k.current := fun he => by simp [he, hpc] at ht
      exact ⟨t, by rw [hpcne t htc htcur, ht]⟩

theorem Waits.forkBegin (hq : Waits k) (hs : Sane k) (hpc : k.pc k.current = .outside) (hfree : k.live c = false) :
    Waits (k.forkBegin c) := by
  have hc := hs.fresh hfree
  have hne : ∀ u, k.published u = true → u ≠ c := fun u hu he => by simp [he, hc] at hu
  have hcur := hne _ hs.current.1
  have hold : ∀ u a, ((k.forkBegin c).pc u = .asleep a ∨ (k.forkBegin c).pc u = .again a) →
      u ≠ c ∧ (k.forkBegin c).pc u = k.pc u := by
    intro u a hu
    have hucur : u ≠ k.current := fun he => by simp [Kernel.forkBegin, he] at hu
    have huc : u ≠ c := fun he => by simp [Kernel.forkBegin, he, Ne.symm hcur] at hu
    exact ⟨huc, by simp [Kernel.forkBegin, hucur, huc]⟩
  refine ⟨fun t => ?_, fun t a d hpct hsl hd hp hm => ?_, fun t a hpct hsl => ?_, fun a hpci => ?_⟩
  · by_cases htcur : t = k.current
    · have hfalse : k.waitState k.current ≠ true := fun h => by
        obtain ⟨a, ha⟩ := (hq.waitState _).mp h
        simp [hpc] at ha
      simp [Kernel.forkBegin, htcur, hcur, hfalse]
    · by_cases htc : t = c
      · simp [Kernel.forkBegin, htc, Ne.symm hcur]
      · simpa [Kernel.forkBegin, htcur, htc] using hq.waitState t
  · obtain ⟨htc, he⟩ := hold t a hpct
    have hdc := hne d hd
    rw [he] at hpct
    have hz := hq.noLost t a d hpct (by simpa [Kernel.forkBegin, htc] using hsl) hd
      (by simpa [Kernel.forkBegin, hdc] using hp) (by simpa [Kernel.forkBegin, Kernel.matching, hdc] using hm)
    simpa [Kernel.forkBegin, hdc] using hz
  · obtain ⟨htc, he⟩ := hold t a (Or.inr hpct)
    exact hq.again t a (he ▸ hpct) (by simpa [Kernel.forkBegin, htc] using hsl)
  · obtain ⟨-, he⟩ := hold _ a (Or.inr hpci)
    exact hq.idleAgain a (he ▸ hpci)

theorem Sane.forkFail (hs : Sane k) (hpc : k.pc k.current = .forking c) :
    Sane { k with live := update k.live c false, pc := update k.pc k.current .outside } := by
  obtain ⟨-, hc, hparent⟩ := hs.forking _ c hpc
  have hpcne : ∀ t d, update k.pc k.current .outside t = .forking d → t ≠ k.current ∧ d ≠ c ∧ k.pc t = .forking d := by
    intro t d htd
    have ht : t ≠ k.current := fun he => by simp [he] at htd
    rw [update_of_ne ht] at htd
    refine ⟨ht, fun he => ht ?_, htd⟩
    have hp := (hs.forking t d htd).2.2
    rw [he, hparent, Option.some.injEq] at hp
    exact hp.symm
  refine ⟨fun t ht => ?_, hs.parent, hs.init, hs.idle, hs.current, fun t ht => ?_, fun t d htd => ?_, fun d hd hpub => ?_⟩
  · have htc : t ≠ c := fun he => by simp [he, hc] at ht
    simpa [htc] using hs.live t ht
  · have htcur : t ≠ k.current := fun he => by simp [he] at ht
    exact hs.busy t (by simpa [htcur] using ht)
  · obtain ⟨-, hdc, htd⟩ := hpcne t d htd
    obtain ⟨hlive, hpub, hp⟩ := hs.forking t d htd
    exact ⟨by simpa [hdc] using hlive, hpub, hp⟩
  · have hdc : d ≠ c := fun he => by simp [he] at hd
    obtain ⟨t, ht⟩ := hs.limbo d (by simpa [hdc] using hd) hpub
    have htcur : t ≠ k.current := fun he => by
      rw [he, hpc, Pc.forking.injEq] at ht
      exact hdc ht.symm
    exact ⟨t, by simpa [htcur] using ht⟩

theorem Sane.forkPublish (hs : Sane k) (hpc : k.pc k.current = .forking c) (L : Links (Node T)) (n m : ℤ)
    (pr pd : T → ℤ) (sr : T → ℕ) (fc : ℕ) :
    Sane { k with
      links := L, processCount := n, priority := pr, pid := pd, nextPid := m, state := update k.state c .runnable
      published := update k.published c true, pc := update k.pc k.current .outside, serial := sr, forkCount := fc } := by
  obtain ⟨hlive, hc, hparent⟩ := hs.forking _ c hpc
  have hz : ∀ {u}, k.state u ≠ .zombie → update k.state c .runnable u ≠ .zombie := update_ne_zombie (by simp)
  have hpub : ∀ {u}, k.published u = true → update k.published c true u = true := by
    intro u hu
    by_cases huc : u = c
    · simp [huc]
    · simpa [huc] using hu
  refine ⟨fun t ht => ?_, fun t p ht hp => ?_, fun i hi => ?_, ⟨hpub hs.idle.1, hs.idle.2⟩, ⟨hpub hs.current.1, hz hs.current.2⟩,
    fun t ht => ?_, fun t d htd => ?_, fun d hd hpubd => ?_⟩
  · by_cases htc : t = c
    · exact htc ▸ hlive
    · exact hs.live t (by simpa [htc] using ht)
  · by_cases htc : t = c
    · rw [htc, hparent, Option.some.injEq] at hp
      exact hp ▸ ⟨hpub hs.current.1, hz hs.current.2⟩
    · obtain ⟨hpp, hzp⟩ := hs.parent t p (by simpa [htc] using ht) hp
      exact ⟨hpub hpp, hz hzp⟩
  · obtain ⟨hip, hiz⟩ := hs.init i hi
    exact ⟨hpub hip, hz hiz⟩
  · have htcur : t ≠ k.current := fun he => by simp [he] at ht
    obtain ⟨htp, htz⟩ := hs.busy t (by simpa [htcur] using ht)
    exact ⟨hpub htp, hz htz⟩
  · have htcur : t ≠ k.current := fun he => by simp [he] at htd
    obtain ⟨hdl, hdp, hp⟩ := hs.forking t d (by simpa [htcur] using htd)
    have hdc : d ≠ c := fun he => by
      rw [he, hparent, Option.some.injEq] at hp
      exact htcur hp.symm
    exact ⟨hdl, by simpa [hdc] using hdp, hp⟩
  · have hdc : d ≠ c := fun he => by simp [he] at hpubd
    obtain ⟨t, ht⟩ := hs.limbo d hd (by simpa [hdc] using hpubd)
    have htcur : t ≠ k.current := fun he => by
      rw [he, hpc, Pc.forking.injEq] at ht
      exact hdc ht.symm
    exact ⟨t, by simpa [htcur] using ht⟩

theorem Waits.leave (hq : Waits k) (hpc : ∀ a, k.pc k.current ≠ .asleep a) :
    Waits { k with pc := update k.pc k.current .outside } := by
  have hold : ∀ t p, update k.pc k.current .outside t = p → p ≠ .outside → t ≠ k.current ∧ k.pc t = p := by
    intro t p ht hp
    have htcur : t ≠ k.current := fun he => hp (by rw [← ht, he, update_self])
    exact ⟨htcur, by simpa [htcur] using ht⟩
  refine ⟨fun t => ?_, fun t a c hpct => ?_, fun t a hpct => ?_, fun a hpci => ?_⟩
  · by_cases ht : t = k.current
    · subst ht
      simpa [hpc] using hq.waitState k.current
    · simpa [ht] using hq.waitState t
  · have hpct' : k.pc t = .asleep a ∨ k.pc t = .again a :=
      hpct.imp (fun h => (hold t _ h (by simp)).2) (fun h => (hold t _ h (by simp)).2)
    exact hq.noLost t a c hpct'
  · exact hq.again t a (hold t _ hpct (by simp)).2
  · exact hq.idleAgain a (hold _ _ hpci (by simp)).2

theorem Waits.forkPublish (hq : Waits k) (hs : Sane k) (hpc : k.pc k.current = .forking c) (L : Links (Node T)) (n m j : ℤ)
    (pr : T → ℤ) (sr : T → ℕ) (fc : ℕ) :
    Waits { k with
      links := L, processCount := n, priority := pr, pid := update k.pid c j, nextPid := m
      state := update k.state c .runnable, published := update k.published c true
      pc := update k.pc k.current .outside, serial := sr, forkCount := fc } := by
  obtain ⟨-, hc, -⟩ := hs.forking _ c hpc
  have hq' := hq.leave (by simp [hpc])
  have hsl : ∀ {t}, update k.state c .runnable t = .sleeping → k.state t = .sleeping := by
    intro t ht
    by_cases htc : t = c
    · simp [htc] at ht
    · simpa [htc] using ht
  refine ⟨hq'.waitState, fun t a d hpct hslt hd hp hm => ?_, fun t a hpct hslt => ?_, hq'.idleAgain⟩
  · by_cases hdc : d = c
    · simp [hdc]
    · have hz := hq'.noLost t a d hpct (hsl hslt) (by simpa [hdc] using hd) hp (by simpa [Kernel.matching, hdc] using hm)
      simpa [hdc] using hz
  · exact hq'.again t a hpct (hsl hslt)

/-! ## `exit` -/

theorem Sane.exit (hs : Sane k) (hL : Listed k tb) (hpc : k.pc k.current = .outside) (hi : k.init = some i)
    (hne : i ≠ k.current) (he : Exited k (tb.kids k.current) i cur st) (L : Links (Node T)) (n : Option (Node T))
    (ec : T → ℤ) :
    Sane { k with
      links := L, parent := fun u => if u ∈ tb.kids k.current then some i else k.parent u, exitCode := ec, cursor := n
      current := cur, state := st } := by
  obtain ⟨hipub, hiz⟩ := hs.init i hi
  have hz : ∀ {u}, u ≠ k.current → k.state u ≠ .zombie → st u ≠ .zombie := by
    intro u hu hzu h
    rcases (he.zombie u).mp h with h | h
    · exact hu h
    · exact hzu h
  have hout : ∀ {u}, k.published u = false → u ∉ tb.kids k.current := fun hu hm => by
    simp [((hL.kids _ _).mp hm).1] at hu
  refine ⟨hs.live, fun t p ht hp => ?_, fun j hj => ?_, ⟨hs.idle.1, ?_⟩, ⟨?_, by simp [he.moved.2]⟩, fun t ht => ?_,
    fun t d htd => ?_, hs.limbo⟩
  · by_cases hkid : t ∈ tb.kids k.current
    · have : i = p := by simpa [hkid] using hp
      exact this ▸ ⟨hipub, hz hne hiz⟩
    · have hp' : k.parent t = some p := by simpa [hkid] using hp
      obtain ⟨hpp, hzp⟩ := hs.parent t p ht hp'
      have hpne : p ≠ k.current := fun h => hkid ((hL.kids _ t).mpr ⟨ht, h ▸ hp'⟩)
      exact ⟨hpp, hz hpne hzp⟩
  · have hij : i = j := Option.some.inj (hi.symm.trans hj)
    exact hij ▸ ⟨hipub, hz hne hiz⟩
  · have hkid : k.idle ∉ tb.kids k.current := fun hm => by
      have := ((hL.kids _ _).mp hm).2
      rw [hs.idle.2] at this
      cases this
    simpa [hkid] using hs.idle.2
  · exact he.picked.elim (fun h => h ▸ hs.idle.1) id
  · have htne : t ≠ k.current := fun h => ht (h ▸ hpc)
    exact (hs.busy t ht).imp_right (hz htne)
  · obtain ⟨hlive, hpub, hp⟩ := hs.forking t d htd
    exact ⟨hlive, hpub, by simpa [hout hpub] using hp⟩

theorem Waits.exit (hq : Waits k) (hpc : k.pc k.current = .outside)
    (he : Exited k (tb.kids k.current) i cur st) (L : Links (Node T)) (n : Option (Node T)) (ec : T → ℤ) :
    Waits { k with
      links := L, parent := fun u => if u ∈ tb.kids k.current then some i else k.parent u, exitCode := ec, cursor := n
      current := cur, state := st } := by
  refine ⟨hq.waitState, fun t a c hpct hsl hc hp hm hzc => ?_, fun t a hpct hsl => ?_, fun a hpci => ?_⟩
  · have hz := (he.zombie c).mp hzc
    have hslold := he.sleeping t hsl
    have htcur : t ≠ k.current := fun h => by simp [h, hpc] at hpct
    -- a task before another round of `wait` is not asleep, so `t` is in `schedule`
    have hwait : k.waitState t = true := by
      rcases hpct with h | h
      · exact (hq.waitState t).mpr ⟨a, h⟩
      · exact absurd (hq.again t a h hslold) htcur
    by_cases hkid : c ∈ tb.kids k.current
    · have hti : i = t := by simpa [hkid] using hp
      subst hti
      exact he.initWoken hwait ⟨c, hkid, hz⟩ hsl
    · have hp' : k.parent c = some t := by simpa [hkid] using hp
      rcases hz with rfl | hz
      · exact he.parentWoken t hp' hwait hsl
      · exact hq.noLost t a c hpct hslold hc hp' hm hz
  · have ht := hq.again t a hpct (he.sleeping t hsl)
    simp [ht, hpc] at hpct
  · have hc := hq.idleAgain a hpci
    simp [← hc, hpc] at hpci

/-! ## `wait` -/

theorem Sane.setPc (hs : Sane k) {p : Pc T} (hp : ∀ c, p ≠ .forking c) (hpc : ∀ c, k.pc k.current ≠ .forking c)
    (w : T → Bool) : Sane { k with waitState := w, pc := update k.pc k.current p } := by
  refine ⟨hs.live, hs.parent, hs.init, hs.idle, hs.current, fun t ht => ?_, fun t d htd => ?_, fun d hd hpub => ?_⟩
  · by_cases htcur : t = k.current
    · exact htcur ▸ hs.current
    · exact hs.busy t (by simpa [htcur] using ht)
  · have htcur : t ≠ k.current := fun he => by simp [he, hp] at htd
    exact hs.forking t d (by simpa [htcur] using htd)
  · obtain ⟨t, ht⟩ := hs.limbo d hd hpub
    have htcur : t ≠ k.current := fun he => hpc d (he ▸ ht)
    exact ⟨t, by simpa [htcur] using ht⟩

theorem Sane.reap (hs : Sane k) {z : T} (hz : k.state z = .zombie) (hpub : k.published z = true)
    (hparent : k.parent z ≠ none) (L : Links (Node T)) (n : ℤ) (r : Option (Node T)) :
    Sane { k with
      links := L, processCount := n, cursor := r, live := update k.live z false
      published := update k.published z false } := by
  have hkeep : ∀ {u}, k.published u = true ∧ k.state u ≠ .zombie → update k.published z false u = true := by
    intro u hu
    have : u ≠ z := fun he => hu.2 (he ▸ hz)
    simpa [this] using hu.1
  have hold : ∀ {u}, update k.published z false u = true → u ≠ z ∧ k.published u = true := by
    intro u hu
    have : u ≠ z := fun he => by simp [he] at hu
    exact ⟨this, by simpa [this] using hu⟩
  refine ⟨fun t ht => ?_, fun t p ht hp => ?_, fun i hi => ?_, ⟨?_, hs.idle.2⟩, ⟨hkeep hs.current, hs.current.2⟩, fun t ht => ?_,
    fun t d htd => ?_, fun d hd hpubd => ?_⟩
  · obtain ⟨htz, ht⟩ := hold ht
    simpa [htz] using hs.live t ht
  · have := hs.parent t p (hold ht).2 hp
    exact ⟨hkeep this, this.2⟩
  · have := hs.init i hi
    exact ⟨hkeep this, this.2⟩
  · have : k.idle ≠ z := fun he => hparent (he ▸ hs.idle.2)
    simpa [this] using hs.idle.1
  · have := hs.busy t ht
    exact ⟨hkeep this, this.2⟩
  · obtain ⟨hlive, hpubd, hp⟩ := hs.forking t d htd
    have : d ≠ z := fun he => by simp [he, hpub] at hpubd
    exact ⟨by simpa [this] using hlive, by simpa [this] using hpubd, hp⟩
  · have hdz : d ≠ z := fun he => by simp [he] at hd
    exact hs.limbo d (by simpa [hdz] using hd) (by simpa [hdz] using hpubd)

theorem Waits.reap (hq : Waits k) (z : T) (L : Links (Node T)) (n : ℤ) (r : Option (Node T)) (lv : T → Bool) :
    Waits { k with links := L, processCount := n, cursor := r, live := lv, published := update k.published z false } := by
  refine ⟨hq.waitState, fun t a c hpct hsl hc => ?_, hq.again, hq.idleAgain⟩
  have hcz : c ≠ z := fun he => by simp [he] at hc
  exact hq.noLost t a c hpct hsl (by simpa [hcz] using hc)

theorem Waits.sleep (hq : Waits k) {pid : ℤ}
    (hquiet : ∀ c, k.published c = true → k.parent c = some k.current → k.matching pid c → k.state c ≠ .zombie) :
    Waits { k with
      waitState := update k.waitState k.current true, pc := update k.pc k.current (.asleep pid)
      state := update k.state k.current .sleeping } := by
  refine ⟨fun t => ?_, fun t a c hpct hsl hc hp hm => update_ne_zombie (by simp) ?_, fun t a hpct hsl => ?_, fun a hpci => ?_⟩
  · by_cases ht : t = k.current
    · simp [ht]
    · simpa [ht] using hq.waitState t
  · by_cases ht : t = k.current
    · have ha : pid = a := by simpa [ht] using hpct
      exact hquiet c hc (ht ▸ hp) (ha ▸ hm)
    · exact hq.noLost t a c (by simpa [ht] using hpct) (by simpa [ht] using hsl) hc hp hm
  · have ht : t ≠ k.current := fun he => by simp [he] at hpct
    exact absurd (hq.again t a (by simpa [ht] using hpct) (by simpa [ht] using hsl)) ht
  · have ht : k.idle ≠ k.current := fun he => by simp [he] at hpci
    exact absurd (hq.idleAgain a (by simpa [ht] using hpci)).symm ht

theorem Waits.resume (hq : Waits k) {pid : ℤ} (hpc : k.pc k.current = .asleep pid) :
    Waits { k with waitState := update k.waitState k.current false, pc := update k.pc k.current (.again pid) } := by
  refine ⟨fun t => ?_, fun t a c hpct => ?_, fun t a hpct hsl => ?_, fun a hpci => ?_⟩
  · by_cases ht : t = k.current
    · simp [ht]
    · simpa [ht] using hq.waitState t
  · by_cases ht : t = k.current
    · have ha : pid = a := by simpa [ht] using hpct
      exact hq.noLost t a c (Or.inl (by rw [ht, hpc, ha]))
    · exact hq.noLost t a c (by simpa [ht] using hpct)
  · by_cases ht : t = k.current
    · exact ht
    · exact hq.again t a (by simpa [ht] using hpct) hsl
  · by_cases ht : k.idle = k.current
    · exact ht.symm
    · exact hq.idleAgain a (by simpa [ht] using hpci)

/-! ## Every step -/

structure Inv (k : Kernel T) : Prop where
  listed : ∃ tb, Listed k tb
  sane : Sane k
  waits : Waits k
  awake : Awake k

variable {fuel : ℕ}

omit [DecidableEq T] in
theorem Inv.setInit (hI : Inv k) (hpub : k.published i = true) (hz : k.state i ≠ .zombie) :
    Inv { k with init := some i } := by
  obtain ⟨tb, hL⟩ := hI.listed
  have hs := hI.sane
  have hq := hI.waits
  exact ⟨⟨tb, hL.congr rfl rfl rfl rfl rfl rfl hL.cursor⟩,
    ⟨hs.live, hs.parent, fun _ hj => Option.some.inj hj ▸ ⟨hpub, hz⟩, hs.idle, hs.current, hs.busy, hs.forking, hs.limbo⟩,
    ⟨hq.waitState, hq.noLost, hq.again, hq.idleAgain⟩, hI.awake⟩

theorem Inv.schedule (hL : Listed k tb) (hs : Sane k) (hq : Waits k)
    (hagain : ∀ a, k.pc k.current = .again a → k.current ≠ k.idle ∧ k.state k.current ≠ .sleeping)
    (h : k.schedule fuel = some k') : Inv k' := by
  obtain ⟨n, cur, st, rfl, hon, hw⟩ := schedule_cases hL h
  obtain ⟨hq', ha⟩ := hq.switch hw hagain (some n)
  exact ⟨⟨tb, hL.switch hon⟩, hs.switch hw (some n), hq', ha⟩

theorem Inv.forkBegin (hI : Inv k) (hpc : k.pc k.current = .outside) (hfree : k.live c = false) :
    Inv (k.forkBegin c) := by
  obtain ⟨tb, hL⟩ := hI.listed
  have hs := hI.sane
  have hcur : k.current ≠ c := fun he => by simp [← he, hs.live _ hs.current.1] at hfree
  refine ⟨⟨tb, hL.alloc hfree hs.live fun u hu hp => ?_⟩, hs.forkBegin hpc hfree, hI.waits.forkBegin hs hpc hfree, ?_⟩
  · simp [hs.live c (hs.parent u c hu hp).1] at hfree
  · exact hI.awake.imp_right fun h => by simpa [Kernel.forkBegin, hcur] using h

theorem Inv.forkFail (hI : Inv k) (hpc : k.pc k.current = .forking c) (h : k.forkFail c = some k') : Inv k' := by
  obtain ⟨tb, hL⟩ := hI.listed
  simp only [Kernel.forkFail, bind, Option.bind_eq_some_iff] at h
  obtain ⟨k₁, hdel, h⟩ := h
  obtain ⟨hL', rfl⟩ := hL.delete hdel
  cases h
  have hq := hI.waits.leave (by simp [hpc])
  exact ⟨⟨tb, hL'.congr rfl rfl rfl rfl rfl rfl hL'.cursor⟩, hI.sane.forkFail hpc,
    ⟨hq.waitState, hq.noLost, hq.again, hq.idleAgain⟩, hI.awake⟩

theorem Inv.forkPublish (hI : Inv k) (hpc : k.pc k.current = .forking c) (h : k.forkPublish c = some k') : Inv k' := by
  obtain ⟨tb, hL⟩ := hI.listed
  have hs := hI.sane
  obtain ⟨hlive, hpub, hp⟩ := hs.forking _ c hpc
  obtain ⟨L, tb', rfl, hL'⟩ := forkPublish_cases hL hpub hlive hp (hs.live _ hs.current.1) h
  have hcur : k.current ≠ c := fun he => by simp [← he, hs.current.1] at hpub
  exact ⟨⟨tb', hL'⟩, hs.forkPublish hpc .., hI.waits.forkPublish hs hpc ..,
    hI.awake.imp_right fun h => by simpa [hcur] using h⟩

theorem Inv.exit {code : ℤ} (hI : Inv k) (hpc : k.pc k.current = .outside) (hi : k.init = some i) (hne : i ≠ k.current)
    (h : k.exit fuel code = some k') : Inv k' := by
  obtain ⟨tb, hL⟩ := hI.listed
  have hs := hI.sane
  obtain ⟨L, n, cur, st, tb', rfl, hL', he⟩ := exit_cases hL hs.live hs.current.1 hi (hs.init i hi).1 hne h
  exact ⟨⟨tb', hL'⟩, hs.exit hL hpc hi hne he .., hI.waits.exit hpc he .., Or.inr (by simp [he.moved.2])⟩

theorem Inv.wait {pid : ℤ} {o : Kernel.Outcome T} (hI : Inv k)
    (hpc : k.pc k.current = .outside ∨ k.pc k.current = .again pid) (h : k.waitRound fuel pid = some (o, k')) : Inv k' := by
  obtain ⟨tb, hL⟩ := hI.listed
  have hs := hI.sane
  have hfork : ∀ c, k.pc k.current ≠ .forking c := fun c hc => by simp [hc] at hpc
  have hasleep : ∀ a, k.pc k.current ≠ .asleep a := fun a ha => by simp [ha] at hpc
  obtain ⟨hw, hL'⟩ := waitRound_cases hL (hs.live _ hs.current.1) h
  cases hw with
  | reaped pub parent zombie fit =>
    have hs' := (hs.setPc (p := .outside) (by simp) hfork k.waitState).reap zombie pub (by simp [parent])
    exact ⟨hL', hs' .., (hI.waits.leave hasleep).reap .., hI.awake⟩
  | notFound => exact ⟨hL', hs.setPc (by simp) hfork _, hI.waits.leave hasleep, hI.awake⟩
  | sleeping quiet switched =>
    have hs' := (hs.setPc (p := .asleep pid) (by simp) hfork (update k.waitState k.current true)).setState
      (update k.state k.current .sleeping) fun _ => update_ne_zombie (by simp)
    obtain ⟨hq, ha⟩ := (hI.waits.sleep quiet).switch switched (fun a h => by simp at h) (some _)
    exact ⟨hL', hs'.switch switched (some _), hq, ha⟩

theorem Inv.step {es : List Event} (hI : Inv k) (hi : k.init = some i) (h : Step k es k') : Inv k' := by
  obtain ⟨tb, hL⟩ := hI.listed
  have hs := hI.sane
  have hq := hI.waits
  cases h with
  | forkBegin c hpc _ hfree => exact hI.forkBegin hpc hfree
  | forkFail hpc h => exact hI.forkFail hpc h
  | forkPublish hpc h => exact hI.forkPublish hpc h
  | adoptMemory =>
    exact ⟨⟨tb, hL.congr rfl rfl rfl rfl rfl rfl hL.cursor⟩,
      ⟨hs.live, hs.parent, hs.init, hs.idle, hs.current, hs.busy, hs.forking, hs.limbo⟩,
      ⟨hq.waitState, hq.noLost, hq.again, hq.idleAgain⟩, hI.awake⟩
  | exit code hpc hinit h => exact hI.exit hpc hi (fun he => hinit (he ▸ hi)) h
  | wait pid _ hpc h => exact hI.wait hpc h
  | resume hpc =>
    exact ⟨⟨tb, hL.congr rfl rfl rfl rfl rfl rfl hL.cursor⟩, hs.setPc (by simp) (by simp [hpc]) _, hq.resume hpc, hI.awake⟩
  | yield hpc h => exact Inv.schedule hL hs hq (fun a ha => by simp [hpc] at ha) h
  | preempt hidle _ h => exact Inv.schedule hL hs hq (fun _ _ => ⟨hidle, hI.awake.resolve_left hidle⟩) h
  | block hpc hsleep h =>
    obtain ⟨-, rfl⟩ := sleep_eq hsleep
    have hs' := hs.setState (update k.state k.current .sleeping) fun _ => update_ne_zombie (by simp)
    have hq' : Waits { k with state := update k.state k.current .sleeping } := by
      refine ⟨hq.waitState, fun t a d hpct hsl hd hp hm => update_ne_zombie (by simp) ?_, fun t a hpct hsl => ?_, hq.idleAgain⟩
      · have ht : t ≠ k.current := fun he => by simp [he, hpc] at hpct
        exact hq.noLost t a d hpct (by simpa [ht] using hsl) hd hp hm
      · have ht : t ≠ k.current := fun he => (hpc a).2 (he ▸ hpct)
        exact hq.again t a hpct (by simpa [ht] using hsl)
    exact Inv.schedule (hL.setState _) hs' hq' (fun a ha => absurd ha (hpc a).2) h
  | wakeup hstate hpc h =>
    rename_i t
    obtain ⟨-, rfl⟩ := wakeup_eq h
    have hold : ∀ {u}, update k.state t .runnable u = .sleeping → k.state u = .sleeping := by
      intro u hu
      by_cases hut : u = t
      · simp [hut] at hu
      · simpa [hut] using hu
    refine ⟨⟨tb, hL.setState _⟩, hs.setState _ fun _ => update_ne_zombie (by simp), ?_, ?_⟩
    · exact ⟨hq.waitState, fun u a d hpcu hsl hd hp hm => update_ne_zombie (by simp) (hq.noLost u a d hpcu (hold hsl) hd hp hm),
        fun u a hpcu hsl => hq.again u a hpcu (hold hsl), hq.idleAgain⟩
    · exact hI.awake.imp_right fun h hsl => h (hold hsl)

end Zonix.Sched
