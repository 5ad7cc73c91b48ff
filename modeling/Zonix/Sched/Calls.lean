import Zonix.Sched.Dispatch

/-! # What `find_process`, `fork`, `exit` and `wait` do

One lemma for each section of `process.cpp`: the result, over the lists of the table. -/

namespace Zonix.Sched

open Linked Function

variable {T : Type} [DecidableEq T] {k k' : Kernel T} {tb : Table T} {t c i : T} {fuel : ℕ} {pid : ℤ}

/-! ## `find_process` -/

omit [DecidableEq T] in
theorem visit_find (l : List T) :
    visit (k.findBody pid) (l.map .hash) none = l.find? fun t => k.pid t = pid := by
  induction l with
  | nil => rfl
  | cons t l ih =>
    by_cases ht : k.pid t = pid
    · simp [visit, Kernel.findBody, ht]
    · simp [visit, Kernel.findBody, ht, ih]

theorem findProcess_eq (hL : Listed k tb) (hpid : 0 < pid) (hfuel : (tb.hash (pidHash pid)).length < fuel) :
    k.findProcess fuel pid = some ((tb.hash (pidHash pid)).find? fun t => k.pid t = pid) := by
  unfold Kernel.findProcess
  rw [if_neg (by omega), (hL.repr.hash_ring _).forEach (by simpa using hfuel), visit_find]

theorem findProcess_found {found : Option T} (hL : Listed k tb) (h : k.findProcess fuel pid = some found) (hpid : 0 < pid) :
    found = (tb.hash (pidHash pid)).find? fun t => k.pid t = pid := by
  unfold Kernel.findProcess at h
  rw [if_neg (by omega)] at h
  rw [(hL.repr.hash_ring _).forEach_eq h, visit_find]

/-! ## `wait` -/

structure Scanned (k : Kernel T) (pid : ℤ) (l : List T) (r : Bool × Option T) : Prop where
  zombie : ∀ c, r.2 = some c → c ∈ l ∧ k.state c = .zombie ∧ k.matching pid c
  quiet : r.2 = none → ∀ c ∈ l, k.matching pid c → k.state c ≠ .zombie
  childless : r.2 = none → r.1 = false → ∀ c ∈ l, ¬ k.matching pid c

omit [DecidableEq T] in
theorem visit_scan (l : List T) (has : Bool) : Scanned k pid l (visit (k.scanBody pid) (l.map .child) (has, none)) := by
  induction l generalizing has with
  | nil => exact ⟨fun c hc => by simp [visit] at hc, fun _ c hc => by simp at hc, fun _ _ c hc => by simp at hc⟩
  | cons t l ih =>
    by_cases hm : k.matching pid t
    · by_cases hz : k.state t = .zombie
      · simp only [List.map_cons, visit, Kernel.scanBody, if_pos hm, if_pos hz]
        refine ⟨fun c hc => ?_, fun hn => by simp at hn, fun hn => by simp at hn⟩
        cases hc
        exact ⟨by simp, hz, hm⟩
      · have hrest := ih true
        simp only [List.map_cons, visit, Kernel.scanBody, if_pos hm, if_neg hz]
        refine ⟨fun c hc => ?_, fun hn c hc hmc => ?_, fun hn hf => ?_⟩
        · exact (hrest.zombie c hc).imp_left (List.mem_cons_of_mem _)
        · rcases List.mem_cons.mp hc with rfl | hc
          · exact hz
          · exact hrest.quiet hn c hc hmc
        · -- `has_children` stays set
          have hhas : ∀ (l : List T) (r : Option T),
              (visit (k.scanBody pid) (l.map .child) (true, r)).1 = true := by
            intro l r
            induction l generalizing r with
            | nil => rfl
            | cons u l ihl =>
              by_cases hmu : k.matching pid u
              · by_cases hzu : k.state u = .zombie
                · simp [visit, Kernel.scanBody, hmu, hzu]
                · simpa [visit, Kernel.scanBody, hmu, hzu] using ihl r
              · simpa [visit, Kernel.scanBody, hmu] using ihl r
          simp [hhas] at hf
    · have hrest := ih has
      simp only [List.map_cons, visit, Kernel.scanBody, if_neg hm]
      refine ⟨fun c hc => ?_, fun hn c hc hmc => ?_, fun hn hf c hc => ?_⟩
      · exact (hrest.zombie c hc).imp_left (List.mem_cons_of_mem _)
      · rcases List.mem_cons.mp hc with rfl | hc
        · exact absurd hmc hm
        · exact hrest.quiet hn c hc hmc
      · rcases List.mem_cons.mp hc with rfl | hc
        · exact hm
        · exact hrest.childless hn hf c hc

theorem scanChildren_scanned {r : Bool × Option T} (hL : Listed k tb) (hlive : k.live k.current = true)
    (h : k.scanChildren fuel pid = some r) : Scanned k pid (tb.kids k.current) r := by
  unfold Kernel.scanChildren at h
  rw [(hL.repr.kids_ring hlive).forEach_eq h]
  exact visit_scan _ false

inductive Waited (k : Kernel T) (pid : ℤ) : Kernel.Outcome T → Kernel T → Prop
  | reaped {z : T} {L : Links (Node T)} {cursor : Option (Node T)} (pub : k.published z = true)
      (parent : k.parent z = some k.current) (zombie : k.state z = .zombie) (fit : k.matching pid z) :
      Waited k pid (.reaped z (k.pid z) (k.exitCode z)) { k with
        links := L, processCount := k.processCount - 1, cursor := cursor, live := update k.live z false
        published := update k.published z false, pc := update k.pc k.current .outside }
  | notFound (childless : ∀ c, k.published c = true → k.parent c = some k.current → ¬ k.matching pid c) :
      Waited k pid .notFound { k with pc := update k.pc k.current .outside }
  | sleeping {n : Node T} {cur : T} {st : T → TaskState}
      (quiet : ∀ c, k.published c = true → k.parent c = some k.current → k.matching pid c → k.state c ≠ .zombie)
      (switched : Switched { k with
        waitState := update k.waitState k.current true, pc := update k.pc k.current (.asleep pid)
        state := update k.state k.current .sleeping } cur st) :
      Waited k pid .sleeping { k with
        waitState := update k.waitState k.current true, pc := update k.pc k.current (.asleep pid)
        cursor := some n, current := cur, state := st }

theorem waitRound_cases {o : Kernel.Outcome T} (hL : Listed k tb) (hlive : k.live k.current = true)
    (h : k.waitRound fuel pid = some (o, k')) : Waited k pid o k' ∧ ∃ tb', Listed k' tb' := by
  simp only [Kernel.waitRound, bind, Option.bind_eq_some_iff] at h
  obtain ⟨⟨has, zombie⟩, hscan, h⟩ := h
  have hs := scanChildren_scanned hL hlive hscan
  cases zombie with
  | some z =>
    simp only [Option.bind_eq_some_iff, Option.some.injEq, Prod.mk.injEq] at h
    obtain ⟨k₁, hdestroy, rfl, rfl⟩ := h
    obtain ⟨hmem, hz, hm⟩ := hs.zombie z rfl
    obtain ⟨hpub, hparent⟩ := (hL.kids _ z).mp hmem
    obtain ⟨L, cursor, tb', heq, hL'⟩ := hL.remove hpub hparent hlive
    rw [heq] at hdestroy
    simp only [Kernel.destroy, hz, if_true] at hdestroy
    unfold Kernel.delete at hdestroy
    split at hdestroy
    · cases hdestroy
      exact ⟨.reaped hpub hparent hz hm, tb', hL'.repr.free z, hL'.proc, hL'.hash, hL'.kids, hL'.count, hL'.cursor⟩
    · cases hdestroy
  | none =>
    simp only at h
    cases has with
    | false =>
      simp only [Bool.not_false, if_true, Option.some.injEq, Prod.mk.injEq] at h
      obtain ⟨rfl, rfl⟩ := h
      refine ⟨.notFound fun c hc hp => ?_, tb, hL.congr rfl rfl rfl rfl rfl rfl hL.cursor⟩
      exact hs.childless rfl rfl c ((hL.kids _ c).mpr ⟨hc, hp⟩)
    | true =>
      simp only [Bool.not_true, Bool.false_eq_true, if_false, Option.bind_eq_some_iff, Option.some.injEq,
        Prod.mk.injEq] at h
      obtain ⟨k₁, hsleep, k₂, hsched, rfl, rfl⟩ := h
      obtain ⟨-, rfl⟩ := sleep_eq hsleep
      have hL₁ : Listed { k with
          waitState := update k.waitState k.current true, pc := update k.pc k.current (.asleep pid)
          state := update k.state k.current .sleeping } tb := hL.congr rfl rfl rfl rfl rfl rfl hL.cursor
      obtain ⟨n, cur, st, rfl, hon, hswitch⟩ := schedule_cases hL₁ hsched
      refine ⟨.sleeping (fun c hc hp hm => ?_) hswitch, tb, hL₁.switch hon⟩
      exact hs.quiet rfl c ((hL.kids _ c).mpr ⟨hc, hp⟩) hm

/-! ## `exit` -/

theorem notify_cases (h : k.notify t = some k') : (k.waitState t = false ∧ k' = k) ∨
    (k.waitState t = true ∧ k.state t ≠ .zombie ∧ k' = { k with state := update k.state t .runnable }) := by
  unfold Kernel.notify at h
  split at h
  · obtain ⟨hz, rfl⟩ := wakeup_eq h
    exact Or.inr ⟨‹_›, hz, rfl⟩
  · cases h
    exact Or.inl ⟨by simpa using ‹¬k.waitState t = true›, rfl⟩

structure Adopted (k : Kernel T) (kids : List T) (i : T) (st : T → TaskState) : Prop where
  changed : ∀ u, st u = k.state u ∨ (u = i ∧ k.waitState i = true ∧ k.state i ≠ .zombie ∧ st u = .runnable)
  woken : k.waitState i = true → (∃ c ∈ kids, k.state c = .zombie) → st i = .runnable

omit [DecidableEq T] in
theorem Adopted.zombie {kids : List T} {st : T → TaskState} (hA : Adopted k kids i st) (u : T) :
    st u = .zombie ↔ k.state u = .zombie := by
  rcases hA.changed u with h | ⟨rfl, -, hz, h⟩
  · rw [h]
  · simp [h, hz]

omit [DecidableEq T] in
theorem Adopted.cons {kids : List T} {st : T → TaskState} {k₁ : Kernel T} (hA : Adopted k₁ kids i st)
    (hwait : k₁.waitState = k.waitState)
    (hstep : k₁.state = k.state ∨ (k.waitState i = true ∧ k.state i ≠ .zombie ∧ k₁.state i = .runnable ∧
      ∀ u, u ≠ i → k₁.state u = k.state u))
    (hwoken : k.waitState i = true → k.state c = .zombie → k₁.state i = .runnable) :
    Adopted k (c :: kids) i st := by
  have hold : ∀ u, k₁.state u = k.state u ∨
      (u = i ∧ k.waitState i = true ∧ k.state i ≠ .zombie ∧ k₁.state u = .runnable) := by
    intro u
    rcases hstep with h | ⟨hw, hz, hi, hne⟩
    · exact Or.inl (by rw [h])
    · by_cases hu : u = i
      · exact Or.inr ⟨hu, hw, hz, hu ▸ hi⟩
      · exact Or.inl (hne u hu)
  refine ⟨fun u => ?_, fun hw ⟨d, hd, hz⟩ => ?_⟩
  · rcases hA.changed u with h | ⟨rfl, hw, hz, h⟩
    · rw [h]
      exact hold u
    · rw [hwait] at hw
      refine Or.inr ⟨rfl, hw, fun he => ?_, h⟩
      rcases hold u with h' | ⟨-, -, hz', -⟩
      · exact hz (h'.trans he)
      · exact hz' he
  · rcases List.mem_cons.mp hd with rfl | hd
    · have hi := hwoken hw hz
      rcases hA.changed i with h | ⟨-, -, -, h⟩
      · rw [h, hi]
      · exact h
    · refine hA.woken (by rw [hwait]; exact hw) ⟨d, hd, ?_⟩
      rcases hold d with h | ⟨rfl, -, hz', -⟩
      · rw [h, hz]
      · exact absurd hz hz'

theorem adoptChild_cases (h : k.adoptChild c i = some k') : ∃ st, k' = { k with
      parent := update k.parent c (some i)
      links := (k.links.unlink (.child c)).addAfter (.childList i) (.child c), state := st } ∧
    (st = k.state ∨ (k.waitState i = true ∧ k.state i ≠ .zombie ∧ st i = .runnable ∧ ∀ u, u ≠ i → st u = k.state u)) ∧
    (k.waitState i = true → k.state c = .zombie → st i = .runnable) := by
  simp only [Kernel.adoptChild] at h
  split at h
  · rcases notify_cases h with ⟨hw, rfl⟩ | ⟨hw, hz, rfl⟩
    · exact ⟨k.state, rfl, Or.inl rfl, fun hw' => by simp [hw'] at hw⟩
    · exact ⟨_, rfl, Or.inr ⟨hw, hz, by simp, fun u hu => by simp [hu]⟩, fun _ _ => by simp⟩
  · rename_i hz
    cases h
    exact ⟨k.state, rfl, Or.inl rfl, fun _ hz' => absurd hz' hz⟩

theorem adoptChildren_cases (hL : Listed k tb) (hlive : ∀ u, k.published u = true → k.live u = true)
    (ht : k.live t = true) (hi : k.init = some i) (hilive : k.live i = true) (hne : i ≠ t)
    (h : Kernel.adoptChildren t fuel k = some k') : ∃ L st tb',
      k' = { k with links := L, parent := fun u => if u ∈ tb.kids t then some i else k.parent u, state := st } ∧
      Listed k' tb' ∧ Adopted k (tb.kids t) i st := by
  induction fuel generalizing k tb with
  | zero => simp [Kernel.adoptChildren] at h
  | succ fuel ih =>
    have hring := hL.repr.kids_ring ht
    have hnext := hring.next_head
    simp only [Kernel.adoptChildren] at h
    cases hkids : tb.kids t with
    | nil =>
      simp only [hkids, List.map_nil, List.headD_nil] at hnext
      rw [if_pos hnext] at h
      cases h
      exact ⟨k'.links, k'.state, tb, by simp, hL, fun u => Or.inl rfl, fun _ ⟨c, hc, _⟩ => by simp at hc⟩
    | cons c rest =>
      have hc : c ∈ tb.kids t := by simp [hkids]
      obtain ⟨hpub, -⟩ := (hL.kids t c).mp hc
      have hL₁ := hL.reparent hc ht hilive (hlive c hpub) hne
      simp only [hkids, List.map_cons, List.headD_cons] at hnext
      simp only [hnext, reduceCtorEq, if_false, hi, bind, Option.bind_eq_some_iff, Option.some.injEq] at h
      obtain ⟨_, rfl, k₁, hnotify, h⟩ := h
      have hrest : (update (update tb.kids t ((tb.kids t).erase c)) i (c :: tb.kids i)) t = rest := by
        rw [update_of_ne (Ne.symm hne), update_self, hkids, List.erase_cons_head]
      obtain ⟨st₁, rfl, hstep, hwoken⟩ := adoptChild_cases hnotify
      obtain ⟨L, st, tb', rfl, hL', hA⟩ := ih (hL₁.setState st₁) hlive ht hi hilive h
      simp only [hrest] at hA
      refine ⟨L, st, tb', ?_, hL', hA.cons rfl hstep hwoken⟩
      have hparent : (fun u => if u ∈ rest then some i else update k.parent c (some i) u) =
          fun u => if u ∈ c :: rest then some i else k.parent u := by
        funext u
        by_cases huc : u = c
        · simp [huc]
        · simp [huc]
      simp only [hrest, hparent]

structure Exited (k : Kernel T) (kids : List T) (i cur : T) (st : T → TaskState) : Prop where
  zombie : ∀ u, st u = .zombie ↔ u = k.current ∨ k.state u = .zombie
  sleeping : ∀ u, st u = .sleeping → k.state u = .sleeping
  parentWoken : ∀ p, k.parent k.current = some p → k.waitState p = true → st p ≠ .sleeping
  initWoken : k.waitState i = true → (∃ c ∈ kids, c = k.current ∨ k.state c = .zombie) → st i ≠ .sleeping
  picked : cur = k.idle ∨ k.published cur = true
  moved : cur ≠ k.current ∧ st cur = .running

theorem notifyParent_cases (h : k.notifyParent t = some k') : ∃ st, k' = { k with state := st } ∧
    (∀ u, st u = k.state u ∨ (k.state u ≠ .zombie ∧ st u = .runnable)) ∧
    ∀ p, k.parent t = some p → k.waitState p = true → st p = .runnable := by
  unfold Kernel.notifyParent at h
  split at h
  · rename_i p hp
    rcases notify_cases h with ⟨hw, rfl⟩ | ⟨-, hz, rfl⟩
    · refine ⟨_, rfl, fun u => Or.inl rfl, fun q hq hwq => ?_⟩
      rw [hp, Option.some.injEq] at hq
      simp [← hq, hw] at hwq
    · refine ⟨_, rfl, fun u => ?_, fun q hq _ => ?_⟩
      · by_cases hu : u = p
        · exact Or.inr ⟨hu ▸ hz, by simp [hu]⟩
        · exact Or.inl (by simp [hu])
      · rw [hp, Option.some.injEq] at hq
        simp [hq]
  · rename_i hp
    cases h
    exact ⟨_, rfl, fun u => Or.inl rfl, fun p hp' => by simp [hp] at hp'⟩

theorem exit_cases {code : ℤ} (hL : Listed k tb) (hlive : ∀ u, k.published u = true → k.live u = true)
    (hcur : k.published k.current = true) (hi : k.init = some i) (hip : k.published i = true) (hne : i ≠ k.current)
    (h : k.exit fuel code = some k') : ∃ L n cur st tb',
      k' = { k with
        links := L, parent := fun u => if u ∈ tb.kids k.current then some i else k.parent u
        exitCode := update k.exitCode k.current code, cursor := some n, current := cur, state := st } ∧
      Listed k' tb' ∧ Exited k (tb.kids k.current) i cur st := by
  simp only [Kernel.exit, bind, Option.bind_eq_some_iff] at h
  obtain ⟨k₁, hnotify, k₂, hadopt, k₃, hsched, h⟩ := h
  obtain ⟨st₁, rfl, hst₁, hparent⟩ := notifyParent_cases hnotify
  have hL₁ : Listed { k with state := st₁, exitCode := update k.exitCode k.current code } tb :=
    hL.congr rfl rfl rfl rfl rfl rfl hL.cursor
  obtain ⟨L, st₂, tb', rfl, hL₂, hA⟩ := adoptChildren_cases hL₁ hlive (hlive _ hcur) hi (hlive i hip) hne hadopt
  obtain ⟨n, cur, st, rfl, hon, hswitch⟩ := schedule_cases hL₂ hsched
  split at h
  · cases h
  · rename_i hmoved
    cases h
    refine ⟨L, n, cur, st, tb', rfl, hL₂.switch hon, ?_⟩
    simp only at hst₁ hparent
    have hz₁ : ∀ u, st₁ u = .zombie ↔ u = k.current ∨ k.state u = .zombie := by
      intro u
      have hzombie : update k.state k.current .zombie u = .zombie ↔ u = k.current ∨ k.state u = .zombie := by
        by_cases hu : u = k.current
        · simp [hu]
        · simp [hu]
      rcases hst₁ u with h | ⟨hz, h⟩
      · rw [h, hzombie]
      · rw [h, ← hzombie]
        simp [hz]
    have hs₁ : ∀ u, st₁ u = .sleeping → k.state u = .sleeping := by
      intro u hu
      rcases hst₁ u with h | ⟨-, h⟩
      · rw [h] at hu
        by_cases hc : u = k.current
        · simp [hc] at hu
        · simpa [hc] using hu
      · rw [h] at hu
        cases hu
    have hs₂ : ∀ u, st₂ u = .sleeping → st₁ u = .sleeping := by
      intro u hu
      rcases hA.changed u with h | ⟨-, -, -, h⟩
      · rwa [h] at hu
      · rw [h] at hu
        cases hu
    refine ⟨fun u => ?_, fun u hu => ?_, fun p hp hw hs => ?_, fun hw hc hs => ?_, hswitch.picked,
      hmoved, hswitch.moved hmoved⟩
    · rw [hswitch.zombie u, hA.zombie u]
      exact hz₁ u
    · exact hs₁ u (hs₂ u (hswitch.sleeping u hu))
    · have hs' := hs₂ p (hswitch.sleeping p hs)
      rw [hparent p hp hw] at hs'
      cases hs'
    · obtain ⟨c, hc, hzc⟩ := hc
      have hrun := hA.woken hw ⟨c, hc, (hz₁ c).mpr hzc⟩
      have hs' : st₂ i = .sleeping := hswitch.sleeping i hs
      rw [hrun] at hs'
      cases hs'

/-! ## `fork` -/

theorem forkPublish_cases {child p : T} (hL : Listed k tb) (hpub : k.published child = false) (hlive : k.live child = true)
    (hp : k.parent child = some p) (hplive : k.live p = true) (h : k.forkPublish child = some k') : ∃ L tb',
      k' = { k with
        links := L, processCount := k.processCount + 1
        priority := update k.priority child (k.priority k.current), pid := update k.pid child k.nextPid
        nextPid := (k.nextPid + 1).bmod (2 ^ 32), state := update k.state child .runnable
        published := update k.published child true, pc := update k.pc k.current .outside
        serial := update k.serial child (k.forkCount + 1), forkCount := k.forkCount + 1 } ∧
      Listed k' tb' := by
  unfold Kernel.forkPublish at h
  split at h
  · cases h
  · simp only [bind, Option.bind_eq_some_iff] at h
    obtain ⟨k₁, hwake, h⟩ := h
    -- the new pid is in place before the task is linked
    have hL₁ : Listed { k with
        priority := update k.priority child (k.priority k.current), pid := update k.pid child k.nextPid
        nextPid := (k.nextPid + 1).bmod (2 ^ 32) } tb := by
      refine ⟨hL.repr, hL.proc, fun b u => ?_, hL.kids, hL.count, hL.cursor⟩
      rw [hL.hash b u]
      refine and_congr_right fun hu => ?_
      have hne : u ≠ child := fun he => by simp [he, hpub] at hu
      simp [hne]
    obtain ⟨L, tb', heq, hL'⟩ := hL₁.publish hpub hlive hp hplive
    rw [heq] at hwake
    obtain ⟨-, rfl⟩ := wakeup_eq hwake
    cases h
    exact ⟨L, tb', rfl, hL'.congr rfl rfl rfl rfl rfl rfl hL'.cursor⟩

end Zonix.Sched
