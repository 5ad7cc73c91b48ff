import Zonix.Fat.Cache

/-! # Walking, freeing and claiming clusters

The iterator visits exactly the clusters of a chain; a loop over it is then a loop over a list
(`walkChain_wp`).  `rollback_new_chain` of a fresh cluster touches nothing else, whatever fails. -/

namespace Zonix.Fat

open Prog Pointer

variable {dev : Device} {g : Geometry} {s s' : FatState} {P : ℕ → Prop} {c start : ℕ} {l done rest : List ℕ}
  {α β : Type}

/-! ## Reading with a coherent cache -/

/-- From every state with this disk, `m` answers `r` and leaves the disk alone, unless a read fails. -/
def Reads (dev : Device) (g : Geometry) (disk : ℕ → Sector) (m : FatM α) (r : Except Error α) : Prop :=
  ∀ s, s.disk = disk → Coherent g s →
    wp m (fun a s' => r = .ok a ∧ Quiet g s s' ∧ s'.faults = s.faults)
      (fun e s' => Quiet g s s' ∧ ((r = .error e ∧ s'.faults = s.faults) ∨ Faulted dev.ReadFaulty s e s')) s

variable {disk : ℕ → Sector} {m : FatM α} {f : α → FatM β} {a : α} {r : Except Error β} {e : Error}

theorem Reads.pure : Reads dev g disk (Pure.pure a) (.ok a) := fun s _ _ => ⟨rfl, Quiet.refl s, rfl⟩

theorem Reads.fail : Reads dev g disk (Prog.fail e : FatM α) (.error e) :=
  fun s _ _ => ⟨Quiet.refl s, Or.inl ⟨rfl, rfl⟩⟩

theorem Reads.bind (h : Reads dev g disk m (.ok a)) (h' : Reads dev g disk (f a) r) :
    Reads dev g disk (m >>= f) r := by
  intro s hd hc
  rw [wp_bind]
  refine wp_mono (h s hd hc) (fun b s₁ h₁ => ?_) fun e s₁ h₁ => ?_
  · obtain ⟨hb, hq, hf⟩ := h₁
    obtain rfl := Except.ok.inj hb
    refine wp_mono (h' s₁ (hq.disk.trans hd) (hq.coherent hc)) (fun b s₂ h₂ => ?_) fun e s₂ h₂ => ?_
    · exact ⟨h₂.1, hq.trans h₂.2.1, h₂.2.2.trans hf⟩
    · refine ⟨hq.trans h₂.1, ?_⟩
      rcases h₂.2 with ⟨hr, hf₂⟩ | hfault
      · exact Or.inl ⟨hr, hf₂.trans hf⟩
      · exact Or.inr (hfault.after hf)
  · obtain ⟨hq, ⟨hr, -⟩ | hfault⟩ := h₁
    · simp at hr
    · exact ⟨hq, Or.inr hfault⟩

theorem Reads.bind_error (h : Reads dev g disk m (.error e)) : Reads dev g disk (m >>= f) (.error e) := by
  intro s hd hc
  rw [wp_bind]
  refine wp_mono (h s hd hc) (fun b s₁ h₁ => ?_) fun e' s₁ h₁ => ?_
  · simp at h₁
  · obtain ⟨hq, ⟨hr, hf⟩ | hfault⟩ := h₁
    · exact ⟨hq, Or.inl ⟨by rw [Except.error.inj hr], hf⟩⟩
    · exact ⟨hq, Or.inr hfault⟩

theorem Reads.wp_ok {Q : α → FatState → Prop} {E : Error → FatState → Prop} (h : Reads dev g s.disk m (.ok a))
    (hc : Coherent g s) (hq : ∀ s', Quiet g s s' → s'.faults = s.faults → Q a s')
    (he : ∀ e s', Quiet g s s' → Faulted dev.ReadFaulty s e s' → E e s') : wp m Q E s := by
  refine wp_mono (h s rfl hc) (fun b s₁ h₁ => ?_) fun e s₁ h₁ => ?_
  · obtain ⟨hb, hquiet, hf⟩ := h₁
    obtain rfl := Except.ok.inj hb
    exact hq s₁ hquiet hf
  · obtain ⟨hquiet, ⟨hr, -⟩ | hfault⟩ := h₁
    · simp at hr
    · exact he e s₁ hquiet hfault

theorem Reads.wp_error {Q : α → FatState → Prop} {E : Error → FatState → Prop}
    (h : Reads dev g s.disk m (.error e)) (hc : Coherent g s)
    (hq : ∀ s', Quiet g s s' → s'.faults = s.faults → E e s')
    (he : ∀ e s', Quiet g s s' → Faulted dev.ReadFaulty s e s' → E e s') : wp m Q E s := by
  refine wp_mono (h s rfl hc) (fun b s₁ h₁ => ?_) fun e' s₁ h₁ => ?_
  · simp at h₁
  · obtain ⟨hquiet, ⟨hr, hf⟩ | hfault⟩ := h₁
    · obtain rfl := Except.error.inj hr
      exact hq s₁ hquiet hf
    · exact he e' s₁ hquiet hfault

theorem Reads.ensure {p : Prop} [Decidable p] (hp : p) :
    Reads dev g disk (Prog.ensure p e : FatM Unit) (.ok ()) := by
  rw [Prog.ensure, if_pos hp]
  exact Reads.pure

theorem Reads.ensure_not {p : Prop} [Decidable p] (hp : ¬p) :
    Reads dev g disk (Prog.ensure p e : FatM Unit) (.error e) := by
  rw [Prog.ensure, if_neg hp]
  exact Reads.fail

theorem reads_entry (hf : g.Fits dev) (hc : g.Valid c) :
    Reads dev g disk (readEntry dev g c) (.ok ((vol g disk).fat c)) := by
  intro s hd hs
  refine wp_mono (readEntry_view hf hc) (fun v s' h => ?_) fun e s' h => ⟨h.1, Or.inr h.2⟩
  have hv : v = (vol g disk).fat c := by
    rw [h.1, hs.words c hc trivial, hd]
    simp [vol, hc]
  exact ⟨by rw [hv], h.2.1, h.2.2.1⟩

theorem reads_sector {i : ℕ} (hf : g.Fits dev) (hc : g.Valid c) (hi : i < g.sectorsPerCluster) :
    Reads dev g disk (dev.readSector (g.clusterLba c i)) (.ok (disk (g.dataLba c i))) := by
  intro s hd hs
  have hlt := g.dataLba_lt hc hi
  rw [g.clusterLba_eq hc hi]
  refine readSector_wp (hf.inRange (by omega)) ?_ fun d hd => ⟨quiet_serve d, Or.inr (faulted_serve d hd)⟩
  exact ⟨by rw [hd], ⟨rfl, rfl, rfl, fun _ h => ⟨h.sector, h.words⟩⟩, rfl⟩

/-! ## The iterator -/

structure OnChain (start : ℕ) (done rest : List ℕ) (ch : ClusterChain) : Prop where
  current : ch.current = done.getLastD start
  checkpoint : ch.checkpoint ∈ start :: done
  visited : ch.visited = done.length
  started : ch.started = !done.isEmpty
  finished : ch.finished = false

theorem onChain_new (start : ℕ) (l : List ℕ) : OnChain start [] l (ClusterChain.new start) :=
  ⟨rfl, by simp [ClusterChain.new], rfl, rfl, rfl⟩

theorem valid_length (hl : ∀ x ∈ l, g.Valid x) (hnd : l.Nodup) : l.length ≤ g.clusterCount := by
  have hsub : l.Subperm (List.range' 2 g.clusterCount) := by
    refine hnd.subperm fun x hx => ?_
    have hv := hl x hx
    unfold Geometry.Valid at hv
    rw [List.mem_range'_1]
    omega
  simpa using hsub.length_le

theorem Chain.next_fat {V : Volume} {y : ℕ} (h : Chain g V start ((done ++ [y]) ++ rest)) :
    (∀ x rest', rest = x :: rest' → V.fat y = x) ∧ (rest = [] → fat32EocMin ≤ V.fat y) := by
  obtain ⟨e, he, hp⟩ := h.path
  obtain ⟨m, hm, hrest⟩ := path_append.mp hp
  have hy := (path_snoc.mp hm).2
  constructor
  · rintro x rest' rfl
    rw [hy, hrest.1]
  · rintro rfl
    rw [hy, show m = e from hrest]
    exact he

theorem enter_reads {ch : ClusterChain} {x : ℕ} (hx : ch.current = x) (hv : g.Valid x)
    (hn : ch.visited < g.clusterCount) :
    Reads dev g disk (ch.enter g) (.ok (x, { ch with visited := ch.visited + 1, started := true })) := by
  subst hx
  exact Reads.bind (Reads.ensure ⟨(g.validCluster_iff _).mpr hv, hn⟩) Reads.pure

theorem next_reads {ch : ClusterChain} {x : ℕ} (hf : g.Fits dev)
    (hl : Chain g (vol g disk) start (done ++ x :: rest)) (h : OnChain start done (x :: rest) ch) :
    ∃ ch', OnChain start (done ++ [x]) rest ch' ∧ Reads dev g disk (ch.next dev g) (.ok (x, ch')) := by
  have hnd := hl.nodup
  have hxv : g.Valid x := hl.valid x (by simp)
  have hlen : done.length < g.clusterCount := by
    have hlen := valid_length hl.valid hnd
    simp at hlen
    omega
  rcases List.eq_nil_or_concat done with rfl | ⟨done, y, rfl⟩
  · -- the first call only checks the start
    obtain ⟨e, -, hp⟩ := hl.path
    have hcur : ch.current = x := h.current.trans hp.1
    refine ⟨{ ch with visited := ch.visited + 1, started := true }, ?_, ?_⟩
    · refine ⟨hcur, ?_, by simp [h.visited], rfl, h.finished⟩
      have hcp := h.checkpoint
      simp only [List.mem_cons, List.not_mem_nil, or_false] at hcp ⊢
      exact Or.inl hcp
    · have hstarted : ch.started = false := h.started
      unfold ClusterChain.next
      rw [if_neg (by simp [h.finished]), if_neg (by simp [hstarted])]
      exact enter_reads hcur hxv (by rw [h.visited]; exact hlen)
  · rw [List.concat_eq_append] at *
    have hstarted : ch.started = true := by simp [h.started]
    have hcur : ch.current = y := by simp [h.current]
    have hyv : g.Valid y := hl.valid y (by simp)
    have hnext : (vol g disk).fat ch.current = x := by
      rw [hcur]
      exact hl.next_fat.1 x rest rfl
    have hne : x ≠ ch.checkpoint := by
      intro he
      have hstart : start ∈ done ++ [y] := by
        obtain ⟨e, -, hp⟩ := hl.path
        cases done with
        | nil => rw [hp.1]; simp
        | cons z done => rw [hp.1]; simp
      have hmem : ch.checkpoint ∈ done ++ [y] := by
        rcases List.mem_cons.mp h.checkpoint with hcp | hcp
        · rw [hcp]
          exact hstart
        · exact hcp
      rw [List.nodup_append] at hnd
      exact hnd.2.2 _ hmem x (by simp) he.symm
    have hlt : ¬fat32EocMin ≤ x := Nat.not_le.mpr hxv.lt_eoc
    obtain ⟨ch', hch', hcurrent, hvisited, hfinished, hcheckpoint⟩ : ∃ ch', ch.advance x = ch' ∧ ch'.current = x ∧
        ch'.visited = ch.visited ∧ ch'.finished = ch.finished ∧
        (ch'.checkpoint = x ∨ ch'.checkpoint = ch.checkpoint) := by
      refine ⟨_, rfl, ?_⟩
      unfold ClusterChain.advance
      split <;> simp
    refine ⟨{ ch' with visited := ch'.visited + 1, started := true }, ?_, ?_⟩
    · refine ⟨by simp [hcurrent], ?_, by simp [hvisited, h.visited], by simp, hfinished.trans h.finished⟩
      rcases hcheckpoint with hcp | hcp
      · simp [hcp]
      · have hmem := h.checkpoint
        simp only [hcp, List.mem_cons, List.mem_append, List.not_mem_nil, or_false] at hmem ⊢
        tauto
    · unfold ClusterChain.next
      rw [if_neg (by simp [h.finished]), if_pos hstarted]
      refine Reads.bind (reads_entry hf (hcur ▸ hyv)) ?_
      rw [hnext, if_neg hlt]
      refine Reads.bind (Reads.ensure ((g.validCluster_iff x).mpr hxv)) ?_
      refine Reads.bind (Reads.ensure hne) ?_
      rw [hch']
      exact enter_reads hcurrent hxv (by rw [hvisited, h.visited]; exact hlen)

theorem next_reads_end {ch : ClusterChain} (hf : g.Fits dev) (hl : Chain g (vol g disk) start done)
    (h : OnChain start done [] ch) :
    ∃ ch', Reads dev g disk (ch.next dev g) (.ok (0, ch')) := by
  obtain ⟨done, y, rfl⟩ : ∃ m y, done = m ++ [y] := by
    rcases List.eq_nil_or_concat done with rfl | ⟨m, y, rfl⟩
    · exact absurd rfl hl.nonempty
    · exact ⟨m, y, List.concat_eq_append ..⟩
  have hcur : ch.current = y := by simp [h.current]
  have hend : fat32EocMin ≤ (vol g disk).fat ch.current := by
    have hl' : Chain g (vol g disk) start ((done ++ [y]) ++ []) := by simpa using hl
    rw [hcur]
    exact hl'.next_fat.2 rfl
  refine ⟨{ ch with finished := true }, ?_⟩
  unfold ClusterChain.next
  rw [if_neg (by simp [h.finished]), if_pos (by simp [h.started])]
  refine Reads.bind (reads_entry hf (hcur ▸ hl.valid y (by simp))) ?_
  rw [if_pos hend]
  exact Reads.pure

/-! ## Loops over a chain -/

section Walk

variable {cond : α → Bool} {body : α → ℕ → FatM (Flow α β)} {Q : Flow α β → FatState → Prop}
  {E : Error → FatState → Prop}

/-- An invariant of a loop over the chain `l` from `start`: `I done acc` holds when the clusters in
`done` were visited. -/
structure WalkInv (dev : Device) (g : Geometry) (start : ℕ) (l : List ℕ) (cond : α → Bool)
    (body : α → ℕ → FatM (Flow α β)) (I : List ℕ → α → FatState → Prop)
    (Q : Flow α β → FatState → Prop) (E : Error → FatState → Prop) : Prop where
  chain : ∀ done acc s, I done acc s → Coherent g s ∧ Chain g (vol g s.disk) start l
  quiet : ∀ done acc s s', I done acc s → Quiet g s s' → s'.faults = s.faults → I done acc s'
  fault : ∀ done acc s e s', I done acc s → Quiet g s s' → Faulted dev.ReadFaulty s e s' → E e s'
  step : ∀ done x rest acc s, l = done ++ x :: rest → cond acc = true → I done acc s →
    wp (body acc x) (fun r s' => match r with
      | .next acc => I (done ++ [x]) acc s'
      | .stop b => Q (.stop b) s') E s
  finish : ∀ done rest acc s, l = done ++ rest → (rest = [] ∨ cond acc = false) → I done acc s →
    Q (.next acc) s

theorem walk_wp {I : List ℕ → α → FatState → Prop} (hf : g.Fits dev)
    (hI : WalkInv dev g start l cond body I Q E) (fuel : ℕ) (ch : ClusterChain) (done rest : List ℕ) (acc : α)
    (s : FatState) (hl : l = done ++ rest) (hfuel : rest.length < fuel) (hon : OnChain start done rest ch)
    (hs : I done acc s) : wp (walk dev g cond body fuel ch acc) Q E s := by
  induction rest generalizing fuel ch done acc s with
  | nil =>
    obtain ⟨fuel, rfl⟩ : ∃ k, fuel = k + 1 := ⟨fuel - 1, by simp at hfuel; omega⟩
    obtain ⟨hc, hchain⟩ := hI.chain done acc s hs
    unfold walk
    split
    · rw [hl, List.append_nil] at hchain
      obtain ⟨ch', hnext⟩ := next_reads_end hf hchain hon
      rw [wp_bind]
      refine hnext.wp_ok hc (fun s' hq hfl => ?_) fun e s' hq hfault => hI.fault done acc s e s' hs hq hfault
      simp only [if_true, wp_pure]
      exact hI.finish done [] acc s' hl (Or.inl rfl) (hI.quiet done acc s s' hs hq hfl)
    · rename_i hcond
      exact hI.finish done [] acc s hl (Or.inl rfl) hs
  | cons x rest ih =>
    obtain ⟨fuel, rfl⟩ : ∃ k, fuel = k + 1 := ⟨fuel - 1, by simp at hfuel; omega⟩
    obtain ⟨hc, hchain⟩ := hI.chain done acc s hs
    unfold walk
    split
    · rename_i hcond
      rw [hl] at hchain
      obtain ⟨ch', hon', hnext⟩ := next_reads hf hchain hon
      have hx : x ≠ 0 := by
        have hv := hchain.valid x (by simp)
        unfold Geometry.Valid at hv
        omega
      rw [wp_bind]
      refine hnext.wp_ok hc (fun s' hq hfl => ?_) fun e s' hq hfault => hI.fault done acc s e s' hs hq hfault
      simp only [hx, if_false, wp_bind]
      refine wp_mono (hI.step done x rest acc s' hl hcond (hI.quiet done acc s s' hs hq hfl)) (fun r s₂ h₂ => ?_)
        fun _ _ h => h
      cases r with
      | next acc' => exact ih fuel ch' (done ++ [x]) acc' s₂ (by simp [hl]) (by simp at hfuel; omega) hon' h₂
      | stop b => exact h₂
    · rename_i hcond
      exact hI.finish done (x :: rest) acc s hl (Or.inr (by simpa using hcond)) hs

theorem walkChain_wp {I : List ℕ → α → FatState → Prop} (hf : g.Fits dev)
    (hI : WalkInv dev g start l cond body I Q E) (acc : α) (hs : I [] acc s) :
    wp (walkChain dev g start cond body acc) Q E s := by
  obtain ⟨-, hchain⟩ := hI.chain [] acc s hs
  have hlen := valid_length hchain.valid hchain.nodup
  exact walk_wp hf hI _ _ [] l acc s rfl (by omega) (onChain_new start l) hs

end Walk

theorem walkChain_invalid {cond : α → Bool} {body : α → ℕ → FatM (Flow α β)} {acc : α} (hacc : cond acc = true)
    (hv : ¬g.Valid start) : Reads dev g disk (walkChain dev g start cond body acc) (.error .badFs) := by
  unfold walkChain walk
  rw [if_pos hacc]
  refine Reads.bind_error ?_
  unfold ClusterChain.next
  rw [if_neg (by simp [ClusterChain.new]), if_neg (by simp [ClusterChain.new])]
  refine Reads.bind_error (Reads.ensure_not fun h => hv ?_)
  exact (g.validCluster_iff start).mp h.1

end Zonix.Fat
