import Mathlib.Logic.Function.Iterate
import Zonix.Fat.Runs

/-! # Traversing arbitrary links

`ClusterChain::next` of `kernel/fs/fat/fat_core.cpp` on a FAT with any contents: called until it
answers 0 or fails, it follows the links from its start to an end mark, or stops at a link that is
no cluster or that leads back. -/

namespace Zonix.Fat

open Prog

variable (dev : Device) (g : Geometry)

/-- Call `next` until it answers 0 or fails: the clusters it yielded and how the last call ended.
Every call takes one unit of `fuel`. -/
def drain : ℕ → ClusterChain → FatState → Option (List ℕ × Except Error Unit)
  | 0, _, _ => none
  | fuel + 1, ch, s =>
    match ch.next dev g s with
    | (.error e, _) => some ([], .error e)
    | (.ok (cluster, ch), s) =>
      if cluster = 0 then some ([], .ok ())
      else (drain fuel ch s).map fun (l, r) => (cluster :: l, r)

/-- Member `n` of the sequence `start`, `FAT[start]`, `FAT[FAT[start]]`, and so on. -/
def link (V : Volume) (start n : ℕ) : ℕ := V.fat^[n] start

/-- Every link from `start` on is a cluster, up to an end mark. -/
def ReachesEnd (V : Volume) (start : ℕ) : Prop :=
  ∃ n, (∀ i ≤ n, g.Valid (link V start i)) ∧ fat32EocMin ≤ link V start (n + 1)

/-- Link `n` ends a traversal that is not at an end mark. -/
def Broken (V : Volume) (start n : ℕ) : Prop :=
  (¬g.Valid (link V start n) ∧ (n = 0 ∨ link V start n < fat32EocMin)) ∨ ∃ k < n, link V start n = link V start k

variable {dev} {g} {V : Volume} {s : FatState} {start n : ℕ} {ch : ClusterChain}

theorem link_succ (V : Volume) (start n : ℕ) : link V start (n + 1) = V.fat (link V start n) :=
  Function.iterate_succ_apply' ..

theorem link_shift {i j : ℕ} (h : link V start i = link V start j) (t : ℕ) :
    link V start (i + t) = link V start (j + t) := by
  induction t with
  | zero => exact h
  | succ t ih => rw [← Nat.add_assoc, ← Nat.add_assoc, link_succ, link_succ, ih]

theorem valid_of_repeat {k : ℕ} (hv : ∀ i < n, g.Valid (link V start i)) (hk : k < n)
    (h : link V start n = link V start k) (i : ℕ) : g.Valid (link V start i) := by
  induction i using Nat.strong_induction_on with
  | _ i ih =>
    rcases Nat.lt_or_ge i n with hi | hi
    · exact hv i hi
    · have hshift := link_shift h (i - n)
      rw [Nat.add_sub_cancel' hi] at hshift
      rw [hshift]
      exact ih (k + (i - n)) (by omega)

theorem Broken.not_reachesEnd (h : Broken g V start n) (hv : ∀ i < n, g.Valid (link V start i)) :
    ¬ReachesEnd g V start := by
  rintro ⟨m, hm, hend⟩
  have hnot : ¬g.Valid (link V start (m + 1)) := fun hvalid => Nat.not_le.mpr hvalid.lt_eoc hend
  rcases h with ⟨hbad, hlow⟩ | ⟨k, hk, hrep⟩
  · have hmn : m < n := Nat.lt_of_not_le fun hle => hbad (hm n hle)
    have hn : n = m + 1 := by
      by_contra hne
      exact hnot (hv (m + 1) (by omega))
    rw [hn] at hlow
    omega
  · exact hnot (valid_of_repeat hv hk hrep (m + 1))

theorem repeat_of_full (hv : ∀ i ≤ n, g.Valid (link V start i)) (hn : g.clusterCount ≤ n) :
    ∃ k < n, link V start n = link V start k := by
  obtain ⟨i, j, hij, hj, he⟩ : ∃ i j, i < j ∧ j ≤ n ∧ link V start i = link V start j := by
    by_contra hno
    have hinj : ∀ x ∈ List.range (n + 1), ∀ y ∈ List.range (n + 1),
        link V start x = link V start y → x = y := by
      intro x hx y hy he
      rw [List.mem_range] at hx hy
      rcases Nat.lt_trichotomy x y with hlt | heq | hgt
      · exact absurd ⟨x, y, hlt, by omega, he⟩ hno
      · exact heq
      · exact absurd ⟨y, x, hgt, by omega, he.symm⟩ hno
    have hlen : ((List.range (n + 1)).map (link V start)).length ≤ g.clusterCount := by
      refine valid_length (fun c hc => ?_) (List.nodup_range.map_on hinj)
      obtain ⟨i, hi, rfl⟩ := List.mem_map.mp hc
      rw [List.mem_range] at hi
      exact hv i (by omega)
    simp only [List.length_map, List.length_range] at hlen
    omega
  refine ⟨i + (n - j), by omega, ?_⟩
  rw [link_shift he (n - j), Nat.add_sub_cancel' hj]

/-! ## One call -/

structure Walked (g : Geometry) (V : Volume) (start n : ℕ) (ch : ClusterChain) : Prop where
  current : ch.current = link V start (n - 1)
  checkpoint : ∃ k, (k < n ∨ k = 0) ∧ ch.checkpoint = link V start k
  visited : ch.visited = n
  started : ch.started = decide (0 < n)
  finished : ch.finished = false
  bound : n ≤ g.clusterCount
  valid : ∀ i < n, g.Valid (link V start i)

theorem walked_new (start : ℕ) : Walked g V start 0 (ClusterChain.new start) :=
  ⟨rfl, ⟨0, Or.inr rfl, rfl⟩, rfl, rfl, rfl, Nat.zero_le _, fun _ h => absurd h (Nat.not_lt_zero _)⟩

inductive Answer (g : Geometry) (V : Volume) (start n : ℕ) : Except Error (ℕ × ClusterChain) → Prop where
  | yielded {ch : ClusterChain} (h : Walked g V start (n + 1) ch) : Answer g V start n (.ok (link V start n, ch))
  | ended (ch : ClusterChain) (h0 : 0 < n) (h : fat32EocMin ≤ link V start n) : Answer g V start n (.ok (0, ch))
  | refused (h : Broken g V start n) : Answer g V start n (.error .badFs)

theorem Walked.snoc {ch' : ClusterChain} (h : Walked g V start n ch) (hv : g.Valid (link V start n))
    (hcur : ch'.current = link V start n) (hcp : ch'.checkpoint = ch.checkpoint ∨ ch'.checkpoint = link V start n)
    (hvis : ch'.visited = ch.visited) (hfin : ch'.finished = ch.finished) (hn : ch'.visited < g.clusterCount) :
    Walked g V start (n + 1) { ch' with visited := ch'.visited + 1, started := true } := by
  refine ⟨by simpa using hcur, ?_, by simp [hvis, h.visited], by simp, hfin.trans h.finished, ?_, fun i hi => ?_⟩
  · rcases hcp with hcp | hcp
    · obtain ⟨k, hk, he⟩ := h.checkpoint
      exact ⟨k, by omega, hcp.trans he⟩
    · exact ⟨n, Or.inl (by omega), hcp⟩
  · rw [hvis, h.visited] at hn
    exact hn
  · rcases Nat.lt_succ_iff_lt_or_eq.mp hi with hlt | rfl
    · exact h.valid i hlt
    · exact hv

theorem enter_answers (dev : Device) (disk : ℕ → Sector) {ch' : ClusterChain} (h : Walked g V start n ch)
    (hcur : ch'.current = link V start n) (hcp : ch'.checkpoint = ch.checkpoint ∨ ch'.checkpoint = link V start n)
    (hvis : ch'.visited = ch.visited) (hfin : ch'.finished = ch.finished)
    (hlow : n = 0 ∨ link V start n < fat32EocMin) :
    ∃ r, Reads dev g disk (ch'.enter g) r ∧ Answer g V start n r := by
  by_cases hv : g.Valid (link V start n)
  · by_cases hn : ch'.visited < g.clusterCount
    · exact ⟨_, enter_reads hcur hv hn, .yielded (h.snoc hv hcur hcp hvis hfin hn)⟩
    · refine ⟨_, Reads.bind_error (Reads.ensure_not fun hc => hn hc.2), .refused (Or.inr ?_)⟩
      have hfull : ∀ i ≤ n, g.Valid (link V start i) := by
        intro i hi
        rcases Nat.lt_or_eq_of_le hi with hlt | rfl
        · exact h.valid i hlt
        · exact hv
      refine repeat_of_full hfull ?_
      rw [hvis, h.visited] at hn
      omega
  · refine ⟨_, Reads.bind_error (Reads.ensure_not fun hc => hv ?_), .refused (Or.inl ⟨hv, hlow⟩)⟩
    rw [← hcur]
    exact (g.validCluster_iff _).mp hc.1

theorem advance_fields (ch : ClusterChain) (x : ℕ) : (ch.advance x).current = x ∧
    ((ch.advance x).checkpoint = ch.checkpoint ∨ (ch.advance x).checkpoint = x) ∧
    (ch.advance x).visited = ch.visited ∧ (ch.advance x).finished = ch.finished := by
  unfold ClusterChain.advance
  split
  · exact ⟨rfl, Or.inr rfl, rfl, rfl⟩
  · exact ⟨rfl, Or.inl rfl, rfl, rfl⟩

theorem next_answers {disk : ℕ → Sector} (hf : g.Fits dev) (h : Walked g (vol g disk) start n ch) :
    ∃ r, Reads dev g disk (ch.next dev g) r ∧ Answer g (vol g disk) start n r := by
  unfold ClusterChain.next
  rw [if_neg (by simp [h.finished])]
  cases n with
  | zero =>
    rw [if_neg (by simp [h.started])]
    exact enter_answers dev disk h h.current (Or.inl rfl) rfl rfl (Or.inl rfl)
  | succ n =>
    rw [if_pos (by simp [h.started])]
    have hcur : ch.current = link (vol g disk) start n := h.current
    have hread : Reads dev g disk (readEntry dev g ch.current) (.ok (link (vol g disk) start (n + 1))) := by
      rw [hcur, link_succ]
      exact reads_entry hf (h.valid n (Nat.lt_succ_self n))
    by_cases hend : fat32EocMin ≤ link (vol g disk) start (n + 1)
    · refine ⟨_, Reads.bind hread ?_, .ended { ch with finished := true } (Nat.succ_pos n) hend⟩
      rw [if_pos hend]
      exact Reads.pure
    · have hlow : link (vol g disk) start (n + 1) < fat32EocMin := Nat.lt_of_not_le hend
      by_cases hv : g.Valid (link (vol g disk) start (n + 1))
      · by_cases hcp : link (vol g disk) start (n + 1) = ch.checkpoint
        · -- the checkpoint is a cluster that was yielded before
          obtain ⟨k, hk, he⟩ := h.checkpoint
          refine ⟨_, Reads.bind hread ?_, .refused (Or.inr ⟨k, by omega, hcp.trans he⟩)⟩
          rw [if_neg hend]
          refine Reads.bind (Reads.ensure ((g.validCluster_iff _).mpr hv)) ?_
          exact Reads.bind_error (Reads.ensure_not fun hne => hne hcp)
        · obtain ⟨hcur', hcp', hvis', hfin'⟩ := advance_fields ch (link (vol g disk) start (n + 1))
          obtain ⟨r, hr, ha⟩ := enter_answers dev disk h hcur' hcp' hvis' hfin' (Or.inr hlow)
          refine ⟨r, Reads.bind hread ?_, ha⟩
          rw [if_neg hend]
          refine Reads.bind (Reads.ensure ((g.validCluster_iff _).mpr hv)) ?_
          exact Reads.bind (Reads.ensure hcp) hr
      · refine ⟨_, Reads.bind hread ?_, .refused (Or.inl ⟨hv, Or.inr hlow⟩)⟩
        rw [if_neg hend]
        exact Reads.bind_error (Reads.ensure_not fun hc => hv ((g.validCluster_iff _).mp hc))

/-! ## All calls -/

theorem Reads.outcome {α : Type} {m : FatM α} {r : Except Error α} (hnot : ¬dev.ReadFaulty)
    (h : Reads dev g s.disk m r) (hc : Coherent g s) : ∃ s', m s = (r, s') ∧ Quiet g s s' := by
  have hwp := h s rfl hc
  unfold wp at hwp
  split at hwp
  · rename_i a s' hm
    exact ⟨s', by rw [hm, hwp.1], hwp.2.1⟩
  · rename_i e s' hm
    obtain ⟨hq, ⟨hr, -⟩ | hfault⟩ := hwp
    · exact ⟨s', by rw [hm, hr], hq⟩
    · exact absurd hfault.1 hnot

theorem drain_from {disk : ℕ → Sector} (hf : g.Fits dev) (hnot : ¬dev.ReadFaulty) (fuel n : ℕ) (ch : ClusterChain)
    (s : FatState) (hs : s.disk = disk) (hc : Coherent g s) (h : Walked g (vol g disk) start n ch)
    (hfuel : g.clusterCount - n < fuel) :
    ∃ l r, drain dev g fuel ch s = some (l, r) ∧ l = (List.range' n l.length).map (link (vol g disk) start) ∧
      (∀ i < n + l.length, g.Valid (link (vol g disk) start i)) ∧
      ((r = .ok () ∧ 0 < n + l.length ∧ fat32EocMin ≤ link (vol g disk) start (n + l.length)) ∨
        (r = .error .badFs ∧ Broken g (vol g disk) start (n + l.length))) := by
  induction fuel generalizing n ch s with
  | zero => exact absurd hfuel (Nat.not_lt_zero _)
  | succ fuel ih =>
    obtain ⟨r, hr, ha⟩ := next_answers hf h
    rw [← hs] at hr
    obtain ⟨s', hrun, hq⟩ := hr.outcome hnot hc
    unfold drain
    rw [hrun]
    cases ha with
    | yielded hw =>
      have hv := hw.valid n (Nat.lt_succ_self n)
      have hne : link (vol g disk) start n ≠ 0 := by
        have hge : 2 ≤ link (vol g disk) start n := hv.1
        omega
      have hbound := hw.bound
      obtain ⟨l, r, hd, hl, hvl, hend⟩ := ih (n + 1) _ s' (hq.disk.trans hs) (hq.coherent hc) hw (by omega)
      refine ⟨link (vol g disk) start n :: l, r, ?_, ?_, ?_, ?_⟩
      · simp only [hne, if_false, hd, Option.map_some]
      · rw [List.length_cons, List.range'_succ, List.map_cons, ← hl]
      · rw [List.length_cons, ← Nat.add_assoc, Nat.add_right_comm]
        exact hvl
      · rw [List.length_cons, ← Nat.add_assoc, Nat.add_right_comm]
        exact hend
    | ended _ h0 hend => exact ⟨[], .ok (), rfl, rfl, h.valid, Or.inl ⟨rfl, h0, hend⟩⟩
    | refused hb => exact ⟨[], .error .badFs, rfl, rfl, h.valid, Or.inr ⟨rfl, hb⟩⟩

/-- At most `cluster_count + 1` calls of `next` yield the clusters on the way from `start` in order;
the last answers 0 if every link is a cluster up to an end mark, and fails otherwise. -/
theorem drain_traverses (dev : Device) (g : Geometry) (s : FatState) (start : ℕ) (hf : g.Fits dev)
    (hnot : ¬dev.ReadFaulty) (hc : Coherent g s) :
    ∃ l r, drain dev g (g.clusterCount + 1) (ClusterChain.new start) s = some (l, r) ∧
      l = (List.range l.length).map (link (vol g s.disk) start) ∧ (∀ c ∈ l, g.Valid c) ∧
      (r = .ok () ↔ ReachesEnd g (vol g s.disk) start) ∧
      (r = .ok () → fat32EocMin ≤ link (vol g s.disk) start l.length) ∧
      (¬ReachesEnd g (vol g s.disk) start → r = .error .badFs ∧ Broken g (vol g s.disk) start l.length) := by
  obtain ⟨l, r, hd, hl, hv, hend⟩ := drain_from hf hnot (g.clusterCount + 1) 0 (ClusterChain.new start) s rfl hc
    (walked_new start) (by omega)
  rw [Nat.zero_add] at hv hend
  rw [← List.range_eq_range'] at hl
  have hmem : ∀ c ∈ l, g.Valid c := by
    intro c hcl
    rw [hl] at hcl
    obtain ⟨i, hi, rfl⟩ := List.mem_map.mp hcl
    exact hv i (List.mem_range.mp hi)
  refine ⟨l, r, hd, hl, hmem, ?_⟩
  rcases hend with ⟨rfl, hpos, hend⟩ | ⟨rfl, hb⟩
  · have hreach : ReachesEnd g (vol g s.disk) start := by
      refine ⟨l.length - 1, fun i hi => hv i (by omega), ?_⟩
      rw [Nat.sub_add_cancel hpos]
      exact hend
    exact ⟨⟨fun _ => hreach, fun _ => rfl⟩, fun _ => hend, fun hno => absurd hreach hno⟩
  · have hno := hb.not_reachesEnd hv
    exact ⟨⟨fun h => by simp at h, fun h => absurd h hno⟩, fun h => by simp at h, fun _ => ⟨rfl, hb⟩⟩

theorem drain_traverses_sample :
    ∃ l r, drain (steadyDevice sampleGeometry) sampleGeometry (sampleGeometry.clusterCount + 1)
        (ClusterChain.new 3) { sampleState with served := 2 } = some (l, r) ∧
      (r = .ok () ↔ ReachesEnd sampleGeometry (vol sampleGeometry sampleState.disk) 3) := by
  obtain ⟨hf, hc⟩ := wp_ok (mount_wp _ _) sample_mount
  obtain ⟨l, r, hd, -, -, hok, -⟩ := drain_traverses (steadyDevice sampleGeometry) sampleGeometry _ 3 hf
    (fun h => steadyDevice_steady _ (Or.inl h)) hc
  exact ⟨l, r, hd, hok⟩

end Zonix.Fat
