import Mathlib.Logic.Function.Basic
import Zonix.Lib.Ring

/-! # A family of disjoint rings

Many circular lists in one heap of links.  A loose node is the head of an empty ring, so that putting
a node on a list and taking it off again are the only two edits. -/

namespace Linked

open Function

variable {α β : Type} {L : Links α} {h x : α} {l : List α}

theorem Ring.next_mem (hr : Ring L h l) : L.next h ∈ h :: l := by
  rw [hr.next_head]
  cases l with
  | nil => simp
  | cons y l => simp

theorem Ring.prev_mem (hr : Ring L h l) : L.prev h ∈ h :: l := by
  rw [hr.prev_head]
  rcases List.eq_nil_or_concat l with rfl | ⟨m, y, rfl⟩
  · simp
  · rw [List.concat_eq_append, List.getLastD_concat]
    simp

structure Family (L : Links α) (head : α → Prop) (mem : α → List α) : Prop where
  ring : ∀ n, head n → Ring L n (mem n)
  disjoint : ∀ m n, head m → head n → m ≠ n → ∀ y ∈ m :: mem m, y ∉ n :: mem n

variable {head head' : α → Prop} {mem mem' : α → List α}

theorem Family.congr (hF : Family L head mem) (hhead : ∀ n, head' n → head n)
    (hmem : ∀ n, head' n → mem' n = mem n) : Family L head' mem' := by
  refine ⟨fun n hn => ?_, fun m n hm hn hne => ?_⟩
  · rw [hmem n hn]
    exact hF.ring n (hhead n hn)
  · rw [hmem m hm, hmem n hn]
    exact hF.disjoint m n (hhead m hm) (hhead n hn) hne

variable [DecidableEq α]

theorem Family.addAfter (hF : Family L head mem) (hh : head h) (hx : head x) (hne : x ≠ h) (hloose : mem x = []) :
    Family (L.addAfter h x) (fun n => head n ∧ n ≠ x) (update mem h (x :: mem h)) := by
  have hout : ∀ n, head n → n ≠ x → x ∉ n :: mem n := fun n hn hnx =>
    hF.disjoint x n hx hn (Ne.symm hnx) x (by simp)
  refine ⟨fun n ⟨hn, hnx⟩ => ?_, fun m n ⟨hm, hmx⟩ ⟨hn, hnx⟩ hmn y hy => ?_⟩
  · by_cases hnh : n = h
    · subst hnh
      rw [update_self]
      exact (hF.ring n hn).addAfter_head (hout n hn hnx)
    · rw [update_of_ne hnh]
      refine (hF.ring n hn).congr fun y hy => ?_
      -- the edit writes to `h`, to the node after `h` and to `x`
      have hy' : y ∉ h :: mem h := hF.disjoint n h hn hh hnh y hy
      have hyh : y ≠ h := fun he => hy' (he ▸ by simp)
      have hyn : y ≠ L.next h := fun he => hy' (he ▸ (hF.ring h hh).next_mem)
      have hyx : y ≠ x := fun he => hout n hn hnx (he ▸ hy)
      simp [addAfter_next L hne, addAfter_prev L hne, hyh, hyn, hyx]
  · have hold : ∀ k, head k → k ≠ x → ∀ z, z ∈ k :: update mem h (x :: mem h) k → z = x ∧ k = h ∨ z ∈ k :: mem k := by
      intro k _ _ z hz
      by_cases hkh : k = h
      · subst hkh
        rw [update_self] at hz
        simp only [List.mem_cons] at hz ⊢
        tauto
      · rw [update_of_ne hkh] at hz
        exact Or.inr hz
    intro hy'
    obtain ⟨rfl, rfl⟩ | hym := hold m hm hmx y hy
    · obtain ⟨-, rfl⟩ | hyn := hold n hn hnx y hy'
      · exact hmn rfl
      · exact hout n hn hnx hyn
    · obtain ⟨rfl, -⟩ | hyn := hold n hn hnx y hy'
      · exact hout m hm hmx hym
      · exact hF.disjoint m n hm hn hmn y hym hyn

theorem Family.unlink (hF : Family L head mem) (hh : head h) (hx : x ∈ mem h) :
    Family (L.unlink x) (fun n => head n ∨ n = x) (update (update mem h ((mem h).erase x)) x []) := by
  have hr := hF.ring h hh
  have hxh : x ≠ h := fun he => (List.nodup_cons.mp hr.nodup).1 (he ▸ hx)
  have hxhead : ∀ n, head n → n ≠ x := by
    rintro n hn rfl
    exact hF.disjoint h n hh hn (Ne.symm hxh) n (List.mem_cons_of_mem _ hx) (by simp)
  obtain ⟨l₁, l₂, hmem⟩ := List.append_of_mem hx
  rw [hmem] at hr
  have hrx := hr.rotate
  have hwithin : ∀ y ∈ x :: (l₂ ++ h :: l₁), y ∈ h :: mem h := by
    intro y hy
    simp only [hmem, List.mem_cons, List.mem_append] at hy ⊢
    tauto
  have hprev : L.prev x ≠ x := by
    rw [hrx.prev_head]
    have hnd := (List.nodup_cons.mp hrx.nodup).1
    intro he
    have hlast : (l₂ ++ h :: l₁).getLastD x ∈ l₂ ++ h :: l₁ := by
      rw [List.getLastD_eq_getLast?, List.getLast?_eq_some_getLast (by simp)]
      exact List.getLast_mem _
    exact hnd (he ▸ hlast)
  have herase : (mem h).erase x = l₁ ++ l₂ := by
    have hnot : x ∉ l₁ := by
      have hnd := (List.nodup_cons.mp hrx.nodup).1
      exact fun he => hnd (by simp [he])
    rw [hmem, List.erase_append_right _ hnot, List.erase_cons_head]
  have hloose : Ring (L.unlink x) x [] := by
    refine ⟨?_, by simp⟩
    simp [Segment, unlink_next L hprev, unlink_prev L hprev]
  have hold : ∀ n, head n → ∀ z ∈ n :: update (update mem h ((mem h).erase x)) x [] n, z ∈ n :: mem n ∧ z ≠ x := by
    intro n hn z hz
    rw [update_of_ne (hxhead n hn)] at hz
    by_cases hnh : n = h
    · subst hnh
      rw [update_self] at hz
      have hnd := (List.nodup_cons.mp (hF.ring n hn).nodup).2
      rcases List.mem_cons.mp hz with rfl | hz
      · exact ⟨by simp, hxhead z hn⟩
      · exact ⟨List.mem_cons_of_mem _ (List.mem_of_mem_erase hz), (hnd.mem_erase_iff.mp hz).1⟩
    · rw [update_of_ne hnh] at hz
      refine ⟨hz, fun he => ?_⟩
      exact hF.disjoint n h hn hh hnh z hz (he ▸ List.mem_cons_of_mem _ hx)
  refine ⟨fun n hn => ?_, fun m n hm hn hmn y hy hy' => ?_⟩
  · rcases hn with hn | rfl
    · rw [update_of_ne (hxhead n hn)]
      by_cases hnh : n = h
      · subst hnh
        rw [update_self, herase]
        exact hr.unlink
      · rw [update_of_ne hnh]
        refine (hF.ring n hn).congr fun y hy => ?_
        have hy' : y ∉ h :: mem h := hF.disjoint n h hn hh hnh y hy
        have hyx : y ≠ x := fun he => hy' (he ▸ List.mem_cons_of_mem _ hx)
        have hyp : y ≠ L.prev x := fun he => hy' (he ▸ hwithin _ hrx.prev_mem)
        have hyn : y ≠ L.next x := fun he => hy' (he ▸ hwithin _ hrx.next_mem)
        simp [unlink_next L hprev, unlink_prev L hprev, hyx, hyp, hyn]
    · rw [update_self]
      exact hloose
  · rcases hm with hm | rfl
    · obtain ⟨hym, hyx⟩ := hold m hm y hy
      rcases hn with hn | rfl
      · exact hF.disjoint m n hm hn hmn y hym (hold n hn y hy').1
      · simp only [update_self, List.mem_singleton] at hy'
        exact hyx hy'
    · simp only [update_self, List.mem_singleton] at hy
      rcases hn with hn | rfl
      · exact (hold n hn y hy').2 hy
      · exact hmn rfl

theorem Family.reset (hF : Family L head mem) (hx : ∀ n, head n → x ∉ n :: mem n) :
    Family (L.reset x) (fun n => head n ∨ n = x) (update mem x []) := by
  have hne : ∀ n, head n → n ≠ x := fun n hn he => hx n hn (he ▸ by simp)
  refine ⟨fun n hn => ?_, fun m n hm hn hmn y hy hy' => ?_⟩
  · rcases hn with hn | rfl
    · rw [update_of_ne (hne n hn)]
      refine (hF.ring n hn).congr fun y hy => ?_
      have hyx : y ≠ x := fun he => hx n hn (he ▸ hy)
      simp [Links.reset, hyx]
    · rw [update_self]
      exact ring_reset L n
  · rcases hm with hm | rfl
    · rw [update_of_ne (hne m hm)] at hy
      rcases hn with hn | rfl
      · rw [update_of_ne (hne n hn)] at hy'
        exact hF.disjoint m n hm hn hmn y hy hy'
      · simp only [update_self, List.mem_singleton] at hy'
        exact hx m hm (hy' ▸ hy)
    · simp only [update_self, List.mem_singleton] at hy
      rcases hn with hn | rfl
      · rw [update_of_ne (hne n hn)] at hy'
        exact hx n hn (hy ▸ hy')
      · exact hmn rfl

/-! ## Loops over a ring -/

/-- A loop over the members with an accumulator; the body says whether to leave it.  There is no result
when the fuel runs out. -/
def Links.forEach (L : Links α) (h : α) (body : β → α → β × Bool) : ℕ → α → β → Option β
  | 0, _, _ => none
  | fuel + 1, n, b =>
    if n = h then some b
    else if (body b n).2 then some (body b n).1 else L.forEach h body fuel (L.next n) (body b n).1

def visit (body : β → α → β × Bool) : List α → β → β
  | [], b => b
  | n :: l, b => if (body b n).2 then (body b n).1 else visit body l (body b n).1

variable {fuel : ℕ} {b : β}

theorem forEach_mono {body : β → α → β × Bool} {fuel' : ℕ} {n : α} {r : β} (hle : fuel ≤ fuel')
    (hr : L.forEach h body fuel n b = some r) : L.forEach h body fuel' n b = some r := by
  induction fuel generalizing fuel' n b with
  | zero => simp [Links.forEach] at hr
  | succ fuel ih =>
    obtain ⟨more, rfl⟩ : ∃ more, fuel' = more + 1 := ⟨fuel' - 1, by omega⟩
    simp only [Links.forEach] at hr ⊢
    by_cases hn : n = h
    · simpa only [if_pos hn] using hr
    · by_cases hb : (body b n).2
      · simpa only [if_neg hn, if_pos hb] using hr
      · simp only [if_neg hn, if_neg hb] at hr ⊢
        exact ih (by omega) hr

theorem Segment.forEach {body : β → α → β × Bool} {a : α} (hs : Segment L a l h) (hh : h ∉ l)
    (hf : l.length < fuel) : L.forEach h body fuel (L.next a) b = some (visit body l b) := by
  induction l generalizing a b fuel with
  | nil =>
    obtain ⟨fuel, rfl⟩ : ∃ more, fuel = more + 1 := ⟨fuel - 1, by omega⟩
    simp [Links.forEach, hs.1, visit]
  | cons y l ih =>
    obtain ⟨fuel, rfl⟩ : ∃ more, fuel = more + 1 := ⟨fuel - 1, by omega⟩
    simp only [List.mem_cons, not_or] at hh
    simp only [Links.forEach, visit, hs.1.1, if_neg (Ne.symm hh.1)]
    split
    · rfl
    · exact ih hs.2 hh.2 (by simpa using hf)

theorem Ring.forEach {body : β → α → β × Bool} (hr : Ring L h l) (hf : l.length < fuel) :
    L.forEach h body fuel (L.next h) b = some (visit body l b) :=
  hr.segment.forEach (List.nodup_cons.mp hr.nodup).1 hf

theorem Ring.forEach_eq {body : β → α → β × Bool} {r : β} (hr : Ring L h l)
    (h' : L.forEach h body fuel (L.next h) b = some r) : r = visit body l b := by
  have hmore := forEach_mono (Nat.le_add_right fuel (l.length + 1)) h'
  rw [hr.forEach (by omega)] at hmore
  exact (Option.some.inj hmore).symm

def Links.forCircular (L : Links α) (h start : α) (body : β → α → β) : ℕ → α → β → Option β
  | 0, _, _ => none
  | fuel + 1, n, b =>
    let next := if L.next n = h then L.next (L.next n) else L.next n
    if next = h ∨ next = start then some (body b n) else L.forCircular h start body fuel next (body b n)

theorem forCircular_mono {body : β → α → β} {start n : α} {fuel' : ℕ} {r : β} (hle : fuel ≤ fuel')
    (hr : L.forCircular h start body fuel n b = some r) : L.forCircular h start body fuel' n b = some r := by
  induction fuel generalizing fuel' n b with
  | zero => simp [Links.forCircular] at hr
  | succ fuel ih =>
    obtain ⟨more, rfl⟩ : ∃ more, fuel' = more + 1 := ⟨fuel' - 1, by omega⟩
    simp only [Links.forCircular] at hr ⊢
    generalize (if L.next n = h then L.next (L.next n) else L.next n) = next at hr ⊢
    split at hr
    · rename_i hend
      rw [if_pos hend]
      exact hr
    · rename_i hend
      rw [if_neg hend]
      exact ih (by omega) hr

theorem Segment.forCircular {body : β → α → β} {start : α} : ∀ (rest : List α) (n : α) (b : β) (fuel : ℕ),
    Segment L n rest start → (start :: rest).Nodup → n ∉ rest → h ≠ start → h ≠ n → rest.length < fuel →
    L.forCircular h start body fuel n b = some ((n :: rest.erase h).foldl body b)
  | [], n, b, fuel, hs, _, _, hstart, _, hf => by
    obtain ⟨fuel, rfl⟩ : ∃ more, fuel = more + 1 := ⟨fuel - 1, by omega⟩
    simp [Links.forCircular, hs.1, Ne.symm hstart]
  | [y], n, b, fuel, hs, hnd, _, hstart, _, hf => by
    obtain ⟨fuel, rfl⟩ : ∃ more, fuel = more + 1 := ⟨fuel - 1, by omega⟩
    by_cases hy : y = h
    · subst hy
      simp [Links.forCircular, hs.1.1, hs.2.1]
    · have hys : y ≠ start := fun he => by simp [he] at hnd
      simp only [Links.forCircular, hs.1.1, hy, hys, if_false, or_self]
      rw [Segment.forCircular [] y _ fuel hs.2 (by simp) (by simp) hstart (Ne.symm hy) (by simpa using hf)]
      simp [hy]
  | y :: z :: rest, n, b, fuel, hs, hnd, hn, hstart, hne, hf => by
    obtain ⟨fuel, rfl⟩ : ∃ more, fuel = more + 1 := ⟨fuel - 1, by omega⟩
    simp only [List.length_cons] at hf
    have hsplit := hnd
    simp only [List.nodup_cons, List.mem_cons, not_or] at hsplit
    obtain ⟨⟨hsy, hsz, hsr⟩, ⟨hyz, hyr⟩, hzr, hrest⟩ := hsplit
    by_cases hy : y = h
    · rw [hy] at hs hyz hyr
      simp only [Links.forCircular, hs.1.1, hs.2.1.1, if_true, Ne.symm hyz, Ne.symm hsz, or_self, if_false]
      rw [Segment.forCircular rest z _ fuel hs.2.2 (by simp [hsr, hrest]) hzr hstart hyz (by omega)]
      simp [hy, List.erase_of_not_mem hyr]
    · simp only [Links.forCircular, hs.1.1, hy, Ne.symm hsy, if_false, or_self]
      rw [Segment.forCircular (z :: rest) y _ fuel hs.2 (by simp [hsz, hsr, hzr, hrest]) (by simp [hyz, hyr]) hstart
        (Ne.symm hy) (by simp only [List.length_cons]; omega)]
      simp [List.erase_cons, hy]

theorem Ring.forCircular {body : β → α → β} {start : α} {l₁ l₂ : List α}
    (hr : Ring L h (l₁ ++ start :: l₂)) (hf : (l₁ ++ start :: l₂).length < fuel) :
    L.forCircular h start body fuel start b = some ((start :: (l₂ ++ l₁)).foldl body b) := by
  have hrot := hr.rotate
  have hnd := hrot.nodup
  have hh : h ∉ l₂ := fun hm => by
    have := (List.nodup_cons.mp hr.nodup).1
    exact this (by simp [hm])
  have hhs : h ≠ start := fun he => by simp [he] at hnd
  have hlen : (l₂ ++ h :: l₁).length < fuel := by
    simp only [List.length_append, List.length_cons] at hf ⊢
    omega
  rw [Segment.forCircular _ _ _ _ hrot.segment hnd (List.nodup_cons.mp hnd).1 hhs hhs hlen,
    List.erase_append_right _ hh, List.erase_cons_head]

theorem Ring.forCircular_eq {body : β → α → β} {start : α} {l₁ l₂ : List α} {r : β}
    (hr : Ring L h (l₁ ++ start :: l₂)) (h' : L.forCircular h start body fuel start b = some r) :
    r = (start :: (l₂ ++ l₁)).foldl body b := by
  have hmore := forCircular_mono (Nat.le_add_right fuel ((l₁ ++ start :: l₂).length + 1)) h'
  rw [hr.forCircular (by omega)] at hmore
  exact (Option.some.inj hmore).symm

end Linked
