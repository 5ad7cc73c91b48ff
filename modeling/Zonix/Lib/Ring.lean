import Mathlib.Data.List.Nodup
import Mathlib.Data.List.Basic

/-! # Circular doubly linked lists in a heap of links

`Links α` is a heap with one `prev` and one `next` pointer for every node.
`Ring L h l` says that starting from the list head `h` the pointers run through
exactly the nodes `l`, in this order, and back, in both directions.  A ring can be
entered at any of its nodes (`Ring.rotate`), so every edit is proved at the head. -/

namespace Linked

structure Links (α : Type) where
  prev : α → α
  next : α → α

variable {α : Type}

section Edits

variable [DecidableEq α]

def Links.setPrev (L : Links α) (n v : α) : Links α :=
  { L with prev := fun m => if m = n then v else L.prev m }
def Links.setNext (L : Links α) (n v : α) : Links α :=
  { L with next := fun m => if m = n then v else L.next m }

def Links.addBefore (L : Links α) (n elm : α) : Links α :=
  let L := L.setPrev elm (L.prev n)
  let L := L.setNext elm n
  let L := L.setNext (L.prev n) elm
  L.setPrev n elm

def Links.addAfter (L : Links α) (n elm : α) : Links α :=
  let L := L.setPrev elm n
  let L := L.setNext elm (L.next n)
  let L := L.setPrev (L.next n) elm
  L.setNext n elm

/-- Take `n` out and close it on itself. -/
def Links.unlink (L : Links α) (n : α) : Links α :=
  let L := L.setNext (L.prev n) (L.next n)
  let L := L.setPrev (L.next n) (L.prev n)
  let L := L.setNext n n
  L.setPrev n n

def Links.reset (L : Links α) (n : α) : Links α := (L.setNext n n).setPrev n n

@[simp] theorem setPrev_prev (L : Links α) (n v m : α) :
    (L.setPrev n v).prev m = if m = n then v else L.prev m := rfl
@[simp] theorem setPrev_next (L : Links α) (n v m : α) : (L.setPrev n v).next m = L.next m := rfl
@[simp] theorem setNext_next (L : Links α) (n v m : α) :
    (L.setNext n v).next m = if m = n then v else L.next m := rfl
@[simp] theorem setNext_prev (L : Links α) (n v m : α) : (L.setNext n v).prev m = L.prev m := rfl

end Edits

def Segment (L : Links α) : α → List α → α → Prop
  | a, [], b => L.next a = b ∧ L.prev b = a
  | a, x :: l, b => (L.next a = x ∧ L.prev x = a) ∧ Segment L x l b

structure Ring (L : Links α) (h : α) (l : List α) : Prop where
  segment : Segment L h l h
  nodup : (h :: l).Nodup

variable {l₁ l₂ l : List α} {x h n : α} {L : Links α}

theorem segment_append {a b : α} :
    Segment L a (l₁ ++ x :: l₂) b ↔ Segment L a l₁ x ∧ Segment L x l₂ b := by
  induction l₁ generalizing a with
  | nil => rfl
  | cons y l₁ ih => simp only [List.cons_append, Segment, ih, and_assoc]

theorem Segment.congr {L' : Links α} {a b : α} (h : Segment L a l b)
    (hn : ∀ x ∈ a :: l, L'.next x = L.next x) (hp : ∀ x ∈ l ++ [b], L'.prev x = L.prev x) :
    Segment L' a l b := by
  induction l generalizing a with
  | nil =>
    exact ⟨(hn a (by simp)).trans h.1, (hp b (by simp)).trans h.2⟩
  | cons x l ih =>
    refine ⟨⟨(hn a (by simp)).trans h.1.1, (hp x (by simp)).trans h.1.2⟩, ih h.2 ?_ ?_⟩
    · exact fun y hy => hn y (List.mem_cons_of_mem _ hy)
    · exact fun y hy => hp y (List.mem_cons_of_mem _ hy)

theorem Ring.rotate (hr : Ring L h (l₁ ++ x :: l₂)) :
    Ring L x (l₂ ++ h :: l₁) := by
  obtain ⟨h₁, h₂⟩ := segment_append.mp hr.segment
  refine ⟨segment_append.mpr ⟨h₂, h₁⟩, ?_⟩
  have hperm : (h :: (l₁ ++ x :: l₂)).Perm (x :: (l₂ ++ h :: l₁)) := by
    have hswap : (h :: l₁ ++ x :: l₂).Perm (x :: l₂ ++ h :: l₁) := List.perm_append_comm
    simpa using hswap
  exact hperm.nodup_iff.mp hr.nodup

theorem Ring.congr {L' : Links α} (hr : Ring L h l)
    (hl : ∀ x ∈ h :: l, L'.next x = L.next x ∧ L'.prev x = L.prev x) : Ring L' h l := by
  refine ⟨hr.segment.congr (fun x hx => (hl x hx).1) (fun x hx => (hl x ?_).2), hr.nodup⟩
  simpa [or_comm] using hx

theorem Ring.next_head (hr : Ring L h l) :
    L.next h = l.headD h := by
  cases l with
  | nil => exact hr.segment.1
  | cons x l => exact hr.segment.1.1

theorem Ring.next_member
    (hr : Ring L h (l₁ ++ x :: l₂)) : L.next x = l₂.headD h := by
  rw [hr.rotate.next_head]
  cases l₂ <;> rfl

theorem Ring.next_ne (hr : Ring L h l) (hx : x ∈ l) : L.next x ≠ x := by
  obtain ⟨l₁, l₂, rfl⟩ := List.append_of_mem hx
  have hnd := hr.rotate.nodup
  rw [hr.next_member]
  cases l₂ with
  | nil =>
    intro he
    rw [List.headD_nil] at he
    simp [he] at hnd
  | cons y l₂ =>
    intro he
    rw [List.headD_cons] at he
    simp [he] at hnd

theorem Ring.next_last (hr : Ring L h (l₁ ++ l₂)) :
    L.next (l₁.getLastD h) = l₂.headD h := by
  rcases List.eq_nil_or_concat l₁ with rfl | ⟨m, y, rfl⟩
  · exact hr.next_head
  · rw [List.concat_eq_append] at hr ⊢
    rw [List.getLastD_concat]
    rw [List.append_assoc] at hr
    exact hr.next_member

theorem Ring.prev_head (hr : Ring L h l) :
    L.prev h = l.getLastD h := by
  rcases List.eq_nil_or_concat l with rfl | ⟨m, y, rfl⟩
  · exact hr.segment.2
  · rw [List.concat_eq_append] at hr ⊢
    rw [List.getLastD_concat]
    exact (segment_append.mp hr.segment).2.2

variable [DecidableEq α]

theorem ring_reset (L : Links α) (h : α) : Ring (L.reset h) h [] :=
  ⟨by simp [Segment, Links.reset], by simp⟩

theorem addAfter_next (L : Links α) (hx : x ≠ n) (m : α) :
    (L.addAfter n x).next m = if m = n then x else if m = x then L.next n else L.next m := by
  simp [Links.addAfter, Ne.symm hx]

theorem addAfter_prev (L : Links α) (hx : x ≠ n) (m : α) :
    (L.addAfter n x).prev m = if m = L.next n then x else if m = x then n else L.prev m := by
  simp [Links.addAfter, Ne.symm hx]

theorem unlink_next (L : Links α) (hn : L.prev n ≠ n) (m : α) :
    (L.unlink n).next m = if m = n then n else if m = L.prev n then L.next n else L.next m := by
  simp [Links.unlink, Ne.symm hn]

theorem unlink_prev (L : Links α) (hn : L.prev n ≠ n) (m : α) :
    (L.unlink n).prev m = if m = n then n else if m = L.next n then L.prev n else L.prev m := by
  simp [Links.unlink, Ne.symm hn]

theorem addBefore_eq (L : Links α) (hx : x ≠ n) (hp : x ≠ L.prev n)
    (hn : L.next (L.prev n) = n) : L.addBefore n x = L.addAfter (L.prev n) x := by
  simp only [Links.addBefore, Links.addAfter, Links.setPrev, Links.setNext, Ne.symm hx, Ne.symm hp,
    if_false, hn]

theorem Ring.addAfter_head (hr : Ring L h l)
    (hx : x ∉ h :: l) : Ring (L.addAfter h x) h (x :: l) := by
  have hnd := hr.nodup
  have hxh : x ≠ h := fun he => hx (he ▸ List.mem_cons_self ..)
  have hnodup : (h :: x :: l).Nodup :=
    (List.Perm.swap h x l).nodup_iff.mp (List.nodup_cons.mpr ⟨hx, hnd⟩)
  cases l with
  | nil =>
    have hh := hr.segment.1
    exact ⟨by simp [Segment, addAfter_next, addAfter_prev, hxh, hh], hnodup⟩
  | cons y l =>
    obtain ⟨⟨hy, -⟩, hs⟩ := hr.segment
    have hsplit := hnodup
    simp only [List.nodup_cons, List.mem_cons, not_or] at hsplit
    obtain ⟨⟨-, hhy, hhl⟩, ⟨hxy, hxl⟩, hyl, -⟩ := hsplit
    refine ⟨⟨⟨?_, ?_⟩, ⟨?_, ?_⟩, hs.congr ?_ ?_⟩, hnodup⟩
    · simp [addAfter_next, hxh]
    · simp [addAfter_prev, hxh, hy, hxy]
    · simp [addAfter_next, hxh, hy]
    · simp [addAfter_prev, hxh, hy]
    · intro z hz
      have hzh : z ≠ h := by rintro rfl; simp_all
      have hzx : z ≠ x := by rintro rfl; simp_all
      simp [addAfter_next, hxh, hzh, hzx]
    · intro z hz
      have hzy : z ≠ y := by rintro rfl; simp_all
      have hzx : z ≠ x := by rintro rfl; simp_all
      simp [addAfter_prev, hxh, hy, hzy, hzx]

theorem Ring.addAfter_last (hr : Ring L h l)
    (hx : x ∉ h :: l) : Ring (L.addAfter (l.getLastD h) x) h (l ++ [x]) := by
  rcases List.eq_nil_or_concat l with rfl | ⟨m, y, rfl⟩
  · exact hr.addAfter_head hx
  · rw [List.concat_eq_append] at *
    rw [List.getLastD_concat]
    have hy := hr.rotate.addAfter_head (x := x) (by simp at hx ⊢; tauto)
    have hh : Ring (L.addAfter y x) h (m ++ y :: [x]) := Ring.rotate (show Ring _ y ([x] ++ h :: m) from hy)
    simpa using hh

theorem Ring.addBefore_head (hr : Ring L h l)
    (hx : x ∉ h :: l) : Ring (L.addBefore h x) h (l ++ [x]) := by
  have hlast : L.prev h ∈ h :: l ∧ L.next (L.prev h) = h := by
    rw [hr.prev_head]
    rcases List.eq_nil_or_concat l with rfl | ⟨m, y, rfl⟩
    · exact ⟨by simp, hr.segment.1⟩
    · rw [List.concat_eq_append] at hr ⊢
      exact ⟨by simp, by simpa using hr.next_member⟩
  have hne : ∀ y ∈ h :: l, x ≠ y := fun y hy he => hx (he ▸ hy)
  rw [addBefore_eq L (hne h (by simp)) (hne _ hlast.1) hlast.2, hr.prev_head]
  exact hr.addAfter_last hx

theorem Ring.unlink_first (hr : Ring L h (x :: l)) :
    Ring (L.unlink x) h l := by
  have hnd := hr.nodup
  obtain ⟨⟨hhx, hxh⟩, hs⟩ := hr.segment
  simp only [List.nodup_cons, List.mem_cons, not_or] at hnd
  obtain ⟨⟨hne, hhl⟩, hxl, hl⟩ := hnd
  have hp : L.prev x ≠ x := by rw [hxh]; exact hne
  refine ⟨?_, List.nodup_cons.mpr ⟨hhl, hl⟩⟩
  cases l with
  | nil =>
    have hx := hs.1
    simp [Segment, unlink_next L hp, unlink_prev L hp, hne, hxh, hx]
  | cons y l =>
    obtain ⟨⟨hy, -⟩, hs⟩ := hs
    simp only [List.nodup_cons, List.mem_cons, not_or] at hhl hxl hl
    refine ⟨⟨?_, ?_⟩, hs.congr ?_ ?_⟩
    · simp [unlink_next L hp, hne, hxh, hy]
    · simp [unlink_prev L hp, Ne.symm hxl.1, hxh, hy]
    · intro z hz
      have hzx : z ≠ x := by rintro rfl; simp_all
      have hzh : z ≠ h := by rintro rfl; simp_all
      simp [unlink_next L hp, hzx, hxh, hzh]
    · intro z hz
      have hzx : z ≠ x := by rintro rfl; simp_all
      have hzy : z ≠ y := by rintro rfl; simp_all
      simp [unlink_prev L hp, hzx, hy, hzy]

theorem Ring.unlink (hr : Ring L h (l₁ ++ x :: l₂)) :
    Ring (L.unlink x) h (l₁ ++ l₂) := by
  rcases List.eq_nil_or_concat l₁ with rfl | ⟨m, y, rfl⟩
  · exact hr.unlink_first
  · rw [List.concat_eq_append, List.append_assoc] at hr ⊢
    have hy : Ring (L.unlink x) y (l₂ ++ h :: m) := Ring.unlink_first hr.rotate
    simpa using hy.rotate

theorem Ring.addAfter_member {y : α}
    (hr : Ring L h (l₁ ++ x :: l₂)) (hy : y ∉ h :: (l₁ ++ x :: l₂)) :
    Ring (L.addAfter x y) h (l₁ ++ x :: y :: l₂) := by
  have hx := hr.rotate.addAfter_head (x := y) (by simp at hy ⊢; tauto)
  exact Ring.rotate (show Ring (L.addAfter x y) x (y :: l₂ ++ h :: l₁) from hx)

end Linked
