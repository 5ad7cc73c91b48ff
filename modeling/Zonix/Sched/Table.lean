import Zonix.Sched.Process

/-! # The lists of the process table

What the links of `Kernel` stand for: the process list, the hash chains and the child lists, as lists of
tasks.  Putting a task on a list and taking it off are the list operations. -/

namespace Zonix.Sched

open Linked Function

structure Table (T : Type) where
  proc : List T
  hash : Fin 1024 → List T
  kids : T → List T

variable {T : Type}

namespace Table

def mem (tb : Table T) : Node T → List (Node T)
  | .procList => tb.proc.map .list
  | .bucket b => (tb.hash b).map .hash
  | .childList t => (tb.kids t).map .child
  | _ => []

/-- The list heads, and the nodes of allocated tasks that are on no list. -/
def head (tb : Table T) (live : T → Bool) : Node T → Prop
  | .procList => True
  | .bucket _ => True
  | .childList t => live t = true
  | .list t => live t = true ∧ t ∉ tb.proc
  | .hash t => live t = true ∧ ∀ b, t ∉ tb.hash b
  | .child t => live t = true ∧ ∀ p, t ∉ tb.kids p

end Table

def Represents (links : Links (Node T)) (live : T → Bool) (tb : Table T) : Prop :=
  Family links (tb.head live) tb.mem

namespace Represents

variable {links : Links (Node T)} {live : T → Bool} {tb : Table T} {t p : T} {b : Fin 1024}

section

variable (hR : Represents links live tb)
include hR

theorem proc_ring : Ring links .procList (tb.proc.map .list) :=
  hR.ring .procList trivial

theorem hash_ring (b : Fin 1024) : Ring links (.bucket b) ((tb.hash b).map .hash) :=
  hR.ring (.bucket b) trivial

theorem kids_ring (hp : live p = true) :
    Ring links (.childList p) ((tb.kids p).map .child) :=
  hR.ring (.childList p) hp

theorem proc_nodup : tb.proc.Nodup :=
  (List.nodup_cons.mp hR.proc_ring.nodup).2.of_map _

theorem hash_nodup (b : Fin 1024) : (tb.hash b).Nodup :=
  (List.nodup_cons.mp (hR.hash_ring b).nodup).2.of_map _

theorem kids_nodup (hp : live p = true) : (tb.kids p).Nodup :=
  (List.nodup_cons.mp (hR.kids_ring hp).nodup).2.of_map _

end

variable [DecidableEq T]

section

variable (hR : Represents links live tb)
include hR

theorem addProcess (hlive : live t = true) (hproc : t ∉ tb.proc)
    (hhash : ∀ b, t ∉ tb.hash b) (b : Fin 1024) :
    Represents ((links.addAfter (.bucket b) (.hash t)).addAfter .procList (.list t)) live
      { tb with proc := t :: tb.proc, hash := update tb.hash b (t :: tb.hash b) } := by
  have h₁ := Family.addAfter hR (h := Node.bucket b) (x := Node.hash t) trivial ⟨hlive, hhash⟩ (by simp) rfl
  have h₂ := h₁.addAfter (h := Node.procList) (x := Node.list t) ⟨trivial, by simp⟩ ⟨⟨hlive, hproc⟩, by simp⟩ (by simp) rfl
  refine h₂.congr (fun n hn => ?_) (fun n hn => ?_)
  · cases n with
    | hash u =>
      have hu : ∀ b', u ∉ update tb.hash b (t :: tb.hash b) b' := hn.2
      have hne : u ≠ t := fun he => hu b (by simp [he])
      refine ⟨⟨⟨hn.1, fun b' hb' => hu b' ?_⟩, by simpa using hne⟩, by simp⟩
      by_cases hbb : b' = b
      · simp [hbb, hbb ▸ hb']
      · simpa [hbb] using hb'
    | list u =>
      have hu : u ∉ t :: tb.proc := hn.2
      simp only [List.mem_cons, not_or] at hu
      exact ⟨⟨⟨hn.1, hu.2⟩, by simp⟩, by simpa using hu.1⟩
    | _ => exact ⟨⟨hn, by simp⟩, by simp⟩
  · cases n with
    | bucket b' =>
      by_cases hbb : b' = b
      · simp [Table.mem, hbb]
      · simp [Table.mem, hbb]
    | _ => simp [Table.mem]

theorem addChild (hlive : live t = true) (hp : live p = true) (hkids : ∀ q, t ∉ tb.kids q) :
    Represents (links.addAfter (.childList p) (.child t)) live { tb with kids := update tb.kids p (t :: tb.kids p) } := by
  have h₁ := Family.addAfter hR (h := Node.childList p) (x := Node.child t) hp ⟨hlive, hkids⟩ (by simp) rfl
  refine h₁.congr (fun n hn => ?_) (fun n hn => ?_)
  · cases n with
    | child u =>
      have hu : ∀ q, u ∉ update tb.kids p (t :: tb.kids p) q := hn.2
      have hne : u ≠ t := fun he => hu p (by simp [he])
      refine ⟨⟨hn.1, fun q hq => hu q ?_⟩, by simpa using hne⟩
      by_cases hqp : q = p
      · simp [hqp, hqp ▸ hq]
      · simpa [hqp] using hq
    | _ => exact ⟨hn, by simp⟩
  · cases n with
    | childList q =>
      by_cases hqp : q = p
      · simp [Table.mem, hqp]
      · simp [Table.mem, hqp]
    | _ => simp [Table.mem]

theorem removeProcess (hproc : t ∈ tb.proc) (hhash : t ∈ tb.hash b) :
    Represents ((links.unlink (.hash t)).unlink (.list t)) live
      { tb with proc := tb.proc.erase t, hash := update tb.hash b ((tb.hash b).erase t) } := by
  have h₁ := Family.unlink hR (h := Node.bucket b) (x := Node.hash t) trivial (by simpa [Table.mem] using hhash)
  have h₂ := h₁.unlink (h := Node.procList) (x := Node.list t) (Or.inl trivial) (by simpa [Table.mem] using hproc)
  refine h₂.congr (fun n hn => ?_) (fun n hn => ?_)
  · cases n with
    | hash u =>
      have hu : ∀ b', u ∉ update tb.hash b ((tb.hash b).erase t) b' := hn.2
      by_cases hut : u = t
      · exact Or.inl (Or.inr (by rw [hut]))
      · refine Or.inl (Or.inl ⟨hn.1, fun b' hb' => hu b' ?_⟩)
        by_cases hbb : b' = b
        · subst hbb
          simpa [List.mem_erase_of_ne hut] using hb'
        · simpa [hbb] using hb'
    | list u =>
      have hu : u ∉ tb.proc.erase t := hn.2
      by_cases hut : u = t
      · exact Or.inr (by rw [hut])
      · exact Or.inl (Or.inl ⟨hn.1, by simpa [List.mem_erase_of_ne hut] using hu⟩)
    | _ => exact Or.inl (Or.inl hn)
  · cases n with
    | bucket b' =>
      by_cases hbb : b' = b
      · subst hbb
        simp [Table.mem, List.map_erase (f := Node.hash) (fun _ _ h => by simpa using h)]
      · simp [Table.mem, hbb]
    | procList => simp [Table.mem, List.map_erase (f := Node.list) (fun _ _ h => by simpa using h)]
    | hash u =>
      by_cases hut : u = t
      · simp [Table.mem, hut]
      · simp [Table.mem, hut]
    | list u =>
      by_cases hut : u = t
      · simp [Table.mem, hut]
      · simp [Table.mem, hut]
    | _ => simp [Table.mem]

theorem removeChild (hp : live p = true) (ht : t ∈ tb.kids p) :
    Represents (links.unlink (.child t)) live { tb with kids := update tb.kids p ((tb.kids p).erase t) } := by
  have h₁ := Family.unlink hR (h := Node.childList p) (x := Node.child t) hp (by simpa [Table.mem] using ht)
  refine h₁.congr (fun n hn => ?_) (fun n hn => ?_)
  · cases n with
    | child u =>
      have hu : ∀ q, u ∉ update tb.kids p ((tb.kids p).erase t) q := hn.2
      by_cases hut : u = t
      · exact Or.inr (by rw [hut])
      · refine Or.inl ⟨hn.1, fun q hq => hu q ?_⟩
        by_cases hqp : q = p
        · subst hqp
          simpa [List.mem_erase_of_ne hut] using hq
        · simpa [hqp] using hq
    | _ => exact Or.inl hn
  · cases n with
    | childList q =>
      by_cases hqp : q = p
      · subst hqp
        simp [Table.mem, List.map_erase (f := Node.child) (fun _ _ h => by simpa using h)]
      · simp [Table.mem, hqp]
    | child u =>
      by_cases hut : u = t
      · simp [Table.mem, hut]
      · simp [Table.mem, hut]
    | _ => simp [Table.mem]

theorem alloc (hdead : live t = false) (hproc : t ∉ tb.proc)
    (hhash : ∀ b, t ∉ tb.hash b) (hkid : ∀ p, t ∉ tb.kids p) (hkids : tb.kids t = []) :
    Represents ((((links.reset (.list t)).reset (.hash t)).reset (.child t)).reset (.childList t))
      (update live t true) tb := by
  have hne : ∀ u, live u = true → u ≠ t := fun u hu he => by simp [he, hdead] at hu
  have hout : ∀ x : Node T, (x = .list t ∨ x = .hash t ∨ x = .child t ∨ x = .childList t) →
      ∀ n, tb.head live n → x ∉ n :: tb.mem n := by
    intro x hx n hn
    cases n with
    | procList | bucket _ => rcases hx with rfl | rfl | rfl | rfl <;> simp [Table.mem, hproc, hhash]
    | childList u =>
      have hu := hne u hn
      rcases hx with rfl | rfl | rfl | rfl <;> simp [Table.mem, hkid, Ne.symm hu]
    | list u | hash u | child u =>
      have hu := hne u hn.1
      rcases hx with rfl | rfl | rfl | rfl <;> simp [Table.mem, Ne.symm hu]
  have h₁ := Family.reset hR (hout (.list t) (by simp))
  have h₂ := h₁.reset (x := Node.hash t) (by
    rintro n (hn | rfl)
    · have := hout (.hash t) (by simp) n hn
      have hnl : n ≠ .list t := fun he => hout (.list t) (by simp) n hn (by simp [he])
      rwa [update_of_ne hnl]
    · simp)
  have h₃ := h₂.reset (x := Node.child t) (by
    rintro n ((hn | rfl) | rfl)
    · have := hout (.child t) (by simp) n hn
      have hnl : n ≠ .list t := fun he => hout (.list t) (by simp) n hn (by simp [he])
      have hnh : n ≠ .hash t := fun he => hout (.hash t) (by simp) n hn (by simp [he])
      rwa [update_of_ne hnh, update_of_ne hnl]
    · simp
    · simp)
  have h₄ := h₃.reset (x := Node.childList t) (by
    rintro n (((hn | rfl) | rfl) | rfl)
    · have := hout (.childList t) (by simp) n hn
      have hnl : n ≠ .list t := fun he => hout (.list t) (by simp) n hn (by simp [he])
      have hnh : n ≠ .hash t := fun he => hout (.hash t) (by simp) n hn (by simp [he])
      have hnc : n ≠ .child t := fun he => hout (.child t) (by simp) n hn (by simp [he])
      rwa [update_of_ne hnc, update_of_ne hnh, update_of_ne hnl]
    · simp
    · simp
    · simp)
  refine h₄.congr (fun n hn => ?_) (fun n hn => ?_)
  · cases n with
    | procList | bucket _ => exact Or.inl (Or.inl (Or.inl (Or.inl trivial)))
    | childList u =>
      by_cases hu : u = t
      · exact Or.inr (by rw [hu])
      · exact Or.inl (Or.inl (Or.inl (Or.inl (by simpa [Table.head, hu] using hn))))
    | list u | hash u | child u =>
      by_cases hu : u = t
      · subst hu
        simp
      · exact Or.inl (Or.inl (Or.inl (Or.inl (by simpa [Table.head, hu] using hn))))
  · cases n with
    | childList u =>
      by_cases hu : u = t
      · simp [Table.mem, hu, hkids]
      · simp [Table.mem, hu]
    | list u | hash u | child u =>
      by_cases hu : u = t
      · simp [Table.mem, hu]
      · simp [Table.mem, hu]
    | _ => simp [Table.mem]

theorem free (t : T) : Represents links (update live t false) tb := by
  have hlive : ∀ u, update live t false u = true → live u = true := by
    intro u hu
    by_cases he : u = t
    · simp [he] at hu
    · simpa [he] using hu
  refine Family.congr hR (fun n hn => ?_) (fun n _ => rfl)
  cases n with
  | procList | bucket _ => trivial
  | childList u => exact hlive u hn
  | list u | hash u | child u => exact ⟨hlive u hn.1, hn.2⟩

end

end Represents

end Zonix.Sched
