import Zonix.Vfs.MountTable
import Mathlib.Data.List.Perm.Basic

/-! # Lifetime of mounted file systems

The reference count of a slot, its transition flag and the owner of every file
system object, along every interleaving of the pieces of `vfs.cpp`. -/

namespace Zonix.Vfs

def Task.holds (k : Slot) : Task → Bool
  | .pathCall _ j | .pathRun _ j _ | .openCall j | .openRun j _ | .openCommit j _
  | .release j _ => j = k
  | _ => false

def Task.transits (k : Slot) : Task → Bool
  | .mountFactory j | .mountCall j _ | .mountPublish j _ | .mountDestroy j _ _
  | .umountCall j _ | .umountDestroy j _ | .finish j _ => j = k
  | _ => false

def Task.reserves (k : Slot) : Task → Bool
  | .mountFactory j | .mountCall j _ | .mountPublish j _ | .mountDestroy j _ _
  | .umountCall j _ | .umountDestroy j _ => j = k
  | _ => false

/-- The task's `unique_ptr` holds the file system `f`. -/
def Task.owns (f : FsId) : Task → Bool
  | .mountCall _ g | .mountPublish _ g | .mountDestroy _ g _
  | .umountCall _ g | .umountDestroy _ g => g = f
  | _ => false

def Task.uses (k : Slot) (f : FsId) : Task → Bool
  | .pathRun _ j g | .openRun j g | .openCommit j g => j = k ∧ g = f
  | _ => false

def World.Alive (w : World) (f : FsId) : Prop := f < w.created ∧ f ∉ w.destroyed

structure TaskOk (w : World) (t : Task) : Prop where
  reserved : ∀ k, t.reserves k → (w.slots k).fs = none
  inside : ∀ k f, t.uses k f → (w.slots k).fs = some f
  owned : ∀ f, t.owns f → w.Alive f
  hidden : ∀ f, t.owns f → ∀ k, (w.slots k).fs ≠ some f

structure Inv (w : World) (tasks : List Task) : Prop where
  users : ∀ k, (w.slots k).users = w.files.countP (·.slot = k) + tasks.countP (Task.holds k)
  transition : ∀ k, tasks.countP (Task.transits k) = if (w.slots k).transitioning then 1 else 0
  idle : ∀ k, (w.slots k).fs = none → (w.slots k).users = 0
  task : ∀ t ∈ tasks, TaskOk w t
  file : ∀ x ∈ w.files, (w.slots x.slot).fs = some x.fs
  published : ∀ k f, (w.slots k).fs = some f → w.Alive f
  publishedOnce : ∀ j k f, (w.slots j).fs = some f → (w.slots k).fs = some f → j = k
  ownedOnce : ∀ f, tasks.countP (Task.owns f) ≤ 1
  dead : ∀ f ∈ w.destroyed, f < w.created

variable {w : World} {k : Slot} {rest : List Task} {t : Task} {f : FsId}

theorem Inv.perm {a b : List Task} (h : Inv w a) (hp : a.Perm b) : Inv w b :=
  { h with
    users := fun k => by rw [← hp.countP_eq]; exact h.users k
    transition := fun k => by rw [← hp.countP_eq]; exact h.transition k
    task := fun t ht => h.task t (hp.mem_iff.mpr ht)
    ownedOnce := fun f => by rw [← hp.countP_eq]; exact h.ownedOnce f }

@[simp] theorem setSlot_slots (w : World) (k j : Slot) (m : MountSlot) :
    (w.setSlot k m).slots j = if j = k then m else w.slots j := rfl
@[simp] theorem setSlot_files (w : World) (k : Slot) (m : MountSlot) :
    (w.setSlot k m).files = w.files := rfl
@[simp] theorem setSlot_created (w : World) (k : Slot) (m : MountSlot) :
    (w.setSlot k m).created = w.created := rfl
@[simp] theorem setSlot_destroyed (w : World) (k : Slot) (m : MountSlot) :
    (w.setSlot k m).destroyed = w.destroyed := rfl
@[simp] theorem setSlot_alive (w : World) (k : Slot) (m : MountSlot) (f : FsId) :
    (w.setSlot k m).Alive f ↔ w.Alive f := Iff.rfl

theorem Inv.holds_published (h : Inv w (t :: rest)) (hk : t.holds k) : ∃ f, (w.slots k).fs = some f := by
  cases hf : (w.slots k).fs with
  | some f => exact ⟨f, rfl⟩
  | none =>
    have h0 := h.idle k hf
    have hu := h.users k
    rw [List.countP_cons_of_pos hk] at hu
    omega

theorem Inv.retask {t' : Task} (h : Inv w (t :: rest))
    (hh : ∀ k, t'.holds k = t.holds k) (ht : ∀ k, t'.transits k = t.transits k)
    (ho : ∀ f, t'.owns f = t.owns f) (hok : TaskOk w t') : Inv w (t' :: rest) := by
  have htask := List.forall_mem_cons.mp h.task
  refine { h with
    users := fun k => ?_, transition := fun k => ?_, ownedOnce := fun f => ?_
    task := List.forall_mem_cons.mpr ⟨hok, htask.2⟩ }
  · have hk := h.users k
    simp only [List.countP_cons, hh k] at hk ⊢
    exact hk
  · have hk := h.transition k
    simp only [List.countP_cons, ht k] at hk ⊢
    exact hk
  · have hk := h.ownedOnce f
    simp only [List.countP_cons, ho f] at hk ⊢
    exact hk

theorem Inv.drop_count (h : Inv w (t :: rest))
    (f : FsId) : rest.countP (Task.owns f) ≤ 1 :=
  Nat.le_trans (List.Sublist.countP_le (List.sublist_cons_self t rest)) (h.ownedOnce f)

theorem Inv.drop_count' (_ : Inv w (t :: rest))
    (f : FsId) : ([] ++ rest).countP (Task.owns f) ≤ (t :: rest).countP (Task.owns f) :=
  List.Sublist.countP_le (List.sublist_cons_self t rest)

theorem Inv.drop (h : Inv w (t :: rest))
    (hh : ∀ k, t.holds k = false) (ht : ∀ k, t.transits k = false)
    (ho : ∀ f, t.owns f = false) : Inv w rest := by
  refine { h with
    users := fun k => ?_, transition := fun k => ?_, ownedOnce := fun f => ?_
    task := (List.forall_mem_cons.mp h.task).2 }
  · have hk := h.users k
    simpa only [List.countP_cons, hh k, Bool.false_eq_true, if_false, Nat.add_zero] using hk
  · have hk := h.transition k
    simpa only [List.countP_cons, ht k, Bool.false_eq_true, if_false, Nat.add_zero] using hk
  · have hk := h.ownedOnce f
    simpa only [List.countP_cons, ho f, Bool.false_eq_true, if_false, Nat.add_zero] using hk

theorem Inv.call {tasks : List Task} (h : Inv w tasks) (hf : t.Fresh) :
    Inv w (t :: tasks) := by
  have hh : ∀ k, t.holds k = false := fun k => by cases t <;> simp_all [Task.Fresh, Task.holds]
  have ht : ∀ k, t.transits k = false := fun k => by
    cases t <;> simp_all [Task.Fresh, Task.transits]
  have ho : ∀ f, t.owns f = false := fun f => by cases t <;> simp_all [Task.Fresh, Task.owns]
  have hok : TaskOk w t := by
    constructor <;> cases t <;>
      simp_all [Task.Fresh, Task.reserves, Task.uses, Task.owns]
  refine { h with
    users := fun k => ?_, transition := fun k => ?_, ownedOnce := fun f => ?_
    task := List.forall_mem_cons.mpr ⟨hok, h.task⟩ }
  · rw [List.countP_cons_of_neg (by simp [hh k])]; exact h.users k
  · rw [List.countP_cons_of_neg (by simp [ht k])]; exact h.transition k
  · rw [List.countP_cons_of_neg (by simp [ho f])]; exact h.ownedOnce f

theorem TaskOk.setSlot (h : TaskOk w t) (k : Slot) (m : MountSlot)
    (hm : m.fs = (w.slots k).fs) : TaskOk (w.setSlot k m) t := by
  have hfs : ∀ j, ((w.setSlot k m).slots j).fs = (w.slots j).fs := by
    intro j
    by_cases hj : j = k <;> simp [hj, hm]
  exact ⟨fun j hj => (hfs j).trans (h.reserved j hj), fun j f hj => (hfs j).trans (h.inside j f hj),
    h.owned, fun f hf j => by rw [hfs j]; exact h.hidden f hf j⟩

/-- A counter or flag update of `k` together with the task that makes it; `next` is
the task that goes on, if one does. -/
theorem Inv.setSlot (next : List Task) (h : Inv w (t :: rest))
    (k : Slot) (m : MountSlot) (hm : m.fs = (w.slots k).fs)
    (hu : ∀ j, ((w.setSlot k m).slots j).users + (t :: rest).countP (Task.holds j) =
      (w.slots j).users + (next ++ rest).countP (Task.holds j))
    (ht : ∀ j, (next ++ rest).countP (Task.transits j) =
      if ((w.setSlot k m).slots j).transitioning then 1 else 0)
    (hi : ∀ j, (w.slots j).fs = none → ((w.setSlot k m).slots j).users = 0)
    (ho : ∀ f, (next ++ rest).countP (Task.owns f) ≤ (t :: rest).countP (Task.owns f))
    (hok : ∀ x ∈ next, TaskOk w x) : Inv (w.setSlot k m) (next ++ rest) := by
  have hfs : ∀ j, ((w.setSlot k m).slots j).fs = (w.slots j).fs := by
    intro j
    by_cases hj : j = k <;> simp [hj, hm]
  refine ⟨fun j => ?_, ht, fun j hj => hi j ((hfs j).symm.trans hj), fun x hx => ?_, ?_, ?_, ?_,
    fun f => Nat.le_trans (ho f) (h.ownedOnce f), h.dead⟩
  · have h1 := hu j
    have h2 := h.users j
    simp only [setSlot_files]
    omega
  · apply TaskOk.setSlot _ k m hm
    rcases List.mem_append.mp hx with hx | hx
    · exact hok x hx
    · exact h.task x (List.mem_cons_of_mem _ hx)
  · intro x hx
    rw [hfs]
    exact h.file x hx
  · intro j f hj
    exact h.published j f ((hfs j).symm.trans hj)
  · intro i j f hi hj
    exact h.publishedOnce i j f ((hfs i).symm.trans hi) ((hfs j).symm.trans hj)

/-! ### Facts about the other tasks -/

theorem Task.transits_of_reserves (h : t.reserves k) : t.transits k := by
  cases t <;> simp_all [Task.reserves, Task.transits]

theorem Task.holds_of_uses (h : t.uses k f) : t.holds k := by
  cases t <;> simp_all [Task.uses, Task.holds]

theorem Inv.transits_alone (h : Inv w (t :: rest)) (ht : t.transits k) : ∀ x ∈ rest, x.transits k = false := by
  intro x hx
  by_contra hc
  have hpos : 0 < rest.countP (Task.transits k) :=
    List.countP_pos_iff.mpr ⟨x, hx, by simpa using hc⟩
  have hk := h.transition k
  rw [List.countP_cons_of_pos ht] at hk
  split at hk <;> omega

theorem Inv.owns_alone (h : Inv w (t :: rest)) (ht : t.owns f) : ∀ x ∈ rest, x.owns f = false := by
  intro x hx
  by_contra hc
  have hpos : 0 < rest.countP (Task.owns f) :=
    List.countP_pos_iff.mpr ⟨x, hx, by simpa using hc⟩
  have hk := h.ownedOnce f
  rw [List.countP_cons_of_pos ht] at hk
  omega

theorem Inv.unused {tasks : List Task} (h : Inv w tasks)
    (h0 : (w.slots k).users = 0) :
    (∀ x ∈ tasks, x.holds k = false) ∧ ∀ x ∈ w.files, x.slot ≠ k := by
  have hu := h.users k
  refine ⟨fun x hx => ?_, fun x hx hk => ?_⟩
  · by_contra hc
    have hpos : 0 < tasks.countP (Task.holds k) :=
      List.countP_pos_iff.mpr ⟨x, hx, by simpa using hc⟩
    omega
  · have hpos : 0 < w.files.countP (·.slot = k) :=
      List.countP_pos_iff.mpr ⟨x, hx, by simpa using hk⟩
    omega

theorem countP_owns_eq_zero
    (h : ∀ x ∈ rest, TaskOk w x) (hf : (∃ k, (w.slots k).fs = some f) ∨ ¬ w.Alive f) :
    rest.countP (Task.owns f) = 0 := by
  refine List.countP_eq_zero.mpr fun x hx ho => ?_
  rcases hf with ⟨k, hk⟩ | hd
  · exact (h x hx).hidden f ho k hk
  · exact hd ((h x hx).owned f ho)

/-! ### The pieces of each operation -/

def Next.tasks : Next → List Task
  | .goto t => [t]
  | .ret _ => []

theorem acquireMount_inv {held : Task} (h : Inv w (t :: rest))
    (k : Slot) (hf : t.Fresh) (hh : ∀ j, held.holds j = decide (k = j))
    (ht : ∀ j, held.transits j = false) (ho : ∀ f, held.owns f = false) (hok : TaskOk w held) :
    Inv (acquireMount w k held).world ((acquireMount w k held).next.tasks ++ rest) := by
  have fh : ∀ j, t.holds j = false := fun j => by cases t <;> simp_all [Task.Fresh, Task.holds]
  have ft : ∀ j, t.transits j = false := fun j => by
    cases t <;> simp_all [Task.Fresh, Task.transits]
  have fo : ∀ f, t.owns f = false := fun f => by cases t <;> simp_all [Task.Fresh, Task.owns]
  unfold acquireMount
  split
  · rename_i hs
    refine h.setSlot [_] k _ rfl (fun j => ?_) (fun j => ?_) (fun j hj => ?_) (fun f => ?_) ?_
    · by_cases hj : j = k
      · subst hj
        simp only [setSlot_slots, if_true, List.countP_cons, fh, hh,
          List.singleton_append, decide_true, Bool.false_eq_true, if_false]
        omega
      · have hk : ¬ k = j := fun e => hj e.symm
        simp [fh, hh, hj, hk]
    · have hk := h.transition j
      simp only [List.countP_cons, ft, Bool.false_eq_true, if_false, Nat.add_zero] at hk
      by_cases hj : j = k
      · subst hj
        simpa [List.countP_cons, ht, Next.tasks] using hk
      · simpa [List.countP_cons, ht, Next.tasks, hj] using hk
    · by_cases hj' : j = k
      · subst hj'
        simp [hj] at hs
      · simpa [hj'] using h.idle j hj
    · simp [ho, fo]
    · simpa [Next.tasks] using hok
  · exact h.drop fh ft fo

theorem mountReserve_inv (m t : Option CString)
    (h : Inv w (.mount m t :: rest)) :
    Inv (mountReserve w m t).world ((mountReserve w m t).next.tasks ++ rest) := by
  have hdrop : Inv w rest := h.drop (fun _ => rfl) (fun _ => rfl) (fun _ => rfl)
  unfold mountReserve
  cases m with
  | none => exact hdrop
  | some m =>
    cases t with
    | none => exact hdrop
    | some t =>
      dsimp only
      cases findSlot (some m) with
      | none => exact hdrop
      | some k =>
        dsimp only
        split
        · exact hdrop
        · rename_i hnt
          split
          · exact hdrop
          · rename_i hfs
            split
            · have hnone : (w.slots k).fs = none := by simpa using hfs
              refine h.setSlot [_] k _ rfl (fun j => ?_) (fun j => ?_) (fun j hj => ?_) (fun f => ?_) ?_
              · by_cases hj : j = k
                · subst hj
                  simp [Task.holds]
                · simp [Task.holds, hj]
              · have hk := h.transition j
                simp only [List.countP_cons, Task.transits, Bool.false_eq_true, if_false,
                  Nat.add_zero] at hk
                by_cases hj : j = k
                · subst hj
                  simp only [hnt, Bool.false_eq_true, if_false] at hk
                  simp [Task.transits, hk]
                · have hk' : ¬ k = j := fun e => hj e.symm
                  simp [Task.transits, hj, hk', hk]
              · by_cases hj' : j = k
                · subst hj'
                  simpa using h.idle j hj
                · simpa [hj'] using h.idle j hj
              · simp [Task.owns]
              · intro x hx
                have hx' : x = .mountFactory k := by simpa [Next.tasks] using hx
                subst hx'
                constructor <;> simp_all [Task.reserves, Task.uses, Task.owns]
            · exact hdrop

theorem umountReserve_inv (m : Option CString)
    (h : Inv w (.umount m :: rest)) :
    Inv (umountReserve w m).world ((umountReserve w m).next.tasks ++ rest) := by
  have hdrop : Inv w rest := h.drop (fun _ => rfl) (fun _ => rfl) (fun _ => rfl)
  unfold umountReserve
  cases m with
  | none => exact hdrop
  | some m =>
    dsimp only
    cases findSlot (some m) with
    | none => exact hdrop
    | some k =>
      dsimp only
      split
      · exact hdrop
      · rename_i hnt
        cases hfs : (w.slots k).fs with
        | none => exact hdrop
        | some f =>
          dsimp only
          split
          · rename_i h0
            -- No task or file stands in the slot, so only the owner changes.
            obtain ⟨hheld, hfiles⟩ := hdrop.unused h0
            refine ⟨fun j => ?_, fun j => ?_, fun j hj => ?_, ?_, fun x hx => ?_, fun j g hj => ?_,
              fun i j g hi hj => ?_, fun g => ?_, h.dead⟩
            · have hu := hdrop.users j
              by_cases hj : j = k
              · subst hj
                simpa [Next.tasks, Task.holds] using hu
              · simpa [Next.tasks, Task.holds, hj] using hu
            · have hk := hdrop.transition j
              by_cases hj : j = k
              · subst hj
                simp only [hnt, Bool.false_eq_true, if_false] at hk
                simp [Next.tasks, Task.transits, hk]
              · have hk' : ¬ k = j := fun e => hj e.symm
                simp [Next.tasks, Task.transits, hj, hk', hk]
            · by_cases hjk : j = k
              · subst hjk
                simpa using h0
              · simp only [setSlot_slots, hjk, if_false] at hj ⊢
                exact h.idle j hj
            · refine List.forall_mem_cons.mpr ⟨⟨fun j hj => ?_, fun j g hj => ?_, fun g hg => ?_,
                fun g hg j => ?_⟩, fun x hx => ?_⟩
              · have hjk : k = j := by simpa [Task.reserves] using hj
                simp [hjk]
              · simp [Task.uses] at hj
              · have hg' : f = g := by simpa [Task.owns] using hg
                exact hg' ▸ h.published k f hfs
              · have hg' : f = g := by simpa [Task.owns] using hg
                subst hg'
                by_cases hjk : j = k
                · simp [hjk]
                · simp only [setSlot_slots, hjk, if_false]
                  exact fun hc => hjk (h.publishedOnce j k f hc hfs)
              · have hx' := hdrop.task x hx
                refine ⟨fun j hj => ?_, fun j g hj => ?_, hx'.owned, fun g hg j => ?_⟩
                · by_cases hjk : j = k
                  · simp [hjk]
                  · simpa [hjk] using hx'.reserved j hj
                · have hjk : j ≠ k := by
                    rintro rfl
                    have hc := Task.holds_of_uses hj
                    rw [hheld x hx] at hc
                    cases hc
                  simpa [hjk] using hx'.inside j g hj
                · by_cases hjk : j = k
                  · simp [hjk]
                  · simpa [hjk] using hx'.hidden g hg j
            · have hjk := hfiles x hx
              simpa [hjk] using h.file x hx
            · by_cases hjk : j = k
              · simp [hjk] at hj
              · exact h.published j g (by simpa [hjk] using hj)
            · by_cases hik : i = k
              · simp [hik] at hi
              · by_cases hjk : j = k
                · simp [hjk] at hj
                · exact h.publishedOnce i j g (by simpa [hik] using hi) (by simpa [hjk] using hj)
            · show (Task.umountCall k f :: rest).countP (Task.owns g) ≤ 1
              by_cases hg : f = g
              · subst hg
                have hz := countP_owns_eq_zero hdrop.task (Or.inl ⟨k, hfs⟩)
                rw [List.countP_cons, hz]
                simp [Task.owns]
              · rw [List.countP_cons_of_neg (by simp [Task.owns, hg])]
                exact hdrop.ownedOnce g
          · exact hdrop

theorem mountFactory_inv
    (h : Inv w (.mountFactory k :: rest)) :
    Inv { w with created := w.created + 1 } (.mountCall k w.created :: rest) := by
  have hrest := (List.forall_mem_cons.mp h.task).2
  have hself := (List.forall_mem_cons.mp h.task).1
  have hgrow : ∀ g, w.Alive g → World.Alive { w with created := w.created + 1 } g :=
    fun g hg => ⟨Nat.lt_succ_of_lt hg.1, hg.2⟩
  have hborn : ¬ w.Alive w.created := fun hc => Nat.lt_irrefl _ hc.1
  have hnew : w.created ∉ w.destroyed := fun hc => Nat.lt_irrefl _ (h.dead _ hc)
  refine ⟨fun j => ?_, fun j => ?_, h.idle, ?_, h.file, fun j g hj => hgrow g (h.published j g hj),
    h.publishedOnce, fun g => ?_, fun g hg => Nat.lt_succ_of_lt (h.dead g hg)⟩
  · have hu := h.users j
    simpa [Task.holds] using hu
  · have hk := h.transition j
    simpa [List.countP_cons, Task.transits] using hk
  · refine List.forall_mem_cons.mpr ⟨⟨fun j hj => hself.reserved j hj, fun j g hj => ?_, fun g hg => ?_,
      fun g hg j hc => ?_⟩, fun x hx => ?_⟩
    · simp [Task.uses] at hj
    · have hg' : w.created = g := by simpa [Task.owns] using hg
      exact hg' ▸ ⟨Nat.lt_succ_self _, hnew⟩
    · have hg' : w.created = g := by simpa [Task.owns] using hg
      exact hborn (hg' ▸ h.published j g hc)
    · have hx' := hrest x hx
      exact ⟨hx'.reserved, hx'.inside, fun g hg => hgrow g (hx'.owned g hg), hx'.hidden⟩
  · by_cases hg : w.created = g
    · subst hg
      have hz := countP_owns_eq_zero hrest (Or.inr hborn)
      rw [List.countP_cons, hz]
      simp [Task.owns]
    · rw [List.countP_cons_of_neg (by simp [Task.owns, hg])]
      exact (h.drop_count g)

theorem mountPublish_inv
    (h : Inv w (.mountPublish k f :: rest)) :
    Inv (w.setSlot k { w.slots k with fs := some f }) (.finish k .none :: rest) := by
  have hrest := (List.forall_mem_cons.mp h.task).2
  have hself := (List.forall_mem_cons.mp h.task).1
  have hnone : (w.slots k).fs = none := hself.reserved k (by simp [Task.reserves])
  have hown : (Task.mountPublish k f).owns f := by simp [Task.owns]
  have halone := h.owns_alone hown
  have htrans := h.transits_alone (k := k) (by simp [Task.transits])
  refine ⟨fun j => ?_, fun j => ?_, fun j hj => ?_, ?_, fun x hx => ?_, fun j g hj => ?_,
    fun i j g hi hj => ?_, fun g => ?_, h.dead⟩
  · have hu := h.users j
    by_cases hj : j = k
    · subst hj
      simpa [Task.holds] using hu
    · simpa [Task.holds, hj] using hu
  · have hk := h.transition j
    by_cases hj : j = k
    · subst hj
      simpa [List.countP_cons, Task.transits] using hk
    · simpa [List.countP_cons, Task.transits, hj] using hk
  · by_cases hjk : j = k
    · simp [hjk] at hj
    · simp only [setSlot_slots, hjk, if_false] at hj ⊢
      exact h.idle j hj
  · refine List.forall_mem_cons.mpr ⟨?_, fun x hx => ?_⟩
    · constructor <;> simp [Task.reserves, Task.uses, Task.owns]
    · have hx' := hrest x hx
      refine ⟨fun j hj => ?_, fun j g hj => ?_, hx'.owned, fun g hg j => ?_⟩
      · have hjk : j ≠ k := by
          rintro rfl
          have hc := Task.transits_of_reserves hj
          rw [htrans x hx] at hc
          cases hc
        simpa [hjk] using hx'.reserved j hj
      · have hin := hx'.inside j g hj
        have hjk : j ≠ k := by
          rintro rfl
          rw [hnone] at hin
          cases hin
        simpa [hjk] using hin
      · by_cases hjk : j = k
        · subst hjk
          simp only [setSlot_slots, if_true, ne_eq, Option.some.injEq]
          rintro rfl
          rw [halone x hx] at hg
          cases hg
        · simpa [hjk] using hx'.hidden g hg j
  · have hf := h.file x hx
    have hjk : x.slot ≠ k := by
      rintro hc
      rw [hc, hnone] at hf
      cases hf
    simpa [hjk] using hf
  · by_cases hjk : j = k
    · have hg : f = g := by simpa [hjk] using hj
      exact hg ▸ hself.owned f hown
    · exact h.published j g (by simpa [hjk] using hj)
  · by_cases hik : i = k <;> by_cases hjk : j = k
    · exact hik.trans hjk.symm
    · have hg : f = g := by simpa [hik] using hi
      exact absurd (by simpa [hjk] using hj) (hg ▸ hself.hidden f hown j)
    · have hg : f = g := by simpa [hjk] using hj
      exact absurd (by simpa [hik] using hi) (hg ▸ hself.hidden f hown i)
    · exact h.publishedOnce i j g (by simpa [hik] using hi) (by simpa [hjk] using hj)
  · rw [List.countP_cons_of_neg (by simp [Task.owns])]
    exact h.drop_count g

theorem destroy_inv {e : Error}
    (h : Inv w (t :: rest)) (hown : t.owns f) (hh : ∀ j, t.holds j = false)
    (ht : ∀ j, t.transits j = decide (k = j)) :
    Inv { w with destroyed := f :: w.destroyed } (.finish k e :: rest) := by
  have hrest := (List.forall_mem_cons.mp h.task).2
  have hself := (List.forall_mem_cons.mp h.task).1
  have halone := h.owns_alone hown
  have hkeep : ∀ g, g ≠ f → w.Alive g → World.Alive { w with destroyed := f :: w.destroyed } g :=
    fun g hg ha => ⟨ha.1, fun hc => (List.mem_cons.mp hc).elim hg ha.2⟩
  refine ⟨fun j => ?_, fun j => ?_, h.idle, ?_, h.file, fun j g hj => hkeep g ?_ (h.published j g hj),
    h.publishedOnce, fun g => ?_, fun g hg => ?_⟩
  · have hu := h.users j
    rw [List.countP_cons_of_neg (by simp [hh j])] at hu
    simpa [Task.holds] using hu
  · have hk := h.transition j
    rw [List.countP_cons, ht j] at hk
    simpa [List.countP_cons, Task.transits] using hk
  · refine List.forall_mem_cons.mpr ⟨?_, fun x hx => ?_⟩
    · constructor <;> simp [Task.reserves, Task.uses, Task.owns]
    · have hx' := hrest x hx
      refine ⟨hx'.reserved, hx'.inside, fun g hg => hkeep g ?_ (hx'.owned g hg), hx'.hidden⟩
      rintro rfl
      rw [halone x hx] at hg
      cases hg
  · rintro rfl
    exact hself.hidden g hown j hj
  · rw [List.countP_cons_of_neg (by simp [Task.owns])]
    exact h.drop_count g
  · rcases List.mem_cons.mp hg with rfl | hg
    · exact (hself.owned g hown).1
    · exact h.dead g hg

theorem finish_inv {e : Error}
    (h : Inv w (.finish k e :: rest)) :
    Inv (w.setSlot k { w.slots k with transitioning := false }) rest := by
  have hset := h.setSlot [] k { w.slots k with transitioning := false } rfl
    (fun j => ?_) (fun j => ?_) (fun j hj => ?_) (fun f => h.drop_count' f) (by simp)
  · simpa using hset
  · by_cases hj : j = k
    · subst hj
      simp [Task.holds]
    · simp [Task.holds, hj]
  · have hk := h.transition j
    by_cases hj : j = k
    · subst hj
      rw [List.countP_cons_of_pos (by simp [Task.transits])] at hk
      simp only [List.nil_append, setSlot_slots, if_true, Bool.false_eq_true, if_false]
      split at hk <;> omega
    · have hk' : ¬ k = j := fun e => hj e.symm
      simpa [List.countP_cons, Task.transits, hj, hk'] using hk
  · by_cases hjk : j = k
    · subst hjk
      simpa using h.idle j hj
    · simpa [hjk] using h.idle j hj

theorem openCommit_inv
    (h : Inv w (.openCommit k f :: rest)) : Inv { w with files := ⟨k, f⟩ :: w.files } rest := by
  have hrest := (List.forall_mem_cons.mp h.task).2
  have hself := (List.forall_mem_cons.mp h.task).1
  refine ⟨fun j => ?_, fun j => ?_, h.idle, ?_, ?_, h.published, h.publishedOnce,
    h.drop_count, h.dead⟩
  · have hu := h.users j
    by_cases hj : k = j
    · simp only [List.countP_cons, Task.holds, hj, decide_true, if_true] at hu ⊢
      omega
    · simpa [List.countP_cons, Task.holds, hj] using hu
  · have hk := h.transition j
    simpa [Task.transits] using hk
  · exact fun x hx => ⟨(hrest x hx).reserved, (hrest x hx).inside, (hrest x hx).owned,
      (hrest x hx).hidden⟩
  · refine List.forall_mem_cons.mpr ⟨?_, h.file⟩
    exact hself.inside k f (by simp [Task.uses])

theorem release_inv {e : Error}
    (h : Inv w (.release k e :: rest)) :
    Inv (w.setSlot k { w.slots k with users := (w.slots k).users - 1 }) rest := by
  obtain ⟨f, hf⟩ := h.holds_published (k := k) (by simp [Task.holds])
  have hset := h.setSlot [] k { w.slots k with users := (w.slots k).users - 1 } rfl
    (fun j => ?_) (fun j => ?_) (fun j hj => ?_) (fun f => h.drop_count' f) (by simp)
  · simpa using hset
  · have hu := h.users j
    by_cases hj : j = k
    · subst hj
      rw [List.countP_cons_of_pos (by simp [Task.holds])] at hu ⊢
      simp only [setSlot_slots, if_true, List.nil_append]
      omega
    · have hk' : ¬ k = j := fun e => hj e.symm
      simp [Task.holds, hj, hk']
  · have hk := h.transition j
    by_cases hj : j = k
    · subst hj
      simpa [Task.transits] using hk
    · simpa [Task.transits, hj] using hk
  · by_cases hjk : j = k
    · subst hjk
      rw [hf] at hj
      cases hj
    · simpa [hjk] using h.idle j hj

theorem close_inv {tasks : List Task} {x : File} {files : List File}
    (h : Inv w tasks) (hp : w.files.Perm (x :: files)) :
    Inv { closeFile w x with files := files } tasks := by
  have hfs : ∀ j, ((closeFile w x).slots j).fs = (w.slots j).fs := by
    intro j
    by_cases hj : j = x.slot <;> simp [closeFile, hj]
  have hx : (w.slots x.slot).fs = some x.fs := h.file x (hp.mem_iff.mpr (List.mem_cons_self ..))
  refine ⟨fun j => ?_, fun j => ?_, fun j hj => ?_, fun t ht => ?_, fun y hy => ?_, fun j f hj => ?_,
    fun i j f hi hj => ?_, h.ownedOnce, h.dead⟩
  · have hu := h.users j
    rw [hp.countP_eq] at hu
    by_cases hj : j = x.slot
    · subst hj
      simp only [List.countP_cons, decide_true, if_true] at hu
      simp only [closeFile, setSlot_slots, if_true]
      omega
    · have hj' : ¬ x.slot = j := fun e => hj e.symm
      simpa [closeFile, hj, hj', List.countP_cons] using hu
  · have hk := h.transition j
    by_cases hj : j = x.slot
    · subst hj
      simpa [closeFile] using hk
    · simpa [closeFile, hj] using hk
  · have hjx : j ≠ x.slot := by
      rintro rfl
      have hc := (hfs x.slot).symm.trans hj
      rw [hx] at hc
      cases hc
    simpa [closeFile, hjx] using h.idle j ((hfs j).symm.trans hj)
  · have ht' := h.task t ht
    exact ⟨fun j hj => (hfs j).trans (ht'.reserved j hj),
      fun j f hj => (hfs j).trans (ht'.inside j f hj), ht'.owned,
      fun f hf j => by
        show ((closeFile w x).slots j).fs ≠ some f
        rw [hfs j]; exact ht'.hidden f hf j⟩
  · exact (hfs y.slot).trans (h.file y (hp.mem_iff.mpr (List.mem_cons_of_mem _ hy)))
  · exact h.published j f ((hfs j).symm.trans hj)
  · exact h.publishedOnce i j f ((hfs i).symm.trans hi) ((hfs j).symm.trans hj)

theorem advance_inv (reply : Reply)
    (h : Inv w (t :: rest)) :
    Inv (advance w reply t).world ((advance w reply t).next.tasks ++ rest) := by
  have hself := (List.forall_mem_cons.mp h.task).1
  -- A task that only changes its place keeps what it relied on.
  have hok : ∀ t', (∀ k, t'.reserves k → t.reserves k) →
      (∀ k f, t'.uses k f → (w.slots k).fs = some f) → (∀ f, t'.owns f = t.owns f) →
      TaskOk w t' := fun t' hr hu ho =>
    ⟨fun k hk => hself.reserved k (hr k hk), hu, fun f hf => hself.owned f (ho f ▸ hf),
      fun f hf => hself.hidden f (ho f ▸ hf)⟩
  cases t with
  | mount m fsType => exact mountReserve_inv m fsType h
  | mountFactory k =>
    have hfail : Inv w (.finish k .noMem :: rest) := by
      refine h.retask (fun _ => rfl) (fun _ => rfl) (fun _ => rfl) (hok _ ?_ ?_ (fun _ => rfl)) <;>
        simp [Task.reserves, Task.uses]
    cases reply with
    | ok => exact mountFactory_inv h
    | empty => exact hfail
    | error e => exact hfail
  | mountCall k f =>
    have hgo : Inv w (.mountPublish k f :: rest) :=
      h.retask (fun _ => rfl) (fun _ => rfl) (fun _ => rfl)
        (hok _ (fun _ hk => hk) (by simp [Task.uses]) (fun _ => rfl))
    cases reply with
    | ok => exact hgo
    | empty => exact hgo
    | error e =>
      exact h.retask (fun _ => rfl) (fun _ => rfl) (fun _ => rfl)
        (hok _ (fun _ hk => hk) (by simp [Task.uses]) (fun _ => rfl))
  | mountPublish k f => exact mountPublish_inv h
  | mountDestroy k f e => exact destroy_inv h (by simp [Task.owns]) (fun _ => rfl) (fun _ => rfl)
  | umount m => exact umountReserve_inv m h
  | umountCall k f =>
    exact h.retask (fun _ => rfl) (fun _ => rfl) (fun _ => rfl)
      (hok _ (fun _ hk => hk) (by simp [Task.uses]) (fun _ => rfl))
  | umountDestroy k f => exact destroy_inv h (by simp [Task.owns]) (fun _ => rfl) (fun _ => rfl)
  | finish k e => exact finish_inv h
  | path op p =>
    cases p with
    | none => exact h.drop (fun _ => rfl) (fun _ => rfl) (fun _ => rfl)
    | some p =>
      refine acquireMount_inv h _ trivial (fun _ => rfl) (fun _ => rfl) (fun _ => rfl) ?_
      constructor <;> simp [Task.reserves, Task.uses, Task.owns]
  | pathCall op k =>
    obtain ⟨f, hf⟩ := h.holds_published (k := k) (by simp [Task.holds])
    simp only [advance, enterCallback, hf]
    refine h.retask (fun _ => rfl) (fun _ => rfl) (fun _ => rfl)
      (hok _ (by simp [Task.reserves]) (fun j g hj => ?_) (fun _ => rfl))
    obtain ⟨rfl, rfl⟩ : k = j ∧ f = g := by simpa [Task.uses] using hj
    exact hf
  | pathRun op k f =>
    exact h.retask (fun _ => rfl) (fun _ => rfl) (fun _ => rfl)
      (hok _ (by simp [Task.reserves]) (by simp [Task.uses]) (fun _ => rfl))
  | «open» p =>
    cases p with
    | none => exact h.drop (fun _ => rfl) (fun _ => rfl) (fun _ => rfl)
    | some p =>
      simp only [advance]
      split <;>
        refine acquireMount_inv h _ trivial (fun _ => rfl) (fun _ => rfl) (fun _ => rfl) ?_ <;>
        constructor <;> simp [Task.reserves, Task.uses, Task.owns]
  | openCall k =>
    obtain ⟨f, hf⟩ := h.holds_published (k := k) (by simp [Task.holds])
    simp only [advance, enterCallback, hf]
    refine h.retask (fun _ => rfl) (fun _ => rfl) (fun _ => rfl)
      (hok _ (by simp [Task.reserves]) (fun j g hj => ?_) (fun _ => rfl))
    obtain ⟨rfl, rfl⟩ : k = j ∧ f = g := by simpa [Task.uses] using hj
    exact hf
  | openRun k f =>
    have hin : ∀ j g, (Task.openCommit k f).uses j g → (w.slots j).fs = some g :=
      fun j g hj => hself.inside j g hj
    have hrel : ∀ e, Inv w (.release k e :: rest) := fun e =>
      h.retask (fun _ => rfl) (fun _ => rfl) (fun _ => rfl)
        (hok _ (by simp [Task.reserves]) (by simp [Task.uses]) (fun _ => rfl))
    cases reply with
    | ok =>
      exact h.retask (fun _ => rfl) (fun _ => rfl) (fun _ => rfl)
        (hok _ (by simp [Task.reserves]) hin (fun _ => rfl))
    | empty => exact hrel _
    | error e => exact hrel e
  | openCommit k f => exact openCommit_inv h
  | release k e => exact release_inv h

theorem step_inv {s : System} (h : Inv s.world s.tasks) (a : Action) :
    Inv (step s a).1.world (step s a).1.tasks := by
  cases a with
  | call t =>
    simp only [step]
    split
    · rename_i hf
      exact h.call hf
    · exact h
  | run i reply =>
    simp only [step]
    cases ht : s.tasks[i]? with
    | none => exact h
    | some t =>
      obtain ⟨hi, rfl⟩ := List.getElem?_eq_some_iff.mp ht
      have hp : s.tasks.Perm (s.tasks[i] :: s.tasks.eraseIdx i) :=
        (List.getElem_cons_eraseIdx_perm hi).symm
      have hadv := advance_inv reply (h.perm hp)
      dsimp only
      cases hn : (advance s.world reply s.tasks[i]).next with
      | goto t' =>
        rw [hn] at hadv
        exact hadv.perm (List.set_perm_cons_eraseIdx hi t').symm
      | ret e =>
        rw [hn] at hadv
        exact hadv
  | useFile i =>
    simp only [step]
    cases s.world.files[i]? <;> exact h
  | close i =>
    simp only [step]
    cases hx : s.world.files[i]? with
    | none => exact h
    | some x =>
      obtain ⟨hi, rfl⟩ := List.getElem?_eq_some_iff.mp hx
      exact close_inv h (List.getElem_cons_eraseIdx_perm hi).symm

theorem run_inv {s : System} (h : Inv s.world s.tasks) (as : List Action) :
    Inv (run s as).world (run s as).tasks := by
  induction as generalizing s with
  | nil => exact h
  | cons a as ih => exact ih (step_inv h a)

theorem initial_inv (registry : List CString) :
    Inv (initial registry).world (initial registry).tasks := by
  constructor <;> simp [initial]

/-! ### What holds in every reachable state -/

/-- A file system is called only while it exists, and is unmounted or destroyed
only when its slot has no users and no slot publishes it any more. -/
def EventOk (w : World) : Event → Prop
  | .call _ f => w.Alive f
  | .unmount k f | .destroy k f =>
    (w.slots k).users = 0 ∧ (∀ j, (w.slots j).fs ≠ some f) ∧ w.Alive f

theorem advance_events (reply : Reply)
    (h : Inv w (t :: rest)) : ∀ e ∈ (advance w reply t).events, EventOk w e := by
  have hself := (List.forall_mem_cons.mp h.task).1
  have hcall : ∀ k f, t.owns f → EventOk w (.call k f) := fun k f hf => hself.owned f hf
  have hend : ∀ k f, t.owns f → t.reserves k →
      (w.slots k).users = 0 ∧ (∀ j, (w.slots j).fs ≠ some f) ∧ w.Alive f := fun k f hf hk =>
    ⟨h.idle k (hself.reserved k hk), hself.hidden f hf, hself.owned f hf⟩
  have henter : ∀ k inside, t.holds k → ∀ e ∈ (enterCallback w k inside).events, EventOk w e := by
    intro k inside hk e he
    obtain ⟨f, hf⟩ := h.holds_published hk
    have he' : e = .call k f := by simpa [enterCallback, hf] using he
    exact he' ▸ h.published k f hf
  have hacq : ∀ k held, (acquireMount w k held).events = [] := by
    intro k held
    unfold acquireMount
    split <;> rfl
  intro e he
  cases t with
  | mount m fsType =>
    have hnil : (mountReserve w m fsType).events = [] := by
      unfold mountReserve
      repeat' split
      all_goals rfl
    rw [show (advance w reply (.mount m fsType)).events = [] from hnil] at he
    cases he
  | mountFactory k => cases reply <;> simp [advance] at he
  | mountCall k f =>
    have he' : e = .call k f := by cases reply <;> simpa [advance] using he
    exact he' ▸ hcall k f (by simp [Task.owns])
  | mountPublish k f => simp [advance] at he
  | mountDestroy k f r =>
    have he' : e = .destroy k f := by simpa [advance] using he
    exact he' ▸ hend k f (by simp [Task.owns]) (by simp [Task.reserves])
  | umount m =>
    have hnil : (umountReserve w m).events = [] := by
      unfold umountReserve
      repeat' split
      all_goals rfl
    rw [show (advance w reply (.umount m)).events = [] from hnil] at he
    cases he
  | umountCall k f =>
    have he' : e = .unmount k f := by simpa [advance] using he
    exact he' ▸ hend k f (by simp [Task.owns]) (by simp [Task.reserves])
  | umountDestroy k f =>
    have he' : e = .destroy k f := by simpa [advance] using he
    exact he' ▸ hend k f (by simp [Task.owns]) (by simp [Task.reserves])
  | finish k r => simp [advance] at he
  | path op p =>
    cases p with
    | none => simp [advance] at he
    | some p => simp [advance, hacq] at he
  | pathCall op k => exact henter k _ (by simp [Task.holds]) e he
  | pathRun op k f => simp [advance] at he
  | «open» p =>
    cases p with
    | none => simp [advance] at he
    | some p => simp [advance, hacq] at he
  | openCall k => exact henter k _ (by simp [Task.holds]) e he
  | openRun k f => cases reply <;> simp [advance] at he
  | openCommit k f => simp [advance] at he
  | release k r => simp [advance] at he

theorem step_events {s : System} (h : Inv s.world s.tasks) (a : Action) :
    ∀ e ∈ (step s a).2, EventOk s.world e := by
  intro e he
  cases a with
  | call t =>
    simp only [step] at he
    split at he <;> cases he
  | run i reply =>
    simp only [step] at he
    cases ht : s.tasks[i]? with
    | none => rw [ht] at he; cases he
    | some t =>
      obtain ⟨hi, rfl⟩ := List.getElem?_eq_some_iff.mp ht
      have hp := h.perm (List.getElem_cons_eraseIdx_perm hi).symm
      rw [ht] at he
      dsimp only at he
      cases hn : (advance s.world reply s.tasks[i]).next with
      | goto t' => rw [hn] at he; exact advance_events reply hp e he
      | ret r => rw [hn] at he; exact advance_events reply hp e he
  | useFile i =>
    simp only [step] at he
    cases hx : s.world.files[i]? with
    | none => rw [hx] at he; cases he
    | some x =>
      rw [hx] at he
      have he' : e = .call x.slot x.fs := by simpa using he
      exact he' ▸ h.published x.slot x.fs (h.file x (List.mem_of_getElem? hx))
  | close i =>
    simp only [step] at he
    cases hx : s.world.files[i]? with
    | none => rw [hx] at he; cases he
    | some x => rw [hx] at he; cases he

/-- The lifetime contract of the mount table in one state: `users` counts the live
files and the operations in flight, every step that may come next calls, unmounts
or destroys only what it may, callbacks in progress run on existing file systems,
one transition at most runs on a slot, the counters that the destructors assert
positive are positive, and a quiescent table is released. -/
structure MountLifetime (s : System) : Prop where
  users : ∀ k, (s.world.slots k).users =
    s.world.files.countP (·.slot = k) + s.tasks.countP (Task.holds k)
  events : ∀ a, ∀ e ∈ (step s a).2, EventOk s.world e
  running : ∀ t ∈ s.tasks, ∀ k f, t.uses k f → s.world.Alive f ∧ (s.world.slots k).fs = some f
  open_files : ∀ x ∈ s.world.files, s.world.Alive x.fs ∧ (s.world.slots x.slot).fs = some x.fs
  one_transition : ∀ k, s.tasks.countP (Task.transits k) ≤ 1
  held : ∀ t ∈ s.tasks, ∀ k, t.holds k → (s.world.slots k).users ≠ 0
  held_files : ∀ x ∈ s.world.files, (s.world.slots x.slot).users ≠ 0
  quiescent : s.tasks = [] → s.world.files = [] →
    ∀ k, (s.world.slots k).users = 0 ∧ (s.world.slots k).transitioning = false

theorem mount_lifetime (registry : List CString) (actions : List Action) :
    MountLifetime (run (initial registry) actions) := by
  have h := run_inv (initial_inv registry) actions
  generalize run (initial registry) actions = s at h
  refine ⟨h.users, step_events h, fun t ht k f hu => ?_, fun x hx => ?_, fun k => ?_,
    fun t ht k hk h0 => ?_, fun x hx h0 => ?_, fun ht hf k => ?_⟩
  · have hin := (h.task t ht).inside k f hu
    exact ⟨h.published k f hin, hin⟩
  · have hin := h.file x hx
    exact ⟨h.published _ _ hin, hin⟩
  · rw [h.transition k]
    split <;> omega
  · have hc := (h.unused h0).1 t ht
    rw [hk] at hc
    cases hc
  · exact (h.unused h0).2 x hx rfl
  · have hu := h.users k
    have hk := h.transition k
    rw [ht] at hu hk
    rw [hf] at hu
    simp only [List.countP_nil] at hu hk
    refine ⟨hu, ?_⟩
    split at hk
    · omega
    · rename_i hn
      simpa using hn

end Zonix.Vfs
