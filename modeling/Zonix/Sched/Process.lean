import Mathlib.Algebra.Order.Ring.Int
import Zonix.Base.Error
import Zonix.Lib.Rings
import Zonix.Sched.TaskState

/-! # The process table, the scheduler and `fork`, `exit`, `wait`

`kernel/sched/`: the intrusive lists of `task_table.cpp` and `task.cpp`, the policy of
`sched_priority_rr.cpp`, `schedule`, and the guarded sections of `process.cpp`.  A task is named by its
address; an address is used again after `delete`.  A failed assertion has no result. -/

namespace Zonix.Sched

open Linked Function

inductive Node (T : Type) where
  | procList
  | bucket (b : Fin 1024)
  | list (t : T)
  | hash (t : T)
  | child (t : T)
  | childList (t : T)
  deriving DecidableEq

/-- Where a task stands: inside `fork` with its unpublished child, in `schedule` inside `wait`, or
before another round of `wait`. -/
inductive Pc (T : Type) where
  | outside
  | forking (child : T)
  | asleep (pid : ℤ)
  | again (pid : ℤ)
  deriving DecidableEq

/-- The fields of the tasks, of `TaskManager` and of `Scheduler`.  The last four are no data of the kernel:
where each task stands, which tasks `fork` has published and `wait` has not yet removed, the number of the
`fork` that published a task, and of the last one. -/
structure Kernel (T : Type) where
  links : Links (Node T)
  live : T → Bool
  pid : T → ℤ
  state : T → TaskState
  exitCode : T → ℤ
  waitState : T → Bool
  parent : T → Option T
  priority : T → ℤ
  userMemory : T → Bool
  idle : T
  init : Option T
  processCount : ℤ
  nextPid : ℤ
  current : T
  cursor : Option (Node T)
  pc : T → Pc T
  published : T → Bool
  serial : T → ℕ
  forkCount : ℕ

def pidHash (x : ℤ) : Fin 1024 :=
  ⟨((x % 2 ^ 32).toNat * 0x61C88647 % 2 ^ 32) / 2 ^ 22, by omega⟩

namespace Kernel

variable {T : Type} [DecidableEq T]

/-! ## `task_table.cpp`, `task.cpp` -/

def taskRemoved (k : Kernel T) (t : T) : Kernel T := if k.cursor = some (.list t) then { k with cursor := none } else k

def addProcess (k : Kernel T) (t : T) : Kernel T :=
  { k with
    links := (k.links.addAfter (.bucket (pidHash (k.pid t))) (.hash t)).addAfter .procList (.list t)
    processCount := k.processCount + 1 }

def removeProcess (k : Kernel T) (t : T) : Kernel T :=
  let k := k.taskRemoved t
  { k with links := (k.links.unlink (.hash t)).unlink (.list t), processCount := k.processCount - 1 }

/-- The loop body of `find_process`: the result so far, and whether to return it. -/
def findBody (k : Kernel T) (pid : ℤ) (found : Option T) : Node T → Option T × Bool
  | .hash t => if k.pid t = pid then (some t, true) else (found, false)
  | _ => (found, false)

def findProcess (fuel : ℕ) (k : Kernel T) (pid : ℤ) : Option (Option T) :=
  if pid ≤ 0 then some none
  else
    let head := Node.bucket (pidHash pid)
    k.links.forEach head (k.findBody pid) fuel (k.links.next head) none

def wakeup (k : Kernel T) (t : T) : Option (Kernel T) := do
  let st ← (k.state t).wakeup
  some { k with state := update k.state t st }

def sleep (k : Kernel T) (t : T) : Option (Kernel T) := do
  let st ← (k.state t).sleep
  some { k with state := update k.state t st }

def setLinks (k : Kernel T) (t : T) : Kernel T :=
  let k := k.addProcess t
  match k.parent t with
  | some p => { k with links := k.links.addAfter (.childList p) (.child t) }
  | none => k

def removeLinks (k : Kernel T) (t : T) : Kernel T :=
  let k := k.removeProcess t
  { k with links := k.links.unlink (.child t) }

/-- `~Task`, with its assertions. -/
def delete (k : Kernel T) (t : T) : Option (Kernel T) :=
  if t ≠ k.current ∧ k.links.next (.list t) = .list t ∧ k.links.next (.hash t) = .hash t ∧
      k.links.next (.child t) = .child t ∧ k.links.next (.childList t) = .childList t then
    some { k with live := update k.live t false }
  else none

def destroy (k : Kernel T) (t : T) : Option (Kernel T) := if k.state t = .zombie then k.delete t else none

/-! ## The scheduler -/

def idlePrio : ℤ := 31

/-- The loop body of `pick_next`: the best task so far and its priority. -/
def pickBody (k : Kernel T) (best : T × ℤ) : Node T → T × ℤ
  | .list t =>
    if (k.state t = .runnable ∨ (t = k.current ∧ k.state t = .running)) ∧ t ≠ k.idle then
      if k.priority t < best.2 then (t, k.priority t) else best
    else best
  | _ => best

/-- Where the loop of `pick_next` starts. -/
def startCursor (k : Kernel T) : Node T :=
  match k.cursor with
  | none => k.links.next .procList
  | some c => if c = .procList then k.links.next .procList else c

/-- The loop over `circular_from`, which steps over the head once. -/
def pickBest (fuel : ℕ) (k : Kernel T) (cursor : Node T) : Option (T × ℤ) :=
  let first := if cursor = .procList then k.links.next .procList else cursor
  if first = .procList then some (k.idle, idlePrio + 1)
  else k.links.forCircular .procList first k.pickBody fuel first (k.idle, idlePrio + 1)

def pickNext (fuel : ℕ) (k : Kernel T) : Option (T × Kernel T) := do
  let cursor := k.startCursor
  let (next, _) ← k.pickBest fuel cursor
  some (next, { k with cursor := some (if next ≠ k.idle then k.links.next (.list next) else cursor) })

def run (k : Kernel T) (t : T) : Option (Kernel T) := do
  let st ← (k.state t).markRunning
  some { k with current := t, state := update k.state t st }

def demote (k : Kernel T) : Option (Kernel T) :=
  if k.state k.current = .running then k.wakeup k.current else some k

def schedule (fuel : ℕ) (k : Kernel T) : Option (Kernel T) := do
  let (next, k) ← k.pickNext fuel
  if next = k.current then some k
  else
    let k ← k.demote
    k.run next

/-! ## `process.cpp` -/

/-- `new Task()` at an address that is not in use, up to the calls that can fail. -/
def forkBegin (k : Kernel T) (child : T) : Kernel T :=
  { k with
    links := (((k.links.reset (.list child)).reset (.hash child)).reset (.child child)).reset (.childList child)
    live := update k.live child true
    pid := update k.pid child 0
    state := update k.state child .uninit
    exitCode := update k.exitCode child 0
    waitState := update k.waitState child false
    parent := update k.parent child (some k.current)
    priority := update k.priority child 10
    userMemory := update k.userMemory child false
    pc := update (update k.pc child .outside) k.current (.forking child) }

def forkFail (k : Kernel T) (child : T) : Option (Kernel T) := do
  let k ← k.delete child
  some { k with pc := update k.pc k.current .outside }

/-- The rest of `fork`, ending with its guarded section; `next_pid_` is an `int`. -/
def forkPublish (k : Kernel T) (child : T) : Option (Kernel T) := do
  if k.state child ≠ .uninit then none
  else
    let k := { k with
      priority := update k.priority child (k.priority k.current)
      pid := update k.pid child k.nextPid
      nextPid := (k.nextPid + 1).bmod (2 ^ 32) }
    let k := k.setLinks child
    let k ← k.wakeup child
    some { k with
      published := update k.published child true, pc := update k.pc k.current .outside
      serial := update k.serial child (k.forkCount + 1), forkCount := k.forkCount + 1 }

def notify (k : Kernel T) (t : T) : Option (Kernel T) := if k.waitState t then k.wakeup t else some k

def notifyParent (k : Kernel T) (t : T) : Option (Kernel T) :=
  match k.parent t with
  | some p => k.notify p
  | none => some k

def adoptChild (k : Kernel T) (c init : T) : Option (Kernel T) :=
  let k := { k with
    parent := update k.parent c (some init)
    links := (k.links.unlink (.child c)).addAfter (.childList init) (.child c) }
  if k.state c = .zombie then k.notify init else some k

def adoptChildren (t : T) : ℕ → Kernel T → Option (Kernel T)
  | 0, _ => none
  | fuel + 1, k =>
    if k.links.next (.childList t) = .childList t then some k
    else
      match k.links.next (.childList t) with
      | .child c => do
        let init ← k.init
        let k ← k.adoptChild c init
        adoptChildren t fuel k
      | _ => none

def exit (fuel : ℕ) (k : Kernel T) (code : ℤ) : Option (Kernel T) := do
  let t := k.current
  let k := { k with state := update k.state t .zombie, exitCode := update k.exitCode t code }
  let k ← k.notifyParent t
  let k ← adoptChildren t fuel k
  let k ← k.schedule fuel
  if k.current = t then none else some k

inductive Outcome (T : Type) where
  | reaped (child : T) (pid code : ℤ)
  | notFound
  | sleeping

def matching (k : Kernel T) (pid : ℤ) (t : T) : Prop := pid = 0 ∨ k.pid t = pid

instance (k : Kernel T) (pid : ℤ) (t : T) : Decidable (k.matching pid t) := by unfold matching; infer_instance

/-- The loop body of `wait`: `has_children` and `zombie_child`, and whether to break. -/
def scanBody (k : Kernel T) (pid : ℤ) (found : Bool × Option T) : Node T → (Bool × Option T) × Bool
  | .child c =>
    if k.matching pid c then if k.state c = .zombie then ((true, some c), true) else ((true, found.2), false)
    else (found, false)
  | _ => (found, false)

def scanChildren (fuel : ℕ) (k : Kernel T) (pid : ℤ) : Option (Bool × Option T) :=
  let head := Node.childList k.current
  k.links.forEach head (k.scanBody pid) fuel (k.links.next head) (false, none)

/-- One round of `wait`, up to its return or into `schedule`. -/
def waitRound (fuel : ℕ) (k : Kernel T) (pid : ℤ) : Option (Outcome T × Kernel T) := do
  let (hasChildren, zombieChild) ← k.scanChildren fuel pid
  match zombieChild with
  | some z =>
    let k' ← (k.removeLinks z).destroy z
    some (.reaped z (k.pid z) (k.exitCode z),
      { k' with published := update k'.published z false, pc := update k'.pc k'.current .outside })
  | none =>
    if !hasChildren then some (.notFound, { k with pc := update k.pc k.current .outside })
    else
      let k := { k with waitState := update k.waitState k.current true, pc := update k.pc k.current (.asleep pid) }
      let k ← k.sleep k.current
      let k ← k.schedule fuel
      some (.sleeping, k)

/-! ## Boot -/

/-- `init_idle`: the boot thread becomes the idle task. -/
def initIdle (links : Links (Node T)) (idle : T) : Kernel T :=
  let k : Kernel T :=
    { links, live := update (fun _ => false) idle true, pid := fun _ => 0, state := update (fun _ => .uninit) idle .runnable,
      exitCode := fun _ => 0, waitState := fun _ => false, parent := fun _ => none, priority := fun _ => idlePrio,
      userMemory := fun _ => false, idle, init := none, processCount := 0, nextPid := 1, current := idle, cursor := none,
      pc := fun _ => .outside, published := update (fun _ => false) idle true, serial := fun _ => 0, forkCount := 0 }
  k.addProcess idle

/-- `init_init_proc`, once its `fork` has succeeded. -/
def initInitProc (fuel : ℕ) (k : Kernel T) (child : T) : Option (Kernel T) := do
  let k ← (k.forkBegin child).forkPublish child
  let found ← k.findProcess fuel 1
  let init ← found
  some { k with init := some init }

end Kernel

/-! ## Runs -/

/-- Tasks are named by their serial number, `forked` with the pid and `reaped` with what `wait` returns. -/
inductive Event where
  | forked (parent task : ℕ) (pid : ℤ)
  | exited (task : ℕ) (code : ℤ)
  | reaped (parent task : ℕ) (pid code : ℤ)
  deriving DecidableEq

variable {T : Type} [DecidableEq T]

def Kernel.Outcome.events (k : Kernel T) : Outcome T → List Event
  | .reaped child pid code => [.reaped (k.serial k.current) (k.serial child) pid code]
  | .notFound => []
  | .sleeping => []

/-- One guarded section of the task on the CPU; `block` and `wakeup` are those of the wait queues.  The
timer does not preempt the idle task. -/
inductive Step (k : Kernel T) : List Event → Kernel T → Prop
  | forkBegin (child : T) (pc : k.pc k.current = .outside) (memory : k.userMemory k.current = false)
      (free : k.live child = false) : Step k [] (k.forkBegin child)
  | forkFail {child : T} {k' : Kernel T} (pc : k.pc k.current = .forking child) (h : k.forkFail child = some k') :
      Step k [] k'
  | forkPublish {child : T} {k' : Kernel T} (pc : k.pc k.current = .forking child) (h : k.forkPublish child = some k') :
      Step k [.forked (k.serial k.current) (k.forkCount + 1) k.nextPid] k'
  | adoptMemory (child : T) (pc : k.pc k.current = .outside) (parent : k.parent child = some k.current)
      (state : k.state child = .runnable) : Step k [] { k with userMemory := update k.userMemory child true }
  | exit {fuel : ℕ} (code : ℤ) {k' : Kernel T} (pc : k.pc k.current = .outside) (init : k.init ≠ some k.current)
      (h : k.exit fuel code = some k') : Step k [.exited (k.serial k.current) code] k'
  | wait {fuel : ℕ} (pid : ℤ) {o : Kernel.Outcome T} {k' : Kernel T} (valid : 0 ≤ pid)
      (pc : k.pc k.current = .outside ∨ k.pc k.current = .again pid) (h : k.waitRound fuel pid = some (o, k')) :
      Step k (o.events k) k'
  | resume {pid : ℤ} (pc : k.pc k.current = .asleep pid) :
      Step k [] { k with waitState := update k.waitState k.current false, pc := update k.pc k.current (.again pid) }
  | yield {fuel : ℕ} {k' : Kernel T} (pc : k.pc k.current = .outside) (h : k.schedule fuel = some k') : Step k [] k'
  | preempt {fuel : ℕ} {k' : Kernel T} (idle : k.current ≠ k.idle) (pc : ∀ pid, k.pc k.current ≠ .asleep pid)
      (h : k.schedule fuel = some k') : Step k [] k'
  | block {fuel : ℕ} {k₁ k' : Kernel T} (pc : ∀ pid, k.pc k.current ≠ .asleep pid ∧ k.pc k.current ≠ .again pid)
      (sleep : k.sleep k.current = some k₁) (h : k₁.schedule fuel = some k') : Step k [] k'
  | wakeup {t : T} {k' : Kernel T} (state : k.state t = .sleeping) (pc : ∀ pid, k.pc t ≠ .asleep pid)
      (h : k.wakeup t = some k') : Step k [] k'

/-- The states after `TaskManager::init`, each with the events that led to it. -/
inductive Reach : Kernel T → List Event → Prop
  | boot {links : Links (Node T)} {idle child : T} {fuel : ℕ} {k : Kernel T}
      (heads : Family links (fun n => n = .procList ∨ (∃ b, n = .bucket b) ∨ n = .list idle ∨ n = .hash idle ∨
        n = .child idle ∨ n = .childList idle) fun _ => [])
      (free : child ≠ idle) (h : (Kernel.initIdle links idle).initInitProc fuel child = some k) :
      Reach k [.forked 0 1 1]
  | step {k k' : Kernel T} {tr es : List Event} (reach : Reach k tr) (run : Step k es k') : Reach k' (tr ++ es)

end Zonix.Sched
