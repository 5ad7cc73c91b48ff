import Mathlib.Init

/-! # Task states

`TaskState` and the transitions of `kernel/sched/task.cpp`.  A transition that fails its assertion
has no result. -/

namespace Zonix.Sched

inductive TaskState where
  | uninit | sleeping | runnable | running | zombie
  deriving Repr, DecidableEq

namespace TaskState

def wakeup : TaskState → Option TaskState
  | zombie => none
  | _ => some runnable

def sleep : TaskState → Option TaskState
  | zombie => none
  | _ => some sleeping

def markRunning : TaskState → Option TaskState
  | zombie => none
  | _ => some running

end TaskState

end Zonix.Sched
