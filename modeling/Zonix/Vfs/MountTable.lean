import Zonix.Base.Error

/-! # The mount table (`kernel/fs/vfs.cpp`)

A task inside the VFS is cut at the `intr::Guard` sections and at the file
system callbacks, which run with interrupts enabled and may sleep. `advance`
performs one such piece; between two pieces any other task may run. A callback
that works through a slot is entered and left by separate pieces, so that other
tasks also run while it is inside the file system. -/

namespace Zonix.Vfs

abbrev CString := List Char
abbrev FsId := ℕ

/-- The three entries of `State::mounts_`. -/
inductive Slot where
  | dev
  | mnt
  | root
  deriving Repr, DecidableEq

def Slot.mountPoint : Slot → CString
  | .dev => "/dev".toList
  | .mnt => "/mnt".toList
  | .root => "/".toList

/-- `find_slot`: the table is searched in its order; a null name finds nothing. -/
def findSlot (mountPoint : Option CString) : Option Slot :=
  mountPoint.bind fun m => [Slot.dev, Slot.mnt, Slot.root].find? fun k => k.mountPoint = m

/-- `str_skip_char(str, '/')`. -/
def skipSlashes (s : CString) : CString := s.dropWhile (· = '/')

/-- The mount point and the relative path that `resolve_path` computes before
it acquires the mount. -/
def resolvePath (path : CString) : Slot × CString :=
  if path = "/dev".toList then (.dev, [])
  else if "/dev/".toList.isPrefixOf path then (.dev, skipSlashes (path.drop 5))
  else if path = "/mnt".toList then (.mnt, [])
  else if "/mnt/".toList.isPrefixOf path then (.mnt, skipSlashes (path.drop 5))
  else if path.head? = some '/' then (.root, skipSlashes (path.drop 1))
  else (.root, skipSlashes path)

structure MountSlot where
  fs : Option FsId
  users : ℕ
  transitioning : Bool
  deriving Repr, DecidableEq

/-- A live `File` whose `mount_users_` points at the counter of `slot`; `fs` is
the file system that produced it. -/
structure File where
  slot : Slot
  fs : FsId
  deriving Repr, DecidableEq

/- File systems are numbered in the order the factories build them, so the ids
below `created` are the ones that exist or have existed. -/
structure World where
  slots : Slot → MountSlot
  registry : List CString
  created : ℕ
  destroyed : List FsId
  files : List File

def World.setSlot (w : World) (k : Slot) (m : MountSlot) : World :=
  { w with slots := fun j => if j = k then m else w.slots j }

/-- The operations that take a `MountRef`, call the file system and drop it. -/
inductive PathOp where
  | stat
  | readdir
  | mkdir
  | create
  | unlink
  | rmdir
  | print
  deriving Repr, DecidableEq

/-- Where a task stands. `umountCall` to `umountDestroy` and `mountCall` to
`mountPublish` hold the `unique_ptr` to `fs`; the states from `pathCall` and
`openCall` on hold a `MountRef`; `finish` is the destructor of
`MountTransition` and `release` the one of `MountRef`. -/
inductive Task where
  | mount (mountPoint fsType : Option CString)
  | mountFactory (slot : Slot)
  | mountCall (slot : Slot) (fs : FsId)
  | mountPublish (slot : Slot) (fs : FsId)
  | mountDestroy (slot : Slot) (fs : FsId) (result : Error)
  | umount (mountPoint : Option CString)
  | umountCall (slot : Slot) (fs : FsId)
  | umountDestroy (slot : Slot) (fs : FsId)
  | finish (slot : Slot) (result : Error)
  | path (op : PathOp) (path : Option CString)
  | pathCall (op : PathOp) (slot : Slot)
  | pathRun (op : PathOp) (slot : Slot) (fs : FsId)
  | open (path : Option CString)
  | openCall (slot : Slot)
  | openRun (slot : Slot) (fs : FsId)
  | openCommit (slot : Slot) (fs : FsId)
  | release (slot : Slot) (result : Error)
  deriving Repr, DecidableEq

inductive Reply where
  | ok
  | empty
  | error (e : Error)
  deriving Repr, DecidableEq

def Reply.code : Reply → Error
  | .ok => .none
  | .empty => .none
  | .error e => e

inductive Event where
  | call (slot : Slot) (fs : FsId)
  | unmount (slot : Slot) (fs : FsId)
  | destroy (slot : Slot) (fs : FsId)
  deriving Repr, DecidableEq

inductive Next where
  | goto (t : Task)
  | ret (e : Error)
  deriving Repr, DecidableEq

structure Advance where
  world : World
  events : List Event
  next : Next

/-- `acquire_mount` under its guard. -/
def acquireMount (w : World) (k : Slot) (held : Task) : Advance :=
  if (w.slots k).fs.isSome then
    ⟨w.setSlot k { w.slots k with users := (w.slots k).users + 1 }, [], .goto held⟩
  else ⟨w, [], .ret .notFound⟩

/-- The guarded section that opens `vfs::mount`. -/
def mountReserve (w : World) (mountPoint fsType : Option CString) : Advance :=
  match mountPoint, fsType with
  | some m, some t =>
    match findSlot (some m) with
    | none => ⟨w, [], .ret .notFound⟩
    | some k =>
      if (w.slots k).transitioning then ⟨w, [], .ret .busy⟩
      else if (w.slots k).fs.isSome then ⟨w, [], .ret .exists⟩
      else if t ∈ w.registry then
        ⟨w.setSlot k { w.slots k with transitioning := true }, [], .goto (.mountFactory k)⟩
      else ⟨w, [], .ret .notFound⟩
  | _, _ => ⟨w, [], .ret .invalid⟩

/-- The guarded section that opens `vfs::umount`. -/
def umountReserve (w : World) (mountPoint : Option CString) : Advance :=
  match mountPoint with
  | none => ⟨w, [], .ret .invalid⟩
  | some m =>
    match findSlot (some m) with
    | none => ⟨w, [], .ret .notFound⟩
    | some k =>
      if (w.slots k).transitioning then ⟨w, [], .ret .busy⟩
      else match (w.slots k).fs with
        | none => ⟨w, [], .ret .notFound⟩
        | some f =>
          if (w.slots k).users = 0 then
            ⟨w.setSlot k { w.slots k with transitioning := true, fs := none }, [],
              .goto (.umountCall k f)⟩
          else ⟨w, [], .ret .busy⟩

/-- The callback of a path operation or of `open` is entered through
`slot->fs`, read without a guard while the reference is held. -/
def enterCallback (w : World) (k : Slot) (inside : FsId → Task) : Advance :=
  match (w.slots k).fs with
  | some f => ⟨w, [.call k f], .goto (inside f)⟩
  | none => ⟨w, [], .ret .fail⟩

def advance (w : World) (reply : Reply) : Task → Advance
  | .mount m t => mountReserve w m t
  | .mountFactory k =>
    match reply with
    | .ok => ⟨{ w with created := w.created + 1 }, [], .goto (.mountCall k w.created)⟩
    | _ => ⟨w, [], .goto (.finish k .noMem)⟩
  | .mountCall k f =>
    match reply with
    | .error e => ⟨w, [.call k f], .goto (.mountDestroy k f e)⟩
    | _ => ⟨w, [.call k f], .goto (.mountPublish k f)⟩
  | .mountPublish k f =>
    ⟨w.setSlot k { w.slots k with fs := some f }, [], .goto (.finish k .none)⟩
  | .mountDestroy k f e =>
    ⟨{ w with destroyed := f :: w.destroyed }, [.destroy k f], .goto (.finish k e)⟩
  | .umount m => umountReserve w m
  | .umountCall k f => ⟨w, [.unmount k f], .goto (.umountDestroy k f)⟩
  | .umountDestroy k f =>
    ⟨{ w with destroyed := f :: w.destroyed }, [.destroy k f], .goto (.finish k .none)⟩
  | .finish k e => ⟨w.setSlot k { w.slots k with transitioning := false }, [], .ret e⟩
  | .path op p =>
    match p with
    | none => ⟨w, [], .ret .invalid⟩
    | some p => acquireMount w (resolvePath p).1 (.pathCall op (resolvePath p).1)
  | .pathCall op k => enterCallback w k (.pathRun op k)
  | .pathRun _ k _ => ⟨w, [], .goto (.release k reply.code)⟩
  | .open p =>
    match p with
    | none => ⟨w, [], .ret .invalid⟩
    | some p =>
      acquireMount w (resolvePath p).1
        (if (resolvePath p).2 = [] then .release (resolvePath p).1 .invalid
          else .openCall (resolvePath p).1)
  | .openCall k => enterCallback w k (.openRun k)
  | .openRun k f =>
    match reply with
    | .ok => ⟨w, [], .goto (.openCommit k f)⟩
    | .empty => ⟨w, [], .goto (.release k .io)⟩
    | .error e => ⟨w, [], .goto (.release k e)⟩
  -- The reference moves from the `MountRef` into the new `File`.
  | .openCommit k f => ⟨{ w with files := ⟨k, f⟩ :: w.files }, [], .ret .none⟩
  | .release k e =>
    ⟨w.setSlot k { w.slots k with users := (w.slots k).users - 1 }, [], .ret e⟩

/-- An operation as it is called, before its first piece has run. -/
def Task.Fresh : Task → Prop
  | .mount _ _ | .umount _ | .path _ _ | .open _ => True
  | _ => False

instance : DecidablePred Task.Fresh := fun t => by cases t <;> unfold Task.Fresh <;> infer_instance

structure System where
  world : World
  tasks : List Task

/-- Call an operation, run the next piece of the `i`-th task, use or delete the `i`-th
live `File`. `useFile` stands for `read`, `write` and `stat` through a handle. -/
inductive Action where
  | call (t : Task)
  | run (i : ℕ) (reply : Reply)
  | useFile (i : ℕ)
  | close (i : ℕ)
  deriving Repr, DecidableEq

/-- `File::~File`. -/
def closeFile (w : World) (f : File) : World :=
  w.setSlot f.slot { w.slots f.slot with users := (w.slots f.slot).users - 1 }

def step (s : System) : Action → System × List Event
  | .call t => if t.Fresh then (⟨s.world, t :: s.tasks⟩, []) else (s, [])
  | .run i reply =>
    match s.tasks[i]? with
    | none => (s, [])
    | some t =>
      let a := advance s.world reply t
      match a.next with
      | .goto t' => (⟨a.world, s.tasks.set i t'⟩, a.events)
      | .ret _ => (⟨a.world, s.tasks.eraseIdx i⟩, a.events)
  | .useFile i =>
    match s.world.files[i]? with
    | none => (s, [])
    | some f => (s, [.call f.slot f.fs])
  | .close i =>
    match s.world.files[i]? with
    | none => (s, [])
    | some f => (⟨{ closeFile s.world f with files := s.world.files.eraseIdx i }, s.tasks⟩, [])

def initial (registry : List CString) : System :=
  ⟨⟨fun _ => ⟨none, 0, false⟩, registry, 0, [], []⟩, []⟩

def run (s : System) : List Action → System
  | [] => s
  | a :: as => run (step s a).1 as

end Zonix.Vfs
