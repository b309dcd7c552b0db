/-
  `fs.watch` on Linux (`fs_watch/inotify_backend.rs`): all watchers of a run share one inotify instance, which is opened
  for the first watch and closed when it has no descriptor left.  What the system answers is part of a step.  The lock
  is taken for each call and each batch of events; the steps here take it for each event, which only adds interleavings.
-/
import Oam.Lib.Assoc
import Oam.Lib.PosixPath
import Oam.Lib.Trace

namespace Oam.FsWatch

open Text Assoc PosixPath LexPath

/-! ## The tables -/

inductive IoError where
  | os (code : Nat)
  | other (words : Str)
deriving DecidableEq, Repr

inductive WatchStartError where
  | limitReached
  | io (error : IoError)
deriving DecidableEq, Repr

inductive WatchEventType where
  | rename
  | change
deriving DecidableEq, Repr

/-- What a watcher hears; an event of a descriptor comes with the descriptor, the mask and the cookie. -/
inductive Note where
  | event (kind : WatchEventType) (filename : Option Str) (raw : Option (Nat × UInt32 × UInt32))
  | failed (error : IoError)
deriving DecidableEq, Repr

abbrev Sender := Nat

structure User where
  watcher : Nat
  /-- Where the descriptor's directory is under the watcher's root; empty for the root. -/
  under : Str
deriving DecidableEq, Repr

structure Watcher where
  tx : Sender
  root : Str
  recursive : Bool
  /-- The descriptors it is attached to. -/
  wds : List Nat
deriving DecidableEq, Repr

structure Event where
  wd : Nat
  mask : UInt32
  cookie : UInt32
  name : Option Str
deriving DecidableEq, Repr

structure Instance where
  /-- The kernel's: the descriptors it has, and the events that are not read yet. -/
  active : List Nat
  queue : List Event
  wds : List (Nat × List User)
  watchers : List (Nat × Watcher)
  next : Nat
deriving DecidableEq, Repr

def Instance.new : Instance := { active := [], queue := [], wds := [], watchers := [], next := 0 }

/-- A `Handle` has the watcher's `id`; `of` only says which instance, counted from the first, gave it. -/
structure Handle where
  id : Nat
  of : Nat
deriving DecidableEq, Repr

structure State where
  slot : Option Instance
  /-- How many instances were opened. -/
  opened : Nat
  /-- The handles that are held. -/
  handles : List Handle
deriving DecidableEq, Repr

/-! ## inotify -/

def inModify : UInt32 := 0x2
def inAttrib : UInt32 := 0x4
def inMovedTo : UInt32 := 0x80
def inCreate : UInt32 := 0x100
def inQOverflow : UInt32 := 0x4000
def inIgnored : UInt32 := 0x8000
def inIsdir : UInt32 := 0x40000000

/-- `EventMask::contains`. -/
def Event.has (e : Event) (bits : UInt32) : Bool := e.mask &&& bits == bits

/-- The kernel drops a descriptor and says so. -/
def ignored (n : Nat) : Event := { wd := n, mask := inIgnored, cookie := 0, name := none }

/-- `inotify_rm_watch`, and what the kernel does itself when the inode is gone. -/
def Instance.kernelRemove (inst : Instance) (n : Nat) : Instance :=
  if n ∈ inst.active then
    { inst with active := inst.active.filter (· ≠ n), queue := inst.queue ++ [ignored n] }
  else inst

/-! ## Attaching and detaching -/

def Instance.users (inst : Instance) (n : Nat) : List User := (get inst.wds n).getD []

def Instance.wdsOf (inst : Instance) (w : Nat) : List Nat := ((get inst.watchers w).map Watcher.wds).getD []

/-- `attach`, the kernel having answered with the descriptor `n`. -/
def Instance.link (inst : Instance) (w : Nat) (under : Str) (n : Nat) : Instance :=
  if (inst.users n).any (·.watcher = w) then { inst with active := n :: inst.active }
  else
    { inst with
      active := n :: inst.active
      wds := put inst.wds n (inst.users n ++ [⟨w, under⟩])
      watchers := adjust inst.watchers w fun x => { x with wds := x.wds ++ [n] } }

/-- What `inotify_add_watch` answers. -/
abbrev Answer := Except IoError Nat

/-- What `attach_tree` meets: directory after directory, the answer to its `add`, what is below it and what comes after it. -/
inductive Walk where
  | done
  | entry (name : Str) (answer : Answer) (below rest : Walk)
deriving DecidableEq, Repr

/-- A directory that cannot be watched is skipped, with all that is below it. -/
def Instance.attachTree (inst : Instance) (w : Nat) (under : Str) : Walk → Instance
  | .done => inst
  | .entry _ (.error _) _ rest => inst.attachTree w under rest
  | .entry name (.ok n) below rest =>
    ((inst.link w (push under name) n).attachTree w (push under name) below).attachTree w under rest

/-- One round of the loop of `detach`. -/
def Instance.unlink (inst : Instance) (w : Nat) (n : Nat) : Instance :=
  match get inst.wds n with
  | none => inst
  | some users =>
    if (users.filter (·.watcher ≠ w)).isEmpty then { inst.kernelRemove n with wds := remove inst.wds n }
    else { inst with wds := put inst.wds n (users.filter (·.watcher ≠ w)) }

def Instance.detach (inst : Instance) (w : Nat) : Instance :=
  match get inst.watchers w with
  | none => inst
  | some watcher => watcher.wds.foldl (fun i n => i.unlink w n) { inst with watchers := remove inst.watchers w }

/-! ## Starting a watch -/

/-- A call of `watch`, and what the system answers to it. -/
structure Start where
  root : Str
  isDir : Bool
  recursive : Bool
  tx : Sender
  /-- `Inotify::init` fails. -/
  init : Option IoError
  answer : Answer
  tree : Walk
  /-- The reader's thread cannot be spawned. -/
  spawn : Option IoError
deriving DecidableEq, Repr

def enospc : Nat := 28

def addError (error : IoError) : WatchStartError := if error = .os enospc then .limitReached else .io error

def Instance.enroll (inst : Instance) (c : Start) : Instance :=
  { inst with
    next := inst.next + 1
    watchers := put inst.watchers (inst.next + 1)
      { tx := c.tx, root := c.root, recursive := c.recursive && c.isDir, wds := [] } }

def Instance.attachAll (inst : Instance) (w : Nat) (c : Start) (n : Nat) : Instance :=
  if c.recursive && c.isDir then (inst.link w [] n).attachTree w [] c.tree else inst.link w [] n

def State.instance (s : State) : Instance := s.slot.getD .new

def State.generation (s : State) : Nat := if s.slot.isSome then s.opened else s.opened + 1

/-- A watcher joins the shared instance, or opens one; a failed start leaves no handle. -/
def watch (s : State) (c : Start) : State × Except WatchStartError Handle :=
  match s.slot, c.init with
  | none, some error => (s, .error (.io error))
  | _, _ =>
    match c.answer with
    | .error error =>
      -- a fresh instance goes with its only watcher
      ({ s with opened := s.generation
                slot := s.slot.map fun inst => (inst.enroll c).detach (inst.next + 1) },
        .error (addError error))
    | .ok n =>
      match s.slot, c.spawn with
      | none, some error => ({ s with opened := s.generation }, .error (.io error))
      | _, _ =>
        ({ slot := some ((s.instance.enroll c).attachAll (s.instance.next + 1) c n)
           opened := s.generation
           handles := s.handles ++ [⟨s.instance.next + 1, s.generation⟩] },
          .ok ⟨s.instance.next + 1, s.generation⟩)

/-! ## Delivering events -/

/-- `Path::file_name`. -/
def fileName (path : Str) : Option Str :=
  match ((moves isSep path).filter (· ≠ .stay)).getLast? with
  | some (.down name) => some name
  | _ => none

/-- The name a user's watcher hears an event by. A directory below the root itself has none. -/
def filenameFor (w : Watcher) (user : User) (name : Option Str) : Option Str :=
  match name with
  | some name => some (push user.under name)
  | none => if user.under = [] then fileName w.root else none

/-- Any bit but `IN_ATTRIB` and `IN_MODIFY` makes it a rename. -/
def Event.kind (e : Event) : WatchEventType :=
  if e.mask &&& ~~~(inAttrib ||| inModify) != 0 then .rename else .change

def Event.newDir (e : Event) : Bool :=
  e.name.isSome && e.has inIsdir && (e.mask &&& (inCreate ||| inMovedTo) != 0)

abbrev Send := Sender × Note

def Instance.noteFor (inst : Instance) (e : Event) (user : User) : Option Send :=
  (get inst.watchers user.watcher).bind fun w =>
    (filenameFor w user e.name).map fun filename =>
      (w.tx, .event e.kind (some filename) (some (e.wd, e.mask, e.cookie)))

/-- The users whose watchers follow the new directory, and its name under their roots. -/
def Instance.growth (inst : Instance) (e : Event) : List User :=
  if e.newDir then
    (inst.users e.wd).filterMap fun user =>
      (get inst.watchers user.watcher).bind fun w =>
        (filenameFor w user e.name).bind fun filename =>
          if w.recursive then some ⟨user.watcher, filename⟩ else none
  else []

def Instance.forget (inst : Instance) (n : Nat) : Instance :=
  { inst with
    wds := remove inst.wds n
    watchers := (inst.users n).foldl
      (fun ws user => adjust ws user.watcher fun w => { w with wds := w.wds.filter (· ≠ n) }) inst.watchers }

/-- A new directory is watched too, with what is in it already. -/
def Instance.grow (inst : Instance) (user : User) : Walk → Instance
  | .entry _ (.ok n) below _ =>
    if (get inst.watchers user.watcher).isSome then
      (inst.link user.watcher user.under n).attachTree user.watcher user.under below
    else inst
  | _ => inst

/-- The loop over `grow`, each with what the system answers. -/
def Instance.growAll (inst : Instance) : List (User × Walk) → Instance
  | [] => inst
  | (user, walk) :: rest => (inst.grow user walk).growAll rest

def Instance.dispatch (inst : Instance) (e : Event) (found : List Walk) : Instance × List Send :=
  if e.has inQOverflow then (inst, inst.watchers.map fun w => (w.2.tx, .event .rename none none))
  else
    match get inst.wds e.wd with
    | none => (inst, [])
    | some users =>
      ((if e.has inIgnored then inst.forget e.wd else inst).growAll ((inst.growth e).zip found),
        users.filterMap (inst.noteFor e))

/-! ## Runs -/

/-- What can happen between the callers, the reader and the kernel. -/
inductive Act where
  | watch (c : Start)
  /-- The `i`-th of the held handles is dropped. -/
  | drop (i : Nat)
  /-- The kernel queues an event of a descriptor it has, or its overflow. -/
  | emit (e : Event)
  /-- A watched inode is gone; `lost` when the queue has no room to say so. -/
  | inodeGone (n : Nat) (lost : Bool)
  /-- The reader takes the next event; `found` is what it meets in new directories. -/
  | read (found : List Walk)
  /-- The reader is through the events it got. -/
  | batchDone
  | readFails (error : IoError)
deriving DecidableEq, Repr

/-- `Drop for Handle`. -/
def dropHandle (s : State) (i : Nat) : State :=
  match s.handles[i]? with
  | none => s
  | some h => { s with slot := s.slot.map fun inst => inst.detach h.id, handles := s.handles.eraseIdx i }

def emit (inst : Instance) (e : Event) : Instance :=
  if (e.wd ∈ inst.active ∧ e.has inIgnored = false) ∨ e.mask = inQOverflow then { inst with queue := inst.queue ++ [e] }
  else inst

def inodeGone (inst : Instance) (n : Nat) (lost : Bool) : Instance :=
  if lost then { inst with active := inst.active.filter (· ≠ n) } else inst.kernelRemove n

def readEvent (s : State) (found : List Walk) : State × List Send :=
  match s.slot with
  | none => (s, [])
  | some inst =>
    match inst.queue with
    | [] => (s, [])
    | e :: queue =>
      ({ s with slot := some (Instance.dispatch { inst with queue := queue } e found).1 },
        (Instance.dispatch { inst with queue := queue } e found).2)

def batchDone (s : State) : State :=
  { s with slot := s.slot.filter fun inst => !inst.wds.isEmpty }

def readFails (s : State) (error : IoError) : State × List Send :=
  ({ s with slot := none }, (s.slot.map fun inst => inst.watchers.map fun w => (w.2.tx, .failed error)).getD [])

def step (s : State) : Act → State × List Send
  | .watch c => ((watch s c).1, [])
  | .drop i => (dropHandle s i, [])
  | .emit e => ({ s with slot := s.slot.map fun inst => emit inst e }, [])
  | .inodeGone n lost => ({ s with slot := s.slot.map fun inst => inodeGone inst n lost }, [])
  | .read found => readEvent s found
  | .batchDone => (batchDone s, [])
  | .readFails error => readFails s error

def start : State := { slot := none, opened := 0, handles := [] }

end Oam.FsWatch
