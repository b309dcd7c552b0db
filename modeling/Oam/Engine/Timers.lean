/-
  The timer queue (`oam_engine/src/timers.rs`).  A clear leaves the queue entry behind: whether an entry is live is
  decided by its ID ALONE.  A binary heap is the list in the order of its pops; instants and durations are numbers.
-/
import Oam.Lib.Assoc
import Oam.Lib.Trace
import Mathlib.Data.List.Sort
import Mathlib.Algebra.Group.Nat.Defs

namespace Oam.Engine.Timers

/-! ## Data -/

/-- A timer: its callback with its arguments, the period of an interval, and whether it keeps the loop alive. -/
structure TimerEntry (C : Type) where
  callback : C
  interval : Option Nat
  isRef : Bool

/-- A queue entry: of a timer, or of an immediate with the instant it was queued at. -/
structure Slot where
  deadline : Nat
  seq : Nat
  id : Nat
deriving DecidableEq

namespace Slot

def le (a b : Slot) : Prop :=
  a.deadline < b.deadline ∨ a.deadline = b.deadline ∧ (a.seq < b.seq ∨ a.seq = b.seq ∧ a.id ≤ b.id)

instance : DecidableRel le := fun a b => by
  unfold le
  infer_instance

instance : Std.Total le := ⟨fun a b => by
  unfold le
  omega⟩

instance : IsTrans Slot le := ⟨fun a b c => by
  unfold le
  omega⟩

end Slot

inductive PendingGate where
  | openNow
  | timers (limit : Nat)
  | immediates (limit : Nat)
deriving DecidableEq

structure PendingEntry (C : Type) where
  callback : C
  gate : PendingGate

inductive Running where
  | timer (now deadline : Nat)
  | immediate (now : Nat)
deriving DecidableEq

/-- What `peekDue` finds due. -/
inductive Due where
  | pending
  | timer (deadline : Nat)
  | immediate (queued : Nat)
deriving DecidableEq

structure TimerQueue (C : Type) where
  nextId : Nat
  seq : Nat
  epoch : Nat
  heap : List Slot
  immediates : List Slot
  active : List (Nat × TimerEntry C)
  refCount : Nat
  pending : List (PendingEntry C)
  running : Option Running

/-! ## Program -/

section
variable {C : Type}

namespace TimerQueue

/-- `Default`, at the instant `epoch`. -/
def new (epoch : Nat) : TimerQueue C where
  nextId := 1
  seq := 0
  epoch := epoch
  heap := []
  immediates := []
  active := []
  refCount := 0
  pending := []
  running := none

def get (q : TimerQueue C) (id : Nat) : Option (TimerEntry C) := Assoc.get q.active id

def containsKey (q : TimerQueue C) (id : Nat) : Bool := Assoc.contains q.active id

/-- `id.wrapping_add(1).max(1)`, on a `u32`. -/
def bump (id : Nat) : Nat := max ((id + 1) % 2 ^ 32) 1

/-- The first id from `id` on that is not in use.  A search that goes all the way round never ends. -/
def freeId (q : TimerQueue C) : (fuel : Nat) → (id : Nat) → Option Nat
  | 0, _ => none
  | fuel + 1, id => if q.containsKey id then q.freeId fuel (bump id) else some id

def nextSeq (q : TimerQueue C) : Nat := (q.seq + 1) % 2 ^ 64

/-- The id for an entry, its sequence number and the queue with it; `none` where the search never ends. -/
def insert (q : TimerQueue C) (entry : TimerEntry C) : Option (Nat × Nat × TimerQueue C) :=
  (q.freeId (2 ^ 32) q.nextId).map fun id =>
    (id, q.nextSeq, { q with
        nextId := bump id
        seq := q.nextSeq
        refCount := if entry.isRef then q.refCount + 1 else q.refCount
        active := (id, entry) :: q.active })

def push (q : TimerQueue C) (x : Slot) : TimerQueue C := { q with heap := q.heap.orderedInsert Slot.le x }

def schedule (q : TimerQueue C) (entry : TimerEntry C) (delay now : Nat) : Option (Slot × TimerQueue C) :=
  (q.insert entry).map fun (id, seq, q) => (⟨now + delay, seq, id⟩, q.push ⟨now + delay, seq, id⟩)

def scheduleImmediate (q : TimerQueue C) (entry : TimerEntry C) (now : Nat) : Option (Slot × TimerQueue C) :=
  (q.insert entry).map fun (id, seq, q) =>
    (⟨now, seq, id⟩, { q with immediates := q.immediates ++ [⟨now, seq, id⟩] })

def retain (q : TimerQueue C) (slots : List Slot) : List Slot := slots.filter fun x => q.containsKey x.id

/-- The queue entry stays behind; where dead entries dominate they are swept. -/
def cancel (q : TimerQueue C) (id : Nat) : TimerQueue C :=
  match q.get id with
  | none => q
  | some entry =>
    let q :=
      { q with
        active := Assoc.remove q.active id
        refCount := if entry.isRef then q.refCount - 1 else q.refCount }
    let queued := q.heap.length + q.immediates.length
    if 64 < queued ∧ q.active.length * 2 < queued then
      { q with heap := q.retain q.heap, immediates := q.retain q.immediates }
    else q

def front (q : TimerQueue C) (slots : List Slot) : List Slot := slots.dropWhile fun x => !q.containsKey x.id

/-- `front_timer` and `front_immediate` discard the dead entries that they meet. -/
def sweepTimers (q : TimerQueue C) : TimerQueue C := { q with heap := q.front q.heap }

def sweepImmediates (q : TimerQueue C) : TimerQueue C := { q with immediates := q.front q.immediates }

/-- (deadline, seq) pairs compare as tuples. -/
def sooner (a b : Slot) : Bool := a.deadline < b.deadline || (a.deadline = b.deadline && a.seq < b.seq)

def nextDeadline (q : TimerQueue C) : Option Nat × TimerQueue C :=
  if !q.pending.isEmpty then (some q.epoch, q)
  else
    let q := q.sweepTimers.sweepImmediates
    match q.heap.head?, q.immediates.head? with
    | some timer, some immediate => (some (if sooner immediate timer then immediate.deadline else timer.deadline), q)
    | some timer, none => (some timer.deadline, q)
    | none, some immediate => (some immediate.deadline, q)
    | none, none => (none, q)

/-- What `pop_due` found to run: a pending callback, or that of a queue entry. -/
inductive Popped (C : Type) where
  | pending (callback : C)
  | slot (x : Slot) (callback : C)

/-- The timer at the top of the heap. A cleared one is dropped, an interval pushed again. -/
def popTimer (q : TimerQueue C) (now : Nat) : Option (Popped C) × TimerQueue C :=
  match q.heap with
  | [] => (none, q)
  | x :: rest =>
    match q.get x.id with
    | none => (none, { q with heap := rest })
    | some entry =>
      let q := { q with heap := rest, running := some (.timer now x.deadline) }
      match entry.interval with
      | some period => (some (.slot x entry.callback), { q.push ⟨now + period, q.nextSeq, x.id⟩ with seq := q.nextSeq })
      | none =>
        (some (.slot x entry.callback), { q with
            active := Assoc.remove q.active x.id
            refCount := if entry.isRef then q.refCount - 1 else q.refCount })

def popImmediate (q : TimerQueue C) (now : Nat) : Option (Popped C) × TimerQueue C :=
  match q.immediates with
  | [] => (none, q)
  | x :: rest =>
    match q.get x.id with
    | none => (none, { q with immediates := rest })
    | some entry =>
      (some (.slot x entry.callback), { q with
          immediates := rest, running := some (.immediate now)
          active := Assoc.remove q.active x.id
          refCount := if entry.isRef then q.refCount - 1 else q.refCount })

def popPending (q : TimerQueue C) : Option (Popped C) × TimerQueue C :=
  match q.pending with
  | [] => (none, q)
  | p :: rest => (some (.pending p.callback), { q with pending := rest })

def setGate (q : TimerQueue C) (gate : PendingGate) : TimerQueue C :=
  match q.pending with
  | [] => q
  | p :: rest => { q with pending := { p with gate } :: rest }

/-- The gate of the timers phase: the timers due by then, and then the pending callback. -/
def popAfterTimers (q : TimerQueue C) (limit now : Nat) : Option (Popped C) × TimerQueue C :=
  let q := q.sweepTimers
  if q.heap.head?.any fun x => x.deadline ≤ min limit now then q.popTimer now else (q.setGate .openNow).popPending

def popAfterImmediates (q : TimerQueue C) (limit now : Nat) : Option (Popped C) × TimerQueue C :=
  let q := q.sweepImmediates
  if q.immediates.head?.any fun x => x.deadline ≤ limit then q.popImmediate now
  else (q.setGate (.timers now)).popAfterTimers now now

/-- The due timer or immediate with the earliest (deadline, seq). -/
def popEarliest (q : TimerQueue C) (now : Nat) : Option (Popped C) × TimerQueue C :=
  let q := q.sweepTimers.sweepImmediates
  match q.heap.head?.filter (fun x => x.deadline ≤ now), q.immediates.head?.filter (fun x => x.deadline ≤ now) with
  | some timer, some immediate => if sooner immediate timer then q.popImmediate now else q.popTimer now
  | some _, none => q.popTimer now
  | none, some _ => q.popImmediate now
  | none, none => (none, q)

def popDue (q : TimerQueue C) (now : Nat) : Option (Popped C) × TimerQueue C :=
  let q := { q with running := none }
  match q.pending with
  | [] => q.popEarliest now
  | p :: _ =>
    match p.gate with
    | .openNow => q.popPending
    | .timers limit => q.popAfterTimers limit now
    | .immediates limit => q.popAfterImmediates limit now

/-- A waiting pending callback reads as `pending`, whatever its gate would pick. -/
def peekDue (q : TimerQueue C) (now : Nat) : Option Due × TimerQueue C :=
  if !q.pending.isEmpty then (some .pending, q)
  else
    let q := q.sweepTimers.sweepImmediates
    match q.heap.head?.filter (fun x => x.deadline ≤ now), q.immediates.head?.filter (fun x => x.deadline ≤ now) with
    | some timer, some immediate =>
      (some (if sooner immediate timer then .immediate immediate.deadline else .timer timer.deadline), q)
    | some timer, none => (some (.timer timer.deadline), q)
    | none, some immediate => (some (.immediate immediate.deadline), q)
    | none, none => (none, q)

def setRef (q : TimerQueue C) (id : Nat) (value : Bool) : TimerQueue C :=
  match q.get id with
  | none => q
  | some entry =>
    if entry.isRef = value then q
    else
      { q with
        active := Assoc.adjust q.active id fun entry => { entry with isRef := value }
        refCount := if value then q.refCount + 1 else q.refCount - 1 }

/-- A pending callback waits for what is left of the phase it was queued in. -/
def timerPending (q : TimerQueue C) (callback : C) : TimerQueue C :=
  let gate :=
    match q.running with
    | none => .openNow
    | some (.timer now deadline) => .timers (max now (deadline + 999999))
    | some (.immediate now) => .immediates now
  { q with pending := q.pending ++ [{ callback, gate }] }

def hasRefTimers (q : TimerQueue C) : Bool := 0 < q.refCount || !q.pending.isEmpty

end TimerQueue

end

/-! ## Runs -/

inductive Event (C : Type) where
  | scheduled (id deadline : Nat) (entry : TimerEntry C)
  | cleared (id : Nat)
  | popped (id : Nat) (callback : C) (now : Nat)
  | ranPending (callback : C)

structure State (C : Type) where
  queue : TimerQueue C
  clock : Nat

inductive Input (C : Type) where
  | setTimeout (callback : C) (delay now : Nat)
  | setInterval (callback : C) (delay now : Nat)
  | setImmediate (callback : C) (now : Nat)
  | clear (id : Nat)
  | setRef (id : Nat) (value : Bool)
  | pending (callback : C)
  | popDue (now : Nat)
  | nextDeadline
  | peekDue (now : Nat)
  | callbackDone

section
variable {C : Type}

def start (epoch : Nat) : State C := { queue := .new epoch, clock := epoch }

def set (s : State C) (entry : TimerEntry C) (now : Nat) (booked : Option (Slot × TimerQueue C)) :
    State C × List (Event C) :=
  match booked with
  | none => (s, [])
  | some (x, queue) => ({ queue, clock := now }, [.scheduled x.id x.deadline entry])

def poppedEvents (now : Nat) : Option (TimerQueue.Popped C) → List (Event C)
  | none => []
  | some (.pending callback) => [.ranPending callback]
  | some (.slot x callback) => [.popped x.id callback now]

def timeoutEntry (callback : C) : TimerEntry C := { callback, interval := none, isRef := true }

def intervalEntry (callback : C) (delay : Nat) : TimerEntry C := { callback, interval := some delay, isRef := true }

/-- One call on the queue, and what is seen of it. -/
def step (s : State C) : Input C → State C × List (Event C)
  | .setTimeout callback delay now =>
    set s (timeoutEntry callback) now (s.queue.schedule (timeoutEntry callback) delay now)
  | .setInterval callback delay now =>
    set s (intervalEntry callback delay) now (s.queue.schedule (intervalEntry callback delay) delay now)
  | .setImmediate callback now =>
    set s (timeoutEntry callback) now (s.queue.scheduleImmediate (timeoutEntry callback) now)
  | .clear id => ({ s with queue := s.queue.cancel id }, [.cleared id])
  | .setRef id value => ({ s with queue := s.queue.setRef id value }, [])
  | .pending callback => ({ s with queue := s.queue.timerPending callback }, [])
  | .popDue now => ({ queue := (s.queue.popDue now).2, clock := now }, poppedEvents now (s.queue.popDue now).1)
  | .nextDeadline => ({ s with queue := s.queue.nextDeadline.2 }, [])
  | .peekDue now => ({ s with queue := (s.queue.peekDue now).2 }, [])
  | .callbackDone => ({ s with queue := { s.queue with running := none } }, [])

/-- The clock does not go back. -/
def timely (s : State C) : Input C → Bool
  | .setTimeout _ _ now | .setInterval _ _ now | .setImmediate _ now | .popDue now => s.clock ≤ now
  | _ => true

/-! ## Specification -/

/-- A live timer: when it is due, and its place in the order of insertion. -/
structure Booking (C : Type) where
  due : Nat
  order : Nat
  callback : C
  interval : Option Nat

structure Table (C : Type) where
  count : Nat
  book : Nat → Option (Booking C)

def Table.empty : Table C := { count := 0, book := fun _ => none }

def Table.put (t : Table C) (id : Nat) (b : Option (Booking C)) : Nat → Option (Booking C) :=
  fun k => if k = id then b else t.book k

/-- A one-shot that ran is gone, an interval is due again its period later. -/
def Table.note (t : Table C) : Event C → Table C
  | .scheduled id deadline entry =>
    { count := t.count + 1, book := t.put id (some ⟨deadline, t.count + 1, entry.callback, entry.interval⟩) }
  | .cleared id => { t with book := t.put id none }
  | .popped id _ now =>
    match t.book id with
    | some { callback, interval := some period, .. } =>
      { count := t.count + 1, book := t.put id (some ⟨now + period, t.count + 1, callback, some period⟩) }
    | _ => { t with book := t.put id none }
  | .ranPending _ => t

def tableOf (log : List (Event C)) : Table C := log.foldl Table.note .empty

def Undisturbed (id : Nat) (log : List (Event C)) : Prop :=
  (∀ deadline entry, .scheduled id deadline entry ∉ log) ∧ .cleared id ∉ log

/-- **What makes a pop right**: the id's last scheduling was for this callback, is not cleared and is due. -/
def Justified (before : List (Event C)) : Event C → Prop
  | .popped id callback now =>
    ∃ older deadline entry since, before = older ++ .scheduled id deadline entry :: since ∧ Undisturbed id since ∧
      entry.callback = callback ∧ deadline ≤ now ∧
      match entry.interval with
      | none => ∀ c t, .popped id c t ∉ since
      | some period => ∀ c t, .popped id c t ∈ since → t + period ≤ now
  | _ => True

end

end Oam.Engine.Timers
