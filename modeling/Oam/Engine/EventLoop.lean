/-
  The event loop (`pump_event_loop` in `oam_engine/src/modules.rs`, with the op counts of `CoreRuntime`).

  A run is cut where its fuel ends, with the log so far.  There is no replay, no inspector and no rejected entry.  A
  throw reaches the ledger from a V8 task alone: everything else that V8 calls is called under a `TryCatch`, and the
  microtasks are `queueMicrotask`'s own wrappers, which run the uncaught ladder themselves.
-/
import Oam.Engine.Timers
import Oam.Lib.Act

namespace Oam.Engine.EventLoop

open Assoc Timers

/-! ## Ops -/

structure HandleRef where
  referenced : Bool
  ops : List Nat
deriving DecidableEq

/-- The ops of a `CoreRuntime`; `running` are those whose completion has not come out of the channel. -/
structure CoreRuntime where
  nextId : Nat
  running : List Nat
  inflight : Nat
  unrefOps : List Nat
  handles : List (Nat × HandleRef)
  opHandles : List (Nat × Nat)
deriving DecidableEq

namespace CoreRuntime

def new : CoreRuntime where
  nextId := 1
  running := []
  inflight := 0
  unrefOps := []
  handles := []
  opHandles := []

def spawnOp (c : CoreRuntime) : CoreRuntime :=
  { c with nextId := c.nextId + 1, running := c.running ++ [c.nextId], inflight := c.inflight + 1 }

def spawnOpUnref (c : CoreRuntime) : CoreRuntime :=
  { c.spawnOp with inflight := c.spawnOp.inflight - 1, unrefOps := c.nextId :: c.spawnOp.unrefOps }

def handle (c : CoreRuntime) (key : Nat) : HandleRef := (get c.handles key).getD { referenced := true, ops := [] }

def spawnHandleOp (c : CoreRuntime) (key : Nat) : CoreRuntime :=
  let h := c.handle key
  let spawned := if h.referenced then c.spawnOp else c.spawnOpUnref
  { spawned with
    handles := put c.handles key { h with ops := c.nextId :: h.ops }
    opHandles := put c.opHandles c.nextId key }

/-- A key whose entry says nothing is dropped. -/
def pruneHandle (c : CoreRuntime) (key : Nat) : CoreRuntime :=
  if (get c.handles key).any fun h => h.referenced && h.ops.isEmpty then
    { c with handles := remove c.handles key }
  else c

def countOp (referenced : Bool) (c : CoreRuntime) (id : Nat) : CoreRuntime :=
  if referenced then
    if c.unrefOps.contains id then { c with unrefOps := c.unrefOps.erase id, inflight := c.inflight + 1 } else c
  else if c.unrefOps.contains id then c
  else { c with unrefOps := id :: c.unrefOps, inflight := c.inflight - 1 }

def setHandleRef (c : CoreRuntime) (key : Nat) (referenced : Bool) : CoreRuntime :=
  let h := c.handle key
  let c := { c with handles := put c.handles key { h with referenced := referenced } }
  (h.ops.foldl (countOp referenced) c).pruneHandle key

def forgetHandle (c : CoreRuntime) (key : Nat) : CoreRuntime :=
  { c with
    handles := remove c.handles key
    opHandles := (c.handle key).ops.foldl remove c.opHandles }

def hasInflight (c : CoreRuntime) : Bool := 0 < c.inflight

def leaveHandle (c : CoreRuntime) (id : Nat) : CoreRuntime :=
  match get c.opHandles id with
  | none => c
  | some key =>
    let handles := adjust c.handles key fun h => { h with ops := h.ops.erase id }
    { c with opHandles := remove c.opHandles id, handles }.pruneHandle key

def noteSettled (c : CoreRuntime) (id : Nat) : CoreRuntime :=
  let c := { c.leaveHandle id with running := c.running.erase id }
  if c.unrefOps.contains id then { c with unrefOps := c.unrefOps.erase id } else { c with inflight := c.inflight - 1 }

end CoreRuntime

/-! ## The world -/

/-- What is queued that would keep the loop from its end. -/
structure Standing where
  refTimers : Bool
  inflight : Bool
  ticks : Bool
deriving DecidableEq

def Standing.drained : Standing := { refTimers := false, inflight := false, ticks := false }

inductive Event where
  | timer
  | immediate
  | pending
  | task
  | completion
  -- V8's answer when it was asked for background work
  | background (pending : Bool)
  | beforeExit (standing : Standing) (threw : Bool)
deriving DecidableEq

/-- What a callback can ask of the runtime. -/
inductive Action (C : Type) where
  | setTimeout (callback : C) (delay now : Nat)
  | setInterval (callback : C) (delay now : Nat)
  | setImmediate (callback : C) (now : Nat)
  | clear (id : Nat)
  | setRef (id : Nat) (value : Bool)
  | timerPending (callback : C)
  | nextTick
  | spawnOp
  | spawnOpUnref
  | spawnHandleOp (key : Nat)
  | setHandleRef (key : Nat) (referenced : Bool)
  | forgetHandle (key : Nat)
  -- `process.exit`, where the program survives it
  | exit

/-- A stretch of JavaScript: what it does, and whether it ends without a throw. -/
structure Js (C : Type) where
  actions : List (Action C)
  returned : Bool

/-- What comes out of the op channel. -/
inductive Arrival where
  | signal
  | wake
  | op (id : Nat) (callback : Bool)
deriving DecidableEq

/-- What the loop meets, by the number of the question. -/
structure Env (C : Type) where
  /-- `SuppressBeforeExit`. -/
  suppress : Bool
  js : Nat → Js C
  now : Nat → Nat
  /-- The promises that were rejected and left so. -/
  rejections : Nat → Nat
  /-- The V8 tasks that are ready, and the throws V8 reports from one. -/
  tasks : Nat → Nat
  raised : Nat → Nat
  arrival : Nat → Option Arrival
  background : Nat → Bool

structure World (C : Type) where
  timers : TimerQueue C
  core : CoreRuntime
  ticks : Nat
  ledger : Nat
  exiting : Bool
  asked : Nat
  log : List Event

/-- How a run stops without a result: an error that fails it, or the end of its fuel. -/
inductive Stop where
  | failed
  | starved
deriving DecidableEq

abbrev Program (C : Type) := Act (World C) Stop

section
variable {C : Type}

namespace World

def new (epoch : Nat) : World C where
  timers := .new epoch
  core := .new
  ticks := 0
  ledger := 0
  exiting := false
  asked := 0
  log := []

def standing (w : World C) : Standing where
  refTimers := w.timers.hasRefTimers
  inflight := w.core.hasInflight
  ticks := 0 < w.ticks

/-- The queue with the timer, if its id was found. -/
def booked (w : World C) (b : Option (Slot × TimerQueue C)) : World C :=
  match b with
  | none => w
  | some (_, queue) => { w with timers := queue }

/-- One action of a callback, on the world. -/
def perform (w : World C) : Action C → World C
  | .setTimeout callback delay now => w.booked (w.timers.schedule (timeoutEntry callback) delay now)
  | .setInterval callback delay now => w.booked (w.timers.schedule (intervalEntry callback delay) delay now)
  | .setImmediate callback now => w.booked (w.timers.scheduleImmediate (timeoutEntry callback) now)
  | .clear id => { w with timers := w.timers.cancel id }
  | .setRef id value => { w with timers := w.timers.setRef id value }
  | .timerPending callback => { w with timers := w.timers.timerPending callback }
  | .nextTick => if w.exiting then w else { w with ticks := w.ticks + 1 }
  | .spawnOp => { w with core := w.core.spawnOp }
  | .spawnOpUnref => { w with core := w.core.spawnOpUnref }
  | .spawnHandleOp key => { w with core := w.core.spawnHandleOp key }
  | .setHandleRef key referenced => { w with core := w.core.setHandleRef key referenced }
  | .forgetHandle key => { w with core := w.core.forgetHandle key }
  | .exit => { w with exiting := true }

def entered (epoch : Nat) (entry : List (Action C)) : World C := entry.foldl perform (new epoch)

end World

/-! ## Questions and callbacks -/

variable (env : Env C)

def look {α : Type} (f : World C → α) : Program C α := .update fun w => (f w, w)

def change (f : World C → World C) : Program C Unit := .update fun w => ((), f w)

def note (e : Event) : Program C Unit := change fun w => { w with log := w.log ++ [e] }

def ask {α : Type} (f : Nat → α) : Program C α := .update fun w => (f w.asked, { w with asked := w.asked + 1 })

def runJs : Program C Bool := .update fun w =>
  ((env.js w.asked).returned, { (env.js w.asked).actions.foldl World.perform w with asked := w.asked + 1 })

/-- `dispatch_uncaught`: the listeners run, and a throw that none of them takes fails the run. -/
def handleUncaughtThrow : Program C Unit := do
  let taken ← runJs env
  if taken then pure () else .fail .failed

/-- A callback is called, and a throw offered to the listeners. -/
def call : Program C Bool := do
  let returned ← runJs env
  if returned then pure true
  else do
    handleUncaughtThrow env
    pure false

def hasPendingTicks : Program C Bool := look fun w => 0 < w.ticks

/-! ## Drains

  Each loop takes its own fuel; `fuel` is that of the loops inside it. -/

variable (fuel : Nat)

def takeTick : Program C Bool := .update fun w => (decide (0 < w.ticks), { w with ticks := w.ticks - 1 })

/-- `__oamDrainTicks`: whether it came to the end of the queue.  A tick that throws leaves the rest queued. -/
def drainTicks : Nat → Program C Bool
  | 0 => .fail .starved
  | n + 1 => do
    let more ← takeTick
    if more then do
      let returned ← runJs env
      if returned then drainTicks n else pure false
    else pure true

/-- The microtasks run.  A throw that no listener took ends them, and the run with them. -/
def hostCheckpoint : Program C Unit := do
  let returned ← runJs env
  if returned then pure () else .fail .failed

/-- Ticks and microtasks until neither is left; a throw ends the batch. -/
def runTicksAndMicrotasks : Nat → Program C Unit
  | 0 => .fail .starved
  | n + 1 => do
    let drained ← drainTicks env fuel
    if drained then do
      hostCheckpoint env
      let more ← hasPendingTicks
      if more then runTicksAndMicrotasks n else pure ()
    else do
      handleUncaughtThrow env
      -- the rest of an interrupted batch waits for the next tick point
      let more ← hasPendingTicks
      if more then pure () else hostCheckpoint env

def takeLedger : Program C Nat := .update fun w => (w.ledger, { w with ledger := 0 })

def deliver : (entries : Nat) → Program C Unit
  | 0 => pure ()
  | entries + 1 => do
    handleUncaughtThrow env
    deliver entries

def drainUncaught : Nat → Program C Unit
  | 0 => .fail .starved
  | n + 1 => do
    let entries ← takeLedger
    if entries = 0 then pure ()
    else do
      deliver env entries
      runTicksAndMicrotasks env fuel fuel
      drainUncaught n

/-- `run_ticks_and_microtasks` and `drain_uncaught`, one after the other. -/
def drain : Program C Unit := do
  runTicksAndMicrotasks env fuel fuel
  drainUncaught env fuel fuel

def drainDeferredTicks : Nat → Program C Unit
  | 0 => .fail .starved
  | n + 1 => do
    let more ← hasPendingTicks
    if more then do
      drain env fuel
      drainDeferredTicks n
    else pure ()

/-- Each rejection goes to the listeners; whether all of them were taken. -/
def emitRejections : (unhandled : Nat) → Program C Bool
  | 0 => pure true
  | unhandled + 1 => do
    let taken ← runJs env
    let rest ← emitRejections unhandled
    pure (taken && rest)

def unhandledRejectionFailures : Program C Unit := do
  let unhandled ← ask env.rejections
  if unhandled = 0 then pure ()
  else do
    let taken ← emitRejections env unhandled
    runTicksAndMicrotasks env fuel fuel
    if taken then pure () else .fail .failed

/-! ## Tasks and completions -/

def runTask : Program C Unit := do
  note .task
  let _ ← runJs env
  let raised ← ask env.raised
  change fun w => { w with ledger := w.ledger + raised }
  drain env fuel

def runTasks : (ready : Nat) → Program C Unit
  | 0 => pure ()
  | ready + 1 => do
    runTask env fuel
    runTasks ready

/-- Whether any ran. -/
def runPlatformTasks : Program C Bool := do
  let ready ← ask env.tasks
  runTasks env fuel ready
  pure (decide (0 < ready))

/-- `try_recv` and `recv_deadline`: what arrives by the deadline, if anything does. -/
def recv : Program C (Option Arrival) := .update fun w =>
  let w' := { w with asked := w.asked + 1 }
  match env.arrival w.asked with
  | some (.op id callback) =>
    if w.core.running.contains id then (some (.op id callback), { w' with core := w.core.noteSettled id })
    else (none, w')
  | arrival => (arrival, w')

/-- Whether `Settled::Ran`, and not a throw that was handled. -/
def settleCompletion : Arrival → Program C Bool
  | .wake => pure true
  | .signal => do
    let _ ← runJs env
    pure true
  | .op _ false => pure true
  | .op _ true => call env

/-- `settle_completion` and the drains after it. -/
def settle (arrival : Arrival) : Program C Unit := do
  note .completion
  let ran ← settleCompletion env arrival
  if ran then drain env fuel else drainUncaught env fuel fuel

/-! ## A turn of the loop -/

inductive LastRan where
  | entry
  | timer (began : Nat)
  | immediate (began : Nat)
  | other
deriving DecidableEq

/-- Another turn, with `before_exit_emitted` and `last_ran`, or the end. -/
inductive Flow where
  | again (emitted : Bool) (last : LastRan)
  | done

def checkPhaseFirst (last : LastRan) : Option Due → Bool
  | some (.immediate queued) =>
    match last with
    | .immediate began => began < queued
    | _ => true
  | some (.timer deadline) =>
    match last with
    | .other => true
    | .timer began => began < deadline
    | .entry | .immediate _ => false
  | _ => false

def peekDue (now : Nat) : Program C (Option Due) := .update fun w =>
  ((w.timers.peekDue now).1, { w with timers := (w.timers.peekDue now).2 })

def drainBefore (now : Nat) (last : LastRan) : Program C Unit := do
  let ticks ← hasPendingTicks
  if ticks then do
    let next ← peekDue now
    if checkPhaseFirst last next then drainDeferredTicks env fuel fuel else pure ()
  else pure ()

/-- What was popped: an event for the log, and `last_ran` from now on. -/
def popped (now : Nat) (last : LastRan) : Option Running → Event × LastRan
  | some (.timer _ deadline) =>
    match last with
    | .timer began => (.timer, .timer (if deadline ≤ began then began else now))
    | _ => (.timer, .timer now)
  | some (.immediate began) => (.immediate, .immediate began)
  | none => (.pending, .other)

def popDue (now : Nat) : Program C Bool := .update fun w =>
  ((w.timers.popDue now).1.isSome, { w with timers := (w.timers.popDue now).2 })

/-- The ticks of a callback that threw wait for the next one. -/
def afterCallback (returned : Bool) : Program C Unit := if returned then drain env fuel else pure ()

def runCallback (e : Event) : Program C Unit := do
  note e
  let returned ← call env
  afterCallback env fuel returned
  change fun w => { w with timers := { w.timers with running := none } }

/-- The callback that is due, unless nothing but unref'd timers is left. -/
def runDue (now : Nat) (last : LastRan) : Program C (Option LastRan) := do
  let standing ← look World.standing
  if standing = .drained then pure none
  else do
    drainBefore env fuel now last
    let due ← popDue now
    if due then do
      let running ← look fun w => w.timers.running
      runCallback env fuel (popped now last running).1
      pure (some (popped now last running).2)
    else pure none

def samePhase (now : Nat) : LastRan → Program C Bool
  | .timer began => do
    let next ← peekDue now
    match next with
    | some (.timer deadline) => pure (decide (deadline ≤ began))
    | _ => pure false
  | _ => pure false

def callHook : Program C (Bool × Bool) := do
  let exiting ← look fun w => w.exiting
  if exiting then pure (false, false)
  else do
    let standing ← look World.standing
    let returned ← runJs env
    note (.beforeExit standing (!returned))
    if returned then pure (true, false)
    else do
      handleUncaughtThrow env
      pure (true, true)

def emitBeforeExit : Program C (Bool × Bool) :=
  if env.suppress then pure (false, false)
  else do
    let result ← callHook env
    drain env fuel
    pure result

/-- Nothing keeps the loop alive. -/
def finish (emitted : Bool) (last : LastRan) : Program C Flow := do
  drainUncaught env fuel fuel
  if emitted then pure .done
  else do
    let result ← emitBeforeExit env fuel
    match result with
    | (true, threw) => pure (.again (!threw) last)
    | (false, _) => pure .done

/-- An arrival counts as progress, except where the loop waits for V8's background work (`rearm`). -/
def settleArrival (rearm emitted : Bool) (last : LastRan) : Option Arrival → Program C Flow
  | none => pure (.again emitted last)
  | some arrival => do
    settle env fuel arrival
    pure (.again (emitted && !rearm) last)

/-- No op is in flight: the wait is for the deadline, or for a signal. -/
def waitUntil (deadline : Nat) (emitted : Bool) (last : LastRan) : Nat → Program C Flow
  | 0 => .fail .starved
  | n + 1 => do
    let now ← ask env.now
    if deadline ≤ now then pure (.again emitted last)
    else do
      let arrival ← recv env
      match arrival with
      | none => waitUntil deadline emitted last n
      | some arrival => settleArrival env fuel true emitted last (some arrival)

def wait (deadline : Option Nat) (inflight emitted : Bool) (last : LastRan) : Program C Flow :=
  if inflight then do
    let arrival ← recv env
    settleArrival env fuel true emitted last arrival
  else
    match deadline with
    | none => pure .done
    | some deadline => waitUntil env fuel deadline emitted last fuel

/-- Nothing is due, and ticks do not wait for the check phase. -/
def decideEnd (emitted : Bool) (last : LastRan) : Program C Flow := do
  let deadline ← Act.update fun w => (w.timers.nextDeadline.1, { w with timers := w.timers.nextDeadline.2 })
  let standing ← look World.standing
  if standing.refTimers || standing.inflight then wait env fuel deadline standing.inflight emitted last
  else if standing.ticks then do
    drain env fuel
    pure (.again emitted last)
  else do
    let background ← ask env.background
    note (.background background)
    if background then do
      let arrival ← recv env
      settleArrival env fuel false emitted last arrival
    else finish env fuel emitted last

def idle (emitted : Bool) (last : LastRan) : Program C Flow := do
  let ticks ← hasPendingTicks
  if ticks && last ≠ .entry then do
    drainDeferredTicks env fuel fuel
    pure (.again emitted last)
  else decideEnd env fuel emitted last

def poll (progressed emitted : Bool) (last : LastRan) : Program C Flow := do
  let ran ← runPlatformTasks env fuel
  let arrival ← recv env
  match arrival with
  | some arrival => do
    settle env fuel arrival
    pure (.again false .other)
  | none =>
    if progressed || ran then pure (.again false (if ran then .other else last)) else idle env fuel emitted last

def turn (emitted : Bool) (last : LastRan) : Program C Flow := do
  unhandledRejectionFailures env fuel
  let now ← ask env.now
  let ran ← runDue env fuel now last
  match ran with
  | none => poll env fuel false emitted last
  | some last => do
    let same ← samePhase now last
    if same then pure (.again false last) else poll env fuel true emitted last

def turns (emitted : Bool) (last : LastRan) : Nat → Program C Unit
  | 0 => .fail .starved
  | n + 1 => do
    let flow ← turn env fuel emitted last
    match flow with
    | .again emitted last => turns emitted last n
    | .done => pure ()

def pumpEventLoop : Program C Unit := turns env fuel false .entry fuel

end

end Oam.Engine.EventLoop
