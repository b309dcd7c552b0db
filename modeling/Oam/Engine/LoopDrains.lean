/-
  The end of the event loop.

  Whatever JavaScript does, a drain leaves the log alone and the ledger of throws empty (`Steady`); so the log grows in
  few places, and there the flag `before_exit_emitted` says what the log says (`Kept`).  The loop does not note a
  completion as progress while it waits for V8's background work.  It ends right even so, because V8 owes a foreground
  task until it has run one (`KeepsWord`), and that task is progress.
-/
import Oam.Engine.EventLoop
import Oam.Engine.TimerRefs

namespace Oam.Engine.EventLoop

open List Timers Trace Act

/-! ## The log -/

/-- A timer, an immediate, a pending callback, a V8 task or an op completion. -/
def Event.progress : Event → Bool
  | .timer | .immediate | .pending | .task | .completion => true
  | .background _ | .beforeExit _ _ => false

def Drained (log : List Event) : Prop := ∀ standing threw, .beforeExit standing threw ∈ log → standing = .drained

def Spaced (log : List Event) : Prop :=
  ∀ before first mid second after, log = before ++ .beforeExit first false :: (mid ++ .beforeExit second false :: after) →
    ∃ e ∈ mid, e.progress = true

/-- An emission that no progress has followed. -/
def Announced (log : List Event) : Prop :=
  ∃ before standing after, log = before ++ .beforeExit standing false :: after ∧ ∀ e ∈ after, e.progress = false

/-- Whether V8 said that background work is pending, and has run no task since. -/
def owes (log : List Event) : Bool :=
  log.foldl
    (fun owed e =>
      match e with
      | .background pending => pending
      | .task => false
      | _ => owed) false

theorem owes_background (log : List Event) : owes (log ++ [.background true]) := by
  unfold owes
  rw [foldl_append]
  rfl

/-- **V8 keeps its word**: work that was pending stays so until a foreground task of it has run. -/
def KeepsWord (log : List Event) : Prop := Each (fun before e => e = .background false → owes before = false) log

def Rearmed (log : List Event) : Prop :=
  ∀ before standing since, log = before ++ .beforeExit standing false :: since → ∃ e ∈ since, e.progress = true

variable {log : List Event}

variable {e : Event}

theorem Rearmed.of_progress (he : e.progress) : Rearmed (log ++ [e]) := by
  intro before standing since h
  rcases cut_of_snoc h with ⟨-, -, rfl⟩ | ⟨_, rfl, -⟩
  · cases he
  · exact ⟨e, mem_append_right _ (mem_singleton.mpr rfl), he⟩

theorem Rearmed.snoc (h : Rearmed log) (he : ∀ standing, e ≠ .beforeExit standing false) : Rearmed (log ++ [e]) := by
  intro before standing since hlog
  rcases cut_of_snoc hlog with ⟨-, -, hx⟩ | ⟨since', rfl, hl⟩
  · exact absurd hx (he standing)
  · obtain ⟨x, hx, hprogress⟩ := h before standing since' hl
    exact ⟨x, mem_append_left _ hx, hprogress⟩

theorem Spaced.snoc (h : Spaced log)
    (he : ∀ standing, e = .beforeExit standing false → Rearmed log) : Spaced (log ++ [e]) := by
  intro before first mid second after hlog
  rw [← cons_append, ← append_assoc] at hlog
  rcases cut_of_snoc hlog with ⟨-, hl, hx⟩ | ⟨after', -, hl⟩
  · exact he second hx before first mid hl
  · rw [append_assoc, cons_append] at hl
    exact h before first mid second after' hl

theorem Announced.snoc (h : Announced log) (he : e.progress = false) : Announced (log ++ [e]) := by
  obtain ⟨before, standing, after, rfl, hafter⟩ := h
  refine ⟨before, standing, after ++ [e], by rw [append_assoc, cons_append], ?_⟩
  intro x hx
  rcases mem_append.mp hx with hx | hx
  · exact hafter x hx
  · rw [mem_singleton.mp hx]
    exact he

theorem Drained.snoc (h : Drained log)
    (he : ∀ standing threw, e = .beforeExit standing threw → standing = .drained) : Drained (log ++ [e]) := by
  intro standing threw hmem
  rcases mem_append.mp hmem with hmem | hmem
  · exact h standing threw hmem
  · exact he standing threw (mem_singleton.mp hmem).symm

/-- What the log says of every run, whether it goes on or not. -/
structure Logged (log : List Event) : Prop where
  drained : Drained log
  spaced : Spaced log

/-- **What the flag says of the log.** -/
structure Kept (emitted : Bool) (log : List Event) : Prop extends Logged log where
  rearmed : emitted = false → Rearmed log
  announced : emitted = true → KeepsWord log → owes log = true ∨ Announced log

namespace Kept

variable {emitted : Bool} {log : List Event}

theorem nil : Kept false [] where
  drained := fun standing threw h => by cases h
  spaced := fun before first mid second after h => by cases before <;> cases h
  rearmed := fun _ before standing since h => by cases before <;> cases h
  announced := nofun

theorem logged_progress (h : Logged log) {e : Event} (he : e.progress) : Logged (log ++ [e]) where
  drained := h.drained.snoc fun standing threw hx => by
    subst hx
    cases he
  spaced := h.spaced.snoc fun standing hx => by
    subst hx
    cases he

theorem progress (h : Logged log) {e : Event} (he : e.progress) : Kept false (log ++ [e]) where
  toLogged := logged_progress h he
  rearmed := fun _ => Rearmed.of_progress he
  announced := nofun

theorem completion (h : Kept emitted log) (howes : owes log) : Kept emitted (log ++ [.completion]) where
  toLogged := logged_progress h.toLogged rfl
  rearmed := fun _ => Rearmed.of_progress rfl
  announced := fun _ _ => .inl (by
    unfold owes
    rw [foldl_append]
    exact howes)

theorem background (h : Kept emitted log) (pending : Bool) : Kept emitted (log ++ [.background pending]) where
  drained := h.drained.snoc fun standing threw hx => by cases hx
  spaced := h.spaced.snoc fun standing hx => by cases hx
  rearmed := fun hf => (h.rearmed hf).snoc fun standing hx => by cases hx
  announced := fun ht hword => by
    obtain ⟨hlog, hlast⟩ := each_append.mp hword
    cases pending with
    | true =>
      exact .inl (owes_background log)
    | false =>
      rcases h.announced ht hlog with howes | hannounced
      · have hpaid := hlast [] _ [] rfl rfl
        rw [append_nil, howes] at hpaid
        cases hpaid
      · exact .inr (hannounced.snoc rfl)

theorem beforeExit (h : Kept false log) (threw : Bool) : Kept (!threw) (log ++ [.beforeExit .drained threw]) where
  drained := h.drained.snoc fun standing threw hx => by
    cases hx
    rfl
  spaced := h.spaced.snoc fun _ _ => h.rearmed rfl
  rearmed := fun hf => by
    cases threw with
    | false => cases hf
    | true => exact (h.rearmed rfl).snoc fun standing hx => by cases hx
  announced := fun ht _ => by
    cases threw with
    | true => cases ht
    | false => exact .inr ⟨log, .drained, [], rfl, fun e he => by cases he⟩

end Kept

/-! ## The world -/

section
variable {C : Type} {env : Env C} {fuel : Nat}

/-- The program does not call `process.exit`. -/
def Env.noExit (env : Env C) : Prop := ∀ n, ∀ a ∈ (env.js n).actions, a ≠ .exit

/-- The log and the ledger, in a world whose timers are sound. -/
structure Steady (log : List Event) (ledger : Nat) (w : World C) : Prop where
  backed : Backed w.timers
  exiting : w.exiting = false
  log : w.log = log
  ledger : w.ledger = ledger

def Stopped (log : List Event) (_ : Stop) (w : World C) : Prop := w.log = log

abbrev Quiet {α : Type} (log : List Event) (ledger : Nat) (x : Program C α) : Prop :=
  Spec (Steady log ledger) x (fun _ => Steady log ledger) (Stopped log)

variable {log : List Event} {ledger : Nat}

variable {w : World C}

theorem Steady.timers (h : Steady log ledger w) {queue : TimerQueue C} (hq : Backed queue) :
    Steady log ledger { w with timers := queue } := ⟨hq, h.exiting, h.log, h.ledger⟩

theorem Steady.perform (h : Steady log ledger w) {a : Action C} (ha : a ≠ .exit) : Steady log ledger (w.perform a) := by
  have hbooked : ∀ b : Option (Slot × TimerQueue C), (∀ x queue, b = some (x, queue) → Backed queue) →
      Steady log ledger (w.booked b) := by
    intro b hb
    cases b with
    | none => exact h
    | some booking => exact h.timers (hb booking.1 booking.2 rfl)
  cases a with
  | setTimeout | setInterval => exact hbooked _ fun _ _ hs => h.backed.schedule hs
  | setImmediate => exact hbooked _ fun _ _ hs => h.backed.scheduleImmediate hs
  | clear id => exact h.timers (h.backed.cancel id)
  | setRef id value => exact h.timers (h.backed.setRef id value)
  | timerPending callback => exact h.timers (h.backed.sweeps (Sweeps.timerPending _ callback))
  | nextTick =>
    show Steady log ledger (if w.exiting then w else { w with ticks := w.ticks + 1 })
    split
    · exact h
    · exact { h with }
  | spawnOp | spawnOpUnref | spawnHandleOp | setHandleRef | forgetHandle =>
    exact { h with }
  | exit => exact absurd rfl ha

theorem Steady.performs (h : Steady log ledger w) {actions : List (Action C)}
    (hactions : ∀ a ∈ actions, a ≠ .exit) : Steady log ledger (actions.foldl World.perform w) := by
  induction actions generalizing w with
  | nil => exact h
  | cons a actions ih =>
    obtain ⟨ha, hactions⟩ := forall_mem_cons.mp hactions
    exact ih (h.perform ha) hactions

/-! ## Drains -/

section
variable {E : Stop → World C → Prop}

theorem ask_steady {α : Type} (f : Nat → α) : Spec (Steady log ledger) (ask f) (fun _ => Steady log ledger) E :=
  Spec.update fun _ hw => { hw with }

theorem note_steady (e : Event) :
    Spec (Steady log ledger) (note e : Program C Unit) (fun _ => Steady (log ++ [e]) ledger) E :=
  Spec.update fun _ hw => ⟨hw.backed, hw.exiting, congrArg (· ++ [e]) hw.log, hw.ledger⟩

theorem runJs_steady (henv : env.noExit) : Spec (Steady log ledger) (runJs env) (fun _ => Steady log ledger) E :=
  Spec.update fun w hw => by
    have hdone := hw.performs (henv w.asked)
    exact { hdone with }

end

variable {α : Type}

theorem fail_steady {Q : α → World C → Prop} (stop : Stop) :
    Spec (Steady log ledger) (.fail stop : Program C α) Q (Stopped log) := Spec.fail fun _ hw => hw.log

theorem pure_steady (a : α) : Quiet log ledger (pure a : Program C α) :=
  Spec.pure fun _ hw => hw

theorem hasPendingTicks_steady : Quiet log ledger (hasPendingTicks : Program C Bool) :=
  Spec.update fun _ hw => hw

section
variable (henv : env.noExit)
include henv

theorem handleUncaughtThrow_steady : Quiet log ledger (handleUncaughtThrow env) := by
  unfold handleUncaughtThrow
  exact (runJs_steady henv).bindBool (pure_steady ()) (fail_steady .failed)

theorem call_steady : Quiet log ledger (call env) := by
  unfold call
  refine (runJs_steady henv).bindBool (pure_steady true) ?_
  exact (handleUncaughtThrow_steady henv).bind fun _ => pure_steady false

theorem drainTicks_steady (n : Nat) : Quiet log ledger (drainTicks env n) := by
  induction n with
  | zero => exact fail_steady .starved
  | succ n ih =>
    have htake : Spec (Steady log ledger) takeTick (fun _ => Steady log ledger) (Stopped log (C := C)) :=
      Spec.update fun _ hw => { hw with }
    unfold drainTicks
    exact htake.bindBool ((runJs_steady henv).bindBool ih (pure_steady false)) (pure_steady true)

theorem hostCheckpoint_steady : Quiet log ledger (hostCheckpoint env) := by
  unfold hostCheckpoint
  exact (runJs_steady henv).bindBool (pure_steady ()) (fail_steady .failed)

theorem runTicksAndMicrotasks_steady (n : Nat) : Quiet log ledger (runTicksAndMicrotasks env fuel n) := by
  induction n with
  | zero => exact fail_steady .starved
  | succ n ih =>
    unfold runTicksAndMicrotasks
    refine (drainTicks_steady henv fuel).bindBool ?_ ?_
    · refine (hostCheckpoint_steady henv).bind fun _ => ?_
      exact hasPendingTicks_steady.bindBool ih (pure_steady ())
    · refine (handleUncaughtThrow_steady henv).bind fun _ => ?_
      exact hasPendingTicks_steady.bindBool (pure_steady ()) (hostCheckpoint_steady henv)

theorem deliver_steady (entries : Nat) : Quiet log ledger (deliver env entries) := by
  induction entries with
  | zero => exact pure_steady ()
  | succ entries ih => exact (handleUncaughtThrow_steady henv).bind fun _ => ih

/-- **The ledger is empty after a drain.** -/
theorem drainUncaught_steady (n : Nat) :
    Spec (Steady log ledger) (drainUncaught env fuel n) (fun _ => Steady log 0) (Stopped log) := by
  induction n generalizing ledger with
  | zero => exact fail_steady .starved
  | succ n ih =>
    have htake : Spec (Steady log ledger) takeLedger (fun _ => Steady log 0) (Stopped log (C := C)) :=
      Spec.update fun _ hw => ⟨hw.backed, hw.exiting, hw.log, rfl⟩
    unfold drainUncaught
    refine htake.bind fun entries => ?_
    split
    · exact pure_steady ()
    · refine (deliver_steady henv entries).bind fun _ => ?_
      exact (runTicksAndMicrotasks_steady henv fuel).bind fun _ => ih

theorem drain_steady : Spec (Steady log ledger) (drain env fuel) (fun _ => Steady log 0) (Stopped log) :=
  (runTicksAndMicrotasks_steady henv fuel).bind fun _ => drainUncaught_steady henv fuel

theorem drainDeferredTicks_steady (n : Nat) : Quiet log 0 (drainDeferredTicks env fuel n) := by
  induction n with
  | zero => exact fail_steady .starved
  | succ n ih =>
    unfold drainDeferredTicks
    exact hasPendingTicks_steady.bindBool ((drain_steady henv).bind fun _ => ih) (pure_steady ())

theorem emitRejections_steady (unhandled : Nat) : Quiet log ledger (emitRejections env unhandled) := by
  induction unhandled with
  | zero => exact pure_steady true
  | succ unhandled ih =>
    refine (runJs_steady henv).bind fun taken => ?_
    exact ih.bind fun rest => pure_steady (taken && rest)

theorem unhandledRejectionFailures_steady : Quiet log ledger (unhandledRejectionFailures env fuel) := by
  unfold unhandledRejectionFailures
  refine (ask_steady env.rejections).bind fun unhandled => ?_
  split
  · exact pure_steady ()
  refine (emitRejections_steady henv unhandled).bind fun taken => ?_
  refine (runTicksAndMicrotasks_steady henv fuel).bind fun _ => ?_
  cases taken with
  | true => exact pure_steady ()
  | false => exact fail_steady .failed

/-! ## What goes into the log -/

theorem runTask_steady :
    Spec (Steady log 0) (runTask env fuel) (fun _ => Steady (log ++ [.task]) 0) (Stopped (log ++ [.task])) := by
  -- the task's own throws wait in the ledger for the drain
  have hraise : ∀ raised, Spec (Steady (log ++ [.task]) 0)
      (change fun w : World C => { w with ledger := w.ledger + raised })
      (fun _ w => ∃ ledger, Steady (log ++ [.task]) ledger w) (Stopped (log ++ [.task])) :=
    fun raised => Spec.update fun w hw => ⟨w.ledger + raised, hw.backed, hw.exiting, hw.log, rfl⟩
  unfold runTask
  refine (note_steady .task).bind fun _ => ?_
  refine (runJs_steady henv).bind fun _ => ?_
  refine (ask_steady env.raised).bind fun raised => ?_
  exact (hraise raised).bind fun _ => Spec.assume_exists fun ledger => drain_steady henv

theorem settleCompletion_steady (arrival : Arrival) : Quiet log ledger (settleCompletion env arrival) := by
  cases arrival with
  | wake => exact pure_steady true
  | signal => exact (runJs_steady henv).bind fun _ => pure_steady true
  | op id callback =>
    cases callback with
    | false => exact pure_steady true
    | true => exact call_steady henv

theorem settle_steady (arrival : Arrival) : Spec (Steady log 0) (settle env fuel arrival)
    (fun _ => Steady (log ++ [.completion]) 0) (Stopped (log ++ [.completion])) := by
  unfold settle
  refine (note_steady .completion).bind fun _ => ?_
  exact (settleCompletion_steady henv arrival).bindBool (drain_steady henv) (drainUncaught_steady henv fuel)

end

/-! ## Turns -/

def Good (emitted : Bool) (w : World C) : Prop := ∃ log, Steady log 0 w ∧ Kept emitted log

def LoggedAt (_ : Stop) (w : World C) : Prop := Logged w.log

theorem Logged.stopped (h : Logged log) (e : Stop) (w : World C) (hw : Stopped log e w) : LoggedAt e w := by
  unfold LoggedAt
  rw [hw]
  exact h

def Over (w : World C) : Prop :=
  ∃ log, Steady log 0 w ∧ Logged log ∧ w.standing = .drained ∧ (KeepsWord log → Announced log)

def Next : Flow → World C → Prop
  | .again emitted _, w => Good emitted w
  | .done, w => Over w

variable {emitted : Bool} {last : LastRan}

theorem quiet {x : Program C α} (h : ∀ log, Quiet log 0 x) : Spec (Good emitted) x
    (fun _ => Good emitted) LoggedAt := by
  refine Spec.assume_exists fun log => Spec.assume fun hkept => ?_
  exact (h log).mono (fun _ hw => hw) (fun _ w hw => ⟨log, hw, hkept⟩) hkept.stopped

theorem progresses {x : Program C α} {e : Event} (he : e.progress)
    (h : ∀ log, Spec (Steady log 0) x (fun _ => Steady (log ++ [e]) 0) (Stopped (log ++ [e]))) :
    Spec (Good emitted) x (fun _ => Good false) LoggedAt := by
  refine Spec.assume_exists fun log => Spec.assume fun hkept => ?_
  exact (h log).mono (fun _ hw => hw) (fun _ w hw => ⟨_, hw, Kept.progress hkept.toLogged he⟩)
    (Kept.logged_progress hkept.toLogged he).stopped

theorem pure_again (emitted : Bool) (last : LastRan) :
    Spec (Good emitted) (pure (.again emitted last) : Program C Flow) Next LoggedAt := Spec.pure fun _ hw => hw

theorem recv_steady : Quiet log ledger (recv env) := by
  refine Spec.update fun w hw => ?_
  have hasked : Steady log ledger { w with asked := w.asked + 1 } := { hw with }
  dsimp only
  split
  · split
    · exact { hw with }
    · exact hasked
  · exact hasked

theorem peekDue_steady (now : Nat) : Quiet log ledger (peekDue now : Program C (Option Due)) :=
  Spec.update fun _ hw => hw.timers (hw.backed.sweeps (Sweeps.peekDue _ now))

theorem samePhase_good (now : Nat) :
    Spec (Good emitted) (samePhase now last : Program C Bool) (fun _ => Good emitted) LoggedAt := by
  refine quiet fun log => ?_
  unfold samePhase
  split
  · refine (peekDue_steady now).bind fun next => ?_
    split
    · exact pure_steady _
    · exact pure_steady false
  · exact pure_steady false

section
variable (henv : env.noExit)
include henv

theorem drainBefore_steady (now : Nat) : Quiet log 0 (drainBefore env fuel now last) := by
  unfold drainBefore
  refine hasPendingTicks_steady.bindBool ?_ (pure_steady ())
  refine (peekDue_steady now).bind fun next => ?_
  split
  · exact drainDeferredTicks_steady henv fuel
  · exact pure_steady ()

theorem afterCallback_steady (returned : Bool) : Quiet log 0 (afterCallback env fuel returned) := by
  cases returned with
  | true => exact drain_steady henv
  | false => exact pure_steady ()

theorem runCallback_steady (e : Event) :
    Spec (Steady log 0) (runCallback env fuel e) (fun _ => Steady (log ++ [e]) 0) (Stopped (log ++ [e])) := by
  unfold runCallback
  refine (note_steady e).bind fun _ => ?_
  refine (call_steady henv).bind fun returned => ?_
  refine (afterCallback_steady henv returned).bind fun _ => ?_
  exact Spec.update fun w hw => hw.timers (hw.backed.sweeps (Sweeps.stop w.timers w.timers.pending none))

omit henv in
theorem popped_progress (now : Nat) (last : LastRan) (running : Option Running) :
    (popped now last running).1.progress := by
  unfold popped
  split
  · split <;> rfl
  · rfl
  · rfl

/-- **A due callback is progress**, and without one nothing changes. -/
theorem runDue_good (now : Nat) :
    Spec (Good emitted) (runDue env fuel now last) (fun ran => Good (emitted && ran.isNone)) LoggedAt := by
  have hnone : ∀ w : World C, Good emitted w → Good (emitted && (none : Option LastRan).isNone) w := by
    intro w hw
    rw [Option.isNone_none, Bool.and_true]
    exact hw
  have hlook : ∀ {α : Type} (f : World C → α), Spec (Good emitted) (look f) (fun _ => Good emitted) LoggedAt :=
    fun f => Spec.update fun _ hw => hw
  have hpop : ∀ log, Quiet log 0 (popDue now : Program C Bool) :=
    fun log => Spec.update fun _ hw => hw.timers (hw.backed.popDue now)
  unfold runDue
  refine (hlook World.standing).bind fun standing => ?_
  split
  · exact Spec.pure hnone
  refine (quiet fun _ => drainBefore_steady henv now).bind fun _ => ?_
  refine (quiet hpop).bind fun due => ?_
  cases due with
  | false => exact Spec.pure hnone
  | true =>
    refine (hlook fun w => w.timers.running).bind fun running => ?_
    refine (progresses (popped_progress now last running) fun _ => runCallback_steady henv _).bind fun _ => ?_
    refine Spec.pure fun w hw => ?_
    rw [Option.isNone_some, Bool.and_false]
    exact hw

theorem runTasks_good (ready : Nat) :
    Spec (Good emitted) (runTasks env fuel ready) (fun _ => Good (emitted && !decide (0 < ready))) LoggedAt := by
  induction ready generalizing emitted with
  | zero =>
    refine Spec.pure fun w hw => ?_
    rw [decide_eq_false (Nat.lt_irrefl 0), Bool.not_false, Bool.and_true]
    exact hw
  | succ ready ih =>
    refine (progresses rfl fun _ => runTask_steady henv).bind fun _ => ?_
    refine (@ih false).mono (fun _ hw => hw) (fun _ w hw => ?_) fun _ _ hw => hw
    rw [decide_eq_true (Nat.succ_pos ready), Bool.not_true, Bool.and_false]
    exact hw

/-- **A V8 task is progress.** -/
theorem runPlatformTasks_good :
    Spec (Good emitted) (runPlatformTasks env fuel) (fun ran => Good (emitted && !ran)) LoggedAt := by
  unfold runPlatformTasks
  refine (quiet fun _ => ask_steady env.tasks).bind fun ready => ?_
  exact (runTasks_good henv ready).bind fun _ => Spec.pure fun _ hw => hw

theorem settleArrival_next {rearm : Bool} (arrival : Option Arrival) (hkept : Kept emitted log)
    (howes : rearm = false → owes log) :
    Spec (Steady log 0) (settleArrival env fuel rearm emitted last arrival) Next LoggedAt := by
  cases arrival with
  | none => exact Spec.pure fun w hw => ⟨log, hw, hkept⟩
  | some arrival =>
    unfold settleArrival
    refine ((settle_steady henv arrival).stops (Kept.logged_progress hkept.toLogged rfl).stopped).bind fun _ => ?_
    refine Spec.pure fun w hw => ⟨_, hw, ?_⟩
    cases rearm with
    | true =>
      rw [Bool.not_true, Bool.and_false]
      exact Kept.progress hkept.toLogged rfl
    | false =>
      rw [Bool.not_false, Bool.and_true]
      exact hkept.completion (howes rfl)

theorem waitUntil_next (deadline n : Nat) (hkept : Kept emitted log) :
    Spec (Steady log 0) (waitUntil env fuel deadline emitted last n) Next LoggedAt := by
  induction n with
  | zero => exact (fail_steady .starved).stops hkept.stopped
  | succ n ih =>
    unfold waitUntil
    refine (ask_steady env.now).bind fun now => ?_
    split
    · exact Spec.pure fun w hw => ⟨log, hw, hkept⟩
    · refine (recv_steady.stops hkept.stopped).bind fun arrival => ?_
      cases arrival with
      | none => exact ih
      | some arrival => exact settleArrival_next henv (some arrival) hkept nofun

/-- **'beforeExit' is emitted in a drained world.** -/
theorem callHook_spec (hkept : Kept false log) : Spec (fun w => Steady log 0 w ∧ w.standing = .drained) (callHook env)
    (fun result w => Steady (log ++ [.beforeExit .drained result.2]) 0 w ∧ result.1) LoggedAt := by
  have hexiting : Spec (fun w => Steady log 0 w ∧ w.standing = .drained) (look fun w : World C => w.exiting)
      (fun exiting w => (Steady log 0 w ∧ w.standing = .drained) ∧ exiting = false) LoggedAt :=
    Spec.update fun w hw => ⟨hw, hw.1.exiting⟩
  have hstanding : Spec (fun w : World C => Steady log 0 w ∧ w.standing = .drained) (look World.standing)
      (fun standing w => Steady log 0 w ∧ standing = .drained) LoggedAt := Spec.update fun w hw => hw
  unfold callHook
  refine hexiting.bind fun exiting => Spec.assume fun hfalse => ?_
  subst hfalse
  refine hstanding.bind fun standing => Spec.assume fun hdrained => ?_
  subst hdrained
  refine (runJs_steady henv).bind fun returned => ?_
  refine (note_steady _).bind fun _ => ?_
  cases returned with
  | true => exact Spec.pure fun w hw => ⟨hw, rfl⟩
  | false =>
    refine ((handleUncaughtThrow_steady henv).stops (hkept.beforeExit true).stopped).bind fun _ => ?_
    exact Spec.pure fun w hw => ⟨hw, rfl⟩

omit henv in
theorem drainUncaught_nothing {P : World C → Prop} (hledger : ∀ w, P w → w.ledger = 0) (hP : ∀ e w, P w → LoggedAt e w)
    (n : Nat) : Spec P (drainUncaught env fuel n) (fun _ => P) LoggedAt := by
  cases n with
  | zero => exact Spec.fail (hP .starved)
  | succ =>
    have htake : Spec P takeLedger (fun entries w => P w ∧ entries = 0) LoggedAt := by
      refine Spec.update fun w hw => ?_
      have hsame : { w with ledger := 0 } = w := by
        rw [← hledger w hw]
      rw [hsame]
      exact ⟨hw, hledger w hw⟩
    unfold drainUncaught
    refine htake.bind fun entries => Spec.assume fun hzero => ?_
    rw [if_pos hzero]
    exact Spec.pure fun _ hw => hw

variable (hsuppress : env.suppress = false)

include hsuppress

/-- **The loop ends drained, right after an emission.** -/
theorem finish_next (hkept : Kept emitted log) (hlast : emitted → KeepsWord log → Announced log) : Spec
    (fun w => Steady log 0 w ∧ w.standing = .drained) (finish env fuel emitted last) Next LoggedAt := by
  unfold finish
  refine (drainUncaught_nothing (fun w hw => hw.1.ledger) (fun e w hw => hkept.stopped e w hw.1.log) fuel).bind fun _ => ?_
  cases emitted with
  | true => exact Spec.pure fun w hw => ⟨log, hw.1, hkept.toLogged, hw.2, hlast rfl⟩
  | false =>
    have hemit : Spec (fun w => Steady log 0 w ∧ w.standing = .drained) (emitBeforeExit env fuel)
        (fun result w => Good (!result.2) w ∧ result.1) LoggedAt := by
      unfold emitBeforeExit
      rw [hsuppress]
      refine (callHook_spec henv hkept).bind fun result => Spec.assume fun htrue => ?_
      have hkept' := hkept.beforeExit result.2
      refine ((drain_steady henv).stops hkept'.stopped).bind fun _ => ?_
      exact Spec.pure fun w hw => ⟨⟨_, hw, hkept'⟩, htrue⟩
    refine hemit.bind fun result => Spec.assume fun htrue => ?_
    obtain ⟨_, threw⟩ := result
    subst htrue
    exact pure_again (!threw) last

theorem decideEnd_next : Spec (Good emitted) (decideEnd env fuel emitted last) Next LoggedAt := by
  refine Spec.assume_exists fun log => Spec.assume fun hkept => ?_
  have hnext : Spec (Steady log 0)
      (Act.update fun w : World C => (w.timers.nextDeadline.1, { w with timers := w.timers.nextDeadline.2 }))
      (fun deadline w => Steady log 0 w ∧ (w.timers.hasRefTimers → deadline ≠ none)) LoggedAt := by
    refine Spec.update fun w hw => ⟨hw.timers (hw.backed.sweeps (Sweeps.nextDeadline _)), fun href => ?_⟩
    exact hw.backed.nextDeadline_ne_none ((Backed.hasRefTimers_nextDeadline w.timers).symm.trans href)
  have hstanding : ∀ deadline : Option Nat,
      Spec (fun w : World C => Steady log 0 w ∧ (w.timers.hasRefTimers → deadline ≠ none))
        (look World.standing)
        (fun standing w => (Steady log 0 w ∧ w.standing = standing) ∧ (standing.refTimers → deadline ≠ none))
        LoggedAt :=
    fun deadline => Spec.update fun w hw => ⟨⟨hw.1, rfl⟩, hw.2⟩
  unfold decideEnd
  refine hnext.bind fun deadline => ?_
  refine (hstanding deadline).bind fun standing => Spec.assume fun hdeadline => ?_
  obtain ⟨refTimers, inflight, ticks⟩ := standing
  split
  · next hbusy =>
    refine Spec.asks ?_ fun _ hw => hw.1
    unfold wait
    cases inflight with
    | true => exact (recv_steady.stops hkept.stopped).bind fun arrival => settleArrival_next henv arrival hkept nofun
    | false =>
      rw [Bool.or_false] at hbusy
      cases deadline with
      | none => exact absurd rfl (hdeadline hbusy)
      | some deadline => exact waitUntil_next henv deadline fuel hkept
  · next hbusy =>
    obtain ⟨rfl, rfl⟩ : refTimers = false ∧ inflight = false := by
      rw [Bool.not_eq_true, Bool.or_eq_false_iff] at hbusy
      exact hbusy
    cases ticks with
    | true =>
      have hdrain : Spec (Good emitted) (drain env fuel) (fun _ => Good emitted) LoggedAt :=
        quiet fun _ => drain_steady henv
      exact (hdrain.asks fun w hw => ⟨log, hw.1, hkept⟩).bind fun _ => pure_again emitted last
    | false =>
      have hask : Spec (fun w : World C => Steady log 0 w ∧ w.standing = .drained) (ask env.background)
          (fun _ w => Steady log 0 w ∧ w.standing = .drained) LoggedAt :=
        Spec.update fun w hw => ⟨⟨hw.1.backed, hw.1.exiting, hw.1.log, hw.1.ledger⟩, hw.2⟩
      have hnote : ∀ e, Spec (fun w : World C => Steady log 0 w ∧ w.standing = .drained) (note e)
          (fun _ w => Steady (log ++ [e]) 0 w ∧ w.standing = .drained) LoggedAt :=
        fun e => Spec.update fun w hw => ⟨⟨hw.1.backed, hw.1.exiting, congrArg (· ++ [e]) hw.1.log, hw.1.ledger⟩, hw.2⟩
      refine hask.bind fun background => (hnote _).bind fun _ => ?_
      have hkept' := hkept.background background
      cases background with
      | true =>
        refine ((recv_steady.stops hkept'.stopped).asks fun _ hw => hw.1).bind fun arrival => ?_
        exact settleArrival_next henv arrival hkept' fun _ => owes_background log
      | false =>
        refine finish_next henv hsuppress hkept' fun ht hword => ?_
        subst ht
        rcases hkept'.announced rfl hword with howes | hannounced
        · unfold owes at howes
          rw [foldl_append] at howes
          cases howes
        · exact hannounced

theorem idle_next : Spec (Good emitted) (idle env fuel emitted last) Next LoggedAt := by
  unfold idle
  refine (quiet fun _ => hasPendingTicks_steady).bind fun ticks => ?_
  split
  · exact (quiet fun _ => drainDeferredTicks_steady henv fuel).bind fun _ => pure_again emitted last
  · exact decideEnd_next henv hsuppress

theorem poll_next (progressed : Bool) :
    Spec (Good (emitted && !progressed)) (poll env fuel progressed emitted last) Next LoggedAt := by
  unfold poll
  refine (runPlatformTasks_good henv).bind fun ran => ?_
  refine (quiet fun _ => recv_steady).bind fun arrival => ?_
  cases arrival with
  | some arrival =>
    refine (progresses rfl fun _ => settle_steady henv arrival).bind fun _ => ?_
    exact pure_again false .other
  | none =>
    cases progressed with
    | true =>
      refine Spec.pure fun w hw => ?_
      rw [Bool.not_true, Bool.and_false, Bool.false_and] at hw
      exact hw
    | false =>
      cases ran with
      | true =>
        refine Spec.pure fun w hw => ?_
        rw [Bool.not_true, Bool.and_false] at hw
        exact hw
      | false =>
        refine (idle_next henv hsuppress).asks fun w hw => ?_
        simpa only [Bool.not_false, Bool.and_true] using hw

/-- **A turn keeps what the flag says.** -/
theorem turn_next : Spec (Good emitted) (turn env fuel emitted last) Next LoggedAt := by
  unfold turn
  refine (quiet fun _ => unhandledRejectionFailures_steady henv).bind fun _ => ?_
  refine (quiet fun _ => ask_steady env.now).bind fun now => ?_
  refine (runDue_good henv now).bind fun ran => ?_
  cases ran with
  | none => exact poll_next henv hsuppress false
  | some =>
    refine (samePhase_good now).bindBool (Spec.pure fun w hw => ?_) (poll_next henv hsuppress true)
    rw [Option.isNone_some, Bool.and_false] at hw
    exact hw

theorem turns_over (n : Nat) : Spec (Good emitted) (turns env fuel emitted last n) (fun _ => Over) LoggedAt := by
  induction n generalizing emitted last with
  | zero =>
    refine Spec.fail ?_
    rintro w ⟨log, hsteady, hkept⟩
    exact hkept.stopped .starved w hsteady.log
  | succ n ih =>
    unfold turns
    refine (turn_next henv hsuppress).bind fun flow => ?_
    cases flow with
    | again => exact ih
    | done => exact Spec.pure fun _ hw => hw

omit hsuppress

end

/-! ## Runs -/

/-- **The loop ends only when drained, and announces every drain.** 'beforeExit' is emitted only with nothing left that
    holds the loop, there is progress between two emissions, and a run that returns has made none since the last. -/
theorem drains_announced (env : Env C) (henv : env.noExit) (hsuppress : env.suppress = false) (fuel epoch : Nat)
    (entry : List (Action C)) (hentry : ∀ a ∈ entry, a ≠ .exit) (result : Except Stop Unit) (w : World C)
    (hrun : pumpEventLoop env fuel (World.entered epoch entry) = (result, w)) : Drained w.log ∧ Spaced w.log ∧
    (result = .ok () → KeepsWord w.log → w.standing = .drained ∧ Announced w.log) := by
  have hnew : Steady [] 0 (World.new epoch : World C) := ⟨Backed.new epoch, rfl, rfl, rfl⟩
  have hgood : Good false (World.entered epoch entry) := ⟨[], hnew.performs hentry, Kept.nil⟩
  have hspec : Spec (Good false) (pumpEventLoop env fuel) (fun _ => Over) LoggedAt := turns_over henv hsuppress fuel
  cases result with
  | ok value =>
    obtain ⟨log, hsteady, hlogged, hdrained, hannounced⟩ := hspec.ok _ hgood value w hrun
    rw [hsteady.log]
    exact ⟨hlogged.drained, hlogged.spaced, fun _ hword => ⟨hdrained, hannounced hword⟩⟩
  | error stop =>
    have hlogged := hspec.error _ hgood stop w hrun
    exact ⟨hlogged.drained, hlogged.spaced, nofun⟩

end

/-! ## Two runs -/

/-- Callbacks that do nothing, and nothing from outside; the clock stands two milliseconds after the start. -/
def stillEnv (suppress : Bool) : Env Unit where
  suppress := suppress
  js := fun _ => { actions := [], returned := true }
  now := fun _ => 2000000
  rejections := fun _ => 0
  tasks := fun _ => 0
  raised := fun _ => 0
  arrival := fun _ => none
  background := fun _ => false

def oneTimer : World Unit := .entered 0 [.setTimeout () 1000000 0]

/-- When it is asked after the first emission V8 has work left: it wakes the loop, and its task is ready in the next
    turn. -/
def workEnv : Env Unit :=
  { stillEnv false with
    background := fun n => n == 17
    arrival := fun n => if n = 18 then some .wake else none
    tasks := fun n => if n = 22 then 1 else 0 }

theorem drains_announced_background : (pumpEventLoop workEnv 10 oneTimer).2.log =
    [.timer, .background false, .beforeExit .drained false, .background true, .completion, .task, .background false,
      .beforeExit .drained false, .background false] ∧
    (pumpEventLoop workEnv 10 oneTimer).2.standing = .drained ∧ Announced (pumpEventLoop workEnv 10 oneTimer).2.log := by
  have hlog : (pumpEventLoop workEnv 10 oneTimer).2.log =
      [.timer, .background false, .beforeExit .drained false, .background true, .completion, .task, .background false,
        .beforeExit .drained false, .background false] := by decide +kernel
  have hword : KeepsWord (pumpEventLoop workEnv 10 oneTimer).2.log := by
    rw [hlog]
    simp [KeepsWord, owes]
  have hrun := drains_announced workEnv (fun _ a ha => by cases ha) rfl 10 0 [.setTimeout () 1000000 0]
    (by simp) (.ok ()) _ rfl
  exact ⟨hlog, hrun.2.2 rfl hword⟩

/-- **A suppressed run ends without an announcement**, as the module evaluation of `oam test` does. -/
theorem suppressed_ends_unannounced : (stillEnv true).noExit ∧ (pumpEventLoop (stillEnv true) 10 oneTimer).1 = .ok () ∧
    KeepsWord (pumpEventLoop (stillEnv true) 10 oneTimer).2.log ∧ ¬Announced
    (pumpEventLoop (stillEnv true) 10 oneTimer).2.log := by
  have hlog : (pumpEventLoop (stillEnv true) 10 oneTimer).2.log = [.timer, .background false] := by decide +kernel
  refine ⟨fun _ _ ha => (by cases ha), rfl, ?_, ?_⟩
  · rw [hlog]
    simp [KeepsWord, owes]
  · rw [hlog]
    rintro ⟨_, standing, _, h, -⟩
    have hmem : Event.beforeExit standing false ∈ [Event.timer, .background false] := by
      rw [h]
      exact mem_append_right _ mem_cons_self
    simp at hmem

end Oam.Engine.EventLoop
