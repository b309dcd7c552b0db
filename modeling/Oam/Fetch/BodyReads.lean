/-
  A read and a cancel of one fetch body (`http_client/body.rs`, `ops.rs`).

  The read takes the body OUT of the registry, waits for a chunk with no lock held, and puts it back.  A cancel that
  finds the registry empty cannot drop the body: it leaves a tombstone for the read, in a lock section of its own, and
  wakes it. The read always returns; the handle is nowhere EXACTLY when the tombstone was left before the read's last
  look.
-/
import Oam.Lib.Decimal
import Oam.Lib.Trace

namespace Oam.Fetch.BodyReads

open Nat Text Trace Decimal

/-! ## The calls -/

abbrev Fields := List (Str × Str)

structure FetchBody where
  trailers : Option Fields
  /-- A kept-alive response's connection, by its facts. -/
  conn : Option Str
  /-- Failures are node's own. -/
  coded : Bool
deriving DecidableEq, Repr

inductive BodyReadError where
  | timedOut
  | closed
  | other (words : Str)
deriving DecidableEq, Repr

inductive OpOutcome where
  | failed (text : Str)
  | done
  | bytes (chunk : List UInt8)
  | nodeFailed (code message : Str)
  | socketClosed (facts : Str)
  | bodyFailed (error : BodyReadError) (coded : Bool)
deriving DecidableEq, Repr

/-- `next_chunk`: a chunk, the end, or a failure; and the body after it. -/
structure Arrival where
  result : Except BodyReadError (Option (List UInt8))
  body : FetchBody
deriving DecidableEq, Repr

/-- Where the read is. -/
inductive Read where
  | start
  /-- It has the body; a waiter is to be registered. -/
  | arming (body : FetchBody)
  /-- Registered, about to look at the tombstones. -/
  | looking (body : FetchBody)
  /-- In the `select!`. -/
  | waiting (body : FetchBody)
  /-- Out of it, about to look at the tombstones. -/
  | finishing (a : Arrival)
  /-- About to act on the result. -/
  | settling (a : Arrival)
  /-- The body is back; about to look at the tombstones again. -/
  | secondLook (chunk : List UInt8)
  /-- About to remove it again. -/
  | reviving (chunk : List UInt8)
  | returned
deriving DecidableEq, Repr

inductive Cancel where
  | idle
  /-- It found nothing in the registry. -/
  | looked
  /-- The tombstone is left; the wake is to be sent. -/
  | marked
  | returned
deriving DecidableEq, Repr

structure State where
  handle : Nat
  registry : Option FetchBody
  tombstone : Bool
  /-- The read's waiter, if it is registered, and whether it was woken. -/
  waiter : Option Bool
  /-- What `next_chunk` is ready with. -/
  arrived : Option Arrival
  read : Read
  cancel : Cancel
deriving DecidableEq, Repr

inductive Act where
  /-- The read's next section; `wake` is the branch the `select!` takes if both are ready. -/
  | read (wake : Bool)
  /-- The cancel's next section. -/
  | cancel
  | arrive (a : Arrival)
  /-- A cancel of another handle wakes all waiters. -/
  | wakeOthers
  | takeTrailers
deriving DecidableEq, Repr

def goneText (handle : Nat) : Str :=
  "fetch: body handle ".toList ++ decimal handle ++ " is gone".toList

def readFailure (error : BodyReadError) (body : FetchBody) : OpOutcome :=
  match error, body.conn with
  | .timedOut, _ => .nodeFailed "UND_ERR_BODY_TIMEOUT".toList "Body Timeout Error".toList
  | .closed, some facts => .socketClosed facts
  | error, _ => .bodyFailed error body.coded

/-- The `match result` of `read`. -/
def settle (s : State) (a : Arrival) : State × List OpOutcome :=
  match a.result with
  | .error error => ({ s with read := .returned }, [readFailure error a.body])
  | .ok (some chunk) => ({ s with registry := some a.body, read := .secondLook chunk }, [])
  | .ok none =>
    ({ s with registry := if a.body.trailers.isSome then some a.body else s.registry, read := .returned }, [.done])

/-- The `select!`: a wake, or what has arrived. -/
def waitStep (s : State) (body : FetchBody) (wake : Bool) : State × List OpOutcome :=
  if s.waiter = some true ∧ (wake = true ∨ s.arrived = none) then ({ s with read := .arming body }, [])
  else
    match s.arrived with
    | some a => ({ s with arrived := none, read := .finishing a }, [])
    | none => (s, [])

/-- The next step of the read; `wake` decides where a wake and a chunk are both there. -/
def readStep (s : State) (wake : Bool) : State × List OpOutcome :=
  match s.read with
  | .start =>
    match s.registry with
    | none => ({ s with read := .returned }, [.failed (goneText s.handle)])
    | some body => ({ s with registry := none, read := .arming body }, [])
  | .arming body => ({ s with waiter := some false, read := .looking body }, [])
  | .looking body =>
    if s.tombstone then ({ s with tombstone := false, read := .returned }, [.done])
    else ({ s with read := .waiting body }, [])
  | .waiting body => waitStep s body wake
  | .finishing a =>
    if s.tombstone then ({ s with tombstone := false, read := .returned }, [.done])
    else ({ s with read := .settling a }, [])
  | .settling a => settle s a
  | .secondLook chunk =>
    if s.tombstone then ({ s with tombstone := false, read := .reviving chunk }, [])
    else ({ s with read := .returned }, [.bytes chunk])
  | .reviving chunk => ({ s with registry := none, read := .returned }, [.bytes chunk])
  | .returned => (s, [])

/-- `notify_waiters`: only a waiter that is registered. -/
def notifyWaiters (s : State) : State := { s with waiter := s.waiter.map fun _ => true }

/-- `op_fetch_body_cancel`. -/
def cancelStep (s : State) : State :=
  match s.cancel with
  | .idle => if s.registry.isSome then { s with registry := none, cancel := .returned } else { s with cancel := .looked }
  | .looked => { s with tombstone := true, cancel := .marked }
  | .marked => { notifyWaiters s with cancel := .returned }
  | .returned => s

/-- `take_trailers`, on the thread of the cancel. -/
def takeTrailers (s : State) : State :=
  match s.cancel, s.registry with
  | .looked, _ | .marked, _ => s
  | _, some body => if body.trailers.isSome then { s with registry := none } else s
  | _, none => s

def step (s : State) : Act → State × List OpOutcome
  | .read wake => readStep s wake
  | .cancel => (cancelStep s, [])
  | .arrive a => ({ s with arrived := some a }, [])
  | .wakeOthers => (notifyWaiters s, [])
  | .takeTrailers => (takeTrailers s, [])

def start (handle : Nat) (body : FetchBody) : State :=
  { handle := handle, registry := some body, tombstone := false, waiter := none, arrived := none
    read := .start, cancel := .idle }

theorem takeTrailers_cases (s : State) :
    takeTrailers s = s ∨ (s.cancel = .idle ∨ s.cancel = .returned) ∧ takeTrailers s = { s with registry := none } := by
  rw [takeTrailers]
  cases hcancel : s.cancel with
  | looked | marked => exact .inl rfl
  | _ =>
    cases hregistry : s.registry with
    | none => exact .inl rfl
    | some =>
      dsimp only
      split
      · exact .inr ⟨by simp, rfl⟩
      · exact .inl rfl

/-! ## What the read is up to -/

def Read.holds : Read → Bool
  | .arming _ | .looking _ | .waiting _ | .finishing _ | .settling _ => true
  | _ => false

/-- Its waiter is registered, and counts on the wake. -/
def Read.listens : Read → Bool
  | .looking _ | .waiting _ => true
  | _ => false

def Read.willLook : Read → Bool
  | .arming _ | .looking _ | .waiting _ | .finishing _ | .secondLook _ => true
  | .settling a =>
    match a.result with
    | .ok (some _) => true
    | _ => false
  | _ => false

/-- The most sections it has before it, once it is cancelled. -/
def Read.rank : Read → Nat
  | .waiting _ => 5
  | .finishing _ => 4
  | .settling _ => 3
  | .secondLook _ | .arming _ => 2
  | .start | .looking _ | .reviving _ => 1
  | .returned => 0

def Act.isRead : Act → Bool
  | .read _ => true
  | _ => false

/-- The tombstone is left while the read has yet to look. -/
def timely (s : State) : Act → Bool
  | .cancel => decide (s.cancel ≠ .looked) || s.read.willLook
  | _ => true

/-! ## A cancelled read returns -/

/-- Nothing keeps the read from returning: it finds no body, or a tombstone, and it is awake. -/
def Doomed (s : State) : Prop :=
  match s.read with
  | .start => s.registry = none
  | .arming _ | .looking _ => s.tombstone = true
  | .waiting _ => s.tombstone = true ∧ s.waiter = some true
  | _ => True

variable {s : State}

theorem read_frame (s : State) (wake : Bool) : (readStep s wake).1.cancel = s.cancel ∧
    (s.tombstone = false → (readStep s wake).1.tombstone = false) := by
  obtain ⟨_, registry, tombstone, _, arrived, read, cancel⟩ := s
  cases read with
  | start => cases registry <;> exact ⟨rfl, id⟩
  | waiting body =>
    show (waitStep _ body wake).1.cancel = cancel ∧ (tombstone = false → (waitStep _ body wake).1.tombstone = false)
    rw [waitStep]
    split
    · exact ⟨rfl, id⟩
    · cases arrived <;> exact ⟨rfl, id⟩
  | settling a =>
    obtain ⟨result, body⟩ := a
    rcases result with error | _ | chunk <;> exact ⟨rfl, id⟩
  | arming | reviving | returned => exact ⟨rfl, id⟩
  | _ => cases tombstone <;> exact ⟨rfl, fun _ => rfl⟩

theorem doomed_read (h : Doomed s) (wake : Bool) :
    Doomed (readStep s wake).1 ∧ (readStep s wake).1.read.rank ≤ s.read.rank - 1 := by
  obtain ⟨_, registry, tombstone, waiter, arrived, read, _⟩ := s
  cases read with
  | start =>
    obtain rfl : registry = none := h
    exact ⟨trivial, le_refl 0⟩
  | arming => exact ⟨h, le_refl 1⟩
  | looking =>
    obtain rfl : tombstone := h
    exact ⟨trivial, le_refl 0⟩
  | waiting =>
    obtain ⟨htombstone, hwoken⟩ : tombstone ∧ waiter = some true := h
    subst htombstone hwoken
    cases arrived with
    | none => cases wake <;> exact ⟨rfl, le_add_right 2 2⟩
    | some =>
      cases wake with
      | true => exact ⟨rfl, le_add_right 2 2⟩
      | false => exact ⟨trivial, le_refl 4⟩
  | finishing =>
    cases tombstone with
    | true => exact ⟨trivial, zero_le _⟩
    | false => exact ⟨trivial, le_refl 3⟩
  | settling a =>
    obtain ⟨result, _⟩ := a
    rcases result with error | _ | chunk
    · exact ⟨trivial, zero_le _⟩
    · exact ⟨trivial, zero_le _⟩
    · exact ⟨trivial, le_refl 2⟩
  | secondLook =>
    cases tombstone with
    | true => exact ⟨trivial, le_refl 1⟩
    | false => exact ⟨trivial, zero_le _⟩
  | reviving | returned => exact ⟨trivial, le_refl 0⟩

variable {a : Act}

theorem doomed_other (hcancel : s.cancel = .returned) (h : Doomed s) (ha : a.isRead = false) :
    Doomed (step s a).1 ∧ (step s a).1.cancel = .returned ∧ (step s a).1.read = s.read := by
  obtain ⟨handle, registry, tombstone, waiter, arrived, read, cancel⟩ := s
  dsimp only at hcancel
  subst hcancel
  cases a with
  | read => cases ha
  | cancel | arrive => exact ⟨h, rfl, rfl⟩
  | wakeOthers =>
    refine ⟨?_, rfl, rfl⟩
    cases read with
    | waiting =>
      obtain ⟨htombstone, hwoken⟩ : tombstone ∧ waiter = some true := h
      subst htombstone hwoken
      exact ⟨rfl, rfl⟩
    | _ => exact h
  | takeTrailers =>
    rw [step]
    rcases takeTrailers_cases ⟨handle, registry, tombstone, waiter, arrived, read, .returned⟩ with hsame | ⟨-, htaken⟩
    · rw [hsame]
      exact ⟨h, rfl, rfl⟩
    · rw [htaken]
      cases read with
      | start => exact ⟨rfl, rfl, rfl⟩
      | _ => exact ⟨h, rfl, rfl⟩

theorem doomed_run (hcancel : s.cancel = .returned) (h : Doomed s) (acts : List Act) :
    (run step s acts).1.read.rank ≤ s.read.rank - acts.countP Act.isRead := by
  induction acts generalizing s with
  | nil => exact le_refl _
  | cons a acts ih =>
    rw [run, List.countP_cons]
    cases ha : a.isRead with
    | true =>
      obtain ⟨wake, rfl⟩ : ∃ wake, a = .read wake := by
        cases a with
        | read wake => exact ⟨wake, rfl⟩
        | _ => cases ha
      obtain ⟨hdoomed, _⟩ := doomed_read h wake
      have hrest := ih ((read_frame s wake).1.trans hcancel) hdoomed
      rw [if_pos rfl]
      exact le_trans hrest (by omega)
    | false =>
      obtain ⟨hdoomed, hcancel', hread⟩ := doomed_other hcancel h ha
      have hrest := ih hcancel' hdoomed
      rw [hread] at hrest
      exact hrest

theorem Read.rank_le (r : Read) : r.rank ≤ 5 := by
  cases r <;> simp only [Read.rank] <;> omega

theorem Read.eq_returned {r : Read} (h : r.rank = 0) : r = .returned := by
  cases r with
  | returned => rfl
  | _ => cases h

/-! ## The cancel dooms the read -/

def Missed (s : State) : Prop :=
  match s.read with
  | .start => s.registry = none
  | _ => True

/-- `Doomed`, but for the wake. -/
def Caught (s : State) : Prop :=
  match s.read with
  | .start => s.registry = none
  | .arming _ | .looking _ | .waiting _ => s.tombstone = true
  | _ => True

def Phase (s : State) : Prop :=
  match s.cancel with
  | .idle => True
  | .looked => Missed s
  | .marked => Caught s
  | .returned => Doomed s

structure Sound (s : State) : Prop where
  /-- The body is in one place. -/
  alone : s.read.holds = true → s.registry = none
  enrolled : s.read.listens = true → s.waiter.isSome = true
  phase : Phase s

/-- Begun, and past its waiting: nothing is asked of the read any more, but that the body is in one place. -/
def Read.free : Read → Bool
  | .start | .arming _ | .looking _ | .waiting _ => false
  | _ => true

theorem sound_of_free (hfree : s.read.free) (alone : s.read.holds → s.registry = none) : Sound s := by
  obtain ⟨_, _, _, _, _, read, cancel⟩ := s
  cases read with
  | start | arming | looking | waiting => cases hfree
  | _ => exact ⟨alone, nofun, by cases cancel <;> trivial⟩

theorem sound_read (h : Sound s) (wake : Bool) : Sound (readStep s wake).1 := by
  obtain ⟨_, registry, tombstone, _, arrived, read, cancel⟩ := s
  obtain ⟨alone, enrolled, phase⟩ := h
  cases read with
  | start =>
    cases registry with
    | none => exact sound_of_free rfl nofun
    | some =>
      refine ⟨fun _ => rfl, nofun, ?_⟩
      cases cancel with
      | idle => trivial
      | _ => cases phase
  | arming =>
    refine ⟨alone, fun _ => rfl, ?_⟩
    cases cancel <;> exact phase
  | looking =>
    cases tombstone with
    | true => exact sound_of_free rfl nofun
    | false =>
      refine ⟨alone, enrolled, ?_⟩
      cases cancel with
      | idle | looked => trivial
      | _ => cases phase
  | waiting body =>
    show Sound (waitStep _ body wake).1
    rw [waitStep]
    split
    · refine ⟨alone, nofun, ?_⟩
      cases cancel with
      | returned => exact phase.1
      | _ => exact phase
    · cases arrived with
      | none => exact ⟨alone, enrolled, phase⟩
      | some => exact sound_of_free rfl fun _ => alone rfl
  | finishing =>
    cases tombstone with
    | true => exact sound_of_free rfl nofun
    | false => exact sound_of_free rfl fun _ => alone rfl
  | settling a =>
    obtain ⟨result, _⟩ := a
    rcases result with error | _ | chunk <;> exact sound_of_free rfl nofun
  | secondLook => cases tombstone <;> exact sound_of_free rfl nofun
  | reviving => exact sound_of_free rfl nofun
  | returned => exact ⟨alone, enrolled, phase⟩

theorem sound_cancel (h : Sound s) : Sound (cancelStep s) := by
  obtain ⟨_, registry, _, waiter, _, read, cancel⟩ := s
  obtain ⟨alone, enrolled, phase⟩ := h
  cases cancel with
  | idle =>
    cases registry with
    | none =>
      refine ⟨alone, enrolled, ?_⟩
      cases read <;> trivial
    | some body =>
      -- the body is here, so the read does not have it
      refine ⟨fun _ => rfl, enrolled, ?_⟩
      cases read with
      | arming | looking | waiting => cases alone rfl
      | _ => trivial
  | looked =>
    refine ⟨alone, enrolled, ?_⟩
    cases read with
    | start => exact phase
    | _ => trivial
  | marked =>
    cases waiter with
    | none =>
      refine ⟨alone, enrolled, ?_⟩
      cases read with
      | waiting => cases enrolled rfl
      | _ => exact phase
    | some =>
      refine ⟨alone, fun _ => rfl, ?_⟩
      cases read with
      | waiting => exact ⟨phase, rfl⟩
      | _ => exact phase
  | returned => exact ⟨alone, enrolled, phase⟩

theorem sound_notify (h : Sound s) : Sound (notifyWaiters s) := by
  obtain ⟨_, _, _, waiter, _, read, cancel⟩ := s
  obtain ⟨alone, enrolled, phase⟩ := h
  cases waiter with
  | none => exact ⟨alone, enrolled, phase⟩
  | some =>
    refine ⟨alone, fun _ => rfl, ?_⟩
    cases cancel with
    | returned =>
      cases read with
      | waiting => exact ⟨phase.1, rfl⟩
      | _ => exact phase
    | _ => exact phase

theorem sound_takeTrailers (h : Sound s) : Sound (takeTrailers s) := by
  rcases takeTrailers_cases s with hsame | ⟨hcancel, htaken⟩
  · rw [hsame]
    exact h
  · rw [htaken]
    refine ⟨fun _ => rfl, h.enrolled, ?_⟩
    have hphase := h.phase
    obtain ⟨_, _, _, _, _, read, _⟩ := s
    rcases hcancel with rfl | rfl
    · trivial
    · cases read with
      | start => rfl
      | _ => exact hphase

theorem sound_step (h : Sound s) (a : Act) : Sound (step s a).1 := by
  cases a with
  | read wake => exact sound_read h wake
  | cancel => exact sound_cancel h
  | arrive => exact ⟨h.alone, h.enrolled, h.phase⟩
  | wakeOthers => exact sound_notify h
  | takeTrailers => exact sound_takeTrailers h

/-! ## The tombstone comes in time, or it stays -/

/-- The read will find the tombstone, or has no body to put back. -/
def InTime (s : State) : Prop :=
  match s.read with
  | .start | .returned => s.registry = none
  | .secondLook _ => s.registry.isSome = true → s.tombstone = true
  | .reviving _ => True
  | _ => s.tombstone = true

def KeptPhase (s : State) : Prop :=
  match s.cancel with
  | .idle | .looked => s.tombstone = false
  | .marked | .returned => InTime s

structure Kept (s : State) : Prop where
  sound : Sound s
  heard : s.tombstone = true → s.read.willLook = true
  phase : KeptPhase s

theorem Kept.of_quiet (hsound : Sound s) (htombstone : s.tombstone = false)
    (hcancel : s.cancel = .idle ∨ s.cancel = .looked) : Kept s where
  sound := hsound
  heard := fun h => by
    rw [htombstone] at h
    cases h
  phase := by
    rw [KeptPhase]
    rcases hcancel with hc | hc <;> rw [hc] <;> exact htombstone

theorem Kept.of_inTime (hsound : Sound s) (hheard : s.tombstone → s.read.willLook)
    (hcancel : s.cancel = .marked ∨ s.cancel = .returned) (h : InTime s) : Kept s where
  sound := hsound
  heard := hheard
  phase := by
    rw [KeptPhase]
    rcases hcancel with hc | hc <;> rw [hc] <;> exact h

theorem inTime_read (halone : s.read.holds → s.registry = none)
    (hheard : s.tombstone → s.read.willLook) (h : InTime s) (wake : Bool) :
    InTime (readStep s wake).1 ∧ ((readStep s wake).1.tombstone → (readStep s wake).1.read.willLook) := by
  obtain ⟨_, registry, tombstone, _, arrived, read, _⟩ := s
  cases read with
  | start =>
    obtain rfl : registry = none := h
    exact ⟨rfl, hheard⟩
  | arming => exact ⟨h, hheard⟩
  | looking =>
    obtain rfl : tombstone := h
    exact ⟨halone rfl, nofun⟩
  | waiting body =>
    show InTime (waitStep _ body wake).1 ∧ ((waitStep _ body wake).1.tombstone → (waitStep _ body wake).1.read.willLook)
    rw [waitStep]
    split
    · exact ⟨h, fun _ => rfl⟩
    · cases arrived with
      | none => exact ⟨h, hheard⟩
      | some => exact ⟨h, fun _ => rfl⟩
  | finishing =>
    obtain rfl : tombstone := h
    exact ⟨halone rfl, nofun⟩
  | settling a =>
    obtain rfl : tombstone := h
    obtain ⟨result, body⟩ := a
    rcases result with error | _ | chunk
    · cases hheard rfl
    · cases hheard rfl
    · exact ⟨fun _ => rfl, fun _ => rfl⟩
  | secondLook =>
    cases tombstone with
    | true => exact ⟨trivial, nofun⟩
    | false =>
      refine ⟨?_, nofun⟩
      cases registry with
      | none => rfl
      | some => cases h rfl
  | reviving => exact ⟨rfl, hheard⟩
  | returned => exact ⟨h, hheard⟩

theorem Kept.cases (h : Kept s) : ((s.cancel = .idle ∨ s.cancel = .looked) ∧ s.tombstone = false) ∨
    ((s.cancel = .marked ∨ s.cancel = .returned) ∧ InTime s) := by
  have hphase := h.phase
  rw [KeptPhase] at hphase
  cases hcancel : s.cancel <;> rw [hcancel] at hphase <;> simp only [hphase] <;> simp

theorem kept_read (h : Kept s) (wake : Bool) : Kept (readStep s wake).1 := by
  have hsound := sound_read h.sound wake
  rcases h.cases with ⟨hcancel, hquiet⟩ | ⟨_, htime⟩
  · exact .of_quiet hsound ((read_frame s wake).2 hquiet) (by rwa [(read_frame s wake).1])
  · obtain ⟨htime', hheard'⟩ := inTime_read h.sound.alone h.heard htime wake
    exact .of_inTime hsound hheard' (by rwa [(read_frame s wake).1]) htime'

theorem kept_cancel (h : Kept s) (htimely : timely s .cancel) : Kept (cancelStep s) := by
  have hsound := sound_cancel h.sound
  have halone := h.sound.alone
  obtain ⟨_, registry, tombstone, _, _, read, cancel⟩ := s
  cases cancel with
  | idle =>
    obtain rfl : tombstone = false := h.phase
    cases registry with
    | none => exact .of_quiet hsound rfl (.inr rfl)
    | some body =>
      -- the body is here, so the read does not have it
      refine .of_inTime hsound h.heard (.inr rfl) ?_
      cases read with
      | start | returned => rfl
      | secondLook => exact nofun
      | reviving => trivial
      | _ => cases halone rfl
  | looked =>
    have hlook : read.willLook := htimely
    refine .of_inTime hsound (fun _ => hlook) (.inl rfl) ?_
    cases read with
    | start | returned | reviving => cases hlook
    | secondLook => exact fun _ => rfl
    | _ => rfl
  | marked => exact .of_inTime hsound h.heard (.inr rfl) h.phase
  | returned => exact h

theorem kept_takeTrailers (h : Kept s) : Kept (takeTrailers s) := by
  have hsound := sound_takeTrailers h.sound
  rcases takeTrailers_cases s with hsame | ⟨hcancel, htaken⟩
  · rw [hsame]
    exact h
  · rw [htaken] at hsound ⊢
    rcases h.cases with ⟨hcancel, hquiet⟩ | ⟨hcancel, htime⟩
    · exact .of_quiet hsound hquiet hcancel
    · refine .of_inTime hsound h.heard hcancel ?_
      obtain ⟨_, _, _, _, _, read, _⟩ := s
      cases read with
      | start | returned => rfl
      | secondLook => exact nofun
      | _ => exact htime

theorem kept_step (h : Kept s) (htimely : timely s a) : Kept (step s a).1 := by
  cases a with
  | read wake => exact kept_read h wake
  | cancel => exact kept_cancel h htimely
  | arrive a => exact ⟨sound_step h.sound (.arrive a), h.heard, h.phase⟩
  | wakeOthers => exact ⟨sound_notify h.sound, h.heard, h.phase⟩
  | takeTrailers => exact kept_takeTrailers h

/-- The tombstone was left behind the read's last look. -/
structure Lost (s : State) : Prop where
  tombstone : s.tombstone = true
  unheard : s.read.willLook = false
  start : s.read = .start → s.registry = none

theorem lost_of_late (h : Kept s) (hlate : timely s a = false) : Lost (step s a).1 := by
  cases a with
  | cancel =>
    obtain ⟨hcancel, hlook⟩ : s.cancel = .looked ∧ s.read.willLook = false := by simpa [timely] using hlate
    have hstep : (step s .cancel).1 = { s with tombstone := true, cancel := .marked } := by
      rw [step, cancelStep, hcancel]
    have hmissed := h.sound.phase
    rw [Phase, hcancel] at hmissed
    rw [hstep]
    refine ⟨rfl, hlook, fun hstart => ?_⟩
    rw [Missed, show s.read = .start from hstart] at hmissed
    exact hmissed
  | _ => cases hlate

theorem lost_step (h : Lost s) (a : Act) : Lost (step s a).1 := by
  obtain ⟨handle, registry, _, waiter, arrived, read, cancel⟩ := s
  obtain ⟨htombstone, hunheard, hstart⟩ := h
  dsimp only at htombstone hunheard hstart
  subst htombstone
  cases a with
  | read =>
    cases read with
    | start =>
      obtain rfl := hstart rfl
      exact ⟨rfl, rfl, by simp [step, readStep]⟩
    | settling a =>
      obtain ⟨result, _⟩ := a
      rcases result with error | _ | chunk
      · exact ⟨rfl, rfl, by simp [step, readStep, settle]⟩
      · exact ⟨rfl, rfl, by simp [step, readStep, settle]⟩
      · cases hunheard
    | reviving => exact ⟨rfl, rfl, by simp [step, readStep]⟩
    | returned => exact ⟨rfl, rfl, hstart⟩
    | _ => cases hunheard
  | cancel =>
    rw [step, cancelStep]
    cases cancel with
    | idle =>
      dsimp only
      split
      · exact ⟨rfl, hunheard, fun _ => rfl⟩
      · exact ⟨rfl, hunheard, hstart⟩
    | looked | marked | returned => exact ⟨rfl, hunheard, hstart⟩
  | arrive | wakeOthers => exact ⟨rfl, hunheard, hstart⟩
  | takeTrailers =>
    rw [step]
    rcases takeTrailers_cases ⟨handle, registry, true, waiter, arrived, read, cancel⟩ with hsame | ⟨-, htaken⟩
    · rw [hsame]
      exact ⟨rfl, hunheard, hstart⟩
    · rw [htaken]
      exact ⟨rfl, hunheard, fun _ => rfl⟩

/-- **Every run is one or the other.** -/
theorem kept_or_lost (h : Kept s) (acts : List Act) :
    (Along step timely s acts ∧ Kept (run step s acts).1) ∨ (¬Along step timely s acts ∧ Lost (run step s acts).1) := by
  induction acts generalizing s with
  | nil => exact .inl ⟨trivial, h⟩
  | cons a acts ih =>
    cases htimely : timely s a with
    | true =>
      rcases ih (kept_step h htimely) with ⟨halong, hkept⟩ | ⟨halong, hlost⟩
      · exact .inl ⟨⟨htimely, halong⟩, hkept⟩
      · exact .inr ⟨fun h => halong h.2, hlost⟩
    | false =>
      refine .inr ⟨fun halong => ?_, ?_⟩
      · have htrue : timely s a := halong.1
        rw [htimely] at htrue
        cases htrue
      · -- nothing takes a lost tombstone away
        exact run_keeps Lost (fun _ a h => lost_step h a) (lost_of_late h htimely) acts

theorem kept_start (handle : Nat) (body : FetchBody) : Kept (start handle body) where
  sound := ⟨nofun, nofun, trivial⟩
  heard := nofun
  phase := rfl

/-- **A cancelled body is let go, if the cancel is in time.** Once the cancel has returned the read returns within five
    sections; and nothing of the handle stays exactly if the tombstone was left while the read had yet to look. -/
theorem cancelled_body_let_go (handle : Nat) (body : FetchBody) (acts : List Act) :
    ((run step (start handle body) acts).1.cancel = .returned → ∀ more : List Act, 5 ≤ more.countP Act.isRead →
        (run step (start handle body) (acts ++ more)).1.read = .returned) ∧
    ((run step (start handle body) acts).1.cancel = .returned → (run step (start handle body) acts).1.read = .returned →
      ((run step (start handle body) acts).1.registry = none ∧ (run step (start handle body) acts).1.tombstone = false ↔
        Along step timely (start handle body) acts)) := by
  refine ⟨fun hcancel more hmore => ?_, fun hcancel hread => ?_⟩
  · have hsound : Sound (run step (start handle body) acts).1 :=
      run_keeps Sound (fun _ a h => sound_step h a) (kept_start handle body).sound acts
    have hdoomed := hsound.phase
    rw [Phase, hcancel] at hdoomed
    have hrank := doomed_run hcancel hdoomed more
    have hle := (run step (start handle body) acts).1.read.rank_le
    have hzero : (run step (run step (start handle body) acts).1 more).1.read.rank = 0 := by omega
    rw [run_append]
    exact Read.eq_returned hzero
  · rcases kept_or_lost (kept_start handle body) acts with ⟨halong, hkept⟩ | ⟨halong, hlost⟩
    · refine iff_of_true ⟨?_, ?_⟩ halong
      · have hphase := hkept.phase
        rw [KeptPhase, hcancel] at hphase
        rw [InTime, hread] at hphase
        exact hphase
      · cases htombstone : (run step (start handle body) acts).1.tombstone with
        | false => rfl
        | true =>
          have hheard := hkept.heard htombstone
          rw [hread] at hheard
          cases hheard
    · refine iff_of_false (fun h => ?_) halong
      rw [hlost.tombstone] at h
      cases h.2

/-- The read waits when the tombstone is left; the wake makes it look, and nothing of the handle stays. -/
theorem cancelled_body_let_go_waiting :
    let acts := [.read false, .read false, .read false, .cancel, .cancel, .cancel, .read true, .read false, .read false]
    let last := (run step (start 1 ⟨none, none, false⟩) acts).1
    Along step timely (start 1 ⟨none, none, false⟩) acts ∧ last.registry = none ∧ last.tombstone = false := by
  intro acts last
  have halong : Along step timely (start 1 ⟨none, none, false⟩) acts := by decide +kernel
  have hgo := (cancelled_body_let_go 1 ⟨none, none, false⟩ acts).2 (by decide +kernel) (by decide +kernel)
  exact ⟨halong, hgo.mpr halong⟩

/-- **The cancel's own gap.** It looks while the read has the body; the body is put back and looked at before the
    tombstone is left. -/
theorem cancel_between_sections_revives : ∃ (body : FetchBody) (acts : List Act),
    (run step (start 1 body) acts).1.cancel = .returned ∧ (run step (start 1 body) acts).1.read = .returned ∧
    (run step (start 1 body) acts).1.registry = some body ∧ (run step (start 1 body) acts).1.tombstone = true := by
  refine ⟨⟨none, none, false⟩, [.read false, .read false, .read false, .cancel, .arrive ⟨.ok (some [7]), ⟨none, none, false⟩⟩,
    .read false, .read false, .read false, .read false, .cancel, .cancel], ?_⟩
  decide +kernel

end Oam.Fetch.BodyReads
