/-
  A spawned child's output, on the plain spawn path.  A read takes the pipe's end out of the registry's entry, reads
  without the lock and puts it back; `child_wait` removes the entry when the child has exited.  Nothing makes the wait
  wait for the reads: bytes still in the pipe are lost (`tail_lost_at_exit`).
-/
import Oam.Lib.Bytes
import Oam.Lib.Trace

namespace Oam.Child

open List Trace

/-! ## Program -/

/-- A pipe: what was written and not read, and whether someone can still write to it. -/
structure Pipe where
  unread : Bytes
  writers : Bool
deriving DecidableEq

def Pipe.atEof (p : Pipe) : Bool := p.unread.isEmpty && !p.writers

/-- A read loop: before a read, in it, with what it returned (nothing at end of file), at its end. -/
inductive Loop where
  | idle
  | reading
  | read (chunk : Bytes)
  | ended
deriving DecidableEq

/-- One output of the child; `slot` is the read end in the entry, with its busy flag. -/
structure End where
  pipe : Pipe
  slot : Bool
  busy : Bool
  loop : Loop
deriving DecidableEq

inductive Act where
  | write (bytes : Bytes)
  | shut
  | take
  | poll (most : Nat)
  | put
deriving DecidableEq

inductive Event where
  | wrote (bytes : Bytes)
  | chunk (bytes : Bytes)
  | ended
deriving DecidableEq

def readSize : Nat := 65536

/-- The read end is open: in the entry, or out with a read. -/
def End.readable (e : End) : Bool :=
  e.slot || match e.loop with
    | .idle | .ended => false
    | .reading | .read _ => true

/-- One action on an end; `entry`: the registry still has the child. -/
def End.act (entry : Bool) (e : End) : Act → End × List Event
  -- Without a reader a write fails.
  | .write bytes =>
    if e.pipe.writers && e.readable then ({ e with pipe.unread := e.pipe.unread ++ bytes }, [.wrote bytes])
    else (e, [])
  | .shut => ({ e with pipe.writers := false }, [])
  | .take =>
    match e.loop with
    | .idle =>
      if entry && e.busy then (e, [])
      else if entry && e.slot then ({ e with slot := false, busy := true, loop := .reading }, [])
      else ({ e with loop := .ended }, [.ended])
    | _ => (e, [])
  | .poll most =>
    match e.loop with
    | .reading =>
      if e.pipe.unread ≠ [] then
        -- At least one byte, and no more than the buffer holds.
        let n := min (most + 1) readSize
        ({ e with pipe.unread := e.pipe.unread.drop n, loop := .read (e.pipe.unread.take n) }, [])
      else if e.pipe.writers then (e, [])
      else ({ e with loop := .read [] }, [])
    | _ => (e, [])
  | .put =>
    match e.loop with
    | .read [] => ({ e with busy := e.busy && !entry, loop := .ended }, [.ended])
    | .read chunk => ({ e with slot := entry, busy := e.busy && !entry, loop := .idle }, [.chunk chunk])
    | _ => (e, [])

inductive Side where
  | stdout
  | stderr
deriving DecidableEq

structure ChildProcess where
  entry : Bool
  exited : Bool
  ends : Side → End

inductive Move where
  | act (side : Side) (a : Act)
  | exit
  | remove
deriving DecidableEq

def start : ChildProcess := ⟨true, false, fun _ => ⟨⟨[], true⟩, true, false, .idle⟩⟩

def step (c : ChildProcess) : Move → ChildProcess × List (Side × Event)
  | .act side a =>
    ({ c with ends := fun t => if t = side then ((c.ends side).act c.entry a).1 else c.ends t },
      ((c.ends side).act c.entry a).2.map (side, ·))
  | .exit => ({ c with exited := true }, [])
  -- `child_wait` goes on when the child has exited; the entry goes with the ends that are in it.
  | .remove =>
    if c.exited && c.entry then ({ c with entry := false, ends := fun t => { c.ends t with slot := false } }, [])
    else (c, [])

/-! ## Specification -/

@[simp] def Event.written : Event → Bytes
  | .wrote bytes => bytes
  | _ => []

@[simp] def Event.delivered : Event → Bytes
  | .chunk bytes => bytes
  | _ => []

def sideLog (side : Side) (log : List (Side × Event)) : List Event :=
  (log.filter fun e => e.1 = side).map Prod.snd

def written (log : List Event) : Bytes := log.flatMap Event.written

def delivered (log : List Event) : Bytes := log.flatMap Event.delivered

/-- A read that finds no entry to put its end back into is at end of file. -/
def End.lastReadOk (entry : Bool) (e : End) : Act → Bool
  | .put =>
    match e.loop with
    | .read _ => entry || e.pipe.atEof
    | _ => true
  | _ => true

def dropsAtEof (c : ChildProcess) : Move → Bool
  | .act side a => (c.ends side).lastReadOk c.entry a
  | .exit => true
  | .remove => !c.exited || [Side.stdout, Side.stderr].all fun t => !(c.ends t).slot || (c.ends t).pipe.atEof

/-! ## Correctness -/

def Loop.hand : Loop → Bytes
  | .read chunk => chunk
  | _ => []

structure EndOk (entry : Bool) (e : End) (log : List Event) : Prop where
  kept : written log = delivered log ++ (e.loop.hand ++ e.pipe.unread)
  gone : e.readable = false → e.pipe.atEof = true
  eof : e.loop = .read [] → e.pipe.atEof = true
  ended : .ended ∈ log → e.loop = .ended
  home : entry = false → e.slot = false
  rest : e.loop ≠ .idle → e.slot = false

/-- **A step of one pipe or of its loop keeps what is owed to the loop.** -/
theorem EndOk.act {entry : Bool} {e : End} {log : List Event} (h : EndOk entry e log) (a : Act)
    (hok : e.lastReadOk entry a) : EndOk entry (e.act entry a).1 (log ++ (e.act entry a).2) := by
  have stay : EndOk entry e (log ++ []) := by rwa [append_nil]
  obtain ⟨⟨_, _⟩, slot, _, loop⟩ := e
  obtain ⟨hkept, hgone, heof, hended, hhome, hrest⟩ := h
  simp only [End.readable, Pipe.atEof] at hkept hgone heof hended hhome hrest
  cases a with
  | write =>
    simp only [End.act]
    split
    case isTrue hw =>
      obtain ⟨rfl, hr⟩ := Bool.and_eq_true_iff.mp hw
      refine ⟨?_, ?_, ?_, ?_, hhome, hrest⟩ <;> simp_all [written, delivered, End.readable]
    case isFalse => exact stay
  | shut =>
    refine ⟨?_, ?_, ?_, ?_, hhome, hrest⟩ <;> simp_all [End.act, End.readable, Pipe.atEof]
  | take =>
    cases loop with
    | idle =>
      simp only [End.act]
      split
      case isTrue => exact stay
      case isFalse =>
        split
        case isTrue => constructor <;> simp_all [Loop.hand, End.readable]
        case isFalse hs =>
          -- No end in the entry, or no entry: none is out with this loop, so the pipe is at end of file.
          have hslot : slot = false := by
            cases entry with
            | false => exact hhome rfl
            | true => simpa using hs
          subst hslot
          constructor <;> simp_all [written, delivered, Loop.hand, Pipe.atEof]
    | reading | read | ended => exact stay
  | poll =>
    cases loop with
    | reading =>
      simp only [End.act]
      split
      case isTrue hu =>
        refine ⟨?_, ?_, ?_, ?_, hhome, ?_⟩ <;> simp_all [Loop.hand, End.readable, readSize]
      case isFalse hu =>
        split
        case isTrue => exact stay
        case isFalse => constructor <;> simp_all [Loop.hand, Pipe.atEof]
    | idle | read | ended => exact stay
  | put =>
    cases loop with
    | read chunk =>
      cases chunk with
      | nil => constructor <;> simp_all [End.act, written, delivered, Loop.hand, Pipe.atEof]
      | cons =>
        -- The end goes back into the entry; without one it is at end of file.
        simp only [End.lastReadOk] at hok
        cases entry <;> constructor <;> simp_all [End.act, written, delivered, Loop.hand, End.readable]
    | idle | reading | ended => exact stay

def ChildOk (c : ChildProcess) (log : List (Side × Event)) : Prop :=
  ∀ side, EndOk c.entry (c.ends side) (sideLog side log)

theorem sideLog_map (side t : Side) (events : List Event) :
    sideLog t (events.map (side, ·)) = if t = side then events else [] := by
  induction events with
  | nil => simp [sideLog]
  | cons e events ih =>
    by_cases h : t = side
    · subst h
      simpa [sideLog] using ih
    · have h' : side ≠ t := fun he => h he.symm
      simp [sideLog, h, h']

theorem step_ok (c : ChildProcess) (log : List (Side × Event)) (m : Move) (hok : dropsAtEof c m)
    (h : ChildOk c log) : ChildOk (step c m).1 (log ++ (step c m).2) := by
  intro t
  rw [sideLog, filter_append, map_append, ← sideLog, ← sideLog]
  cases m with
  | act side a =>
    simp only [step, sideLog_map]
    by_cases ht : t = side
    · subst ht
      simpa only [if_true] using (h t).act a hok
    · simpa only [if_neg ht, append_nil] using h t
  | exit => simpa only [step, sideLog, filter_nil, map_nil, append_nil] using h t
  | remove =>
    simp only [step]
    split
    case isTrue hr =>
      obtain ⟨_, _, heof, _, _, _⟩ := h t
      have hdrop : (c.ends t).slot → (c.ends t).pipe.atEof := by
        intro hs
        cases t <;> simp_all [dropsAtEof]
      refine ⟨?_, ?_, heof, ?_, fun _ => rfl, fun _ => rfl⟩ <;> simp_all [sideLog, End.readable]
      intro hl
      cases hs : (c.ends t).slot <;> simp_all
    case isFalse => simpa only [sideLog, filter_nil, map_nil, append_nil] using h t

theorem start_ok : ChildOk start [] := by
  intro side
  constructor <;> simp [start, sideLog, written, delivered, Loop.hand, End.readable]

/-- **The whole output is delivered.** As long as an end is dropped at end of file only, a loop gets what was written,
    in order, and all of it before the end. -/
theorem output_delivered (moves : List Move) (h : Along step dropsAtEof start moves) (side : Side) :
    let c := (run step start moves).1
    let log := sideLog side (run step start moves).2
    delivered log <+: written log ∧ (.ended ∈ log → delivered log = written log ∧ (c.ends side).pipe.atEof = true) := by
  have hinv := run_invariant_along step_ok start_ok h side
  rw [nil_append] at hinv
  refine ⟨⟨_, hinv.kept.symm⟩, fun hend => ?_⟩
  have hl := hinv.ended hend
  have heof := hinv.gone (by simp [End.readable, hl, hinv.rest (by simp [hl])])
  have hunread := List.isEmpty_iff.mp (Bool.and_eq_true_iff.mp heof).1
  refine ⟨?_, heof⟩
  rw [hinv.kept, hl, hunread]
  exact (append_nil _).symm

/-- The loop reads to end of file, then the wait removes the entry. -/
theorem output_delivered_read_first :
    let moves : List Move := [.act .stdout (.write [104, 105]), .act .stdout .take, .act .stdout (.poll 9),
      .act .stdout .put, .act .stdout .shut, .act .stderr .shut, .exit, .act .stdout .take, .remove,
      .act .stdout (.poll 9), .act .stdout .put]
    Along step dropsAtEof start moves ∧ delivered (sideLog .stdout (run step start moves).2) = [104, 105] :=
  ⟨by decide +kernel,
    ((output_delivered _ (by decide +kernel) .stdout).2 (by decide +kernel)).1.trans (by decide +kernel)⟩

/-- The child writes and exits; the wait is first at the lock, and the loop is told that nothing was written. -/
theorem tail_lost_at_exit :
    let moves : List Move := [.act .stdout (.write [104, 105]), .act .stdout .shut, .act .stderr .shut, .exit,
      .remove, .act .stdout .take]
    sideLog .stdout (run step start moves).2 = [.wrote [104, 105], .ended] ∧
      ((run step start moves).1.ends .stdout).pipe.atEof = false := by
  decide +kernel

end Oam.Child
