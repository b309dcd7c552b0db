/-
  `oam_core/src/child.rs`: a kill, handed to the task that waits for the child (Unix, plain spawn).  The registry's entry
  holds ONE signal and the notifier ONE permit, and `child_wait` takes no second kill (`second_kill_is_lost`).
-/
import Mathlib.Data.List.Basic

namespace Oam.Child.Kill

/-! ## Data -/

/-- Where `child_wait` is.  The registry has the entry up to `done`. -/
inductive Phase where
  | spawned
  | selecting
  | notified
  | delivering (requested : Option String)
  | signalling (requested : Option String)
  | waiting
  | reaping
  | done
deriving DecidableEq

/-- The registry's entry, the child, and of its history what was asked for and what was sent. -/
structure World where
  killSignal : Option String := none
  permit : Bool := false
  exited : Bool := false
  reaped : Bool := false
  phase : Phase := .spawned
  /-- The signals asked for while the child lived. -/
  asked : List (Option String) := []
  /-- The signals sent, and whether the child was reaped by then. -/
  sent : List (Nat × Bool) := []

/-- A kill, the child's exit, or `child_wait` up to where it lets go of the lock or may wait. -/
inductive Step where
  | childKill (signal : Option String)
  | exits
  | childWait
  /-- The select polls its two branches in either order. -/
  | poll (killFirst : Bool)
  | readSignal
  | tryWait (fails : Bool)
  | deliver
  | finish

/-! ## Program -/

def sigterm : Nat := 15

/-- The numbers are those of Linux. -/
def signalNumber : String → Option Nat
  | "SIGHUP" => some 1
  | "SIGINT" => some 2
  | "SIGQUIT" => some 3
  | "SIGABRT" => some 6
  | "SIGKILL" => some 9
  | "SIGUSR1" => some 10
  | "SIGUSR2" => some 12
  | "SIGTERM" => some sigterm
  | "SIGCONT" => some 18
  | "SIGSTOP" => some 19
  | _ => none

/-- The number that `deliver_kill` sends. -/
def signumOf (signal : Option String) : Nat := ((signal.map signalNumber).getD (some sigterm)).getD sigterm

/-- `child_kill`, and `child_wait` with `deliver_kill` cut in pieces. -/
def step (w : World) (a : Step) : World :=
  match a, w.phase with
  | .childKill _, .done => w
  | .childKill signal, _ =>
    { w with
      killSignal := signal, permit := true,
      asked := if w.exited then w.asked else w.asked ++ [signal] }
  | .exits, _ => { w with exited := true }
  | .childWait, .spawned => { w with phase := .selecting }
  | .poll killFirst, .selecting =>
    if w.permit && (killFirst || !w.exited) then { w with permit := false, phase := .notified }
    else if w.exited then { w with reaped := true, phase := .reaping }
    else w
  | .poll _, .waiting => if w.exited then { w with reaped := true, phase := .reaping } else w
  | .readSignal, .notified => { w with phase := .delivering w.killSignal }
  | .tryWait fails, .delivering requested =>
    if w.exited && !fails then { w with reaped := true, phase := .waiting }
    else { w with phase := .signalling requested }
  | .deliver, .signalling requested =>
    { w with phase := .waiting, sent := w.sent ++ [(signumOf requested, w.reaped)] }
  | .finish, .reaping => { w with phase := .done }
  | _, _ => w

/-- `child_wait` waits, with nothing left to do. -/
def World.parked (w : World) : Bool := !w.exited && (w.phase = .selecting && !w.permit || w.phase = .waiting)

/-! ## Specification -/

/-- `os.constants.signals`. -/
def signals : List (String × Nat) :=
  [("SIGHUP", 1), ("SIGINT", 2), ("SIGQUIT", 3), ("SIGILL", 4), ("SIGTRAP", 5),
   ("SIGABRT", 6), ("SIGBUS", 7), ("SIGFPE", 8), ("SIGKILL", 9), ("SIGUSR1", 10),
   ("SIGSEGV", 11), ("SIGUSR2", 12), ("SIGPIPE", 13), ("SIGALRM", 14), ("SIGTERM", 15),
   ("SIGCHLD", 17), ("SIGCONT", 18), ("SIGSTOP", 19), ("SIGTSTP", 20), ("SIGTTIN", 21),
   ("SIGTTOU", 22), ("SIGURG", 23), ("SIGXCPU", 24), ("SIGXFSZ", 25), ("SIGVTALRM", 26),
   ("SIGPROF", 27), ("SIGWINCH", 28), ("SIGIO", 29), ("SIGINFO", 29), ("SIGSYS", 31)]

/-- The number of the signal asked for; SIGTERM is the default. -/
def own : Option String → Option Nat
  | none => some sigterm
  | some name => signals.lookup name

/-- `signal_number` knows the name, if there is one. -/
def known : Option String → Bool
  | none => true
  | some name => (signalNumber name).isSome

/-- **The signal sent is the one asked for iff its name is known**: any other name falls back to SIGTERM. -/
theorem own_eq_signumOf_iff (signal : Option String) : own signal = some (signumOf signal) ↔ known signal := by
  cases signal with
  | none => decide
  | some name =>
    cases hname : signalNumber name with
    | some n =>
      refine iff_of_true ?_ (by simp [known, hname])
      rw [signumOf, Option.map_some, hname]
      unfold signalNumber at hname
      split at hname <;> first | (cases hname; rfl) | nomatch hname
    | none =>
      refine iff_of_false (fun h => ?_) (by simp [known, hname])
      rw [signumOf, Option.map_some, hname] at h
      have hterm : ∀ p ∈ signals, p.2 = sigterm → p.1 = "SIGTERM" := by decide
      obtain ⟨l₁, l₂, hsplit, -⟩ := List.lookup_eq_some_iff.mp h
      have hmem : (name, sigterm) ∈ signals := by
        rw [hsplit]
        exact List.mem_append_right _ List.mem_cons_self
      rw [show name = "SIGTERM" from hterm _ hmem rfl] at hname
      nomatch hname

/-! ## Correctness -/

/-- `signal` is the one kill there was. -/
def Answers (asked : List (Option String)) (signal : Option String) : Prop := asked.length ≤ 1 → asked = [signal]

/-- What a living child was sent, and what is on its way. -/
def Owes (w : World) : Prop :=
  match w.phase with
  | .spawned | .selecting => w.sent = [] ∧ if w.permit then Answers w.asked w.killSignal else w.asked = []
  | .notified => w.sent = [] ∧ Answers w.asked w.killSignal
  | .delivering requested | .signalling requested => w.sent = [] ∧ Answers w.asked requested
  | .waiting => ∃ requested, w.sent = [(signumOf requested, false)] ∧ Answers w.asked requested
  | _ => True

/-- No select is polled any more. -/
def Phase.late : Phase → Bool
  | .waiting | .reaping | .done => true
  | _ => false

/-- What every run keeps. -/
structure Inv (w : World) : Prop where
  reaped : w.phase.late = false → w.reaped = false
  sent : ∀ p ∈ w.sent, p.2 = false
  owes : w.exited = false → Owes w

variable {w : World}

/-- A kill after the first one leaves no claim on which signal comes. -/
theorem Answers.more {asked : List (Option String)} {signal : Option String} (h : Answers asked signal)
    (x m : Option String) : Answers (asked ++ [x]) m := by
  intro hlen
  cases asked with
  | nil => cases h (Nat.zero_le 1)
  | cons head tail => simp at hlen

theorem step_inv (h : Inv w) (a : Step) : Inv (step w a) := by
  obtain ⟨hreaped, hsent, howes⟩ := h
  unfold step
  split
  · exact ⟨hreaped, hsent, howes⟩
  · refine ⟨hreaped, hsent, fun hlive => ?_⟩
    have h := howes hlive
    have hlive : w.exited = false := hlive
    cases hphase : w.phase <;> simp only [Owes, hphase, hlive] at h ⊢
    case spawned | selecting =>
      refine ⟨h.1, ?_⟩
      cases hpermit : w.permit <;> simp only [hpermit] at h
      · exact fun _ => congrArg (· ++ _) h.2
      · exact h.2.more _ _
    case notified | delivering | signalling => exact ⟨h.1, h.2.more _ _⟩
    case waiting =>
      obtain ⟨requested, hsent, h⟩ := h
      exact ⟨requested, hsent, h.more _ requested⟩
  · exact ⟨hreaped, hsent, nofun⟩
  · next hphase =>
    refine ⟨fun _ => hreaped (by rw [hphase]; rfl), hsent, fun hlive => ?_⟩
    simpa [Owes, hphase] using howes hlive
  · next hphase =>
    have hlate : w.reaped = false := hreaped (by rw [hphase]; rfl)
    split
    · next hnotified =>
      refine ⟨fun _ => hlate, hsent, fun hlive => ?_⟩
      simpa [Owes, hphase, (Bool.and_eq_true_iff.mp hnotified).1] using howes hlive
    · split
      · exact ⟨nofun, hsent, fun _ => trivial⟩
      · exact ⟨hreaped, hsent, howes⟩
  · split
    · exact ⟨nofun, hsent, fun _ => trivial⟩
    · exact ⟨hreaped, hsent, howes⟩
  · next hphase =>
    refine ⟨fun _ => hreaped (by rw [hphase]; rfl), hsent, fun hlive => ?_⟩
    simpa [Owes, hphase] using howes hlive
  · next hphase =>
    split
    · next hexited => exact ⟨nofun, hsent, fun hlive => by simp_all⟩
    · refine ⟨fun _ => hreaped (by rw [hphase]; rfl), hsent, fun hlive => ?_⟩
      simpa [Owes, hphase] using howes hlive
  · next hphase =>
    -- Only here is a signal sent, and no phase before it reaps the child.
    have hlate : w.reaped = false := hreaped (by rw [hphase]; rfl)
    refine ⟨nofun, fun p hp => ?_, fun hlive => ?_⟩
    · rcases List.mem_append.mp hp with hp | hp
      · exact hsent p hp
      · rw [List.mem_singleton.mp hp, hlate]
    · have h := howes hlive
      simp only [Owes, hphase] at h
      exact ⟨_, by rw [h.1, hlate]; rfl, h.2⟩
  · exact ⟨nofun, hsent, fun _ => trivial⟩
  · exact ⟨hreaped, hsent, howes⟩

theorem run_inv (steps : List Step) : Inv (steps.foldl step {}) :=
  List.foldlRecOn steps step ⟨fun _ => rfl, nofun, fun _ => ⟨rfl, rfl⟩⟩
    fun _ h a _ => step_inv h a

/-- **A parked wait has sent the signals asked for IFF there was no more than one kill, with a known name,** and
    nothing is ever sent to a reaped pid. -/
theorem kill_is_sent_iff (steps : List Step) :
    let w : World := steps.foldl step {}
    (∀ p ∈ w.sent, p.2 = false) ∧
      (w.parked → (w.sent.map (fun p => some p.1) = w.asked.map own ↔
        w.asked.length ≤ 1 ∧ ∀ signal ∈ w.asked, known signal)) := by
  intro w
  have h : Inv w := run_inv steps
  refine ⟨h.sent, fun hparked => ?_⟩
  simp only [World.parked, Bool.and_eq_true, Bool.or_eq_true, Bool.not_eq_true', decide_eq_true_eq] at hparked
  have howes := h.owes hparked.1
  rcases hparked.2 with ⟨hphase, hpermit⟩ | hphase
  · -- No kill since it began to wait.
    simp only [Owes, hphase, hpermit] at howes
    rw [howes.1, howes.2]
    simp
  · simp only [Owes, hphase] at howes
    obtain ⟨requested, hsent, hasked⟩ := howes
    rw [hsent]
    constructor
    · intro hall
      have hone : w.asked.length ≤ 1 := by
        have hlen := congrArg List.length hall
        rw [List.length_map, List.length_map] at hlen
        exact Nat.le_of_eq hlen.symm
      rw [hasked hone] at hall
      rw [hasked hone]
      exact ⟨Nat.le_refl 1, List.forall_mem_singleton.mpr ((own_eq_signumOf_iff requested).mp (List.cons.inj hall).1.symm)⟩
    · rintro ⟨hone, hknown⟩
      rw [hasked hone, List.forall_mem_singleton] at hknown
      rw [hasked hone]
      exact congrArg (fun n => [n]) ((own_eq_signumOf_iff requested).mpr hknown).symm

/-- A wait that passed a SIGTERM on. -/
def terminated : List Step :=
  [.childKill (some "SIGTERM"), .childWait, .poll true, .readSignal, .tryWait false, .deliver]

theorem one_kill_is_sent :
    (terminated.foldl step {}).sent.map (fun p => some p.1) = (terminated.foldl step {}).asked.map own :=
  ((kill_is_sent_iff terminated).2 (by decide)).mpr (by decide)

/-- … and then gets a SIGKILL. -/
def killedTwice : World := step (terminated.foldl step {}) (.childKill (some "SIGKILL"))

/-- **A SIGKILL after a SIGTERM that the child ignored is never sent:** `child_wait` only waits for the exit then. -/
theorem second_kill_is_lost : killedTwice.parked ∧ killedTwice.asked = [some "SIGTERM", some "SIGKILL"] ∧
    killedTwice.sent = [(15, false)] := by
  decide

end Oam.Child.Kill
