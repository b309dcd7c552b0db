/-
  The held TLS flight (`oam_core/src/tls/flight.rs`), over ANY answers of the inner stream.  `wire ++ held = accepted`,
  which every call keeps, says that bytes go out in order, none early, none left behind.
-/
import Oam.Lib.Trace

namespace Oam.Tls.Flight

open List Trace

/-! ## Data -/

inductive Gate where
  | opened
  | armed
  | released
deriving DecidableEq

/-- What a poll says; a flush that is done says `ready 0`. -/
inductive Poll where
  | pending
  | failed
  | ready (n : Nat)
deriving DecidableEq

structure HeldFlight where
  gate : Gate := .opened
  held : List UInt8 := []
  wire : List UInt8 := []
  accepted : List UInt8 := []
  unarmed : List UInt8 := []

namespace HeldFlight

/-! ## Program -/

def arm (s : HeldFlight) : HeldFlight :=
  if s.gate = .opened then { s with gate := .armed, unarmed := s.accepted } else s

def release (s : HeldFlight) : HeldFlight := { s with gate := .released }

def holding (s : HeldFlight) : Bool := s.gate = .armed

/-- The inner stream takes `n` of the held bytes. -/
def moved (s : HeldFlight) (n : Nat) : HeldFlight := { s with held := s.held.drop n, wire := s.wire ++ s.held.take n }

/-- The answers of the inner stream to the calls, one after the other; one that is not there is a stream not ready. -/
def pollDrain : List Poll → HeldFlight → Poll × HeldFlight × List Poll
  | [], s => (if s.held.isEmpty || s.holding then .ready 0 else .pending, s, [])
  | answer :: rest, s =>
    if s.held.isEmpty || s.holding then (.ready 0, s, answer :: rest)
    else
      match answer with
      | .pending => (.pending, s, rest)
      | .failed | .ready 0 => (.failed, s, rest)
      | .ready n => pollDrain rest (s.moved n)

/-- `ready!(this.poll_drain(cx))?`, and then the call of the inner stream. -/
def drained (s : HeldFlight) (answers : List Poll) (inner : HeldFlight → Poll → Poll × HeldFlight) :
    Poll × HeldFlight :=
  match pollDrain answers s with
  | (.ready _, s, rest) => inner s (rest.headD .pending)
  | (stopped, s, _) => (stopped, s)

/-- A drain that is pending is followed by the read all the same. -/
def pollRead (s : HeldFlight) (answers : List Poll) : Poll × HeldFlight :=
  if s.held.isEmpty || s.holding then (answers.headD .pending, s)
  else
    match pollDrain answers s with
    | (.failed, s, _) => (.failed, s)
    | (_, s, rest) =>
      if s.held.isEmpty then
        match rest.headD .pending with
        | .ready _ => (rest.tail.headD .pending, s)
        | stopped => (stopped, s)
      else (rest.headD .pending, s)

def pollWrite (s : HeldFlight) (buf : List UInt8) (answers : List Poll) : Poll × HeldFlight :=
  if s.holding then (.ready buf.length, { s with held := s.held ++ buf, accepted := s.accepted ++ buf })
  else
    s.drained answers fun s answer =>
      match answer with
      | .ready n => (answer, { s with wire := s.wire ++ buf.take n, accepted := s.accepted ++ buf.take n })
      | _ => (answer, s)

def pollFlush (s : HeldFlight) (answers : List Poll) : Poll × HeldFlight :=
  if s.holding then (.ready 0, s) else s.drained answers fun s answer => (answer, s)

def pollShutdown (s : HeldFlight) (answers : List Poll) : Poll × HeldFlight :=
  s.release.drained answers fun s answer => (answer, s)

end HeldFlight

inductive Act where
  | arm
  | release
  | read (answers : List Poll)
  | write (buf : List UInt8) (answers : List Poll)
  | flush (answers : List Poll)
  | shutdown (answers : List Poll)

open HeldFlight

def step (s : HeldFlight) (a : Act) : HeldFlight × List Poll :=
  let said (r : Poll × HeldFlight) := (r.2, [r.1])
  match a with
  | .arm => (s.arm, [])
  | .release => (s.release, [])
  | .read answers => said (s.pollRead answers)
  | .write buf answers => said (s.pollWrite buf answers)
  | .flush answers => said (s.pollFlush answers)
  | .shutdown answers => said (s.pollShutdown answers)

/-! ## Correctness -/

/-- **Nothing is lost, an open gate holds nothing, and an armed one lets nothing through.** -/
structure Inv (s : HeldFlight) : Prop where
  bytes : s.wire ++ s.held = s.accepted
  opened : s.gate = .opened → s.held = []
  armed : s.gate = .armed → s.wire <+: s.unarmed

def Drained (s t : HeldFlight) (said : Poll) : Prop :=
  ∃ k, t = s.moved k ∧ (s.gate = .armed → k = 0) ∧ ∀ n, said = .ready n → s.gate ≠ .armed → t.held = []

variable {s t : HeldFlight} {said : Poll}

theorem drained_same (h : ∀ n, said = .ready n → s.held.isEmpty || s.holding) : Drained s s said := by
  refine ⟨0, by simp [moved], fun _ => rfl, fun n hn hg => ?_⟩
  simpa [holding, hg] using h n hn

theorem pollDrain_drained (answers : List Poll) (s : HeldFlight) :
    Drained s (pollDrain answers s).2.1 (pollDrain answers s).1 := by
  induction answers generalizing s with
  | nil =>
    refine drained_same fun n hn => ?_
    by_contra h
    rw [pollDrain, if_neg h] at hn
    cases hn
  | cons answer rest ih =>
    rw [pollDrain.eq_def]
    dsimp only
    split
    next h => exact drained_same fun _ _ => h
    next h =>
      have hgate : s.gate ≠ .armed := by
        intro hg
        exact h (by simp [holding, hg])
      split
      · exact drained_same nofun
      · exact drained_same nofun
      · exact drained_same nofun
      next n _ =>
        obtain ⟨k, hk, -, hdone⟩ := ih (s.moved n)
        refine ⟨n + k, ?_, fun hg => absurd hg hgate, hdone⟩
        rw [hk]
        simp [moved, take_add]

theorem Drained.inv (hd : Drained s t said) (h : Inv s) : Inv t := by
  obtain ⟨k, rfl, hk, -⟩ := hd
  refine ⟨?_, fun ho => ?_, fun hg => ?_⟩
  · simp [moved, h.bytes]
  · simp [moved, h.opened ho]
  · simpa [moved, hk hg] using h.armed hg

/-- What holds of a drain that stopped, and of what the inner call makes of one that is done, holds of the two. -/
theorem drained_cases {P : Poll × HeldFlight → Prop} {answers : List Poll}
    {inner : HeldFlight → Poll → Poll × HeldFlight} (hstop : ∀ {p t}, Drained s t p → (∀ n, p ≠ .ready n) → P (p, t))
    (hinner : ∀ {t n} answer, Drained s t (.ready n) → P (inner t answer)) : P (s.drained answers inner) := by
  have hd := pollDrain_drained answers s
  unfold drained
  generalize pollDrain answers s = r at hd ⊢
  obtain ⟨p, t, rest⟩ := r
  cases p with
  | ready n => exact hinner _ hd
  | pending => exact hstop hd nofun
  | failed => exact hstop hd nofun

theorem inv_pollRead (answers : List Poll) (h : Inv s) : Inv (s.pollRead answers).2 := by
  have hd := (pollDrain_drained answers s).inv h
  unfold pollRead
  split
  · exact h
  · split
    next heq =>
      rw [heq] at hd
      exact hd
    next heq =>
      rw [heq] at hd
      repeat' split
      all_goals exact hd

theorem inv_pollWrite (buf : List UInt8) (answers : List Poll) (h : Inv s) : Inv (s.pollWrite buf answers).2 := by
  unfold pollWrite
  split
  next hh =>
    have hg : s.gate = .armed := of_decide_eq_true hh
    refine ⟨?_, fun ho => ?_, h.armed⟩
    · show s.wire ++ (s.held ++ buf) = s.accepted ++ buf
      rw [← append_assoc, h.bytes]
    · cases hg.symm.trans ho
  next hh =>
    have hg : s.gate ≠ .armed := fun hg => hh (decide_eq_true hg)
    refine drained_cases (P := fun r => Inv r.2) (fun hd _ => hd.inv h) fun {t n} answer hd => ?_
    have ht := hd.inv h
    cases answer with
    | ready m =>
      -- the bytes passed through come after all that was held
      obtain ⟨k, rfl, -, hdone⟩ := hd
      have hheld : s.held.drop k = [] := hdone n rfl hg
      refine ⟨?_, fun _ => hheld, fun ha => absurd ha hg⟩
      show (s.moved k).wire ++ buf.take m ++ s.held.drop k = s.accepted ++ buf.take m
      rw [hheld, append_nil, ← show _ = s.accepted from ht.bytes, show (s.moved k).held = [] from hheld, append_nil]
    | pending => exact ht
    | failed => exact ht

theorem inv_drained (answers : List Poll) (h : Inv s) : Inv (s.drained answers fun s answer => (answer, s)).2 :=
  drained_cases (P := fun r => Inv r.2) (fun hd _ => hd.inv h) fun _ hd => hd.inv h

theorem inv_release (h : Inv s) : Inv s.release := ⟨h.bytes, nofun, nofun⟩

theorem inv_step (s : HeldFlight) (a : Act) (h : Inv s) : Inv (step s a).1 := by
  cases a with
  | arm =>
    show Inv s.arm
    unfold arm
    split
    · exact ⟨h.bytes, nofun, fun _ => ⟨s.held, h.bytes⟩⟩
    · exact h
  | release => exact inv_release h
  | read answers => exact inv_pollRead answers h
  | write buf answers => exact inv_pollWrite buf answers h
  | flush answers =>
    show Inv (s.pollFlush answers).2
    unfold pollFlush
    split
    · exact h
    · exact inv_drained answers h
  | shutdown answers => exact inv_drained answers (inv_release h)

/-- What a flush or a shutdown that is done leaves. -/
theorem drained_whole {answers : List Poll} {n : Nat} (h : Inv s) (hg : s.gate ≠ .armed) :
    (s.drained answers fun s answer => (answer, s)).1 = .ready n →
    (s.drained answers fun s answer => (answer, s)).2.wire = s.accepted := by
  refine drained_cases (P := fun r => r.1 = .ready n → r.2.wire = s.accepted) ?_ ?_
  · intro p t _ hp hn
    exact absurd hn (hp n)
  · rintro t m answer ⟨k, rfl, -, hdone⟩ -
    have hheld : s.held.drop k = [] := hdone m rfl hg
    show s.wire ++ s.held.take k = s.accepted
    rw [take_of_length_le (drop_eq_nil_iff.mp hheld), h.bytes]

/-- **A held flight is released whole and in order.** -/
theorem held_flight_released_whole (acts : List Act) :
    let s := (run step {} acts).1
    s.wire <+: s.accepted ∧ (s.gate = .armed → s.wire <+: s.unarmed) ∧
    (∀ answers n, s.gate = .released → (s.pollFlush answers).1 = .ready n →
      (s.pollFlush answers).2.wire = s.accepted) ∧
    ∀ answers n, (s.pollShutdown answers).1 = .ready n → (s.pollShutdown answers).2.wire = s.accepted := by
  intro s
  have h : Inv s := run_keeps Inv inv_step ⟨rfl, fun _ => rfl, (fun hg => by cases hg)⟩ acts
  refine ⟨⟨s.held, h.bytes⟩, h.armed, ?_, ?_⟩
  · intro answers n hg
    have hh : ¬s.holding = true := by simp [holding, hg]
    rw [pollFlush, if_neg hh]
    exact drained_whole h (by simp [hg])
  · intro answers n
    exact drained_whole (inv_release h) nofun

theorem held_flight_released_whole_one : (run step {} [.arm, .write [1] [], .flush []]).1.wire <+: [] ∧
    ((run step {} [.arm, .write [1] [], .release]).1.pollFlush [.ready 1, .ready 0]).2.wire = [1] ∧
    ((run step {} [.arm, .write [1] []]).1.pollShutdown [.ready 1, .ready 0]).2.wire = [1] :=
  ⟨(held_flight_released_whole [.arm, .write [1] [], .flush []]).2.1 rfl,
    (held_flight_released_whole [.arm, .write [1] [], .release]).2.2.1 _ 0 rfl rfl,
    (held_flight_released_whole [.arm, .write [1] []]).2.2.2 _ 0 rfl⟩

end Oam.Tls.Flight
