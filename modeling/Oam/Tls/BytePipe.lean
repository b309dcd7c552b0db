/-
  The byte pipe between TLS and a socket of JavaScript's (`oam_core/src/byte_pipe.rs`).

  The near end is TLS's; the far end is split in two halves, and lives as long as ONE of them does.  Each op is cut
  where it lets go of the lock, so a `close` may fall anywhere; one that finds BOTH halves taken lets the near end wait
  for ever.  The in-memory stream (tokio's `duplex`) is any pair of channels with the documented laws.
-/
import Oam.Lib.Bytes
import Oam.Lib.Channel
import Oam.Lib.Trace

namespace Oam.Tls.BytePipe

open List Trace

/-! ## Data -/

/-- What is in the entry: the near end, and the far end's halves. -/
structure Pipe where
  near : Bool
  out : Bool
  input : Bool
deriving DecidableEq

/-- An `out` read: parked, or with what it read (nothing at the end). -/
inductive OutOp where
  | idle
  | reading
  | got (bytes : Bytes)
deriving DecidableEq

/-- An `input`: parked with what is left to write, or through. -/
inductive InputOp where
  | idle
  | writing (rest : Bytes)
  | wrote
deriving DecidableEq

structure World (S : Type) where
  pipe : Option Pipe
  /-- The near end is held by who took it. -/
  near : Bool
  far : Bool
  toNear : S
  toFar : S
  out : OutOp
  input : InputOp
  /-- An `input_end` has taken its half. -/
  ending : Bool

inductive Step where
  | takeNear
  | nearRead (max : Nat)
  | nearWrite (bytes : Bytes)
  | nearShutdown
  | nearDrop
  | out
  | outPoll
  | outReturn
  | input (bytes : Bytes)
  | inputPoll
  | inputReturn
  | inputEnd
  | inputEndReturn
  | close
deriving DecidableEq

inductive Event where
  | received (bytes : Bytes)
  | sent (bytes : Bytes)
  | delivered (bytes : Bytes)
  | input (bytes : Bytes)
  | inputEnd
  | close
deriving DecidableEq

/-! ## Program -/

/-- The most one `out` read returns. -/
def outChunk : Nat := 65536

section
variable {S : Type} (ch : Channel S UInt8)

namespace World

/-- `open`. -/
def new : World S where
  pipe := some { near := true, out := true, input := true }
  near := false
  far := true
  toNear := ch.fresh
  toFar := ch.fresh
  out := .idle
  input := .idle
  ending := false

def readHeld (w : World S) : Bool := w.pipe.any (·.out) || w.out ≠ .idle

def writeHeld (w : World S) : Bool := w.pipe.any (·.input) || w.input ≠ .idle || w.ending

def reap (w : World S) : World S :=
  if w.far && !w.readHeld && !w.writeHeld then
    { w with far := false, toNear := ch.endWrite w.toNear, toFar := ch.endRead w.toFar }
  else w

def dropNear (w : World S) : World S :=
  { w with near := false, toNear := ch.endRead w.toNear, toFar := ch.endWrite w.toFar }

def takeNear (w : World S) : World S :=
  if w.pipe.any (·.near) then { w with pipe := w.pipe.map fun p => { p with near := false }, near := true } else w

/-- The half goes back into the entry, or is dropped with an entry that is gone. -/
def putOut (w : World S) : World S :=
  reap ch { w with pipe := w.pipe.map fun p => { p with out := true }, out := .idle }

def putInput (w : World S) : World S :=
  reap ch { w with pipe := w.pipe.map fun p => { p with input := true }, input := .idle }

/-- One poll of `write_all`. -/
def pollInput (w : World S) (rest : Bytes) : World S :=
  if rest.isEmpty then { w with input := .wrote }
  else
    match (ch.write w.toNear rest).1 with
    | .took n => { w with toNear := (ch.write w.toNear rest).2, input := .writing (rest.drop n) }
    | .pending => { w with toNear := (ch.write w.toNear rest).2 }
    | .broken => { w with toNear := (ch.write w.toNear rest).2, input := .wrote }

/-- The entry goes with what is in it, and a write half that is in it is shut down first. -/
def closePipe (w : World S) (p : Pipe) : World S :=
  let w := { w with pipe := none, toNear := if p.input then ch.endWrite w.toNear else w.toNear }
  if p.near then (w.dropNear ch).reap ch else w.reap ch

end World

/-- What one step does to the pipes, and what is seen of it. -/
def step (w : World S) : Step → World S × List Event
  | .takeNear => (w.takeNear, [])
  | .nearRead max =>
    if w.near then ({ w with toNear := (ch.read w.toNear max).2 }, [.received ((ch.read w.toNear max).1.getD [])])
    else (w, [])
  | .nearWrite bytes =>
    if w.near then
      match (ch.write w.toFar bytes).1 with
      | .took n => ({ w with toFar := (ch.write w.toFar bytes).2 }, [.sent (bytes.take n)])
      | _ => ({ w with toFar := (ch.write w.toFar bytes).2 }, [])
    else (w, [])
  | .nearShutdown => (if w.near then { w with toFar := ch.endWrite w.toFar } else w, [])
  | .nearDrop => (if w.near then w.dropNear ch else w, [])
  | .out =>
    if w.pipe.any (·.out) then
      ({ w with pipe := w.pipe.map fun p => { p with out := false }, out := .reading }, [])
    else (w, [])
  | .outPoll =>
    match w.out with
    | .reading =>
      match (ch.read w.toFar outChunk).1 with
      | some bytes => ({ w with toFar := (ch.read w.toFar outChunk).2, out := .got bytes }, [])
      | none => ({ w with toFar := (ch.read w.toFar outChunk).2 }, [])
    | _ => (w, [])
  | .outReturn =>
    match w.out with
    | .got bytes => (w.putOut ch, [.delivered bytes])
    | _ => (w, [])
  | .input bytes =>
    if w.pipe.any (·.input) then
      ({ w with pipe := w.pipe.map fun p => { p with input := false }, input := .writing bytes }, [.input bytes])
    else (w, [.input bytes])
  | .inputPoll =>
    match w.input with
    | .writing rest => (w.pollInput ch rest, [])
    | _ => (w, [])
  | .inputReturn =>
    match w.input with
    | .wrote => (w.putInput ch, [])
    | _ => (w, [])
  | .inputEnd =>
    if w.pipe.any (·.input) then
      ({ w with pipe := w.pipe.map fun p => { p with input := false }, ending := true }, [.inputEnd])
    else (w, [.inputEnd])
  | .inputEndReturn =>
    if w.ending then (World.reap ch { w with ending := false, toNear := ch.endWrite w.toNear }, []) else (w, [])
  | .close =>
    match w.pipe with
    | none => (w, [.close])
    | some p => (w.closePipe ch p, [.close])

/-! ## Specification -/

/-- The bytes handed to `input` before a close or the end of the input. -/
def wentIn : List Event → Bytes
  | [] => []
  | .input bytes :: log => bytes ++ wentIn log
  | .inputEnd :: _ => []
  | .close :: _ => []
  | _ :: log => wentIn log

def received : List Event → Bytes := List.flatMap fun
  | .received bytes => bytes
  | _ => []

def sent : List Event → Bytes := List.flatMap fun
  | .sent bytes => bytes
  | _ => []

def delivered : List Event → Bytes := List.flatMap fun
  | .delivered bytes => bytes
  | _ => []

/-- At most one `out` read and one `input` at a time, and no end while an input is out. -/
def disciplined (w : World S) : Step → Bool
  | .out => w.out = .idle
  | .input _ => w.input = .idle
  | .inputEnd => w.input = .idle
  | _ => true

def oneAtMost (w : World S) : Step → Bool
  | .close => w.out = .idle || w.input = .idle
  | _ => true

def World.nearHeld (w : World S) : Bool := w.near || w.pipe.any (·.near)

/-- What an input has still to write, and what an out read has still to return. -/
def InputOp.rest : InputOp → Bytes
  | .writing rest => rest
  | _ => []

def OutOp.bytes : OutOp → Bytes
  | .got bytes => bytes
  | _ => []

end

/-! ## What the steps keep -/

section
variable {S : Type} {ch : Channel S UInt8}

open World

variable (log : List Event)

theorem wentIn_snoc (e : Event) : wentIn (log ++ [e]) = wentIn log ++ if .close ∈ log ∨
    .inputEnd ∈ log then [] else wentIn [e] := by
  induction log with
  | nil => rfl
  | cons x log ih =>
    cases x <;> simp [wentIn, ih]

variable {log : List Event} {e : Event}

theorem wentIn_quiet (he : wentIn [e] = []) : wentIn (log ++ [e]) = wentIn log := by
  rw [wentIn_snoc, he, ite_self, append_nil]

theorem received_snoc (e : Event) : received (log ++ [e]) = received log ++ received [e] :=
  flatMap_append

theorem received_quiet (he : received [e] = []) : received (log ++ [e]) = received log := by
  rw [received_snoc, he, append_nil]

theorem sent_snoc (e : Event) : sent (log ++ [e]) = sent log ++ sent [e] := flatMap_append

theorem delivered_snoc (e : Event) : delivered (log ++ [e]) = delivered log ++ delivered [e] :=
  flatMap_append

/-- **What a step can do.** -/
inductive Moves (ch : Channel S UInt8) (w : World S) : Step → World S → List Event → Prop
  | idle (a : Step) : Moves ch w a w []
  | takeNear (hin : w.pipe.any (·.near) = true) :
    Moves ch w .takeNear { w with pipe := w.pipe.map fun p => { p with near := false }, near := true } []
  | nearRead (hnear : w.near = true) (max : Nat) : Moves ch w (.nearRead max)
      { w with toNear := (ch.read w.toNear max).2 } [.received ((ch.read w.toNear max).1.getD [])]
  | nearTook {bytes : Bytes} {n : Nat} (htook : (ch.write w.toFar bytes).1 = .took n) :
    Moves ch w (.nearWrite bytes) { w with toFar := (ch.write w.toFar bytes).2 } [.sent (bytes.take n)]
  | nearRefused {bytes : Bytes} (hrefused : ∀ n, (ch.write w.toFar bytes).1 ≠ .took n) :
    Moves ch w (.nearWrite bytes) { w with toFar := (ch.write w.toFar bytes).2 } []
  | nearShutdown : Moves ch w .nearShutdown { w with toFar := ch.endWrite w.toFar } []
  | nearDrop (hnear : w.near = true) : Moves ch w .nearDrop (w.dropNear ch) []
  | out (hin : w.pipe.any (·.out) = true) :
    Moves ch w .out { w with pipe := w.pipe.map fun p => { p with out := false }, out := .reading } []
  | outGot {bytes : Bytes} (hreading : w.out = .reading) (hread : (ch.read w.toFar outChunk).1 = some bytes) :
    Moves ch w .outPoll { w with toFar := (ch.read w.toFar outChunk).2, out := .got bytes } []
  | outPending (hreading : w.out = .reading) (hread : (ch.read w.toFar outChunk).1 = none) :
    Moves ch w .outPoll { w with toFar := (ch.read w.toFar outChunk).2 } []
  | outReturn {bytes : Bytes} (hgot : w.out = .got bytes) : Moves ch w .outReturn (w.putOut ch) [.delivered bytes]
  | input (hin : w.pipe.any (·.input) = true) (bytes : Bytes) : Moves ch w (.input bytes)
      { w with pipe := w.pipe.map fun p => { p with input := false }, input := .writing bytes } [.input bytes]
  | inputLost (hin : ¬w.pipe.any (·.input) = true) (bytes : Bytes) : Moves ch w (.input bytes) w [.input bytes]
  | inputPoll {rest : Bytes} (hwriting : w.input = .writing rest) : Moves ch w .inputPoll (w.pollInput ch rest) []
  | inputReturn (hwrote : w.input = .wrote) : Moves ch w .inputReturn (w.putInput ch) []
  | inputEnd (hin : w.pipe.any (·.input) = true) : Moves ch w .inputEnd
      { w with pipe := w.pipe.map fun p => { p with input := false }, ending := true } [.inputEnd]
  | inputEndLost (hin : ¬w.pipe.any (·.input) = true) : Moves ch w .inputEnd w [.inputEnd]
  | inputEndReturn (hending : w.ending = true) : Moves ch w .inputEndReturn
      (reap ch { w with ending := false, toNear := ch.endWrite w.toNear }) []
  | closed (hpipe : w.pipe = none) : Moves ch w .close w [.close]
  | close {p : Pipe} (hpipe : w.pipe = some p) : Moves ch w .close (w.closePipe ch p) [.close]

theorem step_moves (ch : Channel S UInt8) (w : World S) (a : Step) : Moves ch w a (step ch w a).1 (step ch w a).2 := by
  cases a <;> simp only [step, takeNear]
  case outPoll =>
    split
    · next hreading =>
      split
      · next hread => exact .outGot hreading hread
      · next hread => exact .outPending hreading hread
    · exact .idle _
  case outReturn =>
    split
    · next hgot => exact .outReturn hgot
    · exact .idle _
  case inputPoll =>
    split
    · next hwriting => exact .inputPoll hwriting
    · exact .idle _
  case inputReturn =>
    split
    · next hwrote => exact .inputReturn hwrote
    · exact .idle _
  case close =>
    split
    · next hpipe => exact .closed hpipe
    · next hpipe => exact .close hpipe
  all_goals split
  case takeNear.isTrue hin => exact .takeNear hin
  case nearRead.isTrue hnear => exact .nearRead hnear _
  case nearWrite.isTrue =>
    split
    · next htook => exact .nearTook htook
    · next hrefused => exact .nearRefused hrefused
  case nearShutdown.isTrue => exact .nearShutdown
  case nearDrop.isTrue hnear => exact .nearDrop hnear
  case out.isTrue hin => exact .out hin
  case input.isTrue hin => exact .input hin _
  case input.isFalse hin => exact .inputLost hin _
  case inputEnd.isTrue hin => exact .inputEnd hin
  case inputEnd.isFalse hin => exact .inputEndLost hin
  case inputEndReturn.isTrue hending => exact .inputEndReturn hending
  -- where the test fails the world stays as it is
  all_goals exact .idle _

structure Placed (w : World S) (log : List Event) : Prop where
  out : ∀ p, w.pipe = some p → (p.out = true ↔ w.out = .idle)
  input : ∀ p, w.pipe = some p → (p.input = true ↔ w.input = .idle ∧ .inputEnd ∉ log)
  closed : w.pipe = none ↔ .close ∈ log
  ended : .inputEnd ∈ log → w.input = .idle
  ending : w.ending = true → .inputEnd ∈ log

structure Inward (ch : Channel S UInt8) (w : World S) (log : List Event) : Prop where
  order : received log <+: wentIn log
  there : w.nearHeld = true → ch.gone w.toNear = false
  kept : w.nearHeld = true → wentIn log = received log ++ (ch.held w.toNear ++ w.input.rest)
  running : w.nearHeld = true → w.writeHeld = true → ch.ended w.toNear = false

structure Outward (ch : Channel S UInt8) (w : World S) (log : List Event) : Prop where
  order : delivered log ++ w.out.bytes <+: sent log
  kept : w.readHeld = true → sent log = delivered log ++ (w.out.bytes ++ ch.held w.toFar)

/-- The end of the input, where no close found both halves taken. -/
structure Shut (ch : Channel S UInt8) (w : World S) : Prop where
  lone : w.pipe = none → w.input ≠ .idle → w.out = .idle
  far : w.nearHeld = true → w.far = false → ch.ended w.toNear = true
  shut : w.nearHeld = true → w.writeHeld = false → ch.ended w.toNear = true

/-! ### The far end's end -/

variable {w : World S}

theorem Placed.reap (h : Placed w log) : Placed (w.reap ch) log := by
  unfold World.reap
  split
  · exact ⟨h.out, h.input, h.closed, h.ended, h.ending⟩
  · exact h

theorem Inward.reap (h : Inward ch w log) : Inward ch (w.reap ch) log := by
  unfold World.reap
  split
  · next hlast =>
    obtain ⟨-, hwrite⟩ := Bool.and_eq_true_iff.mp hlast
    rw [Bool.not_eq_true'] at hwrite
    refine ⟨h.order, fun hn => (ch.gone_endWrite _).trans (h.there hn), fun hn => ?_, fun _ hw => ?_⟩
    · rw [h.kept hn]
      exact congrArg (fun held => received log ++ (held ++ w.input.rest)) (ch.held_endWrite w.toNear).symm
    · exact absurd hw (Bool.eq_false_iff.mp hwrite)
  · exact h

theorem Outward.reap (h : Outward ch w log) : Outward ch (w.reap ch) log := by
  unfold World.reap
  split
  · next hlast =>
    obtain ⟨hread, -⟩ := Bool.and_eq_true_iff.mp hlast
    obtain ⟨-, hread⟩ := Bool.and_eq_true_iff.mp hread
    rw [Bool.not_eq_true'] at hread
    exact ⟨h.order, fun hr => absurd hr (Bool.eq_false_iff.mp hread)⟩
  · exact h

theorem Shut.of_reap (hlone : w.pipe = none → w.input ≠ .idle → w.out = .idle)
    (hfar : w.nearHeld → w.far = false → ch.ended w.toNear)
    (hshut : w.nearHeld → w.writeHeld = false → w.readHeld → ch.ended w.toNear) :
    Shut ch (w.reap ch) := by
  unfold reap
  split
  · exact ⟨hlone, fun _ _ => ch.ended_endWrite _, fun _ _ => ch.ended_endWrite _⟩
  next hlast =>
  refine ⟨hlone, hfar, fun hn hwrite => ?_⟩
  cases hf : w.far with
  | false => exact hfar hn hf
  | true =>
    cases hread : w.readHeld with
    | true => exact hshut hn hwrite hread
    | false => simp [hf, hread, hwrite] at hlast

/-! ### The halves -/

/-- The calls that say where the write half is. -/
def Event.marks : Event → Bool
  | .inputEnd | .close => true
  | _ => false

theorem Placed.snoc (h : Placed w log) (he : e.marks = false := by rfl) : Placed w (log ++ [e]) := by
  have hmem : ∀ x : Event, x.marks → (x ∈ log ++ [e] ↔ x ∈ log) := by
    intro x hx
    rw [mem_append, mem_singleton, or_iff_left]
    rintro rfl
    rw [hx] at he
    cases he
  have hin := hmem .inputEnd rfl
  exact ⟨h.out, fun p hp => by rw [hin]; exact h.input p hp, h.closed.trans (hmem .close rfl).symm,
    fun hx => h.ended (hin.mp hx), fun hx => hin.mpr (h.ending hx)⟩

variable {w' : World S}

theorem Placed.mapped (h : Placed w log) (f : Pipe → Pipe) (hpipe : w'.pipe = w.pipe.map f)
    (hout : ∀ p, w.pipe = some p → ((f p).out ↔ w'.out = .idle))
    (hinput : ∀ p, w.pipe = some p → ((f p).input ↔ w'.input = .idle ∧ .inputEnd ∉ log))
    (hended : .inputEnd ∈ log → w'.input = .idle) (hending : w'.ending → .inputEnd ∈ log) : Placed w' log where
  out := fun p hp => by
    obtain ⟨q, hq, rfl⟩ := Option.map_eq_some_iff.mp (hpipe ▸ hp)
    exact hout q hq
  input := fun p hp => by
    obtain ⟨q, hq, rfl⟩ := Option.map_eq_some_iff.mp (hpipe ▸ hp)
    exact hinput q hq
  closed := by
    rw [hpipe, Option.map_eq_none_iff]
    exact h.closed
  ended := hended
  ending := hending

theorem Placed.same (h : Placed w log) (hpipe : w'.pipe = w.pipe) (hout : w'.out = .idle ↔ w.out = .idle)
    (hinput : w'.input = .idle ↔ w.input = .idle) (hending : w'.ending → w.ending) : Placed w' log :=
  h.mapped id (by rw [hpipe, Option.map_id_fun, id]) (fun p hp => (h.out p hp).trans hout.symm)
    (fun p hp => (h.input p hp).trans (and_congr_left fun _ => hinput.symm)) (fun hx => hinput.mpr (h.ended hx))
    fun hx => h.ending (hending hx)

theorem any_eq_true {α : Type} {o : Option α} {f : α → Bool} (h : o.any f) : ∃ a, o = some a ∧ f a := by
  cases o with
  | none => cases h
  | some a => exact ⟨a, rfl, h⟩

theorem Placed.close (h : Placed w log) (hpipe : w'.pipe = none) (hinput : w'.input = w.input)
    (hending : w'.ending = w.ending) : Placed w' (log ++ [.close]) where
  out := fun p hp => by
    rw [hpipe] at hp
    cases hp
  input := fun p hp => by
    rw [hpipe] at hp
    cases hp
  closed := by simp [hpipe]
  ended := fun hx => by
    rw [hinput]
    exact h.ended (by simpa using hx)
  ending := fun hx => by
    rw [hending] at hx
    exact mem_append_left _ (h.ending hx)

theorem closePipe_placed (ch : Channel S UInt8) (w : World S) (p : Pipe) : (w.closePipe ch p).pipe = none ∧
    (w.closePipe ch p).input = w.input ∧ (w.closePipe ch p).ending = w.ending ∧ (w.closePipe ch p).out = w.out := by
  have hreap : ∀ x : World S, (x.reap ch).pipe = x.pipe ∧ (x.reap ch).input = x.input ∧ (x.reap ch).ending = x.ending ∧
      (x.reap ch).out = x.out := by
    intro x
    unfold reap
    split <;> exact ⟨rfl, rfl, rfl, rfl⟩
  unfold closePipe
  dsimp only
  split <;> exact hreap _

variable {rest : Bytes}

variable {events : List Event} {a : Step}

theorem Placed.moves (h : Placed w log) (hmove : Moves ch w a w' events) (hok : disciplined w a) :
    Placed w' (log ++ events) := by
  have hmem : .inputEnd ∈ log ++ [Event.inputEnd] := mem_append_right _ (mem_singleton.mpr rfl)
  cases hmove
  all_goals try rw [append_nil]
  case idle => exact h
  case takeNear => exact h.mapped (fun p => { p with near := false }) rfl h.out h.input h.ended h.ending
  case nearRead | nearTook => exact Placed.snoc (h.same rfl Iff.rfl Iff.rfl id)
  case nearRefused | nearShutdown | nearDrop | outPending => exact h.same rfl Iff.rfl Iff.rfl id
  case out => exact h.mapped (fun p => { p with out := false }) rfl (fun p _ => by simp) h.input h.ended h.ending
  case outGot hreading _ => exact h.same rfl (by simp [hreading]) Iff.rfl id
  case outReturn =>
    refine Placed.snoc (Placed.reap ?_)
    exact h.mapped (fun p => { p with out := true }) rfl (fun p _ => by simp) h.input h.ended h.ending
  case input hin _ =>
    obtain ⟨p, hp, hin⟩ := any_eq_true hin
    have hopen := ((h.input p hp).mp hin).2
    refine Placed.snoc ?_
    exact h.mapped (fun p => { p with input := false }) rfl h.out (fun p _ => by simp) (fun hx => absurd hx hopen) h.ending
  case inputLost => exact h.snoc
  case inputPoll hwriting =>
    unfold pollInput
    split
    · exact h.same rfl Iff.rfl (by simp [hwriting]) id
    · split <;> exact h.same rfl Iff.rfl (by simp [hwriting]) id
  case inputReturn hwrote =>
    have hopen : .inputEnd ∉ log := fun hx => by
      have := h.ended hx
      rw [hwrote] at this
      cases this
    refine Placed.reap (h.mapped (fun p => { p with input := true }) rfl h.out ?_ (fun _ => rfl) h.ending)
    exact fun p _ => by simp [hopen]
  case inputEnd =>
    refine ⟨fun p hp => ?_, fun p hp => ?_, ?_, fun _ => of_decide_eq_true hok, fun _ => hmem⟩
    · obtain ⟨q, hq, rfl⟩ := Option.map_eq_some_iff.mp hp
      exact h.out q hq
    · obtain ⟨q, hq, rfl⟩ := Option.map_eq_some_iff.mp hp
      simp [hmem]
    · rw [Option.map_eq_none_iff, h.closed]
      simp
  case inputEndLost hin =>
    refine ⟨h.out, fun p hp => ?_, ?_, fun _ => of_decide_eq_true hok, fun _ => hmem⟩
    · rw [hp] at hin
      exact ⟨fun hx => absurd hx hin, fun hx => absurd hmem hx.2⟩
    · rw [h.closed]
      simp
  case inputEndReturn => exact Placed.reap (h.same rfl Iff.rfl Iff.rfl nofun)
  case closed hpipe => exact h.close hpipe rfl rfl
  case close p hpipe =>
    obtain ⟨hnone, hinput, hending, -⟩ := closePipe_placed ch w p
    exact h.close hnone hinput hending

def Taken (w : World S) : Prop := w.near = true → w.pipe.any (·.near) = false

variable {f : Pipe → Pipe}

theorem any_mapped {o : Option Pipe} {g : Pipe → Bool} (hf : ∀ p, g (f p) = g p) : (o.map f).any g = o.any g := by
  rw [Option.any_map]
  exact congrArg (o.any ·) (funext hf)

theorem Taken.mapped (h : Taken w) (hpipe : w'.pipe = w.pipe.map f := by rfl)
    (hf : ∀ p, (f p).near = p.near := by intro p; rfl) (hnear : w'.near = w.near := by rfl) : Taken w' := by
  intro hn
  rw [hpipe, any_mapped hf]
  exact h (hnear ▸ hn)

theorem Taken.reap (h : Taken w) : Taken (w.reap ch) := by
  unfold World.reap
  split <;> exact h

theorem Taken.moves (h : Taken w) (hmove : Moves ch w a w' events) : Taken w' := by
  cases hmove with
  | takeNear =>
    intro _
    show (w.pipe.map fun p => { p with near := false }).any (·.near) = false
    cases w.pipe <;> rfl
  | nearDrop => exact nofun
  | out | input | inputEnd => exact h.mapped
  | outReturn | inputReturn => exact Taken.reap h.mapped
  | inputPoll =>
    unfold pollInput
    split
    · exact h
    · split <;> exact h
  | inputEndReturn => exact Taken.reap h
  | @close p =>
    intro _
    rw [(closePipe_placed ch w p).1]
    rfl
  | _ => exact h

/-! ### Towards the near end -/

theorem Inward.same (h : Inward ch w log) (hnear : w'.nearHeld → w.nearHeld := by exact id)
    (hwrite : w'.writeHeld → w.writeHeld := by exact id)
    (hrest : w'.input.rest = w.input.rest := by rfl) (hto : w'.toNear = w.toNear := by rfl) : Inward ch w' log where
  order := h.order
  there := fun hn => by
    rw [hto]
    exact h.there (hnear hn)
  kept := fun hn => by
    rw [hto, hrest]
    exact h.kept (hnear hn)
  running := fun hn hw => by
    rw [hto]
    exact h.running (hnear hn) (hwrite hw)

theorem Inward.quiet (h : Inward ch w log) (hrec : received [e] = [] := by rfl)
    (hin : wentIn (log ++ [e]) = wentIn log := by exact wentIn_quiet rfl) : Inward ch w (log ++ [e]) := by
  constructor
  · rw [hin, received_quiet hrec]
    exact h.order
  · exact h.there
  · rw [hin, received_quiet hrec]
    exact h.kept
  · exact h.running

theorem Inward.alone (h : Inward ch w log) (hnear : w'.nearHeld = false) : Inward ch w' log where
  order := h.order
  there := fun hn => absurd hn (Bool.eq_false_iff.mp hnear)
  kept := fun hn => absurd hn (Bool.eq_false_iff.mp hnear)
  running := fun hn => absurd hn (Bool.eq_false_iff.mp hnear)

theorem writeHeld_eq (w : World S) :
    w.writeHeld ↔ w.pipe.any (·.input) ∨ w.input ≠ .idle ∨ w.ending := by
  unfold writeHeld
  rw [Bool.or_eq_true, Bool.or_eq_true, decide_eq_true_iff, or_assoc]

theorem nearHeld_eq (w : World S) : w.nearHeld ↔ w.near ∨ w.pipe.any (·.near) := Bool.or_eq_true_iff

theorem nearHeld_mapped (hheld : w'.nearHeld) (hpipe : w'.pipe = w.pipe.map f := by rfl)
    (hf : ∀ p, (f p).near = p.near := by intro p; rfl) (hnear : w'.near = w.near := by rfl) : w.nearHeld := by
  rw [nearHeld_eq, hpipe, hnear, any_mapped hf] at hheld
  exact (nearHeld_eq w).mpr hheld

theorem writeHeld_mapped {b : Bool} (hheld : w'.writeHeld = b) (hpipe : w'.pipe = w.pipe.map f := by rfl)
    (hf : ∀ p, (f p).input = p.input := by intro p; rfl) (hinput : w'.input = w.input := by rfl)
    (hending : w'.ending = w.ending := by rfl) : w.writeHeld = b := by
  rw [← hheld]
  unfold writeHeld
  rw [hpipe, hinput, hending, any_mapped hf]

theorem writeHeld_busy (h : w.input ≠ .idle) : w.writeHeld := (writeHeld_eq w).mpr (.inr (.inl h))

theorem nearHeld_none (hheld : w'.nearHeld) (hpipe : w'.pipe = none := by rfl)
    (hnear : w'.near = w.near := by rfl) : w.nearHeld := by
  rw [nearHeld_eq, hpipe, hnear] at hheld
  exact (nearHeld_eq w).mpr (hheld.imp_right nofun)

theorem Inward.nearRead (h : Inward ch w log) (hnear : w.near) (max : Nat) :
    Inward ch { w with toNear := (ch.read w.toNear max).2 }
      (log ++ [.received ((ch.read w.toNear max).1.getD [])]) := by
  have hheld : w.nearHeld := (nearHeld_eq w).mpr (.inl hnear)
  have hkept : wentIn (log ++ [.received ((ch.read w.toNear max).1.getD [])]) =
      received (log ++ [.received ((ch.read w.toNear max).1.getD [])]) ++
        (ch.held (ch.read w.toNear max).2 ++ w.input.rest) := by
    rw [wentIn_quiet rfl, received_snoc, h.kept hheld, ch.held_read w.toNear max]
    simp [received]
  constructor
  · rw [hkept]
    exact prefix_append _ _
  · exact fun _ => (ch.gone_read _ _).trans (h.there hheld)
  · exact fun _ => hkept
  · exact fun _ hw => (ch.ended_read _ _).trans (h.running hheld hw)

variable {p : Pipe}

theorem Inward.input (h : Inward ch w log) (hp : Placed w log) (hpipe : w.pipe = some p)
    (hin : p.input) (bytes : Bytes) :
    Inward ch { w with pipe := w.pipe.map fun p => { p with input := false }, input := .writing bytes }
      (log ++ [.input bytes]) := by
  obtain ⟨hidle, hopen⟩ := (hp.input p hpipe).mp hin
  have hclose : .close ∉ log := fun hx => by
    rw [hp.closed.mpr hx] at hpipe
    cases hpipe
  have hwent : wentIn (log ++ [.input bytes]) = wentIn log ++ bytes := by
    rw [wentIn_snoc, if_neg (by simp [hopen, hclose])]
    simp [wentIn]
  have hrec : received (log ++ [.input bytes]) = received log := received_quiet rfl
  have hheld : w.writeHeld := (writeHeld_eq w).mpr (.inl (by rw [hpipe]; exact hin))
  constructor
  · rw [hwent, hrec]
    exact h.order.trans (prefix_append _ _)
  · exact fun hn => h.there (nearHeld_mapped hn)
  · intro hn
    rw [hwent, hrec, h.kept (nearHeld_mapped hn), hidle]
    simp [InputOp.rest]
  · exact fun hn _ => h.running (nearHeld_mapped hn) hheld

theorem Inward.pollInput (h : Inward ch w log) (hwriting : w.input = .writing rest) :
    Inward ch (w.pollInput ch rest) log := by
  have hheld : w.writeHeld := writeHeld_busy (by simp [hwriting])
  have hkept : w.nearHeld → wentIn log = received log ++ (ch.held w.toNear ++ rest) := by
    intro hn
    rw [h.kept hn, hwriting]
    rfl
  unfold World.pollInput
  split
  · next hempty =>
    refine ⟨h.order, h.there, fun hn => ?_, fun hn _ => h.running hn hheld⟩
    rw [hkept hn, List.isEmpty_iff.mp hempty]
    rfl
  · split
    · next n htook =>
      refine ⟨h.order, fun hn => (ch.gone_write _ _).trans (h.there hn), fun hn => ?_,
        fun hn _ => (ch.ended_write _ _).trans (h.running hn hheld)⟩
      show wentIn log = received log ++ (ch.held (ch.write w.toNear rest).2 ++ rest.drop n)
      rw [ch.write_took _ _ _ htook, hkept hn, append_assoc (ch.held w.toNear), take_append_drop]
    · next hpending =>
      refine ⟨h.order, fun hn => (ch.gone_write _ _).trans (h.there hn), fun hn => ?_,
        fun hn _ => (ch.ended_write _ _).trans (h.running hn hheld)⟩
      show wentIn log = received log ++ (ch.held (ch.write w.toNear rest).2 ++ w.input.rest)
      rw [ch.write_refused _ _ (by rw [hpending]; simp)]
      exact h.kept hn
    · next hbroken =>
      -- nobody refuses a write while both ends are there
      have hnever : w.nearHeld → False := by
        intro hn
        rcases ch.write_broken _ _ hbroken with hended | hgone
        · rw [h.running hn hheld] at hended
          cases hended
        · rw [h.there hn] at hgone
          cases hgone
      exact ⟨h.order, fun hn => (hnever hn).elim, fun hn => (hnever hn).elim, fun hn => (hnever hn).elim⟩

theorem Inward.close (h : Inward ch w log) (hp : Placed w log) (hpipe : w.pipe = some p) :
    Inward ch (w.closePipe ch p) log := by
  unfold closePipe
  dsimp only
  split
  · exact Inward.reap (h.alone rfl)
  refine Inward.reap ?_
  split
  · next hin =>
    obtain ⟨hidle, hopen⟩ := (hp.input p hpipe).mp hin
    have hending : w.ending = false := Bool.eq_false_iff.mpr fun hx => hopen (hp.ending hx)
    constructor
    · exact h.order
    · exact fun hn => (ch.gone_endWrite _).trans (h.there (nearHeld_none hn))
    · intro hn
      show wentIn log = received log ++ (ch.held (ch.endWrite w.toNear) ++ w.input.rest)
      rw [ch.held_endWrite]
      exact h.kept (nearHeld_none hn)
    · intro _ hw
      rw [writeHeld_eq] at hw
      rcases hw with hw | hw | hw
      · cases hw
      · exact absurd hidle hw
      · rw [hending] at hw
        cases hw
  · refine h.same (fun hn => nearHeld_none hn) fun hw => ?_
    rw [writeHeld_eq] at hw ⊢
    rcases hw with hw | hw
    · cases hw
    · exact .inr hw

theorem Inward.moves (h : Inward ch w log) (hp : Placed w log) (ht : Taken w) (hmove : Moves ch w a w' events)
    (hok : disciplined w a) : Inward ch w' (log ++ events) := by
  cases hmove
  all_goals try rw [append_nil]
  case idle => exact h
  case takeNear hin =>
    exact h.same (fun _ => (nearHeld_eq w).mpr (.inr hin)) fun hw => writeHeld_mapped hw
  case nearRead hnear max => exact h.nearRead hnear max
  case nearTook => exact Inward.quiet h.same
  case nearRefused | nearShutdown | outGot | outPending => exact h.same
  case nearDrop hnear => exact h.alone (ht hnear)
  case out =>
    exact h.same (fun hn => nearHeld_mapped hn) fun hw => writeHeld_mapped hw
  case outReturn =>
    exact Inward.reap (Inward.quiet (h.same (fun hn => nearHeld_mapped hn) fun hw => writeHeld_mapped hw))
  case input hin bytes =>
    obtain ⟨p, hpipe, hin⟩ := any_eq_true hin
    exact h.input hp hpipe hin bytes
  case inputLost hin bytes =>
    -- without a half the pipe was closed, or its input ended
    have hover : .close ∈ log ∨ .inputEnd ∈ log := by
      cases hpipe : w.pipe with
      | none => exact .inl (hp.closed.mp hpipe)
      | some p =>
        rw [hpipe] at hin
        exact .inr (Classical.not_not.mp fun hx => hin ((hp.input p hpipe).mpr ⟨of_decide_eq_true hok, hx⟩))
    refine h.quiet rfl ?_
    rw [wentIn_snoc, if_pos hover, append_nil]
  case inputPoll hwriting => exact h.pollInput hwriting
  case inputReturn hwrote =>
    exact Inward.reap (h.same (fun hn => nearHeld_mapped hn) (fun _ => writeHeld_busy (by simp [hwrote]))
      (by rw [hwrote]; rfl))
  case inputEnd hin =>
    exact Inward.quiet (h.same (fun hn => nearHeld_mapped hn) fun _ => (writeHeld_eq w).mpr (.inl hin))
  case inputEndLost | closed => exact h.quiet
  case inputEndReturn hending =>
    refine Inward.reap ⟨h.order, fun hn => (ch.gone_endWrite _).trans (h.there hn), fun hn => ?_, fun _ hw => ?_⟩
    · show wentIn log = received log ++ (ch.held (ch.endWrite w.toNear) ++ w.input.rest)
      rw [ch.held_endWrite]
      exact h.kept hn
    · -- the half was with the end of the input, and nowhere else
      have hmem := hp.ending hending
      rw [writeHeld_eq] at hw
      rcases hw with hw | hw | hw
      · obtain ⟨p, hpipe, hin⟩ := any_eq_true hw
        exact absurd hmem ((hp.input p hpipe).mp hin).2
      · exact absurd (hp.ended hmem) hw
      · cases hw
  case close hpipe => exact (h.close hp hpipe).quiet

/-! ### Towards the socket -/

theorem readHeld_eq (w : World S) : w.readHeld ↔ w.pipe.any (·.out) ∨ w.out ≠ .idle := by
  unfold readHeld
  rw [Bool.or_eq_true, decide_eq_true_iff]

theorem Outward.same (h : Outward ch w log) (hto : ch.held w'.toFar = ch.held w.toFar)
    (hbytes : w'.out.bytes = w.out.bytes := by rfl) (hread : w'.readHeld → w.readHeld := by exact id) :
    Outward ch w' log where
  order := by
    rw [hbytes]
    exact h.order
  kept := fun hr => by
    rw [hbytes, hto]
    exact h.kept (hread hr)

theorem Outward.quiet (h : Outward ch w log) (hsent : sent [e] = [] := by rfl)
    (hdelivered : delivered [e] = [] := by rfl) : Outward ch w (log ++ [e]) := by
  constructor
  · rw [sent_snoc, hsent, append_nil, delivered_snoc, hdelivered, append_nil]
    exact h.order
  · rw [sent_snoc, hsent, append_nil, delivered_snoc, hdelivered, append_nil]
    exact h.kept

theorem Outward.mapped (h : Outward ch w log) (hpipe : w'.pipe = w.pipe.map f := by rfl)
    (hf : ∀ p, (f p).out = p.out := by intro p; rfl) (hout : w'.out = w.out := by rfl)
    (hto : w'.toFar = w.toFar := by rfl) : Outward ch w' log := by
  refine h.same (by rw [hto]) (by rw [hout]) fun hr => ?_
  rw [readHeld_eq, hpipe, hout, any_mapped hf] at hr
  exact (readHeld_eq w).mpr hr

theorem Outward.nearWrite (h : Outward ch w log) {bytes : Bytes} {n : Nat}
    (htook : (ch.write w.toFar bytes).1 = .took n) :
    Outward ch { w with toFar := (ch.write w.toFar bytes).2 } (log ++ [.sent (bytes.take n)]) := by
  have hsent : sent (log ++ [.sent (bytes.take n)]) = sent log ++ bytes.take n := by
    rw [sent_snoc]
    simp [sent]
  have hdelivered : delivered (log ++ [.sent (bytes.take n)]) = delivered log := by
    rw [delivered_snoc]
    exact append_nil _
  constructor
  · rw [hsent, hdelivered]
    exact h.order.trans (prefix_append _ _)
  · intro hr
    show sent _ = delivered _ ++ (w.out.bytes ++ ch.held (ch.write w.toFar bytes).2)
    rw [hsent, hdelivered, ch.write_took _ _ _ htook, h.kept hr]
    simp only [append_assoc]

theorem Outward.moves (h : Outward ch w log) (hp : Placed w log) (hmove : Moves ch w a w' events) :
    Outward ch w' (log ++ events) := by
  cases hmove
  all_goals try rw [append_nil]
  case idle => exact h
  case takeNear => exact h.mapped
  case nearRead => exact Outward.quiet (h.same rfl)
  case nearTook htook => exact h.nearWrite htook
  case nearRefused hrefused => exact h.same (ch.write_refused _ _ hrefused)
  case nearShutdown | nearDrop => exact h.same (ch.held_endWrite _)
  case out hin =>
    obtain ⟨p, hpipe, hout⟩ := any_eq_true hin
    have hidle := (hp.out p hpipe).mp hout
    exact h.same rfl (by rw [hidle]; rfl) fun _ => (readHeld_eq w).mpr (.inl hin)
  case outGot hreading hread =>
    have hkept := h.kept ((readHeld_eq w).mpr (.inr (by simp [hreading])))
    rw [hreading, ch.read_some _ _ _ hread] at hkept
    refine ⟨?_, fun _ => hkept⟩
    rw [hkept]
    exact ⟨_, append_assoc ..⟩
  case outPending hread =>
    obtain ⟨hnil, hnil', -⟩ := ch.read_none _ _ hread
    exact h.same (hnil'.trans hnil.symm)
  case outReturn bytes hgot =>
    have hkept := h.kept ((readHeld_eq w).mpr (.inr (by simp [hgot])))
    have horder := h.order
    rw [hgot] at hkept horder
    have hsent : sent (log ++ [.delivered bytes]) = sent log := by
      rw [sent_snoc]
      exact append_nil _
    have hdelivered : delivered (log ++ [.delivered bytes]) = delivered log ++ bytes := by
      rw [delivered_snoc]
      simp [delivered]
    refine Outward.reap ⟨?_, fun _ => ?_⟩
    · rw [hsent, hdelivered]
      exact (append_nil (delivered log ++ bytes)).symm ▸ horder
    · rw [hsent, hdelivered, append_assoc]
      exact hkept
  case input | inputEnd => exact Outward.quiet h.mapped
  case inputLost | inputEndLost | closed => exact h.quiet
  case inputPoll =>
    unfold pollInput
    split
    · exact h.same rfl
    · split <;> exact h.same rfl
  case inputReturn => exact Outward.reap h.mapped
  case inputEndReturn => exact Outward.reap (h.same rfl)
  case close =>
    refine Outward.quiet ?_
    unfold closePipe
    dsimp only
    have hgone : ∀ x : World S, x.readHeld → x.pipe = none → x.out = w.out → w.readHeld := by
      intro x hr hx hout
      rw [readHeld_eq, hx, hout] at hr
      exact (readHeld_eq w).mpr (hr.imp_left nofun)
    split
    · exact Outward.reap (h.same (ch.held_endWrite _) rfl fun hr => hgone _ hr rfl rfl)
    · exact Outward.reap (h.same rfl rfl fun hr => hgone _ hr rfl rfl)

/-! ### The end of the input -/

variable (h : Shut ch w)

include h

theorem Shut.same (hto : ch.ended w'.toNear = ch.ended w.toNear)
    (hinput : w'.input = .idle ↔ w.input = .idle := by exact Iff.rfl)
    (hwrite : w'.writeHeld = false → w.writeHeld = false := by exact id)
    (hout : w.out = .idle → w'.out = .idle := by exact id) (hpipe : w'.pipe = none → w.pipe = none := by exact id)
    (hnear : w'.nearHeld → w.nearHeld := by exact id) (hfar : w'.far = w.far := by rfl) :
    Shut ch w' where
  lone := fun hp hi => hout (h.lone (hpipe hp) fun hx => hi (hinput.mpr hx))
  far := fun hn hf => hto.trans (h.far (hnear hn) (hfar ▸ hf))
  shut := fun hn hw => hto.trans (h.shut (hnear hn) (hwrite hw))

theorem Shut.mapped (hpipe : w'.pipe = w.pipe.map f)
    (hnear : w'.nearHeld → w.nearHeld) (hf : ∀ p, (f p).input = p.input)
    (hinput : w'.input = w.input) (hout : w'.pipe = none → w.out = .idle → w'.out = .idle)
    (hending : w'.ending = w.ending) (hfar : w'.far = w.far) (hto : w'.toNear = w.toNear) : Shut ch w' where
  lone := fun hp hi => hout hp (h.lone (Option.map_eq_none_iff.mp (hpipe ▸ hp)) (hinput ▸ hi))
  far := fun hn hx => by
    rw [hto]
    exact h.far (hnear hn) (hfar ▸ hx)
  shut := fun hn hw => by
    rw [hto]
    exact h.shut (hnear hn) (writeHeld_mapped hw hpipe hf hinput hending)

theorem Shut.busy (hany : w.pipe.any (·.input))
    (hpipe : w'.pipe = w.pipe.map fun p => { p with input := false }) (hnear : w'.near = w.near)
    (hfar : w'.far = w.far) (hto : w'.toNear = w.toNear) (hbusy : w'.input ≠ .idle ∨ w'.ending) :
    Shut ch w' where
  lone := fun hnone => by
    obtain ⟨p, hp, -⟩ := any_eq_true hany
    rw [hpipe, hp] at hnone
    cases hnone
  far := fun hn hf => hto ▸ h.far (nearHeld_mapped hn hpipe (fun _ => rfl) hnear) (hfar ▸ hf)
  shut := fun _ hw => absurd ((writeHeld_eq w').mpr (.inr hbusy)) (Bool.eq_false_iff.mp hw)

/-- **An input that returns after a close lets the far end go**, because no out read keeps it. -/
theorem Shut.inputReturn (hwrote : w.input = .wrote) : Shut ch (w.putInput ch) := by
  refine Shut.of_reap (fun _ hi => absurd rfl hi) (fun hn => h.far (nearHeld_mapped hn)) ?_
  intro _ hwrite hread
  cases hpipe : w.pipe with
  | some p =>
    rw [Bool.eq_false_iff, ne_eq, writeHeld_eq, hpipe] at hwrite
    exact absurd (.inl rfl) hwrite
  | none =>
    have hidle := h.lone hpipe (by simp [hwrote])
    rw [readHeld_eq, hpipe] at hread
    rcases hread with hread | hread
    · cases hread
    · exact absurd hidle hread

theorem Shut.pollInput (hwriting : w.input = .writing rest) : Shut ch (w.pollInput ch rest) := by
  have hbusy : ∀ x : World S, x.writeHeld = false → x.input ≠ .idle → w.writeHeld = false := fun x hx hi =>
    absurd (writeHeld_busy hi) (Bool.eq_false_iff.mp hx)
  have hwas : w.input ≠ .idle := by simp [hwriting]
  unfold World.pollInput
  split
  · exact h.same rfl (by simp [hwriting]) fun hx => hbusy _ hx (by simp)
  · split
    · exact h.same (ch.ended_write _ _) (by simp [hwriting]) fun hx => hbusy _ hx (by simp)
    · exact h.same (ch.ended_write _ _) Iff.rfl fun hx => hbusy _ hx hwas
    · exact h.same (ch.ended_write _ _) (by simp [hwriting]) fun hx => hbusy _ hx (by simp)

theorem Shut.close (hok : oneAtMost w .close) (hpipe : w.pipe = some p) : Shut ch (w.closePipe ch p) := by
  have hlone : w.input ≠ .idle → w.out = .idle := by
    intro hi
    rcases Bool.or_eq_true_iff.mp hok with ho | ho
    · exact of_decide_eq_true ho
    · exact absurd (of_decide_eq_true ho) hi
  have hended : w.nearHeld → w.far = false ∨ (p.input = false ∧ w.input = .idle ∧ w.ending = false) →
      ch.ended w.toNear := by
    rintro hn (hfar | ⟨hin, hidle, hending⟩)
    · exact h.far hn hfar
    · refine h.shut hn ?_
      rw [Bool.eq_false_iff, ne_eq, writeHeld_eq, hpipe]
      rintro (hx | hx | hx)
      · exact absurd hx (Bool.eq_false_iff.mp hin)
      · exact absurd hidle hx
      · exact absurd hx (Bool.eq_false_iff.mp hending)
  unfold closePipe
  dsimp only
  split
  · exact Shut.of_reap (fun _ => hlone) nofun nofun
  refine Shut.of_reap (fun _ => hlone) (fun hn hf => ?_) fun hn hw _ => ?_
  · dsimp only
    split
    · exact ch.ended_endWrite _
    · exact hended (nearHeld_none hn) (.inl hf)
  · dsimp only
    split
    · exact ch.ended_endWrite _
    next hin =>
    rw [Bool.eq_false_iff, ne_eq, writeHeld_eq] at hw
    refine hended (nearHeld_none hn) (.inr ⟨Bool.eq_false_iff.mpr hin, ?_, ?_⟩)
    · exact Classical.not_not.mp fun hx => hw (.inr (.inl hx))
    · exact Bool.eq_false_iff.mpr fun hx => hw (.inr (.inr hx))

theorem Shut.moves (ht : Taken w) (hmove : Moves ch w a w' events) (hone : oneAtMost w a) : Shut ch w' := by
  cases hmove with
  | idle | inputLost | inputEndLost | closed => exact h
  | takeNear hin =>
    exact h.mapped rfl (fun _ => (nearHeld_eq w).mpr (.inr hin)) (fun _ => rfl) rfl (fun _ => id) rfl rfl rfl
  | nearRead => exact h.same (ch.ended_read _ _)
  | nearTook | nearRefused | nearShutdown | outPending => exact h.same rfl
  | nearDrop hnear =>
    have hnone : (w.dropNear ch).nearHeld = false := ht hnear
    exact ⟨h.lone, fun hn => absurd hn (Bool.eq_false_iff.mp hnone), fun hn => absurd hn (Bool.eq_false_iff.mp hnone)⟩
  | out hin =>
    obtain ⟨p, hpipe, -⟩ := any_eq_true hin
    refine h.mapped rfl (fun hn => nearHeld_mapped hn) (fun _ => rfl) rfl (fun hnone => ?_) rfl rfl rfl
    rw [hpipe] at hnone
    cases hnone
  | outGot hreading => exact h.same rfl Iff.rfl id fun hx => by rw [hreading] at hx; cases hx
  | outReturn =>
    refine Shut.of_reap (fun _ _ => rfl) (fun hn => h.far (nearHeld_mapped hn)) ?_
    intro hn hw _
    exact h.shut (nearHeld_mapped hn) (writeHeld_mapped hw)
  | input hin => exact h.busy hin rfl rfl rfl rfl (.inl (by simp))
  | inputPoll hwriting => exact h.pollInput hwriting
  | inputReturn hwrote => exact h.inputReturn hwrote
  | inputEnd hin => exact h.busy hin rfl rfl rfl rfl (.inr rfl)
  | inputEndReturn => exact Shut.of_reap h.lone (fun _ _ => ch.ended_endWrite _) fun _ _ _ => ch.ended_endWrite _
  | close hpipe => exact h.close hone hpipe

omit h

/-! ## Runs -/

structure Sound (ch : Channel S UInt8) (w : World S) (log : List Event) : Prop where
  placed : Placed w log
  taken : Taken w
  inward : Inward ch w log
  outward : Outward ch w log

theorem Sound.step (h : Sound ch w log) (a : Step) (hok : disciplined w a) :
    Sound ch (step ch w a).1 (log ++ (step ch w a).2) where
  placed := h.placed.moves (step_moves ch w a) hok
  taken := h.taken.moves (step_moves ch w a)
  inward := h.inward.moves h.placed h.taken (step_moves ch w a) hok
  outward := h.outward.moves h.placed (step_moves ch w a)

theorem Sound.new (ch : Channel S UInt8) : Sound ch (World.new ch) [] where
  placed :=
    { out := fun p hp => by
        obtain rfl := Option.some.inj hp
        simp [World.new]
      input := fun p hp => by
        obtain rfl := Option.some.inj hp
        simp [World.new]
      closed := by simp [World.new]
      ended := fun _ => rfl
      ending := fun h => by cases h }
  taken := nofun
  inward :=
    { order := prefix_refl _
      there := fun _ => ch.gone_fresh
      kept := fun _ => by
        show [] = [] ++ (ch.held ch.fresh ++ [])
        rw [ch.held_fresh]
        rfl
      running := fun _ _ => ch.ended_fresh }
  outward :=
    { order := prefix_refl _
      kept := fun _ => by
        show [] = [] ++ ([] ++ ch.held ch.fresh)
        rw [ch.held_fresh]
        rfl }

theorem Shut.new (ch : Channel S UInt8) : Shut ch (new ch) where
  lone := nofun
  far := fun _ h => by cases h
  shut := fun _ h => by cases h

theorem Placed.writeHeld (h : Placed w log) (hover : .close ∈ log ∨ .inputEnd ∈ log) (hidle : w.input = .idle)
    (hending : w.ending = false) : w.writeHeld = false := by
  rw [Bool.eq_false_iff, ne_eq, writeHeld_eq]
  rintro (hany | hx | hx)
  · obtain ⟨p, hpipe, hin⟩ := any_eq_true hany
    rcases hover with hclose | hend
    · rw [h.closed.mpr hclose] at hpipe
      cases hpipe
    · exact ((h.input p hpipe).mp hin).2 hend
  · exact hx hidle
  · rw [hending] at hx
    cases hx

/-- **The pipe loses nothing, and ends.** What comes out is what went in, in order; nothing before a close or an end is
    lost; and after one the near end does not wait. -/
theorem pipe_keeps_and_ends (ch : Channel S UInt8) (steps : List Step) (w : World S) (log : List Event)
    (hrun : run (step ch) (new ch) steps = (w, log))
    (hdisciplined : Along (step ch) disciplined (new ch) steps) :
    received log <+: wentIn log ∧ delivered log <+: sent log ∧
      (w.nearHeld = true → wentIn log = received log ++ (ch.held w.toNear ++ w.input.rest)) ∧
      (.close ∉ log → sent log = delivered log ++ (w.out.bytes ++ ch.held w.toFar)) ∧
      (Along (step ch) oneAtMost (new ch) steps → w.nearHeld = true → .close ∈ log ∨ .inputEnd ∈ log →
        w.input = .idle → w.ending = false → ch.Ends w.toNear) := by
  have hsound : Sound ch w log := by
    have h := run_invariant_along (P := Sound ch) (fun w log a hok h => Sound.step h a hok) (Sound.new ch) hdisciplined
    rw [hrun, nil_append] at h
    exact h
  refine ⟨hsound.inward.order, (prefix_append _ _).trans hsound.outward.order, hsound.inward.kept, ?_, ?_⟩
  · intro hopen
    refine hsound.outward.kept ((readHeld_eq w).mpr ?_)
    cases hpipe : w.pipe with
    | none => exact absurd (hsound.placed.closed.mp hpipe) hopen
    | some p =>
      by_cases hidle : w.out = .idle
      · exact .inl ((hsound.placed.out p hpipe).mpr hidle)
      · exact .inr hidle
  · intro hone hnear hover hidle hending
    have hshut : Taken w ∧ Shut ch w := by
      have h := run_keeps_along (fun w => Taken w ∧ Shut ch w)
        (fun w a hok h => ⟨h.1.moves (step_moves ch w a), h.2.moves h.1 (step_moves ch w a) hok⟩)
        ⟨(Sound.new ch).taken, Shut.new ch⟩ hone
      rw [hrun] at h
      exact h
    exact ch.ends_of_ended (hshut.2.shut hnear (hsound.placed.writeHeld hover hidle hending))

end

/-! ## Two runs -/

def runQueue (steps : List Step) : World (Channel.Queue UInt8) × List Event :=
  run (step (Channel.queue UInt8)) (World.new (Channel.queue UInt8)) steps

/-- Bytes in both directions, and a close while an out read is parked. -/
def bothWays : List Step :=
  [.takeNear, .out, .input [1, 2], .inputPoll, .inputPoll, .inputReturn, .nearWrite [9], .outPoll, .outReturn, .out, .nearRead 1,
    .close]

theorem pipe_keeps_and_ends_both_ways : received (runQueue bothWays).2 = [1] ∧ delivered (runQueue bothWays).2 = [9] ∧
    (Channel.queue UInt8).held (runQueue bothWays).1.toNear = [2] ∧ (Channel.queue UInt8).Ends
    (runQueue bothWays).1.toNear := by
  have hrun := pipe_keeps_and_ends (Channel.queue UInt8) bothWays (runQueue bothWays).1 (runQueue bothWays).2 rfl
    (by decide +kernel)
  refine ⟨by decide +kernel, by decide +kernel, by decide +kernel, ?_⟩
  exact hrun.2.2.2.2 (by decide +kernel) (by decide +kernel) (.inl (by decide +kernel)) (by decide +kernel)
    (by decide +kernel)

/-- A close while an out read and an input are parked; then the input is through, and the near end has read it. -/
def closeOverBoth : List Step :=
  [.takeNear, .out, .outPoll, .input [7], .inputPoll, .close, .inputPoll, .inputReturn, .nearRead 10]

/-- **A close over both halves hangs**: it has returned and no input is on its way, but the near end's read waits. -/
theorem close_over_both_hangs :
    Along (step (Channel.queue UInt8)) disciplined (World.new (Channel.queue UInt8)) closeOverBoth ∧
      .close ∈ (runQueue closeOverBoth).2 ∧ (runQueue closeOverBoth).1.nearHeld = true ∧
      (runQueue closeOverBoth).1.input = .idle ∧ (runQueue closeOverBoth).1.ending = false ∧
      received (runQueue closeOverBoth).2 = [7] ∧ ¬(Channel.queue UInt8).Ends (runQueue closeOverBoth).1.toNear := by
  refine ⟨by decide +kernel, by decide +kernel, by decide +kernel, by decide +kernel, by decide +kernel, by decide +kernel, ?_⟩
  intro h
  obtain ⟨bytes, hread, -⟩ := h 10
  have hwaits : ((Channel.queue UInt8).read (runQueue closeOverBoth).1.toNear 10).1 = none := by decide +kernel
  rw [hwaits] at hread
  cases hread

end Oam.Tls.BytePipe
