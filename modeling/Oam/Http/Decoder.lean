/-
  The stacked body decoder of fetch (`oam_core/src/http_client/decode.rs`).

  The decoder has one STAGE per coding and one WINDOW behind each, and is pulled: a call asks the last stage for a
  chunk, walks upstream as long as a stage has nothing to read, and downstream again as soon as one has written
  something.  A stage that is handed input past the end of its stream has OVERRUN: nothing upstream of it is run again.
-/
import Oam.Http.GzipStage

namespace Oam.Http

/-- `Stage::run` and `Stage::overrun`: the new stage, the bytes read, and the bytes written. -/
structure Stage (S E : Type) where
  run : S → Bytes → Except E (S × Nat × Bytes)
  overrun : S → Bool

/-- A `DecodeError`: a stage's own, or `internal("decoder made no progress")`. -/
inductive Fault (E : Type) where
  | stage (error : E)
  | noProgress
  deriving DecidableEq

/-- `windows[i]` holds what stage `i` has written and nobody has read yet. -/
structure Decoder (S E : Type) where
  stages : List S
  windows : List Bytes
  error : Option (Fault E)
  overrun : Option Nat
  done : Bool

/-- A run of a stage, for the record: the window it wrote into, as it was, and what it wrote. -/
structure Ran where
  stage : Nat
  overwritten : Bytes
  produced : Bytes
  overrun : Bool
  deriving DecidableEq

/-- Where the walk goes after a stage has run. -/
inductive Walk (E : Type) where
  | on (j : Nat)
  | filled
  | dry
  | failed (fault : Fault E)

/-- The decoder, the rest of the input, its answer, and the record of the stages it has run. -/
structure Answer (S E α : Type) where
  decoder : Decoder S E
  left : Bytes
  result : Except (Fault E) α
  log : List Ran

namespace Decoder

variable {S E : Type} (m : Stage S E)

/-- The stages in the order they are applied: the first one reads the wire. -/
def ofStages (stages : List S) : Decoder S E :=
  { stages, windows := stages.map fun _ => [], error := none, overrun := none, done := false }

/-- A decoder for codings in header order; they are undone in reverse. -/
def new {κ : Type} (stage : κ → S) (codings : List κ) : Decoder S E := ofStages (codings.reverse.map stage)

def isDone (d : Decoder S E) : Bool := d.done

/-- What stage `j` reads. -/
def source (d : Decoder S E) (input : Bytes) (j : Nat) : Bytes :=
  if j = 0 then input else d.windows.getD (j - 1) []

/-- Stage `j` has read `consumed` bytes of its source, written `produced`, and is now `s`. -/
def advance (d : Decoder S E) (input : Bytes) (j : Nat) (s : S) (consumed : Nat) (produced : Bytes) :
    Decoder S E × Bytes :=
  let windows := if j = 0 then d.windows else d.windows.set (j - 1) ((d.source input j).drop consumed)
  ({ d with
      stages := d.stages.set j s, windows := windows.set j produced,
      overrun := if m.overrun s then some (d.overrun.elim j (max j)) else d.overrun },
    if j = 0 then input.drop consumed else input)

/-- Where the walk goes from stage `j`, which has read `consumed` of `source` bytes and written `produced`. -/
def turn (overrun : Option Nat) (k j source consumed produced : Nat) : Walk E :=
  if 0 < produced then if j = k then .filled else .on (j + 1)
  else if consumed = 0 then
    if source ≠ 0 then .failed .noProgress
    else if j = 0 ∨ overrun.any (fun o => j ≤ o + 1) then .dry
    else .on (j - 1)
  else .on j

/-- One turn of `pull`'s loop. -/
def pullStep (d : Decoder S E) (input : Bytes) (k j : Nat) : Decoder S E × Bytes × List Ran × Walk E :=
  match d.stages[j]? with
  | none => (d, input, [], .dry)
  | some s =>
    match m.run s (d.source input j) with
    | .error e =>
      ({ d with windows := d.windows.set j [] }, input, [⟨j, d.windows.getD j [], [], false⟩], .failed (.stage e))
    | .ok (s, consumed, produced) =>
      let (d', input') := d.advance m input j s consumed produced
      (d', input', [⟨j, d.windows.getD j [], produced, m.overrun s⟩],
        turn d'.overrun k j (d.source input j).length consumed produced.length)

/-- `pull`'s loop: `true` once window `k` is filled, `false` when the stages in front of it are dry. -/
def pull (k : Nat) : Nat → Decoder S E → Bytes → Nat → Option (Answer S E Bool)
  | 0, _, _, _ => none
  | fuel + 1, d, input, j =>
    match d.pullStep m input k j with
    | (d, input, log, .on j) => (pull k fuel d input j).map fun a => { a with log := log ++ a.log }
    | (d, input, log, .filled) => some ⟨d, input, .ok true, log⟩
    | (d, input, log, .dry) => some ⟨d, input, .ok false, log⟩
    | (d, input, log, .failed fault) => some ⟨d, input, .error fault, log⟩

/-- `Window::take` of the last window. -/
def take (d : Decoder S E) (last : Nat) : Decoder S E × Bytes :=
  ({ d with windows := d.windows.set last [] }, d.windows.getD last [])

/-- `push` once the last window is empty. -/
def afterPull (last : Nat) (a : Answer S E Bool) : Answer S E (Option Bytes) :=
  match a.result with
  | .ok true => ⟨(a.decoder.take last).1, a.left, .ok (some (a.decoder.take last).2), a.log⟩
  | .ok false =>
    if a.decoder.overrun.isSome then ⟨{ a.decoder with done := true }, [], .ok none, a.log⟩
    else ⟨a.decoder, a.left, .ok none, a.log⟩
  | .error fault => ⟨{ a.decoder with error := some fault }, a.left, .error fault, a.log⟩

/-- One chunk of at most `OUT_CAP` bytes out of the last stage, or of the input if there is none. -/
def push (fuel : Nat) (d : Decoder S E) (input : Bytes) : Option (Answer S E (Option Bytes)) :=
  match d.error with
  | some fault => some ⟨d, input, .error fault, []⟩
  | none =>
    if d.done then some ⟨d, [], .ok none, []⟩
    else if d.stages.length = 0 then
      if input.isEmpty then some ⟨d, input, .ok none, []⟩
      else some ⟨d, input.drop outCap, .ok (some (input.take outCap)), []⟩
    else
      let last := d.stages.length - 1
      if (d.windows.getD last []).isEmpty then (d.pull m last fuel input last).map (afterPull last)
      else some ⟨(d.take last).1, input, .ok (some (d.take last).2), []⟩

def finish (fuel : Nat) (d : Decoder S E) : Option (Answer S E (Option Bytes)) := d.push m fuel []

/-! ## A caller -/

def chunksOf (answers : List (Answer S E (Option Bytes))) : List Bytes :=
  answers.filterMap fun a => a.result.toOption.join

def logOf (answers : List (Answer S E (Option Bytes))) : List Ran := answers.flatMap (·.log)

structure Session (S E : Type) where
  decoder : Decoder S E
  answers : List (Answer S E (Option Bytes))

namespace Session

/-- Push a frame until `None`, or until the decoder fails. -/
def pushFrame (fuel : Nat) : Nat → Session S E → Bytes → Option (Session S E)
  | 0, _, _ => none
  | calls + 1, s, frame =>
    (s.decoder.push m fuel frame).bind fun a =>
      let s : Session S E := ⟨a.decoder, s.answers ++ [a]⟩
      match a.result with
      | .ok (some _) => pushFrame fuel calls s a.left
      | _ => some s

/-- Push every frame until `None`. -/
def pushFrames (fuel : Nat) : Session S E → List Bytes → Option (Session S E)
  | s, [] => some s
  | s, frame :: frames => (pushFrame m fuel fuel s frame).bind fun s => pushFrames fuel s frames

end Session

/-- A whole body: every frame pushed until `None`, then `finish` until `None`. -/
def decodeAll (fuel : Nat) (stages : List S) (frames : List Bytes) : Option (Session S E) :=
  (Session.pushFrames m fuel ⟨ofStages stages, []⟩ frames).bind fun s => s.pushFrame m fuel fuel []

end Decoder

end Oam.Http
