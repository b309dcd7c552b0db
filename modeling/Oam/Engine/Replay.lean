/-
  `oam run --record` and `--replay` (`replay.rs`, the ops behind `Math.random`, `Date.now` and `performance.now`).  The
  replayer REWRITES the outcome of a completion that arrives; it does not choose which one arrives, so two ops that
  finish the other way round are delivered the other way round (`replay_reorders`).
-/
import Oam.Lib.Text
import Oam.Lib.Trace

namespace Oam.Engine.Replay

open List Text Trace

/-! ## The trace -/

inductive Kind where
  | rng
  | dateNow
  | perfNow
deriving DecidableEq, Repr

inductive Value where
  | rng (bits : UInt64)
  | dateNow (ms : Int)
  | perfNow (bits : UInt64)
deriving DecidableEq, Repr

def Value.kind : Value → Kind
  | .rng _ => .rng
  | .dateNow _ => .dateNow
  | .perfNow _ => .perfNow

inductive ReplayEvent where
  | op (seq id : Nat) (outcomeJson : Str)
  | rng (seq : Nat) (value : UInt64)
  | dateNow (seq : Nat) (value : Int)
  | perfNow (seq : Nat) (value : UInt64)
deriving DecidableEq, Repr

structure Recorder where
  events : List ReplayEvent
  seq : Nat
deriving DecidableEq, Repr

structure Replayer where
  events : List ReplayEvent
deriving DecidableEq, Repr

structure ReplayState where
  recorder : Option Recorder
  replayer : Option Replayer
deriving DecidableEq, Repr

/-- `next_seq` and `push`. -/
def Recorder.push (r : Recorder) (event : Nat → ReplayEvent) : Recorder :=
  { events := r.events ++ [event r.seq], seq := r.seq + 1 }

/-- `position` and `remove`: the first event that `pick` takes something from. -/
def takeFirst {α : Type} (pick : ReplayEvent → Option α) : List ReplayEvent → Option (α × List ReplayEvent)
  | [] => none
  | e :: events =>
    match pick e with
    | some a => some (a, events)
    | none => (takeFirst pick events).map fun r => (r.1, e :: r.2)

def pickOp (id : Nat) : ReplayEvent → Option Str
  | .op _ eid outcomeJson => if eid = id then some outcomeJson else none
  | _ => none

def pickValue : Kind → ReplayEvent → Option Value
  | .rng, .rng _ value => some (.rng value)
  | .dateNow, .dateNow _ value => some (.dateNow value)
  | .perfNow, .perfNow _ value => some (.perfNow value)
  | _, _ => none

/-- The front if it is the op, else the first event of the op anywhere. -/
def Replayer.nextOp (r : Replayer) (id : Nat) : Option (Str × Replayer) :=
  match r.events with
  | .op _ fid outcomeJson :: events =>
    if fid = id then some (outcomeJson, ⟨events⟩)
    else (takeFirst (pickOp id) r.events).map fun x => (x.1, ⟨x.2⟩)
  | _ => (takeFirst (pickOp id) r.events).map fun x => (x.1, ⟨x.2⟩)

/-- `next_rng`, `next_date_now`, `next_perf_now`: the first event of the kind. -/
def Replayer.nextValue (r : Replayer) (kind : Kind) : Option (Value × Replayer) :=
  (takeFirst (pickValue kind) r.events).map fun x => (x.1, ⟨x.2⟩)

def Value.event : Value → Nat → ReplayEvent
  | .rng bits, seq => .rng seq bits
  | .dateNow ms, seq => .dateNow seq ms
  | .perfNow bits, seq => .perfNow seq bits

/-- The patched `Math.random`, `Date.now` and `performance.now`, `live` being what the engine's own returned. -/
def hookValue (state : ReplayState) (live : Value) : ReplayState × Value :=
  match state.recorder, state.replayer with
  | some recorder, _ => ({ state with recorder := some (recorder.push live.event) }, live)
  | none, some replayer =>
    match replayer.nextValue live.kind with
    | some (value, replayer) => ({ state with replayer := some replayer }, value)
    | none => (state, live)
  | none, none => (state, live)

variable {Outcome : Type}

/-- An op's outcome as `serde_json` writes and reads it. -/
structure Codec (Outcome : Type) where
  write : Outcome → Str
  read : Str → Option Outcome

structure OpCompletion (Outcome : Type) where
  id : Nat
  outcome : Outcome
deriving DecidableEq, Repr

def signalOpId : Nat := 0

def platformTaskOpId : Nat := 18446744073709551615

/-- Recorded as it is, or replaced by what the log has for its id. -/
def interceptCompletion (codec : Codec Outcome) (state : ReplayState) (completion : OpCompletion Outcome) :
    ReplayState × OpCompletion Outcome :=
  if completion.id = signalOpId ∨ completion.id = platformTaskOpId then (state, completion)
  else
    match state.recorder, state.replayer with
    | some recorder, _ =>
      ({ state with recorder := some (recorder.push fun seq => .op seq completion.id (codec.write completion.outcome)) },
        completion)
    | none, some replayer =>
      match replayer.nextOp completion.id with
      | some (json, replayer) =>
        match codec.read json with
        | some outcome => ({ state with replayer := some replayer }, { completion with outcome := outcome })
        | none => ({ state with replayer := some replayer }, completion)
      | none => (state, completion)
    | none, none => (state, completion)

/-! ## Programs -/

inductive Delivery (Outcome : Type) where
  | value (v : Value)
  | op (id : Nat) (outcome : Outcome)
deriving DecidableEq, Repr

/-- What it does next: it asks for a value, or it waits for an op. -/
inductive Want where
  | value (kind : Kind)
  | completion
  | nothing
deriving DecidableEq, Repr

/-- A program: what it does next and how many ops it has started, by what it got so far. -/
structure Program (Outcome : Type) where
  next : List (Delivery Outcome) → Want
  started : List (Delivery Outcome) → Nat

inductive Live (Outcome : Type) where
  | value (v : Value)
  | completion (id : Nat) (outcome : Outcome)
deriving DecidableEq, Repr

structure State (Outcome : Type) where
  history : List (Delivery Outcome)
  replay : ReplayState
deriving DecidableEq, Repr

def Delivery.isOp (id : Nat) : Delivery Outcome → Bool
  | .op id' _ => id' = id
  | .value _ => false

/-- Started (the ids count from 1), and not delivered. -/
def Program.inFlight (p : Program Outcome) (history : List (Delivery Outcome)) (id : Nat) : Bool :=
  decide (1 ≤ id) && decide (id ≤ p.started history) && decide (id < platformTaskOpId) && !history.any (Delivery.isOp id)

def giveValue (s : State Outcome) (v : Value) : State Outcome × List (Delivery Outcome) :=
  (⟨s.history ++ [.value (hookValue s.replay v).2], (hookValue s.replay v).1⟩, [.value (hookValue s.replay v).2])

def giveCompletion (codec : Codec Outcome) (s : State Outcome) (c : OpCompletion Outcome) :
    State Outcome × List (Delivery Outcome) :=
  (⟨s.history ++ [.op c.id (interceptCompletion codec s.replay c).2.outcome], (interceptCompletion codec s.replay c).1⟩,
    [.op c.id (interceptCompletion codec s.replay c).2.outcome])

/-- One delivery; nothing happens if the program does not want it, or has no such op. -/
def step (codec : Codec Outcome) (p : Program Outcome) (s : State Outcome) (live : Live Outcome) :
    State Outcome × List (Delivery Outcome) :=
  match live with
  | .value v => if p.next s.history = .value v.kind then giveValue s v else (s, [])
  | .completion id outcome =>
    if p.next s.history = .completion ∧ p.inFlight s.history id = true then giveCompletion codec s ⟨id, outcome⟩ else (s, [])

def recording : State Outcome := ⟨[], ⟨some ⟨[], 0⟩, none⟩⟩

def replaying (trace : List ReplayEvent) : State Outcome := ⟨[], ⟨none, some ⟨trace⟩⟩⟩

def State.trace (s : State Outcome) : List ReplayEvent := (s.replay.recorder.map Recorder.events).getD []

def inOrder (p : Program Outcome) (s : State Outcome) : Live Outcome → Bool
  | .completion id _ =>
    match (s.replay.replayer.map Replayer.events).getD [] with
    | .op _ next _ :: _ => !p.inFlight s.history id || decide (id = next)
    | _ => true
  | .value _ => true

/-! ## What is recorded -/

def Delivery.event (codec : Codec Outcome) : Delivery Outcome → Nat → ReplayEvent
  | .value v, seq => v.event seq
  | .op id outcome, seq => .op seq id (codec.write outcome)

/-- The trace of what was delivered, numbered from `seq`. -/
def traceFrom (codec : Codec Outcome) (seq : Nat) : List (Delivery Outcome) → List ReplayEvent
  | [] => []
  | d :: ds => d.event codec seq :: traceFrom codec (seq + 1) ds

theorem traceFrom_concat (codec : Codec Outcome) (seq : Nat) (ds : List (Delivery Outcome)) (d : Delivery Outcome) :
    traceFrom codec seq (ds ++ [d]) = traceFrom codec seq ds ++ [d.event codec (seq + ds.length)] := by
  induction ds generalizing seq with
  | nil => rfl
  | cons d' ds ih =>
    have hseq : seq + 1 + ds.length = seq + (d' :: ds).length := by
      rw [length_cons]
      omega
    rw [cons_append, traceFrom, ih, hseq]
    rfl

def Fits (p : Program Outcome) (before : List (Delivery Outcome)) : Delivery Outcome → Prop
  | .value v => p.next before = .value v.kind
  | .op id _ => p.next before = .completion ∧ p.inFlight before id = true

variable {p : Program Outcome} {id : Nat}

theorem ids_of_inFlight {history : List (Delivery Outcome)} (h : p.inFlight history id) :
    ¬(id = signalOpId ∨ id = platformTaskOpId) := by
  simp only [Program.inFlight, Bool.and_eq_true, decide_eq_true_eq] at h
  simp only [signalOpId]
  omega

/-- A recording so far: the trace is of what was delivered, and all of it was wanted. -/
structure Recorded (codec : Codec Outcome) (p : Program Outcome) (s : State Outcome) : Prop where
  replay : s.replay = ⟨some ⟨traceFrom codec 0 s.history, s.history.length⟩, none⟩
  fits : Each (Fits p) s.history

variable {codec : Codec Outcome} {s : State Outcome} {d : Delivery Outcome}

theorem Recorded.delivered (h : Recorded codec p s) (hfits : Fits p s.history d) : Recorded codec p ⟨s.history ++ [d],
      ⟨some ⟨traceFrom codec 0 s.history ++ [d.event codec s.history.length], s.history.length + 1⟩, none⟩⟩ := by
  refine ⟨?_, ?_⟩
  · show ReplayState.mk _ _ = ReplayState.mk (some ⟨traceFrom codec 0 (s.history ++ [d]), (s.history ++ [d]).length⟩) none
    rw [traceFrom_concat, Nat.zero_add, length_append]
    rfl
  · rw [each_append]
    refine ⟨h.fits, ?_⟩
    rw [each_cons, append_nil]
    exact ⟨hfits, each_nil _⟩

theorem step_cases (codec : Codec Outcome) (p : Program Outcome) (s : State Outcome) (live : Live Outcome) :
    step codec p s live = (s, []) ∨ (∃ v, p.next s.history = .value v.kind ∧ step codec p s live = giveValue s v) ∨
    ∃ id outcome, live = .completion id outcome ∧ p.next s.history = .completion ∧ p.inFlight s.history id ∧
    step codec p s live = giveCompletion codec s ⟨id, outcome⟩ := by
  cases live with
  | value v =>
    rw [step]
    split
    · next hnext => exact .inr (.inl ⟨v, hnext, rfl⟩)
    · exact .inl rfl
  | completion id outcome =>
    rw [step]
    split
    · next h => exact .inr (.inr ⟨id, outcome, rfl, h.1, h.2, rfl⟩)
    · exact .inl rfl

theorem recorded_step (h : Recorded codec p s) (live : Live Outcome) : Recorded codec p (step codec p s live).1 := by
  rcases step_cases codec p s live with hsame | ⟨v, hnext, hstep⟩ | ⟨id, outcome, -, hnext, hflight, hstep⟩
  · rw [hsame]
    exact h
  · have hhook : hookValue s.replay v =
        (⟨some ⟨traceFrom codec 0 s.history ++ [v.event s.history.length], s.history.length + 1⟩, none⟩, v) := by
      rw [h.replay]
      rfl
    rw [hstep, giveValue, hhook]
    exact h.delivered (show Fits p s.history (.value v) from hnext)
  · have hintercept : interceptCompletion codec s.replay ⟨id, outcome⟩ =
        (⟨some ⟨traceFrom codec 0 s.history ++ [.op s.history.length id (codec.write outcome)],
            s.history.length + 1⟩, none⟩, ⟨id, outcome⟩) := by
      rw [h.replay, interceptCompletion, if_neg (ids_of_inFlight hflight)]
      rfl
    rw [hstep, giveCompletion, hintercept]
    exact h.delivered (show Fits p s.history (.op id outcome) from ⟨hnext, hflight⟩)

/-! ## What is replayed -/

/-- The replay is where the recorded run was, with the rest of the trace before it — or past its end. -/
inductive Follows (codec : Codec Outcome) (recorded : List (Delivery Outcome)) (s : State Outcome) : Prop
  | inside (rest : List (Delivery Outcome)) (hrest : recorded = s.history ++ rest)
      (hreplay : s.replay = ⟨none, some ⟨traceFrom codec s.history.length rest⟩⟩) : Follows codec recorded s
  | past (h : recorded <+: s.history) (hreplay : s.replay = ⟨none, some ⟨[]⟩⟩) : Follows codec recorded s

structure Diverged (recorded : List (Delivery Outcome)) (s : State Outcome) : Prop where
  ahead : ¬recorded <+: s.history
  behind : ¬s.history <+: recorded

theorem history_step (codec : Codec Outcome) (p : Program Outcome) (s : State Outcome) (live : Live Outcome) :
    (step codec p s live).1 = s ∨ ∃ d, (step codec p s live).1.history = s.history ++ [d] := by
  rcases step_cases codec p s live with hsame | ⟨v, -, hstep⟩ | ⟨id, _, -, -, -, hstep⟩
  · exact .inl (by rw [hsame])
  · exact .inr ⟨_, by rw [hstep, giveValue]⟩
  · exact .inr ⟨_, by rw [hstep, giveCompletion]⟩

theorem replay_step_of_nil (h : s.replay = ⟨none, some ⟨[]⟩⟩) (live : Live Outcome) :
    (step codec p s live).1.replay = ⟨none, some ⟨[]⟩⟩ := by
  rcases step_cases codec p s live with hsame | ⟨v, -, hstep⟩ | ⟨id, _, -, -, hflight, hstep⟩
  · rw [hsame]
    exact h
  · rw [hstep, giveValue, h]
    rfl
  · rw [hstep, giveCompletion, h, interceptCompletion, if_neg (ids_of_inFlight hflight)]
    rfl

variable {recorded : List (Delivery Outcome)}

theorem past_step (h : recorded <+: s.history) (hreplay : s.replay = ⟨none, some ⟨[]⟩⟩) (live : Live Outcome) :
    Follows codec recorded (step codec p s live).1 := by
  refine .past ?_ (replay_step_of_nil hreplay live)
  rcases history_step codec p s live with hsame | ⟨d, hd⟩
  · rw [hsame]
    exact h
  · rw [hd]
    exact h.trans (prefix_append _ _)

theorem inOrder_of_nil (h : s.replay = ⟨none, some ⟨[]⟩⟩) (live : Live Outcome) : inOrder p s live := by
  cases live with
  | value => rfl
  | completion =>
    rw [inOrder, h]
    rfl

theorem diverged_step (h : Diverged recorded s) (live : Live Outcome) : Diverged recorded (step codec p s live).1 := by
  rcases history_step codec p s live with hsame | ⟨d, hd⟩
  · rw [hsame]
    exact h
  · refine ⟨fun hahead => ?_, fun hbehind => ?_⟩
    · rw [hd] at hahead
      rcases prefix_concat_iff.mp hahead with heq | hprev
      · exact h.behind (heq ▸ prefix_append _ _)
      · exact h.ahead hprev
    · rw [hd] at hbehind
      exact h.behind ((prefix_append _ _).trans hbehind)

variable {rest : List (Delivery Outcome)}

theorem inOrder_of_unchanged (hfits : Fits p s.history d)
    (hreplay : s.replay = ⟨none, some ⟨traceFrom codec s.history.length (d :: rest)⟩⟩) {live : Live Outcome}
    (hstep : step codec p s live = (s, [])) : inOrder p s live := by
  cases live with
  | value => rfl
  | completion id =>
    cases d with
    | value v =>
      rw [inOrder, hreplay]
      cases v <;> rfl
    | op =>
      cases hflight : p.inFlight s.history id with
      | false =>
        rw [inOrder, hreplay]
        simp [traceFrom, Delivery.event, hflight]
      | true =>
        -- the program wants a completion and has this one: it is delivered
        rw [step, if_pos ⟨hfits.1, hflight⟩] at hstep
        have hlog := congrArg Prod.snd hstep
        cases hlog

theorem follows_or_diverged_step (hfits : Each (Fits p) recorded)
    (hcodec : ∀ id outcome, .op id outcome ∈ recorded → codec.read (codec.write outcome) = some outcome)
    (h : Follows codec recorded s) (live : Live Outcome) :
    (inOrder p s live ∧ Follows codec recorded (step codec p s live).1) ∨
      (inOrder p s live = false ∧ Diverged recorded (step codec p s live).1) := by
  cases h with
  | past hpast hreplay => exact .inl ⟨inOrder_of_nil hreplay live, past_step hpast hreplay live⟩
  | inside rest hrest hreplay =>
    cases rest with
    | nil =>
      have hpast : recorded <+: s.history := by
        rewrite [hrest, append_nil]
        exact prefix_refl _
      exact .inl ⟨inOrder_of_nil hreplay live, past_step hpast hreplay live⟩
    | cons d rest =>
      have hd : Fits p s.history d := hfits s.history d rest hrest
      rcases step_cases codec p s live with hsame | ⟨v, hnext, hstep⟩ | ⟨id, outcome, rfl, hnext, hflight, hstep⟩
      · left
        refine ⟨inOrder_of_unchanged hd hreplay hsame, ?_⟩
        rw [hsame]
        exact .inside (d :: rest) hrest hreplay
      · left
        refine ⟨?_, ?_⟩
        rotate_left
        · cases d with
          | op =>
            rw [hd.1] at hnext
            cases hnext
          | value v' =>
            have hkind : v.kind = v'.kind := by
              have hwant : p.next s.history = .value v'.kind := hd
              rw [hwant] at hnext
              injection hnext with hk
              exact hk.symm
            have hhook : hookValue s.replay v = (⟨none, some ⟨traceFrom codec (s.history.length + 1) rest⟩⟩, v') := by
              simp only [hreplay, hookValue, hkind]
              cases v' <;> rfl
            rw [hstep, giveValue, hhook]
            refine .inside rest (by rw [hrest, append_assoc]; rfl) ?_
            rw [length_append]
            rfl
        cases live with
        | value => rfl
        | completion =>
          -- it wants a value: no completion is next in the trace
          cases d with
          | value v' =>
            rw [inOrder, hreplay]
            cases v' <;> rfl
          | op =>
            rw [hd.1] at hnext
            cases hnext
      · cases d with
        | value v =>
          have hwant : p.next s.history = .value v.kind := hd
          rw [hwant] at hnext
          cases hnext
        | op next recordedOutcome =>
          have horder : inOrder p s (.completion id outcome) = decide (id = next) := by
            rw [inOrder, hreplay]
            simp [traceFrom, Delivery.event, hflight]
          rw [hstep, horder]
          by_cases hid : id = next
          · subst hid
            have hintercept : interceptCompletion codec s.replay ⟨id, outcome⟩ =
                (⟨none, some ⟨traceFrom codec (s.history.length + 1) rest⟩⟩, ⟨id, recordedOutcome⟩) := by
              rw [hreplay, interceptCompletion, if_neg (ids_of_inFlight hflight)]
              have hread := hcodec id recordedOutcome (by rw [hrest]; simp)
              simp only [traceFrom, Delivery.event, Replayer.nextOp, if_true, hread]
            rw [giveCompletion, hintercept]
            refine .inl ⟨decide_eq_true rfl, .inside rest (by rw [hrest, append_assoc]; rfl) ?_⟩
            rw [length_append]
            rfl
          · refine .inr ⟨decide_eq_false hid, ?_⟩
            rw [giveCompletion]
            refine ⟨fun hahead => ?_, fun hbehind => ?_⟩
            · rw [hrest, prefix_append_right_inj, cons_prefix_cons] at hahead
              simp [Ne.symm hid] at hahead
            · rw [hrest, prefix_append_right_inj, cons_prefix_cons] at hbehind
              simp [hid] at hbehind

theorem follows_or_diverged (hfits : Each (Fits p) recorded)
    (hcodec : ∀ id outcome, .op id outcome ∈ recorded → codec.read (codec.write outcome) = some outcome)
    (h : Follows codec recorded s) (live : List (Live Outcome)) :
    (Along (step codec p) (inOrder p) s live ∧ Follows codec recorded (run (step codec p) s live).1) ∨
      (¬Along (step codec p) (inOrder p) s live ∧ Diverged recorded (run (step codec p) s live).1) := by
  induction live generalizing s with
  | nil => exact .inl ⟨trivial, h⟩
  | cons a live ih =>
    rcases follows_or_diverged_step hfits hcodec h a with ⟨horder, hfollows⟩ | ⟨horder, hdiverged⟩
    · rcases ih hfollows with ⟨halong, hend⟩ | ⟨halong, hend⟩
      · exact .inl ⟨⟨horder, halong⟩, hend⟩
      · exact .inr ⟨fun h => halong h.2, hend⟩
    · refine .inr ⟨fun halong => ?_, ?_⟩
      · have htrue : inOrder p s a := halong.1
        rw [horder] at htrue
        cases htrue
      · exact run_keeps (Diverged recorded) (fun _ a h => diverged_step h a) hdiverged live

/-- **Replay reproduces the recorded run exactly when the ops finish in the recorded order**, for every program that is
    a function of what it got. -/
theorem replay_reproduces (codec : Codec Outcome) (p : Program Outcome) (inputs live : List (Live Outcome))
    (hcodec : ∀ id outcome, .op id outcome ∈ (run (step codec p) recording inputs).1.history →
      codec.read (codec.write outcome) = some outcome) :
    ((run (step codec p) (replaying (run (step codec p) recording inputs).1.trace) live).1.history <+:
          (run (step codec p) recording inputs).1.history ∨
        (run (step codec p) recording inputs).1.history <+:
          (run (step codec p) (replaying (run (step codec p) recording inputs).1.trace) live).1.history) ↔
      Along (step codec p) (inOrder p) (replaying (run (step codec p) recording inputs).1.trace) live := by
  have hrecorded := run_keeps (Recorded codec p) (fun _ live h => recorded_step h live)
    (⟨rfl, each_nil _⟩ : Recorded codec p recording) inputs
  generalize (run (step codec p) recording inputs).1 = recorded at hrecorded hcodec
  have htrace : recorded.trace = traceFrom codec 0 recorded.history := by
    rw [State.trace, hrecorded.replay]
    rfl
  have hstart : Follows codec recorded.history (replaying recorded.trace : State Outcome) :=
    .inside recorded.history rfl (by rw [htrace]; rfl)
  rcases follows_or_diverged hrecorded.fits hcodec hstart live with ⟨halong, hfollows⟩ | ⟨halong, hdiverged⟩
  · refine iff_of_true ?_ halong
    cases hfollows with
    | inside rest hrest => exact .inl (hrest ▸ prefix_append _ _)
    | past hpast => exact .inr hpast
  · exact iff_of_false (fun h => h.elim hdiverged.behind hdiverged.ahead) halong

/-- A program that starts two ops, waits for one of them, asks for a random number and waits for the other. -/
def twoOps : Program Unit where
  next
    | [_] => .value .rng
    | [] | [_, _] => .completion
    | _ => .nothing
  started := fun _ => 2

/-- `OpOutcome::Done`. -/
def doneCodec : Codec Unit where
  write := fun _ => "\"Done\"".toList
  read := fun json => if json = "\"Done\"".toList then some () else none

theorem replay_reproduces_in_order : Along (step doneCodec twoOps) (inOrder twoOps)
        (replaying (run (step doneCodec twoOps) recording [.completion 1 (), .value (.rng 5), .completion 2 ()]).1.trace)
        [.completion 1 (), .value (.rng 9), .completion 2 ()] ∧
      ((run (step doneCodec twoOps)
          (replaying (run (step doneCodec twoOps) recording [.completion 1 (), .value (.rng 5), .completion 2 ()]).1.trace)
          [.completion 1 (), .value (.rng 9), .completion 2 ()]).1.history <+:
          (run (step doneCodec twoOps) recording [.completion 1 (), .value (.rng 5), .completion 2 ()]).1.history ∨
        (run (step doneCodec twoOps) recording [.completion 1 (), .value (.rng 5), .completion 2 ()]).1.history <+:
          (run (step doneCodec twoOps)
            (replaying (run (step doneCodec twoOps) recording [.completion 1 (), .value (.rng 5), .completion 2 ()]).1.trace)
            [.completion 1 (), .value (.rng 9), .completion 2 ()]).1.history) := by
  have halong : Along (step doneCodec twoOps) (inOrder twoOps)
      (replaying (run (step doneCodec twoOps) recording [.completion 1 (), .value (.rng 5), .completion 2 ()]).1.trace)
      [.completion 1 (), .value (.rng 9), .completion 2 ()] := by decide +kernel
  exact ⟨halong, (replay_reproduces doneCodec twoOps _ _ fun _ _ _ => rfl).mpr halong⟩

/-- **The order is the live one.** In the recorded run the first op finished first; in the replay the second does. -/
theorem replay_reorders :
    (run (step doneCodec twoOps) recording [.completion 1 (), .value (.rng 5), .completion 2 ()]).1.history =
        [.op 1 (), .value (.rng 5), .op 2 ()] ∧
      (run (step doneCodec twoOps)
        (replaying (run (step doneCodec twoOps) recording [.completion 1 (), .value (.rng 5), .completion 2 ()]).1.trace)
        [.completion 2 (), .value (.rng 9), .completion 1 ()]).1.history =
        [.op 2 (), .value (.rng 5), .op 1 ()] := by
  decide +kernel

end Oam.Engine.Replay
