/-
  The registry of request bodies, for one request (`http_server.rs`): the handler's reads on the JavaScript thread, the
  io workers and the connection all reach a body through it, each call a lock section at a time; `take_request_body` of
  a streamed body is two.  In the gap between them a body may come back, or be lost (`gap_revives_and_loses`).
-/
import Oam.Lib.Text
import Oam.Lib.Trace

namespace Oam.Http.Bodies

open List Text Trace

/-! ## The registry -/

abbrev Receiver := Nat

inductive RequestBody where
  | full (bytes : List UInt8)
  | stream (rx : Receiver)
  | streamPending
deriving DecidableEq, Repr

inductive BodyCheckout where
  | ready (rx : Receiver)
  | inFlight
  | absent
deriving DecidableEq, Repr

abbrev Fields := List (Str × Str)

structure Registry where
  body : Option RequestBody
  trailers : Option Fields
  /-- Removed by a `take_request_body` that is about to put it back. -/
  between : List RequestBody
  /-- With a reader. -/
  out : List Receiver
deriving DecidableEq, Repr

inductive Section where
  | takeRequestBody
  /-- The second section of the `i`-th of the calls that are between theirs. -/
  | reinsert (i : Nat)
  | takeBodyStream
  | putBodyStream (rx : Receiver)
  | cancelBodyStream
  | finishRequestBody
  | storeTrailers (fields : Fields)
deriving DecidableEq, Repr

inductive Answer where
  | bytes (taken : Option (List UInt8))
  | checkout (outcome : BodyCheckout)
  | trailers (taken : Option Fields)
deriving DecidableEq, Repr

def takeRequestBody (s : Registry) : Registry × List Answer :=
  match s.body with
  | none => (s, [.bytes none])
  | some (.full bytes) => ({ s with body := none }, [.bytes (some bytes)])
  | some other => ({ s with body := none, between := other :: s.between }, [])

def reinsert (s : Registry) (i : Nat) : Registry × List Answer :=
  match s.between[i]? with
  | none => (s, [])
  | some other => ({ s with body := some other, between := s.between.eraseIdx i }, [.bytes none])

def takeBodyStream (s : Registry) : Registry × List Answer :=
  match s.body with
  | some (.stream rx) => ({ s with body := some .streamPending, out := rx :: s.out }, [.checkout (.ready rx)])
  | some .streamPending => (s, [.checkout .inFlight])
  | _ => (s, [.checkout .absent])

/-- Only onto the marker of the checkout; else the receiver is dropped. -/
def putBodyStream (s : Registry) (rx : Receiver) : Registry × List Answer :=
  if rx ∈ s.out then
    ({ s with
        body := if s.body = some .streamPending then some (.stream rx) else s.body,
        out := s.out.erase rx }, [])
  else (s, [])

/-- A section that cannot run, the call not being there, does nothing. -/
def step (s : Registry) : Section → Registry × List Answer
  | .takeRequestBody => takeRequestBody s
  | .reinsert i => reinsert s i
  | .takeBodyStream => takeBodyStream s
  | .putBodyStream rx => putBodyStream s rx
  | .cancelBodyStream => ({ s with body := none, trailers := none }, [])
  | .finishRequestBody => ({ s with body := none, trailers := none }, [.trailers s.trailers])
  | .storeTrailers fields => (if s.body.isSome then { s with trailers := some fields } else s, [])

structure Dispatched (s : Registry) : Prop where
  between : s.between = []
  out : s.out = []
  body : s.body ≠ some .streamPending

def Ends (a : Section) : Prop := a = .cancelBodyStream ∨ a = .finishRequestBody

instance (a : Section) : Decidable (Ends a) := inferInstanceAs (Decidable (_ ∨ _))

/-- Not in the gap of a `take_request_body`, unless the section is of such a call, or keeps trailers. -/
def clear (s : Registry) : Section → Bool
  | .takeRequestBody | .reinsert _ | .storeTrailers _ => true
  | .takeBodyStream | .putBodyStream _ | .cancelBodyStream | .finishRequestBody => s.between.isEmpty

/-! ## Ended is ended -/

/-- Nothing is there, and no call is about to put something back. -/
structure Gone (s : Registry) : Prop where
  body : s.body = none
  trailers : s.trailers = none
  between : s.between = []

variable {s : Registry} {a : Section}

theorem gone_of_ends (ha : Ends a) (hclear : clear s a) : Gone (step s a).1 := by
  have hbetween : s.between = [] := by
    rcases ha with rfl | rfl <;> exact List.isEmpty_iff.mp hclear
  rcases ha with rfl | rfl <;> exact ⟨rfl, rfl, hbetween⟩

theorem Gone.stays (h : Gone s) (a : Section) : Gone (step s a).1 := by
  cases a with
  | takeRequestBody =>
    rw [step, takeRequestBody, h.body]
    exact h
  | reinsert =>
    rw [step, reinsert, h.between, getElem?_nil]
    exact h
  | takeBodyStream =>
    rw [step, takeBodyStream, h.body]
    exact h
  | putBodyStream =>
    rw [step, putBodyStream]
    split
    · rw [h.body, if_neg (by simp)]
      exact ⟨rfl, h.trailers, h.between⟩
    · exact h
  | cancelBodyStream | finishRequestBody => exact ⟨rfl, rfl, h.between⟩
  | storeTrailers =>
    rw [step, h.body]
    exact h

/-! ## A receiver goes round -/

/-- **Where the receiver is**, while nothing has ended: nowhere, in the entry, or with one reader. -/
inductive Held : Registry → Prop
  | plain {body : Option RequestBody} {trailers : Option Fields} (hstream : ∀ rx, body ≠ some (.stream rx))
      (hmark : body ≠ some .streamPending) : Held ⟨body, trailers, [], []⟩
  | entry {trailers : Option Fields} (rx : Receiver) : Held ⟨some (.stream rx), trailers, [], []⟩
  | gapEntry {trailers : Option Fields} (rx : Receiver) : Held ⟨none, trailers, [.stream rx], []⟩
  | reader {trailers : Option Fields} (rx : Receiver) : Held ⟨some .streamPending, trailers, [], [rx]⟩
  | gapReader {trailers : Option Fields} (rx : Receiver) : Held ⟨none, trailers, [.streamPending], [rx]⟩

theorem Dispatched.held (h : Dispatched s) : Held s := by
  obtain ⟨body, _, _, _⟩ := s
  obtain ⟨hbetween, hout, hbody⟩ := h
  dsimp only at hbetween hout hbody
  subst hbetween hout
  cases body with
  | none => exact .plain (by simp) (by simp)
  | some body =>
    cases body with
    | full => exact .plain (by simp) (by simp)
    | stream rx => exact .entry rx
    | streamPending => exact absurd rfl hbody

/-- Put back, the receiver waits: in the entry, or with a `take_request_body` that will put the entry back. -/
inductive Waits (rx : Receiver) : Registry → Prop
  | entry {trailers : Option Fields} : Waits rx ⟨some (.stream rx), trailers, [], []⟩
  | gap {trailers : Option Fields} : Waits rx ⟨none, trailers, [.stream rx], []⟩

variable {rx : Receiver}

theorem Waits.held (h : Waits rx s) : Held s := by
  cases h with
  | entry => exact .entry rx
  | gap => exact .gapEntry rx

theorem Waits.stays (h : Waits rx s) (hends : ¬Ends a) (htake : a ≠ .takeBodyStream) : Waits rx (step s a).1 := by
  cases a with
  | takeRequestBody =>
    cases h with
    | entry | gap => exact .gap
  | reinsert i =>
    cases h with
    | entry => exact .entry
    | gap =>
      cases i with
      | zero => exact .entry
      | succ => exact .gap
  | takeBodyStream => exact absurd rfl htake
  | putBodyStream =>
    cases h with
    | entry => exact .entry
    | gap => exact .gap
  | cancelBodyStream => exact absurd (.inl rfl) hends
  | finishRequestBody => exact absurd (.inr rfl) hends
  | storeTrailers =>
    cases h with
    | entry => exact .entry
    | gap => exact .gap

theorem Waits.checkedOut (h : Waits rx s) (hclear : clear s .takeBodyStream) :
    step s .takeBodyStream = (⟨some .streamPending, s.trailers, [], [rx]⟩, [.checkout (.ready rx)]) := by
  cases h with
  | entry => rfl
  | gap => cases hclear

theorem Held.putBack (h : Held s) (hrx : rx ∈ s.out) (hclear : clear s (.putBodyStream rx)) :
    Waits rx (step s (.putBodyStream rx)).1 := by
  cases h with
  | plain | entry | gapEntry => cases hrx
  | gapReader => cases hclear
  | reader rx' =>
    obtain rfl : rx = rx' := mem_singleton.mp hrx
    rw [step, putBodyStream, if_pos hrx, if_pos rfl, erase_cons_head]
    exact .entry

theorem Held.stays (h : Held s) (hends : ¬Ends a) (hclear : clear s a) : Held (step s a).1 := by
  cases h with
  | @plain body trailers hstream hmark =>
    cases a with
    | takeRequestBody | takeBodyStream =>
      cases body with
      | none => exact .plain (by simp) (by simp)
      | some body =>
        cases body with
        | full => exact .plain (by simp) (by simp)
        | stream rx => exact absurd rfl (hstream rx)
        | streamPending => exact absurd rfl hmark
    | reinsert | putBodyStream => exact .plain hstream hmark
    | cancelBodyStream => exact absurd (.inl rfl) hends
    | finishRequestBody => exact absurd (.inr rfl) hends
    | storeTrailers =>
      rw [step]
      split
      · exact .plain hstream hmark
      · exact .plain hstream hmark
  | entry rx =>
    by_cases htake : a = .takeBodyStream
    · subst htake
      exact .reader rx
    · exact (Waits.entry.stays hends htake).held
  | gapEntry =>
    by_cases htake : a = .takeBodyStream
    · subst htake
      cases hclear
    · exact (Waits.gap.stays hends htake).held
  | reader rx =>
    cases a with
    | takeRequestBody => exact .gapReader rx
    | reinsert | takeBodyStream => exact .reader rx
    | putBodyStream rx' =>
      by_cases hrx : rx' ∈ [rx]
      · exact ((Held.reader rx).putBack hrx rfl).held
      · rw [step, putBodyStream, if_neg hrx]
        exact .reader rx
    | cancelBodyStream => exact absurd (.inl rfl) hends
    | finishRequestBody => exact absurd (.inr rfl) hends
    | storeTrailers => exact .reader rx
  | gapReader rx =>
    cases a with
    | takeRequestBody => exact .gapReader rx
    | reinsert i =>
      cases i with
      | zero => exact .reader rx
      | succ => exact .gapReader rx
    | takeBodyStream | putBodyStream | cancelBodyStream | finishRequestBody => cases hclear
    | storeTrailers => exact .gapReader rx

/-! ## Whole runs -/

theorem held_run (h : Held s) {as : List Section} (hends : ∀ a ∈ as, ¬Ends a) (hclear : Along step clear s as) :
    Held (run step s as).1 := by
  induction as generalizing s with
  | nil => exact h
  | cons a as ih =>
    exact ih (h.stays (hends a mem_cons_self) hclear.1) (fun b hb => hends b (mem_cons_of_mem a hb)) hclear.2

theorem waits_run (h : Waits rx s) {as : List Section} (hends : ∀ a ∈ as, ¬Ends a)
    (htake : .takeBodyStream ∉ as) : Waits rx (run step s as).1 := by
  induction as generalizing s with
  | nil => exact h
  | cons a as ih =>
    rw [mem_cons, not_or] at htake
    exact ih (h.stays (hends a mem_cons_self) (Ne.symm htake.1)) (fun b hb => hends b (mem_cons_of_mem a hb))
      htake.2

/-- **Neither revived nor lost.** With no section in the gap of a `take_request_body`, an ended body stays ended, and a
    receiver that is put back is what the next checkout gets. -/
theorem bodies_kept_until_ended (s : Registry) (hs : Dispatched s) :
    (∀ as a bs, Ends a → Along step clear s (as ++ a :: bs) →
      (run step s (as ++ a :: bs)).1.body = none ∧ (run step s (as ++ a :: bs)).1.trailers = none) ∧
    (∀ as rx bs, rx ∈ (run step s as).1.out → (∀ a ∈ as ++ bs, ¬Ends a) → .takeBodyStream ∉ bs →
      Along step clear s (as ++ .putBodyStream rx :: bs ++ [.takeBodyStream]) →
      (step (run step s (as ++ .putBodyStream rx :: bs)).1 .takeBodyStream).2 = [.checkout (.ready rx)]) := by
  constructor
  · intro as a bs hends hclear
    have ha := (along_append.mp hclear).2.1
    have hgone := run_keeps Gone (fun _ a h => h.stays a) (gone_of_ends hends ha) bs
    rw [run_append]
    exact ⟨hgone.body, hgone.trailers⟩
  · intro as rx bs hrx hends htake hclear
    obtain ⟨hclear, hlast⟩ := along_append.mp hclear
    obtain ⟨has, hput⟩ := along_append.mp hclear
    have hheld : Held (run step s as).1 := held_run hs.held (fun a ha => hends a (mem_append_left _ ha)) has
    have hwaits : Waits rx (run step s (as ++ .putBodyStream rx :: bs)).1 := by
      rw [run_append]
      exact waits_run (hheld.putBack hrx hput.1) (fun a ha => hends a (mem_append_right _ ha)) htake
    rw [hwaits.checkedOut hlast.1]

/-- A reader puts the receiver back, with others in between; the next read gets it, and the cancel behind it is final.
    -/
theorem bodies_kept_until_ended_read : (step (run step ⟨some (.stream 7), none, [], []⟩
        ([.takeBodyStream] ++ .putBodyStream 7 :: [.takeRequestBody, .reinsert 0, .storeTrailers []])).1
        .takeBodyStream).2 = [.checkout (.ready 7)] ∧
      (run step ⟨some (.stream 7), none, [], []⟩
        ([.takeBodyStream] ++ .cancelBodyStream :: [.putBodyStream 7, .takeRequestBody])).1.body = none :=
  ⟨(bodies_kept_until_ended ⟨some (.stream 7), none, [], []⟩ ⟨rfl, rfl, by decide⟩).2 [.takeBodyStream] 7
      [.takeRequestBody, .reinsert 0, .storeTrailers []] (by decide) (by decide) (by decide) (by decide),
    ((bodies_kept_until_ended ⟨some (.stream 7), none, [], []⟩ ⟨rfl, rfl, by decide⟩).1 [.takeBodyStream]
      .cancelBodyStream [.putBodyStream 7, .takeRequestBody] (by decide) (by decide)).1⟩

/-- **In the gap, both fail.** A cancel there finds nothing to remove, and a receiver put back there is dropped. -/
theorem gap_revives_and_loses :
    (run step ⟨some (.stream 7), none, [], []⟩ [.takeRequestBody, .cancelBodyStream, .reinsert 0]).1.body =
        some (.stream 7) ∧
      (run step ⟨some (.stream 7), none, [], []⟩
          [.takeBodyStream, .takeRequestBody, .putBodyStream 7, .reinsert 0, .takeBodyStream]) =
        (⟨some .streamPending, none, [], []⟩, [.checkout (.ready 7), .bytes none, .checkout .inFlight]) := by
  decide

end Oam.Http.Bodies
