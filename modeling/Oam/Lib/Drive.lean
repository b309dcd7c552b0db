/-
  Driving a machine that reads and writes in pieces.  It may LAG behind a `Transducer` that reads one symbol at a time, but
  when a call moves nothing it has caught up; so neither the cuts nor the room matter.
-/
import Mathlib.Data.List.Basic

namespace Drive

open List

variable {σ ι β γ ε : Type}

/-! ## Machines and transducers -/

/-- One call: a slice of input and the room for output, to the symbols read and written. -/
abbrev Machine (σ β γ ε : Type) := σ → List β → Nat → Except ε (σ × Nat × List γ)

/-- A transducer reads one symbol at a time.  Its output only GROWS, and a failure is final. -/
structure Transducer (ι β γ ε : Type) where
  absorb : ι → β → ι
  out : ι → List γ
  err : ι → Option ε
  out_grows : ∀ i b, out i <+: out (absorb i b)
  err_stays : ∀ i b e, err i = some e → absorb i b = i

namespace Transducer

variable (T : Transducer ι β γ ε)

def absorbAll (i : ι) (input : List β) : ι := input.foldl T.absorb i

@[simp] theorem absorbAll_nil (i : ι) : T.absorbAll i [] = i := rfl

@[simp] theorem absorbAll_cons (i : ι) (b : β) (input : List β) :
    T.absorbAll i (b :: input) = T.absorbAll (T.absorb i b) input := rfl

theorem absorbAll_append (i : ι) (first second : List β) :
    T.absorbAll i (first ++ second) = T.absorbAll (T.absorbAll i first) second :=
  foldl_append

theorem absorbAll_take_drop (i : ι) (n : Nat) (input : List β) :
    T.absorbAll (T.absorbAll i (input.take n)) (input.drop n) = T.absorbAll i input := by
  rw [← T.absorbAll_append, take_append_drop]

theorem out_absorbAll (i : ι) (input : List β) : T.out i <+: T.out (T.absorbAll i input) := by
  induction input generalizing i with
  | nil => exact prefix_rfl
  | cons b input ih => exact (T.out_grows i b).trans (ih (T.absorb i b))

theorem absorbAll_of_err {i : ι} {e : ε} (h : T.err i = some e) (input : List β) : T.absorbAll i input = i := by
  induction input with
  | nil => rfl
  | cons b input ih => rw [absorbAll_cons, T.err_stays i b e h, ih]

end Transducer

/-! ## The caller's loop -/

inductive Outcome (σ β γ ε : Type) where
  | finished (state : σ) (out : List γ) (unread : List β)
  | failed (error : ε) (out : List γ)

section Loop

variable (step : Machine σ β γ ε) (room : Nat → Nat)

/-- Call until a call moves nothing; the `n`-th call has `room n` symbols of room. The calls are counted. -/
def feed : Nat → Nat → σ → List β → List γ → Option (Outcome σ β γ ε × Nat)
  | 0, _, _, _, _ => none
  | fuel + 1, call, s, src, out =>
    match step s src (room call) with
    | .error e => some (.failed e out, call + 1)
    | .ok (s', n, p) =>
      if n = 0 ∧ p.isEmpty then some (.finished s' out src, call + 1)
      else feed fuel (call + 1) s' (src.drop n) (out ++ p)

/-- Feed the chunks one after the other, up to the first failure. -/
def feedAll (fuel : Nat) : Nat → σ → List (List β) → List γ → Option (Outcome σ β γ ε)
  | _, s, [], out => some (.finished s out [])
  | call, s, chunk :: chunks, out =>
    match feed step room fuel call s chunk out with
    | none => none
    | some (.failed e out, _) => some (.failed e out)
    | some (.finished s' out unread, call') =>
      match feedAll fuel call' s' chunks out with
      | some (.finished s'' out unread') => some (.finished s'' out (unread ++ unread'))
      | r => r

end Loop

/-! ## Following a transducer -/

/-- The machine never gets AHEAD of the transducer, and a call that moves nothing shows that it has caught up. -/
structure Follows (step : Machine σ β γ ε) (T : Transducer ι β γ ε) (lag : σ → ι → List γ → Prop)
    (settled : σ → ι → Prop) : Prop where
  emitted : ∀ {s i out}, lag s i out → out <+: T.out i
  ok : ∀ {s i out src room s' n p}, lag s i out → 0 < room → step s src room = .ok (s', n, p) →
    n ≤ src.length ∧ lag s' (T.absorbAll i (src.take n)) (out ++ p) ∧
      (n = 0 → p = [] → src = [] ∧ out = T.out i ∧ T.err i = none ∧ settled s' i)
  error : ∀ {s i out src room e}, lag s i out → 0 < room → step s src room = .error e →
    T.err (T.absorbAll i src) = some e

/-- What a run may answer when the transducer, on the same input, gets to `i`. -/
inductive Verdict (T : Transducer ι β γ ε) (lag : σ → ι → List γ → Prop) (settled : σ → ι → Prop)
    (i : ι) : Outcome σ β γ ε → Prop
  | finished {s : σ} (hlag : lag s i (T.out i)) (herr : T.err i = none) (hsettled : settled s i) :
      Verdict T lag settled i (.finished s (T.out i) [])
  | failed {e : ε} {out : List γ} (herr : T.err i = some e) (hout : out <+: T.out i) :
      Verdict T lag settled i (.failed e out)

/-- Two runs tell the caller the same thing: the same output, or the same error after outputs of which one extends the
    other. -/
def Outcome.Agrees (complete : σ → Bool) : Outcome σ β γ ε → Outcome σ β γ ε → Prop
  | .finished s out unread, .finished s' out' unread' =>
    out = out' ∧ complete s = complete s' ∧ unread = [] ∧ unread' = []
  | .failed e out, .failed e' out' => e = e' ∧ (out <+: out' ∨ out' <+: out)
  | _, _ => False

theorem Verdict.agrees {T : Transducer ι β γ ε} {lag : σ → ι → List γ → Prop} {settled : σ → ι → Prop}
    {i : ι} {r r' : Outcome σ β γ ε} {complete : σ → Bool}
    (hcomplete : ∀ s s', settled s i → settled s' i → complete s = complete s')
    (hr : Verdict T lag settled i r) (hr' : Verdict T lag settled i r') : r.Agrees complete r' := by
  cases hr with
  | finished _ herr hsettled =>
    cases hr' with
    | finished _ _ hsettled' => exact ⟨rfl, hcomplete _ _ hsettled hsettled', rfl, rfl⟩
    | failed herr' _ =>
      rw [herr] at herr'
      cases herr'
  | failed herr hout =>
    cases hr' with
    | finished _ herr' _ =>
      rw [herr] at herr'
      cases herr'
    | failed herr' hout' =>
      rw [herr, Option.some.injEq] at herr'
      exact ⟨herr', prefix_or_prefix_of_prefix hout hout'⟩

namespace Follows

variable {step : Machine σ β γ ε} {T : Transducer ι β γ ε} {lag : σ → ι → List γ → Prop}
  {settled : σ → ι → Prop} {room : Nat → Nat}

/-- The output owed shrinks by what the call wrote, since the transducer writes it too. -/
theorem measure_lt (h : Follows step T lag settled) {s' : σ} {i : ι} {src : List β} {out p : List γ} {n : Nat}
    (hn : n ≤ src.length) (hlag : lag s' (T.absorbAll i (src.take n)) (out ++ p)) (hmoved : ¬ (n = 0 ∧ p = [])) :
    (src.drop n).length + ((T.out (T.absorbAll i src)).length - (out ++ p).length) < src.length +
    ((T.out (T.absorbAll i src)).length - out.length) := by
  have howed : (out ++ p).length ≤ (T.out (T.absorbAll i src)).length := by
    rw [← T.absorbAll_take_drop i n src]
    exact ((h.emitted hlag).trans (T.out_absorbAll _ _)).length_le
  rw [length_append] at howed ⊢
  rw [length_drop]
  by_cases hp : p = []
  · have hpos : n ≠ 0 := fun hzero => hmoved ⟨hzero, hp⟩
    rw [hp, length_nil]
    omega
  · have hpos : 0 < p.length := length_pos_iff.mpr hp
    omega

theorem feed_verdict (h : Follows step T lag settled) (hroom : ∀ call, 0 < room call) (call : Nat) {s : σ} {i : ι}
    (src : List β) {out : List γ} (hlag : lag s i out) {fuel : Nat}
    (hfuel : src.length + ((T.out (T.absorbAll i src)).length - out.length) < fuel) : ∃ r call',
    feed step room fuel call s src out = some (r, call') ∧ Verdict T lag settled (T.absorbAll i src) r := by
  induction fuel generalizing call s i src out with
  | zero => omega
  | succ fuel ih =>
    cases hstep : step s src (room call) with
    | error e =>
      refine ⟨.failed e out, call + 1, by simp [feed, hstep], .failed (h.error hlag (hroom call) hstep) ?_⟩
      exact (h.emitted hlag).trans (T.out_absorbAll i src)
    | ok answer =>
      obtain ⟨s', n, p⟩ := answer
      obtain ⟨hn, hlag', hstill⟩ := h.ok hlag (hroom call) hstep
      by_cases hmoved : n = 0 ∧ p = []
      · obtain ⟨rfl, rfl⟩ := hmoved
        obtain ⟨rfl, rfl, herr, hsettled⟩ := hstill rfl rfl
        rw [append_nil] at hlag'
        exact ⟨.finished s' (T.out i) [], call + 1, by simp [feed, hstep], .finished hlag' herr hsettled⟩
      · have hless := h.measure_lt hn hlag' hmoved
        have hdrop := T.absorbAll_take_drop i n src
        obtain ⟨r, call', hr, hverdict⟩ := ih (call + 1) (src.drop n) hlag' (by rw [hdrop]; omega)
        rw [hdrop] at hverdict
        have hgo : ¬ (n = 0 ∧ p.isEmpty) := by simpa using hmoved
        exact ⟨r, call', by rw [feed, hstep]; simpa only [if_neg hgo] using hr, hverdict⟩

/-- **Every run ends, with the transducer's verdict on the whole input**, however it was cut. -/
theorem feedAll_verdict (h : Follows step T lag settled) (hroom : ∀ call, 0 < room call) (call : Nat) {s : σ} {i : ι}
    (hlag : lag s i (T.out i)) (herr : T.err i = none) (hsettled : settled s i) {chunks : List (List β)} {fuel : Nat}
    (hfuel : chunks.flatten.length + (T.out (T.absorbAll i chunks.flatten)).length < fuel) : ∃ r,
    feedAll step room fuel call s chunks (T.out i) = some r ∧ Verdict T lag settled (T.absorbAll i chunks.flatten) r :=
    by
  induction chunks generalizing call s i with
  | nil => exact ⟨.finished s (T.out i) [], rfl, .finished hlag herr hsettled⟩
  | cons chunk chunks ih =>
    rw [flatten_cons, T.absorbAll_append, length_append] at hfuel
    rw [flatten_cons, T.absorbAll_append]
    have hgrows := (T.out_absorbAll (T.absorbAll i chunk) chunks.flatten).length_le
    obtain ⟨r, call', hfeed, hverdict⟩ := h.feed_verdict hroom call chunk hlag
      (by omega : chunk.length + ((T.out (T.absorbAll i chunk)).length - (T.out i).length) < fuel)
    cases hverdict with
    | failed herr' hout =>
      refine ⟨_, by rw [feedAll, hfeed], ?_⟩
      rw [T.absorbAll_of_err herr']
      exact .failed herr' hout
    | finished hlag' herr' hsettled' =>
      obtain ⟨r', hrest, hverdict'⟩ := ih call' hlag' herr' hsettled' (by omega)
      refine ⟨r', ?_, hverdict'⟩
      rw [feedAll, hfeed]
      simp only [hrest]
      cases hverdict' with
      | finished | failed => rfl

end Follows

end Drive
