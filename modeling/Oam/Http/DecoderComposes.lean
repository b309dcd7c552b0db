/-
  What a caller of the stacked decoder gets: whole LIVES of a decoder — any sequence of calls, each with any input — and
  whole bodies, every frame of which is pushed until `None`.
-/
import Oam.Http.DecoderRuns

namespace Oam.Http.Decoder

open Option List

variable {S E : Type} {m : Stage S E} {starts : List S} {fs : List (Bytes → Bytes)}

/-! ## Fuel -/

variable {fuel fuel' : Nat} {d : Decoder S E} {input : Bytes}

theorem pull_of_le {k j : Nat} {a : Answer S E Bool} (h : d.pull m k fuel input j = some a)
    (hle : fuel ≤ fuel') : d.pull m k fuel' input j = some a := by
  induction fuel generalizing fuel' d input j a with
  | zero => cases h
  | succ fuel ih =>
    obtain ⟨fuel', rfl⟩ : ∃ less, fuel' = less + 1 := ⟨fuel' - 1, by omega⟩
    rw [pull] at h ⊢
    generalize d.pullStep m input k j = step at h ⊢
    obtain ⟨d', _, _, walk⟩ := step
    cases walk with
    | on =>
      obtain ⟨a', ha', rfl⟩ := map_eq_some_iff.mp h
      have hmore := ih ha' (show fuel ≤ fuel' by omega)
      simp only [hmore, map_some]
    | filled | dry | failed => exact h

variable {a : Answer S E (Option Bytes)}

theorem push_of_le (h : d.push m fuel input = some a) (hle : fuel ≤ fuel') : d.push m fuel' input = some a := by
  unfold push at h ⊢
  generalize d.error = error at h ⊢
  cases error with
  | some => exact h
  | none =>
    simp only at h ⊢
    split at h
    · next hd => rw [if_pos hd]; exact h
    next hd =>
    rw [if_neg hd]
    split at h
    · next hn => rw [if_pos hn]; exact h
    next hn =>
    rw [if_neg hn]
    split at h
    · next hw =>
      rw [if_pos hw]
      obtain ⟨a', ha', rfl⟩ := map_eq_some_iff.mp h
      rw [pull_of_le ha' hle, map_some]
    · next hw => rw [if_neg hw]; exact h

theorem push_unique {a' : Answer S E (Option Bytes)} (h : d.push m fuel input = some a)
    (h' : d.push m fuel' input = some a') : a = a' := by
  have hmax := push_of_le h (Nat.le_max_left fuel fuel')
  rw [push_of_le h' (Nat.le_max_right fuel fuel')] at hmax
  exact (some.inj hmax).symm

/-! ## Lives -/

inductive Life (m : Stage S E) (starts : List S) : List (Answer S E (Option Bytes)) → Decoder S E → Prop
  | start : Life m starts [] (ofStages starts)
  | call {answers : List (Answer S E (Option Bytes))} {d : Decoder S E} {fuel : Nat} {input : Bytes}
      {a : Answer S E (Option Bytes)} (h : Life m starts answers d) (hcall : d.push m fuel input = some a) :
      Life m starts (answers ++ [a]) a.decoder

def compose (fs : List (Bytes → Bytes)) (wire : Bytes) : Bytes := fs.foldl (fun x f => f x) wire

variable {g : Flow S E}

theorem compose_of_settled {j : Nat} (h : SettledFrom fs g j) (hj : j ≤ fs.length) :
    compose (fs.drop j) (g.read j) = g.read fs.length := by
  induction hn : fs.length - j generalizing j with
  | zero =>
    obtain rfl : j = fs.length := by omega
    rw [drop_length]
    rfl
  | succ n ih =>
    have hlt : j < fs.length := by omega
    obtain ⟨hwritten, hread⟩ := h j _ le_rfl (getElem?_eq_getElem hlt)
    rw [drop_eq_getElem_cons hlt, compose, foldl_cons, ← hwritten, ← hread]
    exact ih (fun i f hi => h i f (by omega)) hlt (by omega)

/-- What a caller sees of all the answers so far. -/
structure WellBehaved (answers : List (Answer S E (Option Bytes))) : Prop where
  /-- Every chunk has between one byte and `OUT_CAP`. -/
  sizes : ∀ chunk ∈ chunksOf answers, 0 < chunk.length ∧ chunk.length ≤ outCap
  /-- "decoder made no progress" is never seen. -/
  progress : ∀ a ∈ answers, a.result ≠ .error .noProgress
  /-- `None` means that all of the input is gone. -/
  consumed : ∀ a ∈ answers, a.result = .ok none → a.left = []
  /-- No window is overwritten that still holds something. -/
  overwritten : ∀ e ∈ logOf answers, e.overwritten = []
  /-- An error is repeated by every later call. -/
  sticky : answers.Pairwise fun a b => ∀ fault, a.result = .error fault → b.result = .error fault
  /-- No stage in front of one that has overrun is run again. -/
  cutOff : (logOf answers).Pairwise fun e e' => e.overrun = true → e.stage ≤ e'.stage

/-- The decoder is done once it answers `None` after an overrun; the chunks are then all that the stages behind it make
    of its output. -/
def EndsAt (fs : List (Bytes → Bytes)) (answers : List (Answer S E (Option Bytes)))
    (a : Answer S E (Option Bytes)) : Prop :=
  (a.decoder.isDone = true ↔ a.result = .ok none ∧ ∃ e ∈ logOf (answers ++ [a]), e.overrun = true) ∧
    ∀ k, overrunAfter none (logOf (answers ++ [a])) = some k → a.decoder.isDone = true →
      (chunksOf answers).flatten = compose (fs.drop (k + 1)) (emittedBy k (logOf (answers ++ [a])))

theorem overrunAfter_eq_none {log : List Ran} : overrunAfter none log = none ↔ ∀ e ∈ log, e.overrun = false := by
  have hsome (log : List Ran) (k : Nat) : overrunAfter (some k) log ≠ none := by
    induction log generalizing k with
    | nil => simp [overrunAfter]
    | cons e log ih =>
      rw [overrunAfter]
      split
      · exact ih _
      · exact ih _
  induction log with
  | nil => simp [overrunAfter]
  | cons e log ih =>
    cases hover : e.overrun with
    | true => simp [overrunAfter, hover, hsome]
    | false => simp [overrunAfter, hover, ih]

theorem Guarded.pairwise {overrun : Option Nat} {log : List Ran} (h : Guarded overrun log) :
    (∀ k, overrun = some k → ∀ e ∈ log, k ≤ e.stage) ∧
      log.Pairwise fun e e' => e.overrun → e.stage ≤ e'.stage := by
  induction log generalizing overrun with
  | nil => simp
  | cons e log ih =>
    obtain ⟨hhead, htail⟩ := h
    obtain ⟨hle, hpair⟩ := ih htail
    constructor
    · intro k hk e' he'
      rcases mem_cons.mp he' with rfl | he'
      · exact hhead k hk
      · cases hover : e.overrun with
        | true =>
          have hnext := hle (max e.stage k) (by simp [overrunAfter, hover, hk]) e' he'
          omega
        | false => exact hle k (by simp [overrunAfter, hover, hk]) e' he'
    · refine pairwise_cons.mpr ⟨fun e' he' hover => ?_, hpair⟩
      cases overrun with
      | none => exact hle e.stage (by simp [overrunAfter, hover]) e' he'
      | some k =>
        have hnext := hle (max e.stage k) (by simp [overrunAfter, hover]) e' he'
        omega

theorem chunksOf_concat (answers : List (Answer S E (Option Bytes))) (a : Answer S E (Option Bytes)) :
    chunksOf (answers ++ [a]) = chunksOf answers ++ chunksOf [a] := filterMap_append

theorem logOf_concat (answers : List (Answer S E (Option Bytes))) (a : Answer S E (Option Bytes)) :
    logOf (answers ++ [a]) = logOf answers ++ a.log := by
  simp [logOf]

/-- The invariant of the calls: what the flow and the answers say of each other. -/
structure Holds (m : Stage S E) (starts : List S) (fs : List (Bytes → Bytes))
    (answers : List (Answer S E (Option Bytes))) (g : Flow S E) : Prop where
  rests : g.decoder.error = none → Rests m starts fs g
  failed : g.decoder.error ≠ none → g.decoder.done = false
  faults : ∀ {fault : Fault E}, g.decoder.error = some fault → ∃ e, fault = .stage e
  repeated : ∀ a ∈ answers, ∀ fault, a.result = .error fault → g.decoder.error = some fault
  emitted : ∀ i, g.written i = emittedBy i (logOf answers)
  returned : g.read starts.length = (chunksOf answers).flatten
  overrun : g.decoder.overrun = overrunAfter none (logOf answers)
  guarded : Guarded none (logOf answers)
  good : WellBehaved answers

theorem holds_start (m : Stage S E) (starts : List S) (fs : List (Bytes → Bytes)) (input : Bytes) :
    Holds m starts fs [] ⟨ofStages starts, input, fun _ => [], fun _ => []⟩ := by
  have hwindow {i : Nat} {w : Bytes} (hw : (starts.map fun _ => ([] : Bytes))[i]? = some w) : w = [] := by
    rw [getElem?_map] at hw
    obtain ⟨-, -, rfl⟩ := map_eq_some_iff.mp hw
    rfl
  have htracks : Tracks m starts (⟨ofStages starts, input, fun _ => [], fun _ => []⟩ : Flow S E) := by
    refine ⟨rfl, length_map _, fun {i s₀ s} hs₀ hs => ?_, fun {i w} hw => ?_⟩
    · rw [show (ofStages starts : Decoder S E).stages = starts from rfl, hs₀] at hs
      cases hs
      exact .start
    · rw [hwindow hw]
      rfl
  exact {
    rests := fun _ => ⟨htracks, fun _ hw => hwindow hw, nofun, nofun⟩
    failed := fun h => absurd rfl h
    faults := nofun
    repeated := by simp
    emitted := fun _ => rfl
    returned := rfl
    overrun := rfl
    guarded := trivial
    good := ⟨by simp [chunksOf], by simp, by simp, by simp [logOf], .nil, by simp [logOf]⟩ }

variable {answers : List (Answer S E (Option Bytes))}

theorem WellBehaved.concat (h : WellBehaved answers)
    (hsizes : ∀ chunk ∈ chunksOf [a], 0 < chunk.length ∧ chunk.length ≤ outCap)
    (hprogress : a.result ≠ .error .noProgress) (hconsumed : a.result = .ok none → a.left = [])
    (hoverwritten : ∀ e ∈ a.log, e.overwritten = [])
    (hsticky : ∀ b ∈ answers, ∀ fault, b.result = .error fault → a.result = .error fault)
    (hguarded : Guarded none (logOf (answers ++ [a]))) : WellBehaved (answers ++ [a]) where
  sizes := by
    rw [chunksOf_concat]
    exact fun chunk hchunk => (mem_append.mp hchunk).elim (h.sizes chunk) (hsizes chunk)
  progress := fun b hb => (mem_append.mp hb).elim (h.progress b) fun hlast => by
    rw [mem_singleton.mp hlast]
    exact hprogress
  consumed := fun b hb => (mem_append.mp hb).elim (h.consumed b) fun hlast => by
    rw [mem_singleton.mp hlast]
    exact hconsumed
  overwritten := by
    rw [logOf_concat]
    exact fun e he => (mem_append.mp he).elim (h.overwritten e) (hoverwritten e)
  sticky := by
    refine pairwise_append.mpr ⟨h.sticky, pairwise_singleton .., fun b hb c hc => ?_⟩
    rw [mem_singleton.mp hc]
    exact hsticky b hb
  cutOff := hguarded.pairwise.2

variable {g' : Flow S E}

theorem Holds.pushed (h : Holds m starts fs answers g) (herror : g.decoder.error = none)
    (hpushed : Pushed m starts fs g g' a) : Holds m starts fs (answers ++ [a]) g' := by
  have hnofault (b : Answer S E (Option Bytes)) (hb : b ∈ answers) (fault : Fault E) : b.result ≠ .error fault := by
    intro hresult
    have hfault := h.repeated b hb fault hresult
    rw [herror] at hfault
    cases hfault
  have hguarded : Guarded none (logOf (answers ++ [a])) := by
    rw [logOf_concat]
    exact h.guarded.append (h.overrun ▸ hpushed.guarded)
  have hanswers := hpushed.answers
  obtain ⟨hsizes, hprogress, hconsumed, hfailed, hfaults, hlast⟩ :
      (∀ chunk ∈ chunksOf [a], 0 < chunk.length ∧ chunk.length ≤ outCap) ∧ a.result ≠ .error .noProgress ∧
      (a.result = .ok none → a.left = []) ∧ (g'.decoder.error ≠ none → g'.decoder.done = false) ∧
      (∀ fault, g'.decoder.error = some fault → ∃ e, fault = .stage e) ∧
      (∀ fault, a.result = .error fault → g'.decoder.error = some fault) := by
    rw [hpushed.left]
    cases hresult : a.result with
    | error =>
      rw [hresult] at hanswers
      obtain ⟨⟨e, rfl⟩, hsome, hdone⟩ := hanswers
      simp [chunksOf, hresult, Except.toOption, hsome, hdone]
    | ok chunk =>
      rw [hresult] at hanswers
      cases chunk with
      | none =>
        obtain ⟨hinput, hnone, -⟩ := hanswers
        simp [chunksOf, hresult, Except.toOption, hnone, hinput]
      | some =>
        obtain ⟨hpos, hcap, hnone, -⟩ := hanswers
        simp [chunksOf, hresult, Except.toOption, hnone, hpos, hcap]
  refine {
    rests := hpushed.rests
    failed := hfailed
    faults := fun {fault} => hfaults fault
    repeated := fun b hb fault hresult => (mem_append.mp hb).elim
      (fun hb => absurd hresult (hnofault b hb fault)) fun hb => hlast fault (mem_singleton.mp hb ▸ hresult)
    emitted := fun i => by rw [hpushed.emitted, h.emitted, logOf_concat, emittedBy_append]
    returned := by rw [hpushed.returned, h.returned, chunksOf_concat, flatten_append]
    overrun := by rw [hpushed.overrun, h.overrun, logOf_concat, overrunAfter_append]
    guarded := hguarded
    good := h.good.concat hsizes hprogress hconsumed hpushed.overwritten
      (fun b hb fault hresult => absurd hresult (hnofault b hb fault)) hguarded }

theorem Holds.withInput (h : Holds m starts fs answers g) (input : Bytes) :
    Holds m starts fs answers { g with input } :=
  { h with
    rests := fun herror =>
      have hrests := h.rests herror
      ⟨⟨hrests.tracks.stages, hrests.tracks.windows, hrests.tracks.fed, hrests.tracks.flows⟩, hrests.empty,
        hrests.overrun, hrests.done⟩ }

theorem Holds.failedAgain (h : Holds m starts fs answers g) {fault : Fault E} (herror : g.decoder.error = some fault) :
    Holds m starts fs (answers ++ [⟨g.decoder, g.input, .error fault, []⟩]) g := by
  have hlog : logOf (answers ++ [⟨g.decoder, g.input, .error fault, []⟩]) = logOf answers := by
    rw [logOf_concat, append_nil]
  have hsame (b : Answer S E (Option Bytes)) (hb : b ∈ answers) (fault' : Fault E)
      (hresult : b.result = .error fault') : fault = fault' := by
    have hfault := h.repeated b hb fault' hresult
    rw [herror] at hfault
    exact some.inj hfault
  refine { h with
    repeated := fun b hb fault' hresult => (mem_append.mp hb).elim
      (fun hb => h.repeated b hb fault' hresult) fun hb => ?_
    emitted := by rw [hlog]; exact h.emitted
    returned := by rw [chunksOf_concat]; simpa [chunksOf, Except.toOption] using h.returned
    overrun := by rw [hlog]; exact h.overrun
    guarded := by rw [hlog]; exact h.guarded
    good := h.good.concat (by simp [chunksOf, Except.toOption]) ?_ (by simp) (by simp)
      (fun b hb fault' hresult => by rw [hsame b hb fault' hresult]) (by rw [hlog]; exact h.guarded) }
  · rw [mem_singleton.mp hb] at hresult
    cases hresult
    exact herror
  · obtain ⟨e, rfl⟩ := h.faults herror
    simp

theorem Holds.endsAt (h' : Holds m starts fs (answers ++ [a]) g')
    (hlen : fs.length = starts.length) (hpushed : Pushed m starts fs g g' a) : EndsAt fs answers a := by
  have hover : g'.decoder.overrun ≠ none ↔ ∃ e ∈ logOf (answers ++ [a]), e.overrun := by
    rw [h'.overrun, ne_eq, overrunAfter_eq_none]
    simp
  have hanswers := hpushed.answers
  have hdone : a.decoder.isDone ↔ a.result = .ok none ∧ g'.decoder.overrun ≠ none := by
    rw [isDone, hpushed.decoder]
    cases hresult : a.result with
    | error =>
      rw [hresult] at hanswers
      simp [hanswers.2.2]
    | ok chunk =>
      rw [hresult] at hanswers
      cases chunk with
      | none =>
        by_cases hnone : g'.decoder.overrun = none
        · simp [hnone, (hanswers.2.2.1 hnone).1]
        · simp [hnone, hanswers.2.2.2 hnone]
      | some => simp [hanswers.2.2.2.1]
  refine ⟨hdone.trans (and_congr_right fun _ => hover), fun k hk hend => ?_⟩
  obtain ⟨hresult, -⟩ := hdone.mp hend
  rw [hresult] at hanswers
  have hrests := hpushed.rests hanswers.2.1
  rw [isDone, hpushed.decoder] at hend
  obtain ⟨k', hk', hsettled, hread⟩ := hrests.done hend
  rw [h'.overrun, hk] at hk'
  cases hk'
  have hbound := hrests.overrun (h'.overrun.trans hk)
  rw [← h'.emitted, ← hread, compose_of_settled hsettled (by omega), hlen, h'.returned, chunksOf_concat]
  simp [chunksOf, hresult, Except.toOption]

variable (hfs : Forall₂ (Transduces m) starts fs)

include hfs

/-- **Any call in a life** terminates, and keeps the invariant. -/
theorem Holds.call {answers : List (Answer S E (Option Bytes))} {g : Flow S E} (h : Holds m starts fs answers g) :
    ∃ bound a g', (∀ fuel, bound ≤ fuel → g.decoder.push m fuel g.input = some a) ∧ a.decoder = g'.decoder ∧
    Holds m starts fs (answers ++ [a]) g' ∧ EndsAt fs answers a := by
  cases herror : g.decoder.error with
  | none =>
    obtain ⟨bound, a, g', hcall, hpushed⟩ := push_spec hfs (h.rests herror) herror
    have h' := h.pushed herror hpushed
    exact ⟨bound, a, g', hcall, hpushed.decoder, h', h'.endsAt hfs.length_eq.symm hpushed⟩
  | some =>
    have hdone := h.failed (by simp [herror])
    refine ⟨0, _, g, fun fuel _ => by simp only [push, herror], rfl, h.failedAgain herror, ?_, fun k _ hend => ?_⟩
    · simp [isDone, hdone]
    · rw [isDone, hdone] at hend
      cases hend

theorem Life.holds (h : Life m starts answers d) : ∃ g, g.decoder = d ∧ Holds m starts fs answers g := by
  induction h with
  | start => exact ⟨_, rfl, holds_start m starts fs []⟩
  | @call answers d fuel input a _ hcall ih =>
    obtain ⟨g, rfl, hg⟩ := ih
    obtain ⟨bound, a', g', hcalls, hdecoder, hg', -⟩ := (hg.withInput input).call hfs
    obtain rfl := push_unique hcall (hcalls bound le_rfl)
    exact ⟨g', hdecoder.symm, hg'⟩

/-! ## Bodies -/

/-- A frame has been pushed until `None`, or until the decoder failed. -/
structure FrameDone (m : Stage S E) (starts : List S) (fs : List (Bytes → Bytes)) (g : Flow S E) (frame : Bytes)
    (s : Session S E) (g' : Flow S E) : Prop where
  decoder : s.decoder = g'.decoder
  life : Life m starts s.answers s.decoder
  holds : Holds m starts fs s.answers g'
  decoded : g'.decoder.error = none → g'.decoder.overrun = none → g'.read 0 = g.read 0 ++ frame ∧ SettledFrom fs g' 0
  ended : g'.decoder.error = none → g'.decoder.overrun ≠ none → g'.decoder.done = true
  keeps : g.decoder.overrun ≠ none → g'.decoder.overrun ≠ none
  unfailed : g'.decoder.error = none → g.decoder.error = none

omit hfs in
theorem overrunAfter_ne_none {overrun : Option Nat} (h : overrun ≠ none) (log : List Ran) :
    overrunAfter overrun log ≠ none := by
  induction log generalizing overrun with
  | nil => exact h
  | cons e log ih =>
    rw [overrunAfter]
    split
    · exact ih (by simp)
    · exact ih h

variable {answers : List (Answer S E (Option Bytes))} {g : Flow S E}

omit hfs in
theorem frameDone_of_stops {a : Answer S E (Option Bytes)} {bound : Nat}
    (hlife : Life m starts answers g.decoder)
    (hcall : ∀ fuel, bound ≤ fuel → g.decoder.push m fuel g.input = some a)
    (hresult : ∀ chunk, a.result ≠ .ok (some chunk)) (hdecoder : a.decoder = g'.decoder)
    (h' : Holds m starts fs (answers ++ [a]) g')
    (hdecoded : g'.decoder.error = none → g'.decoder.overrun = none → g'.read 0 = g.read 0 ++ g.input ∧ SettledFrom fs g' 0)
    (hended : g'.decoder.error = none → g'.decoder.overrun ≠ none → g'.decoder.done)
    (hkeeps : g.decoder.overrun ≠ none → g'.decoder.overrun ≠ none)
    (hunfailed : g'.decoder.error = none → g.decoder.error = none) :
    ∃ bound s g', (∀ fuel calls, bound ≤ fuel → bound ≤ calls →
      Session.pushFrame m fuel calls ⟨g.decoder, answers⟩ g.input = some s) ∧
      FrameDone m starts fs g g.input s g' := by
  refine ⟨bound + 1, ⟨a.decoder, answers ++ [a]⟩, g', fun fuel calls hfuel hcalls => ?_, hdecoder,
    hlife.call (hcall bound le_rfl), h', hdecoded, hended, hkeeps,
    hunfailed⟩
  obtain _ | less := calls
  · omega
  rw [Session.pushFrame, hcall fuel (by omega), bind_some]
  generalize a.result = result at hresult
  match result, hresult with
  | .ok (some chunk), hresult => exact absurd rfl (hresult chunk)
  | .ok none, _ => rfl
  | .error _, _ => rfl

/-- **A whole frame**, by induction on the work that is left. -/
theorem pushFrame_spec (hlife : Life m starts answers g.decoder)
    (h : Holds m starts fs answers g) :
    ∃ bound s g', (∀ fuel calls, bound ≤ fuel → bound ≤ calls →
      Session.pushFrame m fuel calls ⟨g.decoder, answers⟩ g.input = some s) ∧
      FrameDone m starts fs g g.input s g' := by
  induction hw : callWeight fs g using WellFoundedLT.induction generalizing g answers with
  | ind w ih =>
    subst hw
    cases herror : g.decoder.error with
    | some fault =>
      have hcall (fuel : Nat) (_ : 0 ≤ fuel) :
          g.decoder.push m fuel g.input = some ⟨g.decoder, g.input, .error fault, []⟩ := by
        simp only [push, herror]
      exact frameDone_of_stops hlife hcall (by simp) rfl (h.failedAgain herror) (fun hnone => by simp [herror] at hnone)
        (fun hnone => by simp [herror] at hnone) id id
    | none =>
      obtain ⟨bound, a, g₁, hcall, hpushed⟩ := push_spec hfs (h.rests herror) herror
      have h₁ := h.pushed herror hpushed
      have hkeeps (hsome : g.decoder.overrun ≠ none) : g₁.decoder.overrun ≠ none := by
        rw [hpushed.overrun]
        exact overrunAfter_ne_none hsome a.log
      have hanswers := hpushed.answers
      cases hresult : a.result with
      | error =>
        rw [hresult] at hanswers
        exact frameDone_of_stops hlife hcall (by simp [hresult]) hpushed.decoder h₁
          (fun hnone => by simp [hanswers.2.1] at hnone) (fun hnone => by simp [hanswers.2.1] at hnone) hkeeps
          fun _ => herror
      | ok answer =>
        cases answer with
        | some =>
          rw [hresult] at hanswers
          have hlife₁ : Life m starts (answers ++ [a]) g₁.decoder := hpushed.decoder ▸ hlife.call (hcall bound le_rfl)
          obtain ⟨bound', s, g', hgoes, hdone⟩ := ih _ hanswers.2.2.2.2 hlife₁ h₁ rfl
          refine ⟨bound + bound' + 1, s, g', fun fuel calls hfuel hcalls => ?_, hdone.decoder, hdone.life, hdone.holds,
            fun hnone hover => ?_, hdone.ended, fun hsome => hdone.keeps (hkeeps hsome), fun _ => herror⟩
          · obtain _ | less := calls
            · omega
            rw [Session.pushFrame, hcall fuel (by omega), bind_some]
            simp only [hresult]
            rw [hpushed.decoder, hpushed.left]
            exact hgoes fuel less (by omega) (by omega)
          · obtain ⟨hread, hsettled⟩ := hdone.decoded hnone hover
            refine ⟨?_, hsettled⟩
            rw [hread]
            exact hpushed.wire (by_contra fun hsome => hdone.keeps hsome hover)
        | none =>
          rw [hresult] at hanswers
          refine frameDone_of_stops hlife hcall (by simp [hresult]) hpushed.decoder h₁ (fun _ hover => ?_)
            (fun _ => hanswers.2.2.2) hkeeps fun _ => herror
          have hwire := hpushed.wire hover
          rw [hanswers.1, append_nil] at hwire
          exact ⟨hwire, (hanswers.2.2.1 hover).2⟩

theorem pushFrames_spec
    (hlife : Life m starts answers g.decoder) (h : Holds m starts fs answers g) (frames : List Bytes) :
    ∃ bound s g', (∀ fuel, bound ≤ fuel → Session.pushFrames m fuel ⟨g.decoder, answers⟩ frames = some s) ∧
      s.decoder = g'.decoder ∧ Life m starts s.answers s.decoder ∧ Holds m starts fs s.answers g' ∧
      (g.decoder.overrun ≠ none → g'.decoder.overrun ≠ none) ∧ (g'.decoder.error = none → g.decoder.error = none) ∧
      (g'.decoder.error = none → g'.decoder.overrun = none → g'.read 0 = g.read 0 ++ frames.flatten) := by
  induction frames generalizing answers g with
  | nil =>
    exact ⟨0, ⟨g.decoder, answers⟩, g, fun _ _ => rfl, rfl, hlife, h, id, id, fun _ _ => (append_nil _).symm⟩
  | cons frame frames ih =>
    obtain ⟨bound, ⟨d, _⟩, g₁, hframe, hdone⟩ :=
      pushFrame_spec hfs (show Life m starts answers { g with input := frame }.decoder from hlife) (h.withInput frame)
    obtain rfl : d = g₁.decoder := hdone.decoder
    obtain ⟨bound', s, g', hframes, hdecoder, hlife', h', hkeeps, hunfailed, hread⟩ := ih hdone.life hdone.holds
    refine ⟨max bound bound', s, g', fun fuel hfuel => ?_, hdecoder, hlife', h', fun hsome => hkeeps (hdone.keeps hsome),
      fun hnone => hdone.unfailed (hunfailed hnone), fun hnone hover => ?_⟩
    · rw [Session.pushFrames, hframe fuel fuel (by omega) (by omega), bind_some]
      exact hframes fuel (by omega)
    · have hover₁ : g₁.decoder.overrun = none := by_contra fun hsome => hkeeps hsome hover
      rw [hread hnone hover, (hdone.decoded (hunfailed hnone) hover₁).1, flatten_cons, append_assoc]

theorem decodeAll_spec (frames : List Bytes) : ∃ bound s g,
    (∀ fuel, bound ≤ fuel → decodeAll m fuel starts frames = some s) ∧ s.decoder = g.decoder ∧
    Life m starts s.answers s.decoder ∧ Holds m starts fs s.answers g ∧
    (g.decoder.error = none → g.decoder.overrun = none → (chunksOf s.answers).flatten = compose fs frames.flatten) ∧
    (g.decoder.error = none → g.decoder.overrun ≠ none → g.decoder.done) := by
  obtain ⟨bound, ⟨d, answers⟩, g, hframes, hdecoder, hlife, h, -, -, hread⟩ :=
    pushFrames_spec hfs .start (holds_start m starts fs []) frames
  obtain rfl : d = g.decoder := hdecoder
  obtain ⟨bound', s, g', hfinish, hdone⟩ :=
    pushFrame_spec hfs (show Life m starts answers { g with input := [] }.decoder from hlife) (h.withInput [])
  refine ⟨max bound bound', s, g', fun fuel hfuel => ?_, hdone.decoder, hdone.life, hdone.holds,
    fun hnone hover => ?_, hdone.ended⟩
  · rw [decodeAll, hframes fuel (by omega), bind_some]
    exact hfinish fuel fuel (by omega) (by omega)
  · have hover₁ : g.decoder.overrun = none := by_contra fun hsome => hdone.keeps hsome hover
    obtain ⟨hwire, hsettled⟩ := hdone.decoded hnone hover
    have hcompose := compose_of_settled hsettled (Nat.zero_le _)
    rw [drop_zero, hwire, append_nil, hfs.length_eq.symm, hdone.holds.returned] at hcompose
    rw [← hcompose]
    exact congrArg (compose fs) (hread (hdone.unfailed hnone) hover₁)

omit hfs

def twice : Stage Unit Empty where
  run := fun _ src => .ok ((), min src.length (outCap / 2), (src.take (outCap / 2)).flatMap fun b => [b, b])
  overrun := fun _ => false

theorem fed_twice {x o : Bytes} {s : Unit} (h : Fed twice () x o s) : o = x.flatMap fun b => [b, b] := by
  induction h with
  | start => rfl
  | @run x o src p s s' c h hrun ih =>
    simp only [twice, Except.ok.injEq, Prod.mk.injEq] at hrun
    obtain ⟨-, rfl, rfl⟩ := hrun
    rw [ih, flatMap_append, Nat.min_comm, ← take_take, take_length]

theorem transduces_twice : Transduces twice () fun x => x.flatMap fun b => [b, b] where
  consumed_le := fun _ hrun => by
    simp only [twice, Except.ok.injEq, Prod.mk.injEq] at hrun
    omega
  produced_le := fun _ hrun => by
    simp only [twice, Except.ok.injEq, Prod.mk.injEq] at hrun
    obtain ⟨-, -, rfl⟩ := hrun
    simp [length_flatMap, outCap]
    omega
  progress := fun _ hrun hsome => by
    simp only [twice, Except.ok.injEq, Prod.mk.injEq] at hrun
    have hpos := length_pos_iff.mpr hsome
    have hcap : 0 < outCap / 2 := by decide
    omega
  emitted := fun h => by rw [fed_twice h]
  settled := fun h _ => fed_twice h

end Oam.Http.Decoder
