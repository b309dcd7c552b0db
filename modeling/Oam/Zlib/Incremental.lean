/-
  What is assumed of miniz, and what the inflater makes of it.

  miniz is not part of the repository.  All that is used of its raw decoder is that it is INCREMENTAL: the bytes a body
  has been fed so far have one meaning, `decode`, and the calls together compute it, however the input is sliced and
  however much room there is (`Miniz.Incremental`).
-/
import Oam.Zlib.Inflate

namespace Oam.Zlib

open Inflater List

/-! ## What is assumed of miniz -/

/-- How a deflate stream stands after some input. -/
inductive Fate where
  | running
  | ended (read : Nat)
  | failed (tooFar : Bool)
  deriving DecidableEq

/-- All that some input decodes to, and how the stream then stands. -/
structure Reading where
  output : Bytes
  fate : Fate
  deriving DecidableEq

/-- `hist` is enough of the past: a copy reaches back at most a window. -/
def KeepsWindow (hist past : Bytes) : Prop := hist <:+ past ∧ min window past.length ≤ hist.length

/-- What one call of miniz may answer to `src` when the core has been fed `fed` and has written `out`. -/
def CallAnswers {C : Type} (decode : Bytes → Reading) (rep : C → Bytes → Bytes → Prop) (fed out src : Bytes)
    (room : Nat) : C × Status × Nat × Bytes → Prop
  | (core, .needsMoreInput, n, p) =>
    n = src.length ∧ rep core (fed ++ src) (out ++ p) ∧ decode (fed ++ src) = ⟨out ++ p, .running⟩
  | (core, .hasMoreOutput, n, p) =>
    n ≤ src.length ∧ p.length = room ∧ rep core (fed ++ src.take n) (out ++ p) ∧
      ∀ read, (decode (fed ++ src.take n)).fate = .ended read → read = (fed ++ src.take n).length
  | (_, .done, n, p) =>
    n ≤ src.length ∧ decode (fed ++ src.take n) = ⟨out ++ p, .ended (fed ++ src.take n).length⟩
  | (_, .failed, _, _) => ∃ tooFar, (decode (fed ++ src)).fate = .failed tooFar
  | _ => False

/-- miniz as an INCREMENTAL decoder: its calls together compute `decode dictionary`, whatever the slices were. -/
structure Miniz.Incremental {C : Type} (m : Miniz C) where
  /-- What the bytes fed so far decode to, behind a window primed with the first argument. -/
  decode : Bytes → Bytes → Reading
  /-- `rep core primed fed out`: a core that has been fed `fed` and has written `out`. -/
  rep : C → Bytes → Bytes → Bytes → Prop
  decode_nil : ∀ d, decode d [] = ⟨[], .running⟩
  /-- More input never takes output back. -/
  decode_grows : ∀ d u v, (decode d u).output <+: (decode d (u ++ v)).output
  /-- What follows the end of the stream is not looked at. -/
  decode_ended : ∀ d u v n, (decode d u).fate = .ended n → n ≤ u.length ∧ decode d (u ++ v) = decode d u
  decode_failed : ∀ d u v tooFar, (decode d u).fate = .failed tooFar → decode d (u ++ v) = decode d u
  /-- A copy reaches back at most a window, so it cannot be too far back once a window is there. -/
  decode_tooFar : ∀ d u, (decode d u).fate = .failed true → (d ++ (decode d u).output).length < window
  rep_init : ∀ d, rep m.init d [] []
  rep_out : ∀ {core d u out}, rep core d u out → out <+: (decode d u).output
  call : ∀ {core d u out src hist room}, rep core d u out → KeepsWindow hist (d ++ out) → 0 < room →
    CallAnswers (decode d) (rep · d) u out src room (m.decompress core false src hist room)
  /-- Bytes in front of the history are read by nothing but a copy that is too far back … -/
  padded_same : ∀ {core d u out src room}, rep core d u out → 0 < room → (decode d (u ++ src)).fate ≠ .failed true →
    (m.decompress core false src (List.replicate window 0 ++ (d ++ out)) room).2 =
      (m.decompress core false src (d ++ out) room).2
  /-- … and with them such a copy gets past the place where it failed. -/
  padded_tooFar : ∀ {core d u out src room core' n p}, rep core d u out → 0 < room →
    (decode d (u ++ src)).fate = .failed true →
    m.decompress core false src (d ++ out) room = (core', .failed, n, p) →
    (m.decompress core false src (List.replicate window 0 ++ (d ++ out)) room).2.1 ≠ .failed ∨
      p.length < (m.decompress core false src (List.replicate window 0 ++ (d ++ out)) room).2.2.2.length

/-! ## The inflater keeps its window -/

namespace KeepsWindow

theorem refl (past : Bytes) : KeepsWindow past past := ⟨suffix_rfl, Nat.min_le_right _ _⟩

variable {hist past : Bytes}

theorem append (h : KeepsWindow hist past) (p : Bytes) : KeepsWindow (hist ++ p) (past ++ p) := by
  obtain ⟨⟨lost, rfl⟩, hlen⟩ := h
  refine ⟨⟨lost, by rw [append_assoc]⟩, ?_⟩
  rw [length_append] at hlen
  simp only [length_append]
  omega

theorem length_lastWindow (bytes : Bytes) : (lastWindow bytes).length = min window bytes.length := by
  rw [lastWindow, length_drop]
  omega

theorem last (h : KeepsWindow hist past) : KeepsWindow (lastWindow hist) past := by
  refine ⟨(drop_suffix _ _).trans h.1, ?_⟩
  rw [length_lastWindow]
  have := h.2
  omega

theorem slide {C : Type} {i : Inflater C} {past : Bytes} (h : KeepsWindow i.hist past) (room : Nat) :
    KeepsWindow (i.slide room).hist past := by
  by_cases hfull : i.hist.length + room > window + stepOut
  · simp only [Inflater.slide, if_pos hfull]
    exact h.last
  · rw [Inflater.slide, if_neg hfull]
    exact h

end KeepsWindow

variable {C : Type}

@[simp] theorem Inflater.slide_core (i : Inflater C) (room : Nat) : (i.slide room).core = i.core := by
  unfold slide
  split <;> rfl

@[simp] theorem Inflater.slide_zlib (i : Inflater C) (room : Nat) : (i.slide room).zlib = i.zlib := by
  unfold slide
  split <;> rfl

theorem Inflater.prime_core (i : Inflater C) (dictionary : Bytes) : (i.prime dictionary).core = i.core := by
  cases i
  rfl

theorem Inflater.prime_hist (i : Inflater C) (dictionary : Bytes) :
    (i.prime dictionary).hist = lastWindow dictionary := by
  simp only [prime]

theorem Inflater.prime_zlib (i : Inflater C) (dictionary : Bytes) : (i.prime dictionary).zlib = i.zlib := by
  cases i
  rfl

section Assumed

variable {C : Type} {m : Miniz C} (raw : m.Incremental) (k : Checksums)

/-- The inflater inside a body: fed `u` and having written `out` behind a window primed with `d`. -/
structure InBody (i : Inflater C) (d u out : Bytes) : Prop where
  rep : raw.rep i.core d u out
  keeps : KeepsWindow i.hist (d ++ out)
  isRaw : i.zlib = false
  notPast : ∀ read, (raw.decode d u).fate = .ended read → read = u.length

inductive BodyStep (d u out src : Bytes) : Inflater C × Except InflateFailure (Nat × Bytes × Bool) → Prop
  | drained {i : Inflater C} {p : Bytes} (hbody : InBody raw i d (u ++ src) (out ++ p))
      (hdecode : raw.decode d (u ++ src) = ⟨out ++ p, .running⟩) :
      BodyStep d u out src (i, .ok (src.length, p, false))
  | full {i : Inflater C} {n : Nat} {p : Bytes} (hn : n ≤ src.length) (hp : p ≠ [])
      (hbody : InBody raw i d (u ++ src.take n) (out ++ p)) :
      BodyStep d u out src (i, .ok (n, p, false))
  | ended {i : Inflater C} {n : Nat} {p : Bytes} (hn : n ≤ src.length) (hraw : i.zlib = false)
      (hdecode : raw.decode d (u ++ src.take n) = ⟨out ++ p, .ended (u ++ src.take n).length⟩) :
      BodyStep d u out src (i, .ok (n, p, true))
  | failed {i : Inflater C} {tooFar : Bool} (hfate : (raw.decode d (u ++ src)).fate = .failed tooFar) :
      BodyStep d u out src (i, .error (if tooFar then .tooFarBack else .invalid))

theorem tooFar_iff {core core' : C} {d u out src hist : Bytes} {room n : Nat} {p : Bytes} {tooFar : Bool}
    (hrep : raw.rep core d u out) (hkeeps : KeepsWindow hist (d ++ out)) (hroom : 0 < room)
    (hcall : m.decompress core false src hist room = (core', .failed, n, p))
    (hfate : (raw.decode d (u ++ src)).fate = .failed tooFar) :
    (hist.length < window && reachesBeforeStart m ⟨core, hist, false⟩ src room p.length) = tooFar := by
  by_cases hlt : hist.length < window
  · obtain rfl : hist = d ++ out := hkeeps.1.eq_of_length (by have := hkeeps.1.length_le; have := hkeeps.2; omega)
    cases tooFar with
    | true =>
      have hfar := raw.padded_tooFar hrep hroom hfate hcall
      rw [decide_eq_true hlt, Bool.true_and, reachesBeforeStart]
      simpa using hfar
    | false =>
      have hsame := raw.padded_same hrep hroom (show (raw.decode d (u ++ src)).fate ≠ .failed true by simp [hfate])
      rw [hcall] at hsame
      simp [reachesBeforeStart, hsame]
  · -- a window is there, so nothing is too far back
    have hlong := hkeeps.1.length_le
    have hout := (raw.rep_out hrep).length_le.trans (raw.decode_grows d u src).length_le
    cases tooFar with
    | true =>
      have hshort := raw.decode_tooFar d _ hfate
      simp only [length_append] at hlong hshort
      omega
    | false => simp [hlt]

theorem Inflater.stepIn_spec {i : Inflater C} {d u out : Bytes} (hbody : InBody raw i d u out) (src : Bytes)
    {room : Nat} (hroom : 0 < room) : BodyStep raw d u out src (i.stepIn m src room) := by
  obtain ⟨core, hist, zlib⟩ := i
  obtain ⟨hrep, hkeeps, hraw, -⟩ := hbody
  obtain rfl : zlib = false := hraw
  have hcall : CallAnswers _ _ u out src room (m.decompress core false src hist room) :=
    raw.call hrep hkeeps hroom
  have hkeeps' (p : Bytes) : KeepsWindow (hist ++ p) (d ++ (out ++ p)) := by
    rw [← append_assoc]
    exact hkeeps.append p
  unfold stepIn
  generalize hanswer : m.decompress core false src hist room = answer at hcall
  obtain ⟨_, status, n, p⟩ := answer
  cases status with
  | needsMoreInput =>
    obtain ⟨rfl, hrep', hdecode⟩ := hcall
    refine .drained ⟨hrep', hkeeps' p, rfl, fun read h => ?_⟩ hdecode
    rw [hdecode] at h
    cases h
  | hasMoreOutput =>
    obtain ⟨hn, hp, hrep', hnot⟩ := hcall
    exact .full hn (length_pos_iff.mp (by omega)) ⟨hrep', hkeeps' p, rfl, hnot⟩
  | done =>
    obtain ⟨hn, hdecode⟩ := hcall
    exact .ended hn rfl hdecode
  | failed =>
    obtain ⟨_, hfate⟩ := hcall
    have htooFar := tooFar_iff raw hrep hkeeps hroom hanswer hfate
    simp only [htooFar]
    exact .failed hfate
  | adler32Mismatch | badParam | failedCannotMakeProgress => exact hcall.elim

theorem Inflater.step_spec {i : Inflater C} {d u out : Bytes} (hbody : InBody raw i d u out) (src : Bytes)
    {dst : Nat} (hdst : 0 < dst) : BodyStep raw d u out src (i.step m src dst) := by
  have hroom : 0 < min dst stepOut := Nat.lt_min.mpr ⟨hdst, by decide⟩
  obtain ⟨_, hkeeps, _, hnot⟩ := hbody
  refine stepIn_spec raw ⟨?_, hkeeps.slide _, ?_, hnot⟩ src hroom
  · rwa [i.slide_core]
  · rwa [i.slide_zlib]

end Assumed

end Oam.Zlib
