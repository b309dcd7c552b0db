/-
  The inflater's history is ONE array that slides.  `Zlib/Inflate` keeps the history as a list; the source keeps it at
  the front of an array of `window + stepOut` bytes.  An underflow, or a range outside the array, is `none`.
-/
import Oam.Zlib.Incremental

namespace Oam.Zlib

open List

variable {C : Type} (m : Miniz C)

/-! ## The array -/

structure Buffer (C : Type) where
  core : C
  hist : Bytes
  pos : Nat
  zlib : Bool

namespace Buffer

def new (zlib : Bool) : Buffer C := { core := m.init, hist := replicate (window + stepOut) 0, pos := 0, zlib }

def reset (b : Buffer C) : Buffer C := { b with core := m.init, pos := 0 }

/-- The inflater whose history is `hist[..pos]`. -/
def inflater (b : Buffer C) : Inflater C := { core := b.core, hist := b.hist.take b.pos, zlib := b.zlib }

/-- The array with that history at its front; what is behind it is never read. -/
def put (b : Buffer C) (i : Inflater C) : Buffer C :=
  { i with hist := i.hist ++ b.hist.drop i.hist.length, pos := i.hist.length }

def prime (b : Buffer C) (dictionary : Bytes) : Buffer C := b.put (b.inflater.prime dictionary)

/-- `copy_within(pos - WINDOW..pos, 0)`. -/
def slid (b : Buffer C) : Buffer C :=
  { b with hist := (b.hist.take b.pos).drop (b.pos - window) ++ b.hist.drop window, pos := window }

def slide (b : Buffer C) (room : Nat) : Option (Buffer C) :=
  if b.pos + room > b.hist.length then
    if window ≤ b.pos ∧ b.pos ≤ b.hist.length then some b.slid else none
  else some b

def step (b : Buffer C) (src : Bytes) (dst : Nat) :
    Option (Buffer C × Except InflateFailure (Nat × Bytes × Bool)) :=
  (b.slide (min dst stepOut)).bind fun s =>
    if s.pos + min dst stepOut ≤ s.hist.length then
      let (i, answer) := s.inflater.stepIn m src (min dst stepOut)
      some (s.put i, answer)
    else none

/-! ## The calls, and the bytes a copy may reach -/

inductive Call where
  | step (src : Bytes) (dst : Nat)
  | reset

def written : Except InflateFailure (Nat × Bytes × Bool) → Bytes
  | .ok (_, produced, _) => produced
  | .error _ => []

/-- A call, beside the bytes a copy may reach: those primed and those written since; a reset takes BOTH away. -/
def after : Buffer C × Bytes → Call → Option (Buffer C × Bytes)
  | (b, _), .reset => some (b.reset m, [])
  | (b, past), .step src dst => (b.step m src dst).map fun (b', answer) => (b', past ++ written answer)

def start (zlib : Bool) : Option Bytes → Buffer C × Bytes
  | none => (new m zlib, [])
  | some dictionary => ((new m zlib).prime dictionary, lastWindow dictionary)

end Buffer

open Buffer

/-- miniz's call fails where it has written `j` bytes. -/
def Miniz.Refuses (i : Inflater C) (src : Bytes) (room j : Nat) : Prop :=
  (m.decompress i.core i.zlib src i.hist room).2.1 = .failed ∧
    (m.decompress i.core i.zlib src i.hist room).2.2.2.length = j

/-- **Copies, as miniz documents them.**  In the non-wrapping mode the buffer is the whole history. -/
structure Miniz.Copies where
  /-- In this call the decoder comes to a copy of distance `d` when it has written `j` bytes. -/
  meets : (i : Inflater C) → (src : Bytes) → (room j d : Nat) → Prop
  fits : ∀ i : Inflater C, ∀ src room, (m.decompress i.core i.zlib src i.hist room).2.2.2.length ≤ room
  refuses : ∀ {i src room j d}, meets i src room j d → (m.Refuses i src room j ↔ i.hist.length + j < d)
  reached : ∀ {i src room j d}, meets i src room j d →
    j ≤ (m.decompress i.core i.zlib src i.hist room).2.2.2.length
  /-- Bytes in front of the history change nothing of what comes before the copy. -/
  padded : ∀ {i src room j d}, meets i src room j d →
    meets { i with hist := replicate window 0 ++ i.hist } src room j d

/-! ## The array refines the list -/

variable {m}

namespace Buffer

structure Fits (b : Buffer C) : Prop where
  full : b.hist.length = window + stepOut
  inside : b.pos ≤ b.hist.length

variable {b : Buffer C} {past : Bytes}

theorem Fits.length_kept (h : b.Fits) : b.inflater.hist.length = b.pos := by
  show (b.hist.take b.pos).length = b.pos
  rw [length_take]
  exact Nat.min_eq_left h.inside

theorem put_inflater (b : Buffer C) (i : Inflater C) : (b.put i).inflater = i := by
  rw [inflater, put, take_left]

theorem Fits.put (h : b.Fits) {i : Inflater C} (hi : i.hist.length ≤ b.hist.length) : (b.put i).Fits := by
  have hfull := h.full
  constructor
  · rw [Buffer.put, length_append, length_drop]
    omega
  · rw [Buffer.put, length_append]
    exact Nat.le_add_right _ _

theorem slide_spec (h : b.Fits) {room : Nat} (hroom : room ≤ stepOut) :
    ∃ s, b.slide room = some s ∧ s.Fits ∧ s.pos + room ≤ s.hist.length ∧ s.inflater = b.inflater.slide room := by
  have hkept := h.length_kept
  obtain ⟨hfull, hinside⟩ := h
  by_cases hslide : b.pos + room > b.hist.length
  · -- `room ≤ stepOut`, so there is a window before `pos`
    have hpos : window ≤ b.pos := by omega
    have hlen : ((b.hist.take b.pos).drop (b.pos - window)).length = window := by
      rw [length_drop, length_take]
      omega
    have hat : b.slid.pos = window := rfl
    have htotal : b.slid.hist.length = window + stepOut := by
      rw [slid, length_append, hlen, length_drop]
      omega
    refine ⟨b.slid, by rw [slide, if_pos hslide, if_pos ⟨hpos, hinside⟩], ⟨htotal, by omega⟩, by omega, ?_⟩
    rw [Inflater.slide, if_pos (by omega), lastWindow, hkept]
    have htake : b.slid.hist.take window = (b.hist.take b.pos).drop (b.pos - window) := take_left' hlen
    rw [inflater, hat, htake]
    rfl
  · refine ⟨b, by rw [slide, if_neg hslide], ⟨hfull, hinside⟩, by omega, ?_⟩
    rw [Inflater.slide, if_neg (by omega)]

theorem length_stepIn (copies : m.Copies) (i : Inflater C) (src : Bytes) (room : Nat) :
    (i.stepIn m src room).1.hist.length ≤ i.hist.length + room := by
  have hfits := copies.fits i src room
  unfold Inflater.stepIn
  generalize m.decompress i.core i.zlib src i.hist room = answer at hfits
  obtain ⟨core', status, n, produced⟩ := answer
  cases status
  case done | needsMoreInput | hasMoreOutput =>
    rw [length_append]
    exact Nat.add_le_add_left hfits _
  all_goals exact Nat.le_add_right _ _

/-- **The array refines the list**, and no step faults. -/
theorem step_spec (copies : m.Copies) (h : b.Fits) (src : Bytes) (dst : Nat) :
    ∃ b', b.step m src dst = some (b', (b.inflater.step m src dst).2) ∧ b'.Fits ∧
      b'.inflater = (b.inflater.step m src dst).1 := by
  obtain ⟨s, hs, hfits, hroom, hslide⟩ := slide_spec h (Nat.min_le_right dst stepOut)
  have hlen := length_stepIn copies s.inflater src (min dst stepOut)
  rw [hfits.length_kept] at hlen
  rw [Inflater.step, ← hslide, step, hs, Option.bind_some, if_pos hroom]
  exact ⟨s.put (s.inflater.stepIn m src (min dst stepOut)).1, rfl, hfits.put (by omega), put_inflater _ _⟩

/-! ## Every run keeps the window -/

def Exact (s : Buffer C × Bytes) : Prop := s.1.Fits ∧ KeepsWindow s.1.inflater.hist s.2

theorem exact_start (zlib : Bool) (dictionary : Option Bytes) : Exact (start m zlib dictionary) := by
  have hnew : (new m zlib).Fits := ⟨length_replicate, Nat.zero_le _⟩
  cases dictionary with
  | none => exact ⟨hnew, .refl []⟩
  | some dictionary =>
    have hlen := KeepsWindow.length_lastWindow dictionary
    have hfull := hnew.full
    refine ⟨hnew.put ?_, ?_⟩
    · rw [Inflater.prime_hist]
      omega
    · rw [start, prime, put_inflater]
      exact .refl _

theorem keeps_stepIn {i : Inflater C} (h : KeepsWindow i.hist past) (src : Bytes) (room : Nat) :
    KeepsWindow (i.stepIn m src room).1.hist (past ++ written (i.stepIn m src room).2) := by
  unfold Inflater.stepIn
  generalize m.decompress i.core i.zlib src i.hist room = answer
  obtain ⟨core', status, n, produced⟩ := answer
  cases status
  case done | needsMoreInput | hasMoreOutput => exact h.append produced
  all_goals
    show KeepsWindow i.hist (past ++ [])
    rwa [append_nil]

theorem exact_run (copies : m.Copies) {s : Buffer C × Bytes} (h : Exact s) (calls : List Call) :
    ∃ s', calls.foldlM (after m) s = some s' ∧ Exact s' := by
  induction calls generalizing s with
  | nil => exact ⟨s, rfl, h⟩
  | cons call calls ih =>
    obtain ⟨b, past⟩ := s
    obtain ⟨hfits, hkeeps⟩ := h
    rw [foldlM_cons]
    cases call with
    | reset => exact ih ⟨⟨hfits.full, Nat.zero_le _⟩, .refl []⟩
    | step src dst =>
      obtain ⟨b', hstep, hfits', hb'⟩ := step_spec copies hfits src dst
      rw [after, hstep]
      exact ih ⟨hfits', hb' ▸ keeps_stepIn (hkeeps.slide _) src _⟩

end Buffer

/-- With a window of zeros in front the refused copy goes through. -/
theorem Miniz.Copies.tooFarBack (copies : m.Copies) {i : Inflater C} {src : Bytes} {room j d : Nat} (hd : d ≤ window)
    (hmeets : copies.meets i src room j d) (hfar : i.hist.length + j < d) :
    (i.stepIn m src room).2 = .error .tooFarBack := by
  have hrefused := (copies.refuses hmeets).mpr hfar
  have hpadded := copies.refuses (copies.padded hmeets)
  have hreached := copies.reached (copies.padded hmeets)
  rw [length_append, length_replicate] at hpadded
  have hre : i.reachesBeforeStart m src room j := by
    have hgone := mt hpadded.mp (by omega)
    rw [Miniz.Refuses] at hgone
    rw [Inflater.reachesBeforeStart]
    generalize m.decompress _ _ _ (replicate window 0 ++ i.hist) room = rerun at hgone hreached
    by_cases hfailed : rerun.2.1 = .failed
    · have hmore : rerun.2.2.2.length > j := by
        have hne : rerun.2.2.2.length ≠ j := fun h => hgone ⟨hfailed, h⟩
        omega
      simp [hmore]
    · simp [hfailed]
  unfold Inflater.stepIn
  rw [Miniz.Refuses] at hrefused
  generalize m.decompress i.core i.zlib src i.hist room = answer at hrefused
  obtain ⟨core', status, n, produced⟩ := answer
  obtain ⟨rfl, rfl⟩ := hrefused
  have hlt : i.hist.length < window := by omega
  simp only [hre, hlt, decide_true, Bool.and_self, if_true]

/-- **The history window is exact.** A copy of at most a window is refused exactly when it reaches past the bytes primed
    and written since the last reset. -/
theorem history_exact (copies : m.Copies) (zlib : Bool) (dictionary : Option Bytes) (calls : List Call) :
    ∃ b past, calls.foldlM (after m) (start m zlib dictionary) = some (b, past) ∧
      KeepsWindow (b.hist.take b.pos) past ∧
      ∀ src dst, ∃ s, b.slide (min dst stepOut) = some s ∧ s.pos + min dst stepOut ≤ s.hist.length ∧
        ∀ j d, d ≤ window → copies.meets s.inflater src (min dst stepOut) j d →
          (m.Refuses s.inflater src (min dst stepOut) j ↔ past.length + j < d) ∧
          (past.length + j < d → ∃ b', b.step m src dst = some (b', .error .tooFarBack)) := by
  obtain ⟨⟨b, past⟩, hrun, hfits, hkeeps⟩ := exact_run copies (exact_start zlib dictionary) calls
  refine ⟨b, past, hrun, hkeeps, fun src dst => ?_⟩
  obtain ⟨s, hs, -, hroom, hslide⟩ := slide_spec hfits (Nat.min_le_right dst stepOut)
  refine ⟨s, hs, hroom, fun j d hd hmeets => ?_⟩
  have hslid : KeepsWindow s.inflater.hist past := hslide ▸ hkeeps.slide _
  have hreaches : s.inflater.hist.length + j < d ↔ past.length + j < d := by
    have hle := hslid.1.length_le
    have hmin := hslid.2
    omega
  refine ⟨(copies.refuses hmeets).trans hreaches, fun hfar => ?_⟩
  obtain ⟨b', hstep, -⟩ := step_spec copies hfits src dst
  refine ⟨b', ?_⟩
  rw [hstep, Inflater.step, ← hslide, copies.tooFarBack hd hmeets (hreaches.mpr hfar)]

/-- A raw deflate stream: the literal `a`, a copy of three bytes from distance five, the end. -/
def sample : Bytes := [0x4b, 0x04, 0x12, 0x00]

/-- miniz on that stream, given whole and with room for its output; it is asked nothing else below. -/
def sampleMiniz : Miniz Unit where
  init := ()
  decompress _ _ src hist room :=
    if src = sample ∧ 4 ≤ room then
      if hist.length + 1 < 5 then ((), .failed, 3, [0x61])
      else ((), .done, 4, 0x61 :: (hist.drop (hist.length - 4)).take 3)
    else ((), .needsMoreInput, 0, [])

/-- Its one copy: the decoder comes to it behind the literal. -/
def sampleCopies : sampleMiniz.Copies where
  meets _ src room j d := src = sample ∧ 4 ≤ room ∧ j = 1 ∧ d = 5
  fits i src room := by
    simp only [sampleMiniz]
    split_ifs with hsample
    · exact Nat.le_trans (by decide) hsample.2
    · have htake := length_take_le 3 (i.hist.drop (i.hist.length - 4))
      rw [length_cons]
      omega
    · exact Nat.zero_le _
  refuses := by
    rintro i src room j d ⟨rfl, hroom, rfl, rfl⟩
    by_cases h : i.hist.length + 1 < 5 <;> simp [sampleMiniz, Miniz.Refuses, hroom, h]
  reached := by
    rintro i src room j d ⟨rfl, hroom, rfl, rfl⟩
    by_cases h : i.hist.length + 1 < 5 <;> simp [sampleMiniz, hroom, h]
  padded h := h

/-- A run that primes four bytes, decodes the stream and is reset: read once more, its copy reaches too far. -/
theorem history_exact_sample : ∃ b, [Call.step sample 64, .reset].foldlM (after sampleMiniz)
      (start sampleMiniz false (some [0x77, 0x78, 0x79, 0x7a])) = some (b, []) ∧
    ∃ b', b.step sampleMiniz sample 64 = some (b', .error .tooFarBack) := by
  obtain ⟨b, past, hrun, -, hsteps⟩ :=
    history_exact sampleCopies false (some [0x77, 0x78, 0x79, 0x7a]) [.step sample 64, .reset]
  have hpast : past = [] := by
    rw [foldlM_cons] at hrun
    obtain ⟨⟨b₁, past₁⟩, -, hreset⟩ := Option.bind_eq_some_iff.mp hrun
    exact (Prod.mk.inj (Option.some.inj hreset)).2.symm
  subst hpast
  obtain ⟨s, -, -, hs⟩ := hsteps sample 64
  exact ⟨b, hrun, (hs 1 5 (by decide) ⟨rfl, by decide, rfl, rfl⟩).2 (by decide)⟩

/-- The dictionary is gone with a reset. -/
theorem dictionary_lost : [Call.reset].foldlM (after sampleMiniz) (start sampleMiniz false (some [7])) =
      some (((new sampleMiniz false).prime [7]).reset sampleMiniz, []) ∧
    ¬ KeepsWindow ((((new sampleMiniz false).prime [7]).reset sampleMiniz).inflater.hist) (lastWindow [7] ++ []) := by
  refine ⟨rfl, fun h => ?_⟩
  have hlen := h.2
  revert hlen
  decide

end Oam.Zlib
