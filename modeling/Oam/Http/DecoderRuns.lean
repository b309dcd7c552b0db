/-
  The stacked body decoder is the composition of its stages.

  A stage is any incremental TRANSDUCER (`Transduces`): what it has written is the beginning of a function of what it
  has read, and all of it once a step on no input writes nothing.  Each turn of the walk that does something lowers the
  work of one stage and leaves the stages in front of it alone, so the works fall LEXICOGRAPHICALLY (`weight`).
-/
import Oam.Http.Decoder
import Mathlib.Data.DFinsupp.WellFounded

namespace Oam.Http.Decoder

open List

variable {S E : Type} {m : Stage S E}

/-! ## The contract of a stage -/

/-- A stage that started as `s₀` has read `x` and written `o`, and is now the last argument. -/
inductive Fed (m : Stage S E) (s₀ : S) : Bytes → Bytes → S → Prop
  | start : Fed m s₀ [] [] s₀
  | run {x o src p : Bytes} {s s' : S} {c : Nat} (h : Fed m s₀ x o s) (hrun : m.run s src = .ok (s', c, p)) :
      Fed m s₀ (x ++ src.take c) (o ++ p) s'

/-- An incremental transducer for `f`: a step gets on, and the total output is a function of the total input. -/
structure Transduces (m : Stage S E) (s₀ : S) (f : Bytes → Bytes) : Prop where
  consumed_le : ∀ {x o src p : Bytes} {s s' : S} {c : Nat}, Fed m s₀ x o s → m.run s src = .ok (s', c, p) →
    c ≤ src.length
  produced_le : ∀ {x o src p : Bytes} {s s' : S} {c : Nat}, Fed m s₀ x o s → m.run s src = .ok (s', c, p) →
    p.length ≤ outCap
  progress : ∀ {x o src p : Bytes} {s s' : S} {c : Nat}, Fed m s₀ x o s → m.run s src = .ok (s', c, p) →
    src ≠ [] → 0 < c ∨ 0 < p.length
  emitted : ∀ {x o : Bytes} {s : S}, Fed m s₀ x o s → o <+: f x
  settled : ∀ {x o : Bytes} {s s' : S}, Fed m s₀ x o s → m.run s [] = .ok (s', 0, []) → o = f x

/-! ## What has been read and written -/

/-- A decoder in the middle of a call, with what every stage has read and written so far. -/
structure Flow (S E : Type) where
  decoder : Decoder S E
  input : Bytes
  read : Nat → Bytes
  written : Nat → Bytes

/-- The decoder is what `starts` have become, and every window holds what lies between its stage and the next. -/
structure Tracks (m : Stage S E) (starts : List S) (g : Flow S E) : Prop where
  stages : g.decoder.stages.length = starts.length
  windows : g.decoder.windows.length = starts.length
  fed : ∀ {i : Nat} {s₀ s : S}, starts[i]? = some s₀ → g.decoder.stages[i]? = some s →
    Fed m s₀ (g.read i) (g.written i) s
  flows : ∀ {i : Nat} {w : Bytes}, g.decoder.windows[i]? = some w → g.written i = g.read (i + 1) ++ w

/-- The walk has reached stage `j`. -/
structure At (fs : List (Bytes → Bytes)) (g : Flow S E) (j : Nat) : Prop where
  empty : ∀ {i : Nat} {w : Bytes}, j ≤ i → g.decoder.windows[i]? = some w → w = []
  dry : ∀ {i : Nat} {f : Bytes → Bytes}, j < i → fs[i]? = some f → g.written i = f (g.read i)
  overrun : ∀ {k : Nat}, g.decoder.overrun = some k → k ≤ j

/-- Stage `j` has read `c` bytes of its source, written `p`, and is now `s`. -/
def Flow.advance (m : Stage S E) (g : Flow S E) (j : Nat) (s : S) (c : Nat) (p : Bytes) : Flow S E where
  decoder := (g.decoder.advance m g.input j s c p).1
  input := (g.decoder.advance m g.input j s c p).2
  read := Function.update g.read j (g.read j ++ (g.decoder.source g.input j).take c)
  written := Function.update g.written j (g.written j ++ p)

section Advance

variable {starts : List S} {g : Flow S E} {j c : Nat} {s s' : S} {p : Bytes}

theorem windows_advance (hj : j < g.decoder.windows.length) (i : Nat) : (g.advance m j s c p).decoder.windows[i]? =
    if i = j then some p else if i + 1 = j then some ((g.decoder.source g.input j).drop c) else g.decoder.windows[i]? :=
    by
  unfold Flow.advance advance
  by_cases hi : i = j
  · subst hi
    rw [if_pos rfl]
    split <;> simp [hj]
  · rw [if_neg hi]
    by_cases hj0 : j = 0
    · simp [hj0, Ne.symm (hj0 ▸ hi)]
    · simp only [hj0, if_false, getElem?_set, Ne.symm hi]
      by_cases hi' : i + 1 = j
      · rw [if_pos hi', if_pos (by omega), if_pos (by omega)]
      · rw [if_neg hi', if_neg (by omega)]

theorem source_eq {d : Decoder S E} {input w : Bytes} (hj : 0 < j) (hw : d.windows[j - 1]? = some w) :
    d.source input j = w := by
  rw [source, if_neg (by omega), getD_eq_getElem?_getD, hw]
  rfl

theorem source_advance (hjlt : j < g.decoder.windows.length) {i : Nat} (hi : i < j) :
    (g.advance m j s c p).decoder.source (g.advance m j s c p).input i = g.decoder.source g.input i := by
  have hj : j ≠ 0 := by omega
  unfold source
  split
  · simp [Flow.advance, advance, hj]
  · rw [getD_eq_getElem?_getD, windows_advance hjlt, if_neg (by omega), if_neg (by omega),
      ← getD_eq_getElem?_getD]

theorem source_advance_self (hjlt : j < g.decoder.windows.length) :
    (g.advance m j s c p).decoder.source (g.advance m j s c p).input j = (g.decoder.source g.input j).drop c := by
  unfold source
  by_cases hj : j = 0
  · simp [Flow.advance, advance, hj]
  · rw [if_neg hj, if_neg hj, getD_eq_getElem?_getD, windows_advance hjlt, if_neg (by omega),
      if_pos (by omega), source, if_neg hj]
    rfl

theorem Tracks.advance (h : Tracks m starts g) (hj : g.decoder.stages[j]? = some s)
    (hempty : g.decoder.windows[j]? = some []) (hrun : m.run s (g.decoder.source g.input j) = .ok (s', c, p)) :
    Tracks m starts (g.advance m j s' c p) := by
  have hjlt : j < g.decoder.windows.length := (List.getElem?_eq_some_iff.mp hempty).1
  refine ⟨?_, ?_, ?_, ?_⟩
  · simp [Flow.advance, Decoder.advance, h.stages]
  · unfold Flow.advance Decoder.advance
    split <;> simp [h.windows]
  · intro i s₀ s'' hs₀ hs''
    simp only [Flow.advance]
    by_cases hi : i = j
    · subst hi
      have hset : (g.advance m i s' c p).decoder.stages[i]? = some s' := by
        simp [Flow.advance, Decoder.advance, h.stages, ← h.windows, hjlt]
      rw [hset] at hs''
      cases hs''
      rw [Function.update_self, Function.update_self]
      exact (h.fed hs₀ hj).run hrun
    · rw [Function.update_of_ne hi, Function.update_of_ne hi]
      refine h.fed hs₀ ?_
      rw [← hs'']
      simp [Flow.advance, Decoder.advance, Ne.symm hi]
  · intro i w hw
    rw [windows_advance hjlt] at hw
    simp only [Flow.advance]
    split at hw
    · next hi =>
      subst hi
      cases hw
      have hflow := h.flows hempty
      rw [append_nil] at hflow
      rw [Function.update_self, Function.update_of_ne (by omega), hflow]
    · next hi =>
      split at hw
      · next hi' =>
        cases hw
        subst hi'
        obtain ⟨w, hw⟩ : ∃ w, g.decoder.windows[i]? = some w := ⟨_, getElem?_eq_getElem (by omega)⟩
        rw [Function.update_of_ne hi, Function.update_self, h.flows hw, source_eq (by omega) hw, append_assoc,
          take_append_drop]
      · next hi' =>
        rw [Function.update_of_ne hi, Function.update_of_ne (by omega)]
        exact h.flows hw

end Advance

/-! ## The work that is left -/

/-- What is left to do at stage `i`: bytes to read, then bytes to write. -/
def work (fs : List (Bytes → Bytes)) (g : Flow S E) (i : Nat) : ℕ ×ₗ ℕ :=
  toLex ((g.decoder.source g.input i).length, (fs.getD i id (g.read i)).length - (g.written i).length)

def weight (fs : List (Bytes → Bytes)) (g : Flow S E) : Lex (Fin fs.length → ℕ ×ₗ ℕ) :=
  toLex fun i => work fs g i

section Work

variable {starts : List S} {fs : List (Bytes → Bytes)} {g : Flow S E} {j c : Nat} {s s' : S} {p : Bytes}
  {f : Bytes → Bytes}

theorem weight_advance_lt (h : Tracks m starts g) {s₀ : S} (hs₀ : starts[j]? = some s₀) (hf : fs[j]? = some f)
    (hstage : Transduces m s₀ f) (hj : g.decoder.stages[j]? = some s) (hjlt : j < g.decoder.windows.length)
    (hrun : m.run s (g.decoder.source g.input j) = .ok (s', c, p)) (hworks : 0 < c ∨ 0 < p.length) :
    weight fs (g.advance m j s' c p) < weight fs g := by
  have hfed := h.fed hs₀ hj
  have hc := hstage.consumed_le hfed hrun
  refine ⟨⟨j, (List.getElem?_eq_some_iff.mp hf).1⟩, fun i hi => ?_, ?_⟩
  · show work fs (g.advance m j s' c p) i = work fs g i
    unfold work
    rw [source_advance hjlt hi]
    simp only [Flow.advance, Function.update_of_ne (Nat.ne_of_lt hi)]
  show work fs (g.advance m j s' c p) j < work fs g j
  unfold work
  rw [source_advance_self hjlt, length_drop, getD_eq_getElem?_getD, hf, Option.getD_some, Prod.Lex.toLex_lt_toLex]
  by_cases hread : 0 < c
  · left
    show _ - c < _
    omega
  · obtain rfl : c = 0 := by omega
    right
    have hlen := (hstage.emitted (hfed.run hrun)).length_le
    simp only [Flow.advance, Function.update_self, take_zero, append_nil, length_append] at hlen ⊢
    omega

theorem advance_idle (hempty : g.decoder.windows[j]? = some []) :
    (g.advance m j s 0 []).decoder.windows = g.decoder.windows ∧ (g.advance m j s 0 []).input = g.input ∧
      (g.advance m j s 0 []).read = g.read ∧ (g.advance m j s 0 []).written = g.written := by
  have hjlt : j < g.decoder.windows.length := (List.getElem?_eq_some_iff.mp hempty).1
  refine ⟨ext_getElem? fun i => ?_, ?_, ?_, ?_⟩
  · rw [windows_advance hjlt]
    split
    · next hi => rw [hi, hempty]
    split
    · next hi =>
      subst hi
      obtain ⟨w, hw⟩ : ∃ w, g.decoder.windows[i]? = some w := ⟨_, getElem?_eq_getElem (by omega)⟩
      rw [source_eq (by omega) hw, drop_zero, hw]
    · rfl
  · simp [Flow.advance, advance]
  · simp [Flow.advance]
  · simp [Flow.advance]

theorem weight_advance_idle (hempty : g.decoder.windows[j]? = some []) :
    weight fs (g.advance m j s 0 []) = weight fs g := by
  obtain ⟨hwindows, hinput, hread, hwritten⟩ := advance_idle (m := m) (s := s) hempty
  unfold weight work source
  rw [hwindows, hinput, hread, hwritten]

end Work

/-! ## The record of a walk -/

/-- What stage `i` has written, by the record. -/
def emittedBy (i : Nat) (log : List Ran) : Bytes := (log.filter (·.stage = i)).flatMap (·.produced)

def overrunAfter : Option Nat → List Ran → Option Nat
  | overrun, [] => overrun
  | overrun, e :: log => overrunAfter (if e.overrun then some (overrun.elim e.stage (max e.stage)) else overrun) log

def Guarded : Option Nat → List Ran → Prop
  | _, [] => True
  | overrun, e :: log => (∀ k, overrun = some k → k ≤ e.stage) ∧ Guarded (overrunAfter overrun [e]) log

theorem emittedBy_append (i : Nat) (first second : List Ran) :
    emittedBy i (first ++ second) = emittedBy i first ++ emittedBy i second := by
  simp [emittedBy]

theorem overrunAfter_append (overrun : Option Nat) (first second : List Ran) :
    overrunAfter overrun (first ++ second) = overrunAfter (overrunAfter overrun first) second := by
  induction first generalizing overrun with
  | nil => rfl
  | cons e first ih => exact ih _

theorem Guarded.append {overrun : Option Nat} {first second : List Ran} (h : Guarded overrun first)
    (h' : Guarded (overrunAfter overrun first) second) : Guarded overrun (first ++ second) := by
  induction first generalizing overrun with
  | nil => exact h'
  | cons e first ih => exact ⟨h.1, ih h.2 h'⟩

/-- What some turns of the walk do, whatever they lead to. -/
structure Moved (m : Stage S E) (starts : List S) (g g' : Flow S E) (log : List Ran) : Prop where
  tracks : Tracks m starts g'
  error : g'.decoder.error = g.decoder.error
  done : g'.decoder.done = g.decoder.done
  conserved : g'.read 0 ++ g'.input = g.read 0 ++ g.input
  returned : g'.read starts.length = g.read starts.length
  emitted : ∀ i, g'.written i = g.written i ++ emittedBy i log
  overwritten : ∀ e ∈ log, e.overwritten = []
  overrun : g'.decoder.overrun = overrunAfter g.decoder.overrun log
  guarded : Guarded g.decoder.overrun log

theorem Moved.trans {starts : List S} {g g' g'' : Flow S E} {log log' : List Ran} (h : Moved m starts g g' log)
    (h' : Moved m starts g' g'' log') : Moved m starts g g'' (log ++ log') where
  tracks := h'.tracks
  error := h'.error.trans h.error
  done := h'.done.trans h.done
  conserved := h'.conserved.trans h.conserved
  returned := h'.returned.trans h.returned
  emitted := fun i => by rw [h'.emitted, h.emitted, emittedBy_append, append_assoc]
  overwritten := fun e he => (mem_append.mp he).elim (h.overwritten e) (h'.overwritten e)
  overrun := by rw [h'.overrun, h.overrun, overrunAfter_append]
  guarded := h.guarded.append (h.overrun ▸ h'.guarded)

section Step

variable {starts : List S} {fs : List (Bytes → Bytes)} {g : Flow S E} {j c : Nat} {s s' : S} {p : Bytes}
  {f : Bytes → Bytes}

theorem Tracks.moved (h : Tracks m starts g) (hat : At fs g j) (hj : g.decoder.stages[j]? = some s)
    (hrun : m.run s (g.decoder.source g.input j) = .ok (s', c, p)) (hempty : g.decoder.windows[j]? = some []) :
    Moved m starts g (g.advance m j s' c p) [⟨j, [], p, m.overrun s'⟩] where
  tracks := h.advance hj hempty hrun
  error := rfl
  done := rfl
  conserved := by
    by_cases hj0 : j = 0
    · subst hj0
      simp [Flow.advance, Decoder.advance, source]
    · simp [Flow.advance, Decoder.advance, hj0, Function.update_of_ne (Ne.symm hj0)]
  returned := by
    have hjlt := (List.getElem?_eq_some_iff.mp hj).1
    rw [h.stages] at hjlt
    exact Function.update_of_ne (Nat.ne_of_gt hjlt) ..
  emitted := by
    intro i
    by_cases hi : i = j
    · subst hi
      simp [Flow.advance, emittedBy]
    · simp [Flow.advance, emittedBy, Function.update_of_ne hi, Ne.symm hi]
  overwritten := by simp
  overrun := rfl
  guarded := ⟨fun k hk => hat.overrun hk, trivial⟩

/-- From stage `j` on, everything that was read has been decoded and handed on. -/
def SettledFrom (fs : List (Bytes → Bytes)) (g : Flow S E) (j : Nat) : Prop :=
  ∀ i f, j ≤ i → fs[i]? = some f → g.written i = f (g.read i) ∧ g.read (i + 1) = g.written i

/-- All of the input is read, or a stage has overrun and those behind it have read all that it wrote. -/
structure Exhausted (fs : List (Bytes → Bytes)) (g : Flow S E) : Prop where
  wire : g.decoder.overrun = none → g.input = [] ∧ SettledFrom fs g 0
  overrun : ∀ {k : Nat}, g.decoder.overrun = some k → SettledFrom fs g (k + 1) ∧ g.read (k + 1) = g.written k

/-- Where a turn at stage `j` may lead. -/
def LeadsTo (fs : List (Bytes → Bytes)) (k : Nat) (g : Flow S E) (j : Nat) (g' : Flow S E) : Walk E → Prop
  | .on j' => j' ≤ k ∧ At fs g' j' ∧ toLex (weight fs g', j') < toLex (weight fs g, j)
  | .filled => j = k ∧ weight fs g' < weight fs g ∧ (∀ o, g'.decoder.overrun = some o → o ≤ k) ∧
      ∃ p, g'.decoder.windows[k]? = some p ∧ 0 < p.length ∧ p.length ≤ outCap
  | .dry => At fs g' j ∧ Exhausted fs g'
  | .failed fault => ∃ e, fault = .stage e

variable (hat : At fs g j)

include hat

theorem overrun_advance_le {o : Nat} (h : (g.advance m j s c p).decoder.overrun = some o) : o ≤ j := by
  simp only [Flow.advance, advance] at h
  split at h
  · cases hover : g.decoder.overrun with
    | none => simp [hover] at h; omega
    | some o' =>
      have hle := hat.overrun hover
      simp [hover] at h
      omega
  · exact hat.overrun h

theorem At.advance (hjlt : j < g.decoder.windows.length) {j' : Nat} (hj' : j ≤ j')
    (hp : j' = j → p = []) : At fs (g.advance m j s c p) j' := by
  refine ⟨?_, ?_, fun h => (overrun_advance_le hat h).trans hj'⟩
  · intro i w hi hw
    rw [windows_advance hjlt] at hw
    split at hw
    · next hij =>
      cases hw
      exact hp (by omega)
    · rw [if_neg (by omega)] at hw
      exact hat.empty (by omega) hw
  · intro i f hi hf
    have hne : i ≠ j := by omega
    simp only [Flow.advance, Function.update_of_ne hne]
    exact hat.dry (by omega) hf

theorem At.dried (hf : fs[j]? = some f) (hdry : g.written j = f (g.read j)) {i : Nat}
    {f' : Bytes → Bytes} (hi : j ≤ i) (hf' : fs[i]? = some f') : g.written i = f' (g.read i) := by
  rcases Nat.lt_or_eq_of_le hi with hlt | rfl
  · exact hat.dry hlt hf'
  · rw [hf] at hf'
    cases hf'
    exact hdry

theorem At.exhausted (h : Tracks m starts g) (hlen : fs.length = starts.length)
    (hf : fs[j]? = some f) (hdry : g.written j = f (g.read j)) (hsource : g.decoder.source g.input j = [])
    (hend : j = 0 ∨ g.decoder.overrun.any (fun o => j ≤ o + 1)) : Exhausted fs g := by
  have hsettled : SettledFrom fs g j := by
    intro i f' hi hf'
    have hilt := (List.getElem?_eq_some_iff.mp hf').1
    obtain ⟨w, hw⟩ : ∃ w, g.decoder.windows[i]? = some w :=
      ⟨_, getElem?_eq_getElem (by rw [h.windows, ← hlen]; exact hilt)⟩
    refine ⟨hat.dried hf hdry hi hf', ?_⟩
    rw [h.flows hw, hat.empty hi hw, append_nil]
  constructor
  · intro hnone
    obtain rfl : j = 0 := by simpa [hnone] using hend
    exact ⟨by simpa [source] using hsource, hsettled⟩
  · intro k hk
    have hle := hat.overrun hk
    have hge : j ≤ k + 1 := by
      rcases hend with rfl | hany
      · omega
      · simpa [hk] using hany
    refine ⟨fun i f' hi hf' => hsettled i f' (by omega) hf', ?_⟩
    have hklt : k < g.decoder.windows.length := by
      have hjlt := (List.getElem?_eq_some_iff.mp hf).1
      rw [h.windows, ← hlen]
      omega
    obtain ⟨w, hw⟩ : ∃ w, g.decoder.windows[k]? = some w := ⟨_, getElem?_eq_getElem hklt⟩
    -- either the overrun stage is the dry one, or the dry one reads from it
    have hnil : w = [] := by
      rcases Nat.lt_or_eq_of_le hge with hlt | rfl
      · exact hat.empty (by omega) hw
      · rw [source_eq (by omega) hw] at hsource
        exact hsource
    rw [h.flows hw, hnil, append_nil]

theorem At.upstream (hf : fs[j]? = some f) (hdry : g.written j = f (g.read j))
    (hsource : g.decoder.source g.input j = [])
    (hend : ¬ (j = 0 ∨ g.decoder.overrun.any (fun o => j ≤ o + 1))) : At fs g (j - 1) := by
  have hj : j ≠ 0 := fun hzero => hend (.inl hzero)
  refine ⟨?_, fun hi hf' => hat.dried hf hdry (by omega) hf', ?_⟩
  · intro i w hi hw
    rcases Nat.lt_or_ge i j with hlt | hge
    · obtain rfl : i = j - 1 := by omega
      rw [source_eq (by omega) hw] at hsource
      exact hsource
    · exact hat.empty hge hw
  · intro k hk
    have hnot : ¬ j ≤ k + 1 := fun hle => hend (.inr (by simpa [hk] using hle))
    omega

omit hat

theorem weight_pair_lt_left {w w' : Lex (Fin fs.length → ℕ ×ₗ ℕ)} (h : w < w') (j j' : Nat) :
    toLex (w, j) < toLex (w', j') := Prod.Lex.toLex_lt_toLex.mpr (.inl h)

variable {k : Nat}

theorem leadsTo_advance (h : Tracks m starts g) (hat : At fs g j) (hj : j ≤ k)
    (hlen : fs.length = starts.length) {s₀ : S} (hs₀ : starts[j]? = some s₀) (hf : fs[j]? = some f)
    (hstage : Transduces m s₀ f) (hs : g.decoder.stages[j]? = some s) (hempty : g.decoder.windows[j]? = some [])
    (hrun : m.run s (g.decoder.source g.input j) = .ok (s', c, p)) : LeadsTo fs k g j (g.advance m j s' c p)
    (turn (g.advance m j s' c p).decoder.overrun k j (g.decoder.source g.input j).length c p.length) := by
  have hjlt : j < g.decoder.windows.length := (List.getElem?_eq_some_iff.mp hempty).1
  have hlt (hworks : 0 < c ∨ 0 < p.length) := weight_advance_lt h hs₀ hf hstage hs hjlt hrun hworks
  have hfed := h.fed hs₀ hs
  unfold turn
  by_cases hp : 0 < p.length
  · rw [if_pos hp]
    split
    · next hjk =>
      subst hjk
      refine ⟨rfl, hlt (.inr hp), fun o => overrun_advance_le hat, p, ?_, hp, hstage.produced_le hfed hrun⟩
      rw [windows_advance hjlt, if_pos rfl]
    · next hjk =>
      exact ⟨by omega, hat.advance hjlt (by omega) (by omega), weight_pair_lt_left (hlt (.inr hp)) _ _⟩
  · obtain rfl : p = [] := by simpa using hp
    rw [if_neg hp]
    split
    · next hc =>
      subst hc
      have hsource : g.decoder.source g.input j = [] := by
        by_contra hsome
        exact absurd (hstage.progress hfed hrun hsome) (by simp)
      rw [if_neg (by simp [hsource])]
      -- the stage is dry: what it has written is all there is
      obtain ⟨_, _, hread, hwritten⟩ := advance_idle (m := m) (s := s') hempty
      have hat' : At fs (g.advance m j s' 0 []) j := hat.advance hjlt le_rfl fun _ => rfl
      have hdry : (g.advance m j s' 0 []).written j = f ((g.advance m j s' 0 []).read j) := by
        rw [hread, hwritten]
        exact hstage.settled hfed (hsource ▸ hrun)
      have hsource' : (g.advance m j s' 0 []).decoder.source (g.advance m j s' 0 []).input j = [] := by
        rw [source_advance_self hjlt, hsource]
        rfl
      split
      · next hend => exact ⟨hat', hat'.exhausted (h.advance hs hempty hrun) hlen hf hdry hsource' hend⟩
      next hend =>
      have hj0 : j ≠ 0 := fun hzero => hend (.inl hzero)
      refine ⟨by omega, hat'.upstream hf hdry hsource' hend, ?_⟩
      rw [weight_advance_idle hempty]
      exact Prod.Lex.toLex_lt_toLex.mpr (.inr ⟨rfl, by show j - 1 < j; omega⟩)
    · next hc =>
      exact ⟨hj, hat.advance hjlt le_rfl fun _ => rfl, weight_pair_lt_left (hlt (.inl (by omega))) _ _⟩

/-- **One turn of the walk.** -/
theorem pullStep_spec (hfs : Forall₂ (Transduces m) starts fs) (hk : k + 1 = starts.length)
    (h : Tracks m starts g) (hat : At fs g j) (hj : j ≤ k) : ∃ g' log walk, g.decoder.pullStep m g.input k j =
    (g'.decoder, g'.input, log, walk) ∧ Moved m starts g g' log ∧ LeadsTo fs k g j g' walk := by
  have hlen := hfs.length_eq
  obtain ⟨s₀, hs₀⟩ : ∃ s₀, starts[j]? = some s₀ := ⟨_, getElem?_eq_getElem (by omega)⟩
  obtain ⟨f, hf⟩ : ∃ f, fs[j]? = some f := ⟨_, getElem?_eq_getElem (by omega)⟩
  obtain ⟨s, hs⟩ : ∃ s, g.decoder.stages[j]? = some s := ⟨_, getElem?_eq_getElem (by rw [h.stages]; omega)⟩
  obtain ⟨w, hw⟩ : ∃ w, g.decoder.windows[j]? = some w := ⟨_, getElem?_eq_getElem (by rw [h.windows]; omega)⟩
  obtain rfl := hat.empty le_rfl hw
  have hstage : Transduces m s₀ f := by
    obtain ⟨hlt, rfl⟩ := List.getElem?_eq_some_iff.mp hs₀
    obtain ⟨hlt', rfl⟩ := List.getElem?_eq_some_iff.mp hf
    exact hfs.get hlt hlt'
  have hgetD : g.decoder.windows.getD j [] = [] := by rw [getD_eq_getElem?_getD, hw]; rfl
  cases hrun : m.run s (g.decoder.source g.input j) with
  | error e =>
    have hset : g.decoder.windows.set j [] = g.decoder.windows := by
      obtain ⟨_, hw⟩ := List.getElem?_eq_some_iff.mp hw
      rw [← hw, set_getElem_self]
    refine ⟨g, [⟨j, [], [], false⟩], .failed (.stage e), ?_, ⟨h, rfl, rfl, rfl, rfl, fun i => by simp [emittedBy],
      by simp, rfl, fun k hk => hat.overrun hk, trivial⟩, e, rfl⟩
    simp only [pullStep, hs, hrun, hgetD, hset]
  | ok step =>
    obtain ⟨s', c, p⟩ := step
    refine ⟨_, _, _, ?_, h.moved hat hs hrun hw, leadsTo_advance h hat hj hlen.symm hs₀ hf hstage hs hw hrun⟩
    simp only [pullStep, hs, hrun, hgetD]
    rfl

def Ends (fs : List (Bytes → Bytes)) (k : Nat) (g g' : Flow S E) : Except (Fault E) Bool → Prop
  | .ok true => weight fs g' < weight fs g ∧ (∀ o, g'.decoder.overrun = some o → o ≤ k) ∧
      ∃ p, g'.decoder.windows[k]? = some p ∧ 0 < p.length ∧ p.length ≤ outCap
  | .ok false => (∃ j, j ≤ k ∧ At fs g' j) ∧ Exhausted fs g'
  | .error fault => ∃ e, fault = .stage e

theorem Ends.of_le {g g₁ g' : Flow S E} (hle : weight fs g₁ ≤ weight fs g)
    {result : Except (Fault E) Bool} (h : Ends fs k g₁ g' result) : Ends fs k g g' result := by
  match result, h with
  | .ok true, ⟨hlt, hrest⟩ => exact ⟨hlt.trans_le hle, hrest⟩
  | .ok false, h => exact h
  | .error _, h => exact h

/-- **A whole walk**: it ends, by induction on the work that is left and then on the stage it has reached. -/
theorem pull_spec (hfs : Forall₂ (Transduces m) starts fs) (hk : k + 1 = starts.length) (h : Tracks m starts g)
    (hat : At fs g j) (hj : j ≤ k) : ∃ bound a g', (∀ fuel, bound ≤ fuel → g.decoder.pull m k fuel g.input j = some a) ∧
    a.decoder = g'.decoder ∧ a.left = g'.input ∧ Moved m starts g g' a.log ∧ Ends fs k g g' a.result := by
  induction hw : toLex (weight fs g, j) using WellFoundedLT.induction generalizing g j with
  | ind w ih =>
    subst hw
    obtain ⟨g', log, walk, hstep, hmoved, hleads⟩ := pullStep_spec hfs hk h hat hj
    -- one turn, with fuel for it
    have hpull (fuel : Nat) (hfuel : 1 ≤ fuel) : ∃ less, fuel = less + 1 := ⟨fuel - 1, by omega⟩
    cases walk with
    | on j' =>
      obtain ⟨hj', hat', hlt⟩ := hleads
      obtain ⟨bound, a, g'', hgoes, hdecoder, hleft, hmoved', hends⟩ := ih _ hlt hmoved.tracks hat' hj' rfl
      refine ⟨bound + 1, { a with log := log ++ a.log }, g'', fun fuel hfuel => ?_, hdecoder, hleft,
        hmoved.trans hmoved', hends.of_le ?_⟩
      · obtain ⟨less, rfl⟩ := hpull fuel (by omega)
        rw [pull, hstep]
        simp only [hgoes less (by omega), Option.map_some]
      · rcases Prod.Lex.toLex_lt_toLex.mp hlt with hlt | ⟨heq, -⟩
        · exact hlt.le
        · exact heq.le
    | filled =>
      refine ⟨1, ⟨g'.decoder, g'.input, .ok true, log⟩, g', fun fuel hfuel => ?_, rfl, rfl, hmoved, hleads.2⟩
      obtain ⟨less, rfl⟩ := hpull fuel hfuel
      rw [pull, hstep]
    | dry =>
      refine ⟨1, ⟨g'.decoder, g'.input, .ok false, log⟩, g', fun fuel hfuel => ?_, rfl, rfl, hmoved,
        ⟨j, hj, hleads.1⟩, hleads.2⟩
      obtain ⟨less, rfl⟩ := hpull fuel hfuel
      rw [pull, hstep]
    | failed fault =>
      refine ⟨1, ⟨g'.decoder, g'.input, .error fault, log⟩, g', fun fuel hfuel => ?_, rfl, rfl, hmoved, hleads⟩
      obtain ⟨_, rfl⟩ := hpull fuel hfuel
      rw [pull, hstep]

end Step

/-! ## One call -/

/-- A decoder between two calls: the last window is empty. -/
structure Rests (m : Stage S E) (starts : List S) (fs : List (Bytes → Bytes)) (g : Flow S E) : Prop where
  tracks : Tracks m starts g
  empty : ∀ {i : Nat} {w : Bytes}, i + 1 = starts.length → g.decoder.windows[i]? = some w → w = []
  overrun : ∀ {k : Nat}, g.decoder.overrun = some k → k < starts.length
  done : g.decoder.done = true →
    ∃ k, g.decoder.overrun = some k ∧ SettledFrom fs g (k + 1) ∧ g.read (k + 1) = g.written k

/-- The work that is left, and the input that is left where there is no stage to read it. -/
def callWeight (fs : List (Bytes → Bytes)) (g : Flow S E) : Lex (Fin fs.length → ℕ ×ₗ ℕ) ×ₗ ℕ :=
  toLex (weight fs g, g.input.length)

def Answers (fs : List (Bytes → Bytes)) (g g' : Flow S E) : Except (Fault E) (Option Bytes) → Prop
  | .ok (some chunk) => 0 < chunk.length ∧ chunk.length ≤ outCap ∧ g'.decoder.error = none ∧
      g'.decoder.done = false ∧ callWeight fs g' < callWeight fs g
  | .ok none => g'.input = [] ∧ g'.decoder.error = none ∧
      (g'.decoder.overrun = none → g'.decoder.done = false ∧ SettledFrom fs g' 0) ∧
      (g'.decoder.overrun ≠ none → g'.decoder.done = true)
  | .error fault => (∃ e, fault = .stage e) ∧ g'.decoder.error = some fault ∧ g'.decoder.done = false

/-- What one `push` did to the flow. -/
structure Pushed (m : Stage S E) (starts : List S) (fs : List (Bytes → Bytes)) (g g' : Flow S E)
    (a : Answer S E (Option Bytes)) : Prop where
  decoder : a.decoder = g'.decoder
  left : a.left = g'.input
  rests : g'.decoder.error = none → Rests m starts fs g'
  returned : g'.read starts.length = g.read starts.length ++ (chunksOf [a]).flatten
  emitted : ∀ i, g'.written i = g.written i ++ emittedBy i a.log
  overwritten : ∀ e ∈ a.log, e.overwritten = []
  overrun : g'.decoder.overrun = overrunAfter g.decoder.overrun a.log
  guarded : Guarded g.decoder.overrun a.log
  wire : g'.decoder.overrun = none → g'.read 0 ++ g'.input = g.read 0 ++ g.input
  answers : Answers fs g g' a.result

section Push

variable {starts : List S} {fs : List (Bytes → Bytes)} {g : Flow S E}

def Flow.taken (g : Flow S E) (last : Nat) (p : Bytes) : Flow S E :=
  { g with decoder := (g.decoder.take last).1, read := Function.update g.read (last + 1) (g.read (last + 1) ++ p) }

theorem Tracks.taken {k : Nat} {p : Bytes} (h : Tracks m starts g) (hk : k + 1 = starts.length)
    (hp : g.decoder.windows[k]? = some p) : Tracks m starts (g.taken k p) := by
  refine ⟨h.stages, by simp [Flow.taken, take, h.windows], ?_, ?_⟩
  · intro i s₀ s hs₀ hs
    have hi := (List.getElem?_eq_some_iff.mp hs₀).1
    simp only [Flow.taken, Function.update_of_ne (show i ≠ k + 1 by omega)]
    exact h.fed hs₀ hs
  · intro i w hw
    simp only [Flow.taken, take, getElem?_set] at hw ⊢
    by_cases hi : i = k
    · subst hi
      obtain ⟨hlt, -⟩ := List.getElem?_eq_some_iff.mp hp
      rw [if_pos rfl, if_pos hlt] at hw
      cases hw
      rw [Function.update_self, h.flows hp, append_nil]
    · rw [if_neg (Ne.symm hi)] at hw
      rw [Function.update_of_ne (by omega)]
      exact h.flows hw

theorem weight_taken {k : Nat} (hk : k + 1 = fs.length) (p : Bytes) : weight fs (g.taken k p) = weight fs g := by
  refine congrArg toLex (funext fun i => ?_)
  have hi := i.isLt
  have hsource : (g.taken k p).decoder.source (g.taken k p).input i = g.decoder.source g.input i := by
    unfold source
    split
    · rfl
    · simp only [Flow.taken, take, getD_eq_getElem?_getD]
      rw [getElem?_set_ne (by omega)]
  unfold work
  rw [hsource]
  simp only [Flow.taken, Function.update_of_ne (show (i : ℕ) ≠ k + 1 by omega)]

variable {k : Nat} {g' : Flow S E} {log : List Ran}

theorem pushed_filled (hlen : fs.length = starts.length) (hk : k + 1 = starts.length) (herror : g'.decoder.error = none)
    (hdone : g'.decoder.done = false) (hmoved : Moved m starts g g' log) (hends : Ends fs k g g' (.ok true)) : ∃ g'',
    Pushed m starts fs g g'' (afterPull k ⟨g'.decoder, g'.input, .ok true, log⟩) := by
  obtain ⟨hlt, hover, p, hp, hpos, hcap⟩ := hends
  have htake : (g'.decoder.take k).2 = p := by
    rw [take, getD_eq_getElem?_getD, hp]
    rfl
  have hrests : Rests m starts fs (g'.taken k p) := by
    refine ⟨hmoved.tracks.taken hk hp, ?_, fun h => ?_, fun h => ?_⟩
    · intro i w hi hw
      obtain rfl : i = k := by omega
      obtain ⟨hlt', -⟩ := List.getElem?_eq_some_iff.mp hp
      simp only [Flow.taken, take, getElem?_set_self hlt', Option.some.injEq] at hw
      exact hw.symm
    · have hle := hover _ h
      omega
    · rw [show (g'.taken k p).decoder.done = g'.decoder.done from rfl, hdone] at h
      cases h
  refine ⟨g'.taken k p, rfl, rfl, fun _ => hrests, ?_, hmoved.emitted, hmoved.overwritten, hmoved.overrun,
    hmoved.guarded, fun _ => ?_, ?_⟩
  · have hread : g'.read (k + 1) = g.read (k + 1) := hk ▸ hmoved.returned
    simp only [← hk, Flow.taken, Function.update_self, afterPull, htake, chunksOf, hread]
    simp [Except.toOption]
  · rw [← hmoved.conserved]
    simp [Flow.taken]
  · simp only [afterPull, htake]
    refine ⟨hpos, hcap, herror, hdone, weight_pair_lt_left ?_ _ _⟩
    rw [weight_taken (by omega)]
    exact hlt

theorem pushed_dry (hk : k + 1 = starts.length) (herror : g'.decoder.error = none)
    (hdone : g'.decoder.done = false) (hmoved : Moved m starts g g' log) (hends : Ends fs k g g' (.ok false)) :
    ∃ g'', Pushed m starts fs g g'' (afterPull k ⟨g'.decoder, g'.input, .ok false, log⟩) := by
  obtain ⟨⟨j, hj, hat⟩, hexhausted⟩ := hends
  have hempty {i : Nat} {w : Bytes} (hi : i + 1 = starts.length) (hw : g'.decoder.windows[i]? = some w) : w = [] :=
    hat.empty (by omega) hw
  have hbound {o : Nat} (h : g'.decoder.overrun = some o) : o < starts.length := by
    have hle := hat.overrun h
    omega
  have hreturned : g'.read starts.length = g.read starts.length ++ [] := by
    rw [hmoved.returned, append_nil]
  cases hover : g'.decoder.overrun with
  | none =>
    obtain ⟨hinput, hsettled⟩ := hexhausted.wire hover
    have hafter : afterPull k ⟨g'.decoder, g'.input, .ok false, log⟩ = ⟨g'.decoder, g'.input, .ok none, log⟩ := by
      simp [afterPull, hover]
    have hrests : Rests m starts fs g' := ⟨hmoved.tracks, hempty, hbound, fun h => by rw [hdone] at h; cases h⟩
    rw [hafter]
    exact ⟨g', rfl, rfl, fun _ => hrests, hreturned, hmoved.emitted, hmoved.overwritten, hmoved.overrun,
      hmoved.guarded, fun _ => hmoved.conserved, hinput, herror, fun _ => ⟨hdone, hsettled⟩, fun h => absurd hover h⟩
  | some o =>
    let ended : Flow S E := { g' with decoder := { g'.decoder with done := true }, input := [] }
    have hafter : afterPull k ⟨g'.decoder, g'.input, .ok false, log⟩ = ⟨ended.decoder, [], .ok none, log⟩ := by
      simp [afterPull, hover, ended]
    have hrests : Rests m starts fs ended :=
      ⟨⟨hmoved.tracks.stages, hmoved.tracks.windows, hmoved.tracks.fed, hmoved.tracks.flows⟩, hempty, hbound,
        fun _ => ⟨o, hover, hexhausted.overrun hover⟩⟩
    have hsome : ended.decoder.overrun ≠ none := by
      rw [show ended.decoder.overrun = some o from hover]
      simp
    rw [hafter]
    exact ⟨ended, rfl, rfl, fun _ => hrests, hreturned, hmoved.emitted, hmoved.overwritten, hmoved.overrun,
      hmoved.guarded, fun h => absurd h hsome, rfl, herror, fun h => absurd h hsome, fun _ => rfl⟩

theorem pushed_done (h : Rests m starts fs g) (herror : g.decoder.error = none) (hdone : g.decoder.done) :
    Pushed m starts fs g { g with input := [] } ⟨g.decoder, [], .ok none, []⟩ := by
  obtain ⟨k, hover, hsettled⟩ := h.done hdone
  have hsome : g.decoder.overrun ≠ none := by simp [hover]
  exact ⟨rfl, rfl, fun _ => ⟨⟨h.tracks.stages, h.tracks.windows, h.tracks.fed, h.tracks.flows⟩, h.empty, h.overrun,
    fun _ => ⟨k, hover, hsettled⟩⟩, (append_nil _).symm, fun i => (append_nil _).symm, by simp, rfl, trivial,
    fun hnone => absurd hnone hsome, rfl, herror, fun hnone => absurd hnone hsome, fun _ => hdone⟩

theorem pushed_through (hlen : fs.length = 0) (hstarts : starts = []) (h : Rests m starts fs g)
    (herror : g.decoder.error = none) (hdone : g.decoder.done = false) (hinput : g.input ≠ []) :
    Pushed m starts fs g
      { g with input := g.input.drop outCap, read := Function.update g.read 0 (g.read 0 ++ g.input.take outCap) }
      ⟨g.decoder, g.input.drop outCap, .ok (some (g.input.take outCap)), []⟩ := by
  subst hstarts
  have hpos : 0 < g.input.length := length_pos_iff.mpr hinput
  have hwindows : g.decoder.windows = [] := length_eq_zero_iff.mp h.tracks.windows
  have hnone : g.decoder.overrun = none := Option.eq_none_iff_forall_not_mem.mpr fun k hk => by
    simpa using h.overrun hk
  refine ⟨rfl, rfl, fun _ => ⟨⟨h.tracks.stages, h.tracks.windows, fun hs₀ => by simp at hs₀, fun hw => by
    simp [hwindows] at hw⟩, h.empty, h.overrun, fun hd => by rw [hdone] at hd; cases hd⟩, ?_,
    fun i => (append_nil _).symm, by simp, rfl, trivial, fun _ => ?_, ?_⟩
  · simp [chunksOf, Except.toOption]
  · simp
  · refine ⟨?_, ?_, herror, hdone, ?_⟩
    · rw [length_take]
      exact Nat.lt_min.mpr ⟨by decide, hpos⟩
    · rw [length_take]
      exact Nat.min_le_left ..
    · refine Prod.Lex.toLex_lt_toLex.mpr (.inr ⟨funext fun i => absurd i.isLt (by omega), ?_⟩)
      show (g.input.drop outCap).length < g.input.length
      have hcap : 0 < outCap := by decide
      rw [length_drop]
      omega

theorem Rests.at (h : Rests m starts fs g) (hlen : fs.length = starts.length) (hk : k + 1 = starts.length) :
    At fs g k := by
  refine ⟨?_, ?_, fun hover => by have hlt := h.overrun hover; omega⟩
  · intro i w hi hw
    have hlt := (List.getElem?_eq_some_iff.mp hw).1
    rw [h.tracks.windows] at hlt
    exact h.empty (by omega) hw
  · intro i f hi hf
    have hlt := (List.getElem?_eq_some_iff.mp hf).1
    omega

/-- **One call** of a decoder that has not failed. -/
theorem push_spec (hfs : Forall₂ (Transduces m) starts fs) (h : Rests m starts fs g) (herror : g.decoder.error = none) :
    ∃ bound a g', (∀ fuel, bound ≤ fuel → g.decoder.push m fuel g.input = some a) ∧ Pushed m starts fs g g' a := by
  have hlen : fs.length = starts.length := hfs.length_eq.symm
  cases hdone : g.decoder.done with
  | true => exact ⟨0, _, _, fun fuel _ => by simp [push, herror, hdone], pushed_done h herror hdone⟩
  | false =>
    rcases Nat.eq_zero_or_pos starts.length with hzero | hpos
    · have hstages : g.decoder.stages.length = 0 := h.tracks.stages.trans hzero
      by_cases hinput : g.input = []
      · have hnone : g.decoder.overrun = none := Option.eq_none_iff_forall_not_mem.mpr fun k hk => by
          have hlt := h.overrun hk
          omega
        refine ⟨0, ⟨g.decoder, g.input, .ok none, []⟩, g, fun fuel _ => by simp [push, herror, hdone, hstages, hinput],
          rfl, rfl, fun _ => h, (append_nil _).symm, fun i => (append_nil _).symm, by simp, rfl, trivial,
          fun _ => rfl, hinput, herror, fun _ => ⟨hdone, ?_⟩, fun hsome => absurd hnone hsome⟩
        intro i f _ hf
        have hlt := (List.getElem?_eq_some_iff.mp hf).1
        omega
      · refine ⟨0, _, _, fun fuel _ => ?_, pushed_through (by omega) (length_eq_zero_iff.mp hzero) h herror hdone
          hinput⟩
        simp [push, herror, hdone, hstages, hinput]
    · obtain ⟨k, hk⟩ : ∃ k, k + 1 = starts.length := ⟨starts.length - 1, by omega⟩
      have hlast : g.decoder.stages.length - 1 = k := by rw [h.tracks.stages]; omega
      obtain ⟨w, hw⟩ : ∃ w, g.decoder.windows[k]? = some w :=
        ⟨_, getElem?_eq_getElem (by rw [h.tracks.windows]; omega)⟩
      obtain rfl := h.empty hk hw
      obtain ⟨bound, ⟨d, left, result, log⟩, g', hpull, hdecoder, hleft, hmoved, hends⟩ :=
        pull_spec hfs hk h.tracks (h.at hlen hk) le_rfl
      obtain rfl : d = g'.decoder := hdecoder
      obtain rfl : left = g'.input := hleft
      have hcall (fuel : Nat) (hfuel : bound ≤ fuel) :
          g.decoder.push m fuel g.input = some (afterPull k ⟨g'.decoder, g'.input, result, log⟩) := by
        have hne : ¬ g.decoder.stages.length = 0 := by rw [h.tracks.stages]; omega
        simp only [push, herror, hdone, if_neg hne, hlast, getD_eq_getElem?_getD, hw, Option.getD_some,
          isEmpty_nil, if_true, hpull fuel hfuel, Option.map_some, Bool.false_eq_true, if_false]
      have herror' := hmoved.error.trans herror
      have hdone' := hmoved.done.trans hdone
      match result, hends with
      | .ok true, hends =>
        obtain ⟨g'', hpushed⟩ := pushed_filled hlen hk herror' hdone' hmoved hends
        exact ⟨bound, _, g'', hcall, hpushed⟩
      | .ok false, hends =>
        obtain ⟨g'', hpushed⟩ := pushed_dry hk herror' hdone' hmoved hends
        exact ⟨bound, _, g'', hcall, hpushed⟩
      | .error fault, hends =>
        refine ⟨bound, _, { g' with decoder := { g'.decoder with error := some fault } }, hcall, rfl, rfl, nofun, ?_,
          hmoved.emitted, hmoved.overwritten, hmoved.overrun, hmoved.guarded, fun _ => hmoved.conserved, hends, rfl,
          hdone'⟩
        show g'.read starts.length = g.read starts.length ++ []
        rw [hmoved.returned, append_nil]

end Push

end Oam.Http.Decoder
