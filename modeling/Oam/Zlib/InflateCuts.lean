/-
  node:zlib's inflate streams do not depend on how input and output are cut.  Inside a body the stream may be BEHIND the
  ideal framer by the output it had no room for, and nowhere else (`Lag`); `Lib/Drive` then gives one verdict for every
  cut.
-/
import Oam.Lib.Drive
import Oam.Zlib.Stored

namespace Oam.Zlib

open Control List

/-! ## The ideal framer -/

/-- The framer that reads one byte at a time and writes at once. -/
inductive Ideal where
  | framing (control : Control) (out : Bytes)
  | body (control : Control) (primed fed base : Bytes)
  | failed (error : ZlibError) (out : Bytes)

namespace Ideal

def isComplete : Ideal → Bool
  | framing control _ => control.phase = .between || control.phase = .done
  | _ => false

def err : Ideal → Option ZlibError
  | failed e _ => some e
  | _ => none

/-- The framer after a header byte; a body starts with the window that the header primed. -/
def enter (control : Control) (dictionary : Option Bytes) (out : Bytes) : Ideal :=
  if control.phase = .body then .body control ((dictionary.map lastWindow).getD []) [] out
  else .framing control out

def frame (k : Checksums) (control : Control) (out : Bytes) (b : UInt8) : Ideal :=
  match control.headerByte k b with
  | (_, .error e) => .failed e out
  | (control, .ok dictionary) => enter control dictionary out

variable {C : Type} {m : Miniz C} (raw : m.Incremental) (k : Checksums)

def out : Ideal → Bytes
  | framing _ out => out
  | body _ d fed base => base ++ (raw.decode d fed).output
  | failed _ out => out

/-- A body that has been fed `u`, which decodes to the reading. -/
def afterFeeding (control : Control) (d base u : Bytes) : Reading → Ideal
  | ⟨_, .running⟩ => .body control d u base
  | ⟨output, .ended _⟩ => .framing (control.produce k output true) (base ++ output)
  | ⟨output, .failed tooFar⟩ =>
    .failed (.ofInflate (if tooFar then .tooFarBack else .invalid)) (base ++ output)

def inBody (control : Control) (d base u : Bytes) : Ideal :=
  afterFeeding k control d base u (raw.decode d u)

def absorb : Ideal → UInt8 → Ideal
  | failed e out, _ => .failed e out
  | body control d fed base, b => inBody raw k control d base (fed ++ [b])
  | framing control out, b =>
    match control.phase with
    | .done => .framing control out
    | .between =>
      if b = 0 then .framing { control with phase := .done } out else frame k control.nextMember out b
    | _ => frame k control out b

theorem out_enter (control : Control) (dictionary : Option Bytes) (o : Bytes) :
    (enter control dictionary o).out raw = o := by
  unfold enter
  split
  · simp [out, raw.decode_nil]
  · rfl

theorem out_frame (control : Control) (o : Bytes) (b : UInt8) : (frame k control o b).out raw = o := by
  unfold frame
  split
  · rfl
  · exact out_enter raw _ _ o

theorem out_inBody (control : Control) (d base u : Bytes) :
    (inBody raw k control d base u).out raw = base ++ (raw.decode d u).output := by
  unfold inBody
  cases hread : raw.decode d u with
  | mk output fate =>
    cases fate with
    | running => rw [afterFeeding, out, hread]
    | ended | failed => rfl

theorem out_absorb (i : Ideal) (b : UInt8) : i.out raw <+: (i.absorb raw k b).out raw := by
  cases i with
  | failed => exact prefix_rfl
  | body control d fed base =>
    rw [absorb, out_inBody, out]
    exact prefix_append_right_inj base |>.mpr (raw.decode_grows d fed [b])
  | framing =>
    simp only [absorb]
    split
    · exact prefix_rfl
    · split
      · exact prefix_rfl
      · rw [out_frame]
        exact prefix_rfl
    · rw [out_frame]
      exact prefix_rfl

/-- The ideal framer, byte by byte. -/
def transducer : Drive.Transducer Ideal UInt8 UInt8 ZlibError where
  absorb := absorb raw k
  out := out raw
  err := err
  out_grows := out_absorb raw k
  err_stays := by
    intro i b e h
    cases i with
    | failed => rfl
    | body | framing => cases h

theorem absorbAll_inBody (control : Control) (d base u v : Bytes)
    (hend : ∀ read, (raw.decode d (u ++ v)).fate = .ended read → read = (u ++ v).length) : (transducer raw k).absorbAll
    (inBody raw k control d base u) v = inBody raw k control d base (u ++ v) := by
  induction v generalizing u with
  | nil => rw [append_nil, Drive.Transducer.absorbAll_nil]
  | cons b v ih =>
    have hone : (transducer raw k).absorb (inBody raw k control d base u) b =
        inBody raw k control d base (u ++ [b]) := by
      show absorb raw k (inBody raw k control d base u) b = _
      cases hread : raw.decode d u with
      | mk output fate =>
        have hfate : (raw.decode d u).fate = fate := by rw [hread]
        cases fate with
        | running => rw [inBody, hread, afterFeeding, absorb]
        | ended read =>
          -- the end lies in `u`, but `hend` puts it behind `b`
          obtain ⟨_, hmore⟩ := raw.decode_ended d u (b :: v) read hfate
          have hlate := hend read (by rw [hmore, hfate])
          rw [length_append, length_cons] at hlate
          omega
        | failed tooFar =>
          rw [inBody, inBody, raw.decode_failed d u [b] tooFar hfate, hread]
          rfl
    rw [Drive.Transducer.absorbAll_cons, hone, ih (u ++ [b]) (by simpa using hend), append_assoc,
      singleton_append]

end Ideal

/-! ## The stream lags behind the ideal framer -/

def Phase.opening : Phase → Bool
  | head0 | head1 | dictId _ | gzCm | gzFlg | gzFixed _ | gzXlenLo | gzXlenHi | gzExtra _ | gzName
  | gzComment | gzHcrcLo | gzHcrcHi => true
  | _ => false

variable (c : Control)

theorem Control.afterComment_cases : c.afterComment.opening ∨ c.afterComment = .body := by
  unfold afterComment
  split
  · exact .inl rfl
  · exact .inr rfl

theorem Control.afterName_cases : c.afterName.opening ∨ c.afterName = .body := by
  unfold afterName
  split
  · exact .inl rfl
  · exact c.afterComment_cases

theorem Control.afterExtra_cases : c.afterExtra.opening ∨ c.afterExtra = .body := by
  unfold afterExtra
  split
  · exact .inl rfl
  · exact c.afterName_cases

theorem Control.afterStream_cases : c.afterStream = .between ∨ c.afterStream = .done := by
  unfold afterStream
  split
  · exact .inl rfl
  · exact .inr rfl

@[simp] theorem Control.coverByte_phase (b : UInt8) : (c.coverByte b).phase = c.phase := by
  unfold coverByte
  split <;> rfl

/-- Where an accepted header byte may lead. Only a body is primed. -/
structure HeaderMoves (before after : Phase) (dictionary : Option Bytes) : Prop where
  opening : before.opening = true → after.opening = true ∨ after = .body
  trailer : before.opening = false → after.opening = false ∧ after ≠ .body
  primed : after ≠ .body → dictionary = none

def Moves (before : Phase) (answer : Answer) : Prop :=
  ∀ after dictionary, answer = (after, .ok dictionary) → HeaderMoves before after.phase dictionary

namespace Moves

variable {before : Phase}

theorem fail (message : String) : Moves before (c.fail message) := by
  intro after dictionary h
  simp [Control.fail] at h

theorem opening {phase : Phase} (hbefore : before.opening)
    (hafter : phase.opening ∨ phase = .body) : Moves before (c.goto phase) := by
  intro after dictionary h
  simp only [goto, Prod.mk.injEq, Except.ok.injEq] at h
  obtain ⟨rfl, rfl⟩ := h
  exact ⟨fun _ => hafter, fun hnot => by simp [hbefore] at hnot, fun _ => rfl⟩

theorem trailer {phase : Phase} (hbefore : before.opening = false)
    (hafter : phase.opening = false) (hbody : phase ≠ .body) : Moves before (c.goto phase) := by
  intro after dictionary h
  simp only [goto, Prod.mk.injEq, Except.ok.injEq] at h
  obtain ⟨rfl, rfl⟩ := h
  exact ⟨fun hnot => by simp [hbefore] at hnot, fun _ => ⟨hafter, hbody⟩, fun _ => rfl⟩

theorem afterStream (c c' : Control) (hbefore : before.opening = false) : Moves before (c.goto c'.afterStream) := by
  rcases c'.afterStream_cases with h | h
  · exact trailer c hbefore (by rw [h]; rfl) (by rw [h]; decide)
  · exact trailer c hbefore (by rw [h]; rfl) (by rw [h]; decide)

theorem presetDictionary (k : Checksums) (c : Control) (hbefore : before.opening) :
    Moves before (c.presetDictionary k) := by
  intro after dictionary h
  unfold Control.presetDictionary at h
  split at h
  · simp at h
  simp only at h
  split at h
  · simp at h
  · simp only [Prod.mk.injEq, Except.ok.injEq] at h
    obtain ⟨rfl, rfl⟩ := h
    exact ⟨fun _ => .inr rfl, fun hnot => by simp [hbefore] at hnot, fun hnot => absurd rfl hnot⟩

theorem zlibHeader (cmf flg : UInt8) (hbefore : before.opening) : Moves before (c.zlibHeader cmf flg) := by
  unfold Control.zlibHeader
  split
  · exact fail c _
  split
  · exact fail c _
  split
  · exact fail c _
  split
  · exact opening c hbefore (.inl rfl)
  · exact opening _ hbefore (.inr rfl)

theorem zlibTrailerByte (seen : Nat) (b : UInt8) (hbefore : before.opening = false) :
    Moves before (c.zlibTrailerByte seen b) := by
  unfold Control.zlibTrailerByte
  simp only
  split
  · exact trailer _ hbefore rfl (by simp)
  split
  · exact fail _ _
  · exact afterStream _ _ hbefore

theorem gzTrailerByte (k : Checksums) (c : Control) (seen : Nat) (b : UInt8) (hbefore : before.opening = false) :
    Moves before (c.gzTrailerByte k seen b) := by
  unfold Control.gzTrailerByte
  simp only
  split
  · split
    · split
      · exact fail _ _
      · exact trailer _ hbefore rfl (by simp)
    split
    · split
      · exact fail _ _
      · exact afterStream _ _ hbefore
    · exact trailer _ hbefore rfl (by simp)
  · exact fail _ _

theorem phaseByte (k : Checksums) (c : Control) (b : UInt8) : Moves c.phase (c.phaseByte k b) := by
  cases hphase : c.phase <;> simp only [Control.phaseByte, hphase]
  case head0 | gzCm | gzXlenLo | gzHcrcLo => exact opening _ rfl (.inl rfl)
  case head1 =>
    split
    · exact opening _ rfl (.inl rfl)
    · split
      · exact fail c _
      · exact zlibHeader c _ _ rfl
  case dictId seen =>
    split
    · exact opening _ rfl (.inl rfl)
    · exact presetDictionary k _ rfl
  case gzFlg =>
    split
    · exact fail c _
    · split
      · exact fail c _
      · exact opening _ rfl (.inl rfl)
  case gzFixed left =>
    split
    · exact opening _ rfl (.inl rfl)
    · split
      · exact opening _ rfl (.inl rfl)
      · exact opening _ rfl c.afterExtra_cases
  case gzXlenHi =>
    split
    · exact opening _ rfl (afterExtra_cases _)
    · exact opening _ rfl (.inl rfl)
  case gzExtra left =>
    split
    · exact opening _ rfl (.inl rfl)
    · exact opening _ rfl c.afterExtra_cases
  case gzName =>
    split
    · exact opening _ rfl (.inl rfl)
    · exact opening _ rfl c.afterName_cases
  case gzComment =>
    split
    · exact opening _ rfl (.inl rfl)
    · exact opening _ rfl c.afterComment_cases
  case gzHcrcHi =>
    split
    · exact fail c _
    · exact opening _ rfl (.inr rfl)
  case zlibTrailer seen => exact zlibTrailerByte c seen b rfl
  case gzTrailer seen => exact gzTrailerByte k c seen b rfl
  case body | between | done => exact fail c _

end Moves

open Zlib.Ideal

open Inflater

section Lagging

variable {C : Type} {m : Miniz C} (raw : m.Incremental) (k : Checksums)

/-- `Lag n i out`: the stream `n`, which has written `out`, has read what took the ideal framer to `i`. -/
inductive Lag : NodeInflate C → Ideal → Bytes → Prop
  | framing {n : NodeInflate C} {out : Bytes} (hphase : n.control.phase ≠ .body)
      (hraw : n.inflate.zlib = false)
      (hfresh : n.control.phase.opening = true → n.inflate = new m false) :
      Lag n (.framing n.control out) out
  | body {control : Control} {i : Inflater C} {d u out base : Bytes} (hphase : control.phase = .body)
      (hbody : InBody raw i d u out) :
      Lag ⟨{ control with check := control.check.update k out }, i⟩
        (inBody raw k control d base u) (base ++ out)

variable {b : UInt8}

/-- The stream is told apart from the ideal framer by nothing that a caller sees. -/
def Settled (n : NodeInflate C) (i : Ideal) : Prop := n.isComplete = i.isComplete

theorem Check.update_nil (check : Check) : check.update k [] = check := by
  cases check with
  | none => rfl
  | adler => rw [Check.update, k.adler32_nil]
  | crc => rw [Check.update, append_nil]

theorem Check.update_append (check : Check) (first second : Bytes) :
    (check.update k first).update k second = check.update k (first ++ second) := by
  cases check with
  | none => rfl
  | adler => rw [Check.update, Check.update, Check.update, k.adler32_append]
  | crc => rw [Check.update, Check.update, Check.update, append_assoc]

theorem InBody.start {i : Inflater C} {d : Bytes} (hcore : i.core = m.init) (hhist : i.hist = d)
    (hraw : i.zlib = false) : InBody raw i d [] [] := by
  refine ⟨?_, ?_, hraw, ?_⟩
  · rw [hcore]
    exact raw.rep_init d
  · rw [hhist, append_nil]
    exact .refl d
  · intro read h
    rw [raw.decode_nil] at h
    cases h

variable {control : Control}

theorem Lag.start {i : Inflater C} {d base : Bytes} (hphase : control.phase = .body)
    (hbody : InBody raw i d [] []) : Lag raw k ⟨control, i⟩ (.body control d [] base) base := by
  have h : Lag raw k _ _ (base ++ []) := Lag.body hphase hbody
  rw [Check.update_nil, inBody, raw.decode_nil, append_nil] at h
  exact h

theorem Lag.emitted {n : NodeInflate C} {i : Ideal} {out : Bytes} (h : Lag raw k n i out) : out <+: i.out raw := by
  cases h with
  | framing => exact prefix_rfl
  | body hphase hbody =>
    rw [out_inBody]
    exact (prefix_append_right_inj _).mpr (raw.rep_out hbody.rep)

/-! ### One header byte -/

theorem Ideal.absorb_reading {out : Bytes} (h : control.phase.reading) :
    absorb raw k (.framing control out) b = frame k control out b := by
  unfold absorb
  cases hphase : control.phase <;> simp_all [Phase.reading]

theorem frame_of_error {n n' : NodeInflate C} {e : ZlibError} (h : n.headerByte k b = (n', .error e))
    (out : Bytes) : frame k n.control out b = .failed e out := by
  unfold NodeInflate.headerByte at h
  unfold frame
  generalize n.control.headerByte k b = answer at h
  obtain ⟨_, _ | _ | _⟩ := answer <;> simp at h
  simp [h.2]

theorem lag_of_headerByte {n n' : NodeInflate C} (hraw : n.inflate.zlib = false)
    (hfresh : n.control.phase.opening → n.inflate = new m false) (h : n.headerByte k b = (n', .ok ()))
    (out : Bytes) : Lag raw k n' (frame k n.control out b) out := by
  unfold NodeInflate.headerByte at h
  unfold frame
  cases hanswer : n.control.headerByte k b with
  | mk control verdict =>
    rw [hanswer] at h
    cases verdict with
    | error => simp at h
    | ok dictionary =>
      have hmoves := Moves.phaseByte k (n.control.coverByte b) b control dictionary hanswer
      rw [n.control.coverByte_phase b] at hmoves
      by_cases hbody : control.phase = .body
      · have hopening : n.control.phase.opening := by
          by_contra hnot
          exact (hmoves.trailer (by simpa using hnot)).2 hbody
        simp only [enter, if_pos hbody]
        have hnew := hfresh hopening
        cases dictionary with
        | none =>
          obtain rfl : _ = n' := congrArg Prod.fst h
          exact Lag.start raw k hbody (InBody.start raw (by rw [hnew]; rfl) (by rw [hnew]; rfl) hraw)
        | some dictionary =>
          obtain rfl : _ = n' := congrArg Prod.fst h
          rw [Option.map_some, Option.getD_some]
          refine Lag.start raw k hbody (InBody.start raw ?_ (n.inflate.prime_hist dictionary) ?_)
          · rw [n.inflate.prime_core, hnew]
            rfl
          · rw [n.inflate.prime_zlib, hraw]
      · have hnone := hmoves.primed hbody
        subst hnone
        obtain rfl : _ = n' := congrArg Prod.fst h
        simp only [enter, if_neg hbody]
        refine Lag.framing hbody hraw fun hopening => hfresh ?_
        by_contra hnot
        have hclosed := (hmoves.trailer (by simpa using hnot)).1
        rw [hopening] at hclosed
        cases hclosed

/-! ### The loop -/

/-- What the loop may answer with `rest` in front of it and `consumed` bytes behind it. -/
inductive LoopAnswers (i : Ideal) (out rest : Bytes) (consumed : Nat) :
    NodeInflate C × Except ZlibError (Nat × Bytes) → Prop
  | ok {n : NodeInflate C} {j : Nat} {p : Bytes} (hj : j ≤ rest.length)
      (hlag : Lag raw k n ((transducer raw k).absorbAll i (rest.take j)) (out ++ p))
      (hstill : j = 0 → p = [] → rest = [] ∧ out = i.out raw ∧ i.err = none ∧ Settled n i) :
      LoopAnswers i out rest consumed (n, .ok (consumed + j, p))
  | error {n : NodeInflate C} {e : ZlibError}
      (herr : ((transducer raw k).absorbAll i rest).err = some e) :
      LoopAnswers i out rest consumed (n, .error e)

theorem LoopAnswers.after {i : Ideal} {out rest : Bytes} {consumed n : Nat}
    {r : NodeInflate C × Except ZlibError (Nat × Bytes)} (hn : n ≤ rest.length)
    (h : LoopAnswers raw k ((transducer raw k).absorbAll i (rest.take n)) out (rest.drop n)
      (consumed + n) r) : LoopAnswers raw k i out rest consumed r := by
  cases h with
  | error herr =>
    rw [Drive.Transducer.absorbAll_take_drop] at herr
    exact .error herr
  | ok hj hlag hstill =>
    rename_i n' j p
    rw [length_drop] at hj
    have htake : rest.take n ++ (rest.drop n).take j = rest.take (n + j) := take_add.symm
    rw [← Drive.Transducer.absorbAll_append, htake] at hlag
    rw [Nat.add_assoc]
    refine .ok (by omega) hlag fun hzero hp => ?_
    obtain ⟨rfl, rfl⟩ : n = 0 ∧ j = 0 := by omega
    simpa using hstill rfl hp

theorem getElem?_eq_none_drop {src : Bytes} {consumed : Nat} (h : src[consumed]? = none) : src.drop consumed = [] := by
  rw [List.getElem?_eq_none_iff] at h
  exact drop_eq_nil_iff.mpr h

theorem getElem?_eq_some_drop {src : Bytes} {consumed : Nat} (h : src[consumed]? = some b) :
    consumed < src.length ∧ src.drop consumed = b :: src.drop (consumed + 1) := by
  obtain ⟨hlt, rfl⟩ := List.getElem?_eq_some_iff.mp h
  exact ⟨hlt, drop_eq_getElem_cons hlt⟩

theorem absorbAll_done (h : control.phase = .done) (out rest : Bytes) :
    (transducer raw k).absorbAll (.framing control out) rest = .framing control out := by
  induction rest with
  | nil => rfl
  | cons b rest ih =>
    have hone : (transducer raw k).absorb (.framing control out) b = .framing control out := by
      show absorb raw k (.framing control out) b = _
      simp only [absorb, h]
    rw [Drive.Transducer.absorbAll_cons, hone, ih]

section Iteration

variable {src : Bytes} {dst fuel consumed : Nat} {n : NodeInflate C} {i : Ideal} {out : Bytes}

/-- What the loop does with less fuel than `fuel`. -/
def LoopSpec (src : Bytes) (dst fuel : Nat) : Prop :=
  ∀ {n : NodeInflate C} {i : Ideal} {out : Bytes} {consumed : Nat}, Lag raw k n i out →
    consumed ≤ src.length → 2 * (src.length - consumed) + n.control.phase.rank < fuel →
    LoopAnswers raw k i out (src.drop consumed) consumed (n.stepLoop m k src dst fuel consumed)

/-- An iteration that reads a byte. The ideal framer may be one step behind. -/
theorem stepLoop_byte {b : UInt8} (ih : LoopSpec raw k src dst fuel) (hreading : n.control.phase.reading)
    (hraw : n.inflate.zlib = false) (hfresh : n.control.phase.opening → n.inflate = new m false)
    (hi : absorb raw k i b = frame k n.control out b) (hb : src[consumed]? = some b)
    (hfuel : 2 * (src.length - consumed) ≤ fuel) : LoopAnswers raw k i out (src.drop consumed) consumed
    (n.stepLoop m k src dst (fuel + 1) consumed) := by
  obtain ⟨_, hrest⟩ := getElem?_eq_some_drop hb
  have hone : (transducer raw k).absorbAll i ((src.drop consumed).take 1) = frame k n.control out b := by
    rw [hrest]
    exact hi
  cases hbyte : n.headerByte k b with
  | mk n' verdict =>
    cases verdict with
    | error =>
      rw [NodeInflate.stepLoop_refused m k hreading hb hbyte]
      refine .error ?_
      rw [← Drive.Transducer.absorbAll_take_drop _ i 1, hone, frame_of_error k hbyte,
        Drive.Transducer.absorbAll_of_err _ rfl]
      rfl
    | ok =>
      rw [NodeInflate.stepLoop_read m k hreading hb hbyte]
      have hrank := NodeInflate.rank_le_one n'.control.phase
      refine LoopAnswers.after raw k (n := 1) (by rw [length_drop]; omega) ?_
      rw [hone, drop_drop]
      exact ih (lag_of_headerByte raw k hraw hfresh hbyte out) (by omega) (by omega)

theorem stepLoop_done (h : n.control.phase = .done) (hraw : n.inflate.zlib = false) (hconsumed : consumed ≤ src.length)
    (hi : src.drop consumed = [] ∧ i = .framing n.control out ∨
      ∃ b rest, src.drop consumed = b :: rest ∧ absorb raw k i b = .framing n.control out) :
    LoopAnswers raw k i out (src.drop consumed) consumed
      (n.stepLoop m k src dst (fuel + 1) consumed) := by
  have hlag : Lag raw k n (.framing n.control out) out :=
    .framing (by simp [h]) hraw fun hopening => by rw [h] at hopening; cases hopening
  have hall : src.length = consumed + (src.drop consumed).length := by
    rw [length_drop]
    omega
  rw [NodeInflate.stepLoop_over m k h, hall]
  rcases hi with ⟨hnil, rfl⟩ | ⟨b, rest, hrest, hi⟩
  · refine .ok (Nat.le_refl _) ?_ fun _ _ => ⟨hnil, rfl, rfl, rfl⟩
    rw [hnil]
    simpa using hlag
  · refine .ok (Nat.le_refl _) ?_ fun hzero => by simp [hrest] at hzero
    rw [take_length, hrest, Drive.Transducer.absorbAll_cons]
    show Lag raw k n ((transducer raw k).absorbAll (absorb raw k i b) rest) (out ++ [])
    rw [hi, absorbAll_done raw k h, append_nil]
    exact hlag

theorem stepLoop_between (ih : ∀ less, less < fuel → LoopSpec raw k src dst less) (h : n.control.phase = .between)
    (hraw : n.inflate.zlib = false) (hconsumed : consumed ≤ src.length) (hfuel : 2 * (src.length - consumed) < fuel) :
    LoopAnswers raw k (.framing n.control out) out (src.drop consumed) consumed
    (n.stepLoop m k src dst (fuel + 1) consumed) := by
  obtain _ | fuel := fuel
  · omega
  cases hb : src[consumed]? with
  | none =>
    rw [NodeInflate.stepLoop_paused m k h hb]
    refine LoopAnswers.ok (j := 0) (Nat.zero_le _) ?_ fun _ _ => ⟨getElem?_eq_none_drop hb, rfl, rfl, rfl⟩
    rw [append_nil]
    exact .framing (by simp [h]) hraw fun hopening => by rw [h] at hopening; cases hopening
  | some b =>
    obtain ⟨_, hrest⟩ := getElem?_eq_some_drop hb
    by_cases hzero : b = 0
    · subst hzero
      rw [NodeInflate.stepLoop_padding m k h hb]
      refine stepLoop_done raw k rfl hraw hconsumed (.inr ⟨0, _, hrest, ?_⟩)
      simp [absorb, h]
    · rw [NodeInflate.stepLoop_next m k h hb hzero]
      refine stepLoop_byte raw k (ih fuel (by omega)) rfl hraw (fun _ => ?_) ?_ hb (by omega)
      · show n.inflate.reset m = new m false
        rw [reset, new, hraw]
      · simp [absorb, h, hzero]

theorem produce_update (control : Control) (first second : Bytes) (ended : Bool) :
    ({ control with check := control.check.update k first }).produce k second ended =
      control.produce k (first ++ second) ended := by
  simp only [produce, Check.update_append, afterBody]

theorem stepLoop_body {control : Control} {inflate : Inflater C} {d u base : Bytes}
    (ih : LoopSpec raw k src dst fuel) (hdst : 0 < dst) (hphase : control.phase = .body)
    (hbody : InBody raw inflate d u out) (hconsumed : consumed ≤ src.length)
    (hfuel : 2 * (src.length - consumed) < fuel) :
    LoopAnswers raw k (inBody raw k control d base u) (base ++ out) (src.drop consumed) consumed
      (NodeInflate.stepLoop m k src dst (fuel + 1)
        ⟨{ control with check := control.check.update k out }, inflate⟩ consumed) := by
  -- what the ideal framer makes of the bytes this step read
  have hfed (v : Bytes) (hend : ∀ read, (raw.decode d (u ++ v)).fate = .ended read → read = (u ++ v).length) :
      (transducer raw k).absorbAll (inBody raw k control d base u) v =
        inBody raw k control d base (u ++ v) := absorbAll_inBody raw k control d base u v hend
  have hspec := step_spec raw hbody (src.drop consumed) hdst
  generalize hanswer : inflate.step m (src.drop consumed) dst = answer at hspec
  cases hspec with
  | drained hbody' hdecode =>
    rw [NodeInflate.stepLoop_wrote m k hphase hanswer (.inr rfl), produce_update]
    refine .ok (Nat.le_refl _) ?_ fun hzero hp => ?_
    · rw [take_length, hfed _ hbody'.notPast, append_assoc]
      exact Lag.body hphase hbody'
    · subst hp
      have hnil := length_eq_zero_iff.mp hzero
      rw [hnil, append_nil, append_nil] at hdecode
      refine ⟨hnil, ?_, ?_, ?_⟩
      · rw [out_inBody, hdecode]
      · rw [inBody, hdecode]
        rfl
      · rw [Settled, inBody, hdecode]
        simp [NodeInflate.isComplete, afterFeeding, isComplete, produce, hphase]
  | full hn hp hbody' =>
    rw [NodeInflate.stepLoop_wrote m k hphase hanswer (.inr rfl), produce_update]
    refine .ok hn ?_ fun _ hp' => absurd hp' hp
    rw [hfed _ hbody'.notPast, append_assoc]
    exact Lag.body hphase hbody'
  | ended hn hraw hdecode =>
    rename_i inflate' used p
    have hread : (transducer raw k).absorbAll (inBody raw k control d base u)
        ((src.drop consumed).take used) = .framing (control.produce k (out ++ p) true) (base ++ (out ++ p)) := by
      rw [hfed _ (by rw [hdecode]; intro read h; cases h; rfl), inBody, hdecode]
      rfl
    obtain ⟨hnot, hclosed, hrank⟩ : (control.produce k (out ++ p) true).phase ≠ .body ∧
        (control.produce k (out ++ p) true).phase.opening = false ∧ (control.produce k (out ++ p) true).phase.rank = 0 := by
      simp only [produce, if_true, afterBody]
      cases control.check <;> exact ⟨by simp [Check.update], rfl, rfl⟩
    have hlag : Lag raw k ⟨control.produce k (out ++ p) true, inflate'⟩
        (.framing (control.produce k (out ++ p) true) (base ++ (out ++ p))) (base ++ (out ++ p)) :=
      .framing hnot hraw fun h => by simp [hclosed] at h
    by_cases hp : p = []
    · subst hp
      rw [NodeInflate.stepLoop_ended m k hphase hanswer, produce_update]
      refine LoopAnswers.after raw k hn ?_
      rw [hread, drop_drop]
      rw [length_drop] at hn
      rw [append_nil] at hlag hrank ⊢
      exact ih hlag (by omega) (by show 2 * _ + (control.produce k out true).phase.rank < fuel; omega)
    · rw [NodeInflate.stepLoop_wrote m k hphase hanswer (.inl (length_pos_iff.mpr hp)), produce_update]
      refine .ok hn ?_ fun _ hp' => absurd hp' hp
      rw [hread, append_assoc]
      exact hlag
  | failed hfate =>
    rw [NodeInflate.stepLoop_failed m k hphase hanswer]
    refine .error ?_
    rw [hfed _ (by simp [hfate]), inBody]
    generalize raw.decode d (u ++ src.drop consumed) = reading at hfate
    obtain ⟨_, fate⟩ := reading
    obtain rfl : fate = _ := hfate
    rfl

/-- **The loop's specification**, by induction on its fuel: every iteration reads a byte or lowers the
    rank of the phase. -/
theorem stepLoop_spec (hdst : 0 < dst) (fuel : Nat) : LoopSpec raw k src dst fuel := by
  induction fuel using Nat.strong_induction_on with
  | _ fuel ih =>
    intro n i out consumed hlag hconsumed hfuel
    obtain _ | fuel := fuel
    · omega
    cases hlag with
    | body hphase hbody =>
      have hrank : Phase.rank .body = 1 := rfl
      simp only [hphase] at hfuel
      exact stepLoop_body raw k (ih fuel (by omega)) hdst hphase hbody hconsumed (by omega)
    | framing hphase hraw hfresh =>
      by_cases hreading : n.control.phase.reading
      · cases hb : src[consumed]? with
        | none =>
          rw [NodeInflate.stepLoop_starved m k hreading hb]
          refine LoopAnswers.ok (j := 0) (Nat.zero_le _) ?_ fun _ _ => ⟨getElem?_eq_none_drop hb, rfl, rfl, rfl⟩
          rw [append_nil]
          exact .framing hphase hraw hfresh
        | some =>
          exact stepLoop_byte raw k (ih fuel (by omega)) hreading hraw hfresh
            (absorb_reading raw k hreading) hb (by omega)
      · cases hat : n.control.phase with
        | body => exact absurd hat hphase
        | between =>
          rw [hat] at hfuel
          have hrank : Phase.rank .between = 1 := rfl
          exact stepLoop_between raw k (fun less hless => ih less (by omega)) hat hraw hconsumed (by omega)
        | done =>
          refine stepLoop_done raw k hat hraw hconsumed ?_
          cases hrest : src.drop consumed with
          | nil => exact .inl ⟨rfl, rfl⟩
          | cons b rest => exact .inr ⟨b, rest, rfl, by simp only [absorb, hat]⟩
        | _ => simp [hat, Phase.reading] at hreading

end Iteration

end Lagging

/-! ## Every cut gives the same verdict -/

namespace NodeInflate

variable {C : Type} (m : Miniz C) (k : Checksums)

/-- One call of `step`, as a caller sees it. -/
def call : Drive.Machine (NodeInflate C) UInt8 UInt8 ZlibError := fun n src room =>
  match n.step m k src room with
  | (n, .ok (consumed, produced)) => .ok (n, consumed, produced)
  | (_, .error e) => .error e

/-- The chunks are fed one after the other, each with calls of `room n` bytes until one returns `(0, 0)`. -/
def run (wrap : Wrap) (dictionary : Option Bytes) (room : Nat → Nat) (fuel : Nat) (chunks : List Bytes) :
    Option (Drive.Outcome (NodeInflate C) UInt8 UInt8 ZlibError) :=
  Drive.feedAll (call m k) room fuel 0 (withDictionary m wrap dictionary) chunks []

variable {m} (raw : m.Incremental)

theorem step_spec {n : NodeInflate C} {i : Ideal} {out : Bytes} {dst : Nat} (src : Bytes)
    (hlag : Lag raw k n i out) (hdst : 0 < dst) : LoopAnswers raw k i out src 0 (n.step m k src dst) := by
  have hrank := rank_le_one n.control.phase
  have hspec : LoopAnswers raw k i out (src.drop 0) 0 _ :=
    stepLoop_spec raw k hdst (2 * src.length + 2) hlag (Nat.zero_le _) (by omega)
  exact hspec

theorem call_follows : Drive.Follows (call m k) (transducer raw k) (Lag raw k) Settled where
  emitted := Lag.emitted raw k
  ok := by
    intro n i out src room n' consumed p hlag hroom hcall
    have hspec := step_spec k raw src hlag hroom
    unfold call at hcall
    generalize n.step m k src room = answer at hspec hcall
    cases hspec with
    | error => simp at hcall
    | ok hj hlag' hstill =>
      rw [Nat.zero_add] at hcall
      simp only [Except.ok.injEq, Prod.mk.injEq] at hcall
      obtain ⟨rfl, rfl, rfl⟩ := hcall
      exact ⟨hj, hlag', hstill⟩
  error := by
    intro n i out src room e hlag hroom hcall
    have hspec := step_spec k raw src hlag hroom
    unfold call at hcall
    generalize n.step m k src room = answer at hspec hcall
    cases hspec with
    | ok => simp at hcall
    | error herr =>
      simp only [Except.error.injEq] at hcall
      rw [← hcall]
      exact herr

def idealStart (m : Miniz C) (wrap : Wrap) (dictionary : Option Bytes) : Ideal :=
  enter (withDictionary m wrap dictionary).control
    (if wrap = .raw then dictionary.filter fun d => !d.isEmpty else none) []

theorem start_lag (wrap : Wrap) (dictionary : Option Bytes) :
    Lag raw k (withDictionary m wrap dictionary) (idealStart m wrap dictionary) [] := by
  unfold idealStart
  cases wrap with
  | raw =>
    have hbody : (withDictionary m .raw dictionary).control.phase = .body := rfl
    simp only [enter, if_pos hbody, if_true]
    rcases dictionary with _ | _ | ⟨b, d⟩
    · exact Lag.start raw k hbody (InBody.start raw rfl rfl rfl)
    · exact Lag.start raw k hbody (InBody.start raw rfl rfl rfl)
    · have hkept : (some (b :: d)).filter (fun d => !d.isEmpty) = some (b :: d) := rfl
      rw [hkept, Option.map_some, Option.getD_some]
      refine Lag.start raw k hbody (InBody.start raw ?_ ?_ ?_)
      · exact prime_core (new m false) (b :: d)
      · exact prime_hist (new m false) (b :: d)
      · exact prime_zlib (new m false) (b :: d)
  | gzip | zlib | auto => exact Lag.framing (by simp [withDictionary]) rfl fun _ => rfl

theorem run_verdict (wrap : Wrap) (dictionary : Option Bytes) {room : Nat → Nat} (hroom : ∀ call, 0 < room call)
    {chunks : List Bytes} {input : Bytes} (hinput : chunks.flatten = input) {fuel : Nat}
    (hfuel : input.length + (((transducer raw k).absorbAll (idealStart m wrap dictionary) input).out
      raw).length < fuel) :
    ∃ r, run m k wrap dictionary room fuel chunks = some r ∧ Drive.Verdict (transducer raw k) (Lag raw k) Settled
        ((transducer raw k).absorbAll (idealStart m wrap dictionary) input) r := by
  have hout : (transducer raw k).out (idealStart m wrap dictionary) = [] := out_enter raw _ _ _
  have herr : (idealStart m wrap dictionary).err = none := by cases wrap <;> rfl
  have hsettled : Settled (withDictionary m wrap dictionary) (idealStart m wrap dictionary) := by cases wrap <;> rfl
  have hlag := start_lag k raw wrap dictionary
  rw [← hout] at hlag
  subst hinput
  have hrun := (call_follows k raw).feedAll_verdict hroom 0 hlag herr hsettled hfuel
  rw [hout] at hrun
  exact hrun

/-- **The cuts do not matter.** Two runs over the same input, however cut, both end, and they agree. -/
theorem runs_agree (raw : m.Incremental) (wrap : Wrap) (dictionary : Option Bytes) {room room' : Nat → Nat}
    (hroom : ∀ call, 0 < room call) (hroom' : ∀ call, 0 < room' call) {chunks chunks' : List Bytes}
    (hsame : chunks.flatten = chunks'.flatten) : ∃ bound, ∀ fuel, bound ≤ fuel → ∃ r r',
    run m k wrap dictionary room fuel chunks = some r ∧ run m k wrap dictionary room' fuel chunks' = some r' ∧
    r.Agrees isComplete r' := by
  refine ⟨chunks'.flatten.length + (((transducer raw k).absorbAll (idealStart m wrap dictionary)
    chunks'.flatten).out raw).length + 1, fun fuel hfuel => ?_⟩
  obtain ⟨r, hr, hverdict⟩ := run_verdict k raw wrap dictionary hroom hsame hfuel
  obtain ⟨r', hr', hverdict'⟩ := run_verdict k raw wrap dictionary hroom' rfl hfuel
  exact ⟨r, r', hr, hr', hverdict.agrees (fun n n' h h' => h.trans h'.symm) hverdict'⟩

/-- The gzip of one byte `a`, at level 0. -/
def gzipOfA : Bytes :=
  [0x1f, 0x8b, 8, 0, 0, 0, 0, 0, 4, 255, 1, 1, 0, 0xfe, 0xff, 0x61, 0x43, 0xbe, 0xb7, 0xe8, 1, 0, 0, 0]

/-- The stream at once with 16 KiB of room, and byte by byte with one byte of room. -/
theorem runs_agree_gzip : [gzipOfA].flatten = (gzipOfA.map fun b => [b]).flatten ∧ ∃ bound, ∀ fuel, bound ≤ fuel →
    ∃ r r', run Stored.miniz .standard .gzip none (fun _ => stepOut) fuel [gzipOfA] = some r ∧
    run Stored.miniz .standard .gzip none (fun _ => 1) fuel (gzipOfA.map fun b => [b]) = some r' ∧
    r.Agrees isComplete r' :=
  ⟨by decide, runs_agree .standard Stored.incremental .gzip none (fun _ => by decide) (fun _ => by decide)
    (by decide)⟩

end NodeInflate

end Oam.Zlib
