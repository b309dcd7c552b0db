/-
  fetch's gzip decoder and node:zlib's gunzip are the same machine.

  `GzipStage` (`oam_core/src/http_client/decode.rs`) and `NodeInflate` for gzip are two framers written apart: one lists
  the bytes that the header's CRC covers, the other those it does not, and they start a new member in different ways.
  Nothing is assumed of miniz but that it is a FUNCTION of what it is given.
-/
import Oam.Zlib.Inflate

namespace Oam.Http

open Zlib.NodeInflate Oam.Zlib

/-! ## The stage -/

def outCap : Nat := 16 * 1024

/-- `DecodeError::zlib`, by its message. -/
structure DecodeError where
  message : String
  deriving DecidableEq

/-- Where in the gzip frame the reader is. -/
inductive Gz where
  | id1
  | id2
  | cm
  | flg
  | fixed (left : Nat)
  | xlenLo
  | xlenHi
  | extra (left : UInt16)
  | name
  | comment
  | hcrcLo
  | hcrcHi
  | body
  | trailer (seen : Nat)
  | between
  | ignore
  deriving DecidableEq

def ftextReserved : UInt8 := 0xe0
def fhcrc : UInt8 := 0x02
def fextra : UInt8 := 0x04
def fname : UInt8 := 0x08
def fcomment : UInt8 := 0x10

/-- `gz` is the source's `at`; the CRCs are given by the bytes they have seen. -/
structure GzipStage (C : Type) where
  gz : Gz
  inflate : Inflater C
  crc : Bytes
  headerCrc : Bytes
  held : UInt8
  flags : UInt8
  xlen : UInt16
  trailer : Bytes

namespace GzipStage

variable {C : Type} (m : Miniz C) (k : Checksums)

def new : GzipStage C :=
  { gz := .id1, inflate := Inflater.new m false, crc := [], headerCrc := [], held := 0, flags := 0, xlen := 0,
    trailer := List.replicate 8 0 }

def nextMember (g : GzipStage C) : GzipStage C :=
  { g with gz := .id1, inflate := g.inflate.reset m, crc := [], headerCrc := [] }

def afterComment (g : GzipStage C) : Gz := if hasFlag g.flags fhcrc then .hcrcLo else .body

def afterName (g : GzipStage C) : Gz := if hasFlag g.flags fcomment then .comment else g.afterComment

def afterExtra (g : GzipStage C) : Gz := if hasFlag g.flags fname then .name else g.afterName

abbrev Answer (C : Type) := GzipStage C × Except DecodeError Unit

def goto (g : GzipStage C) (gz : Gz) : Answer C := ({ g with gz }, .ok ())

def fail (g : GzipStage C) (message : String) : Answer C := (g, .error ⟨message⟩)

/-- The header's CRC covers every byte but its own and the trailer's. -/
def coverByte (g : GzipStage C) (b : UInt8) : GzipStage C :=
  match g.gz with
  | .hcrcLo | .hcrcHi | .trailer _ => g
  | _ => { g with headerCrc := g.headerCrc ++ [b] }

def trailerByte (g : GzipStage C) (seen : Nat) (b : UInt8) : Answer C :=
  let g := { g with trailer := g.trailer.set seen b }
  if seen + 1 = 4 then
    if Bytes.u32OfLe (g.trailer.take 4) ≠ k.crc32 g.crc then g.fail "incorrect data check"
    else g.goto (.trailer 4)
  else if seen + 1 = 8 then
    if Bytes.u32OfLe (g.trailer.drop 4) ≠ crcAmount g.crc then g.fail "incorrect length check"
    else g.goto .between
  else g.goto (.trailer (seen + 1))

/-- The `match` of `byte`.  The last three states are its `unreachable!`. -/
def gzByte (g : GzipStage C) (b : UInt8) : Answer C :=
  match g.gz with
  | .id1 => { g with held := b }.goto .id2
  | .id2 => if g.held ≠ 0x1f ∨ b ≠ 0x8b then g.fail "incorrect header check" else g.goto .cm
  | .cm => { g with held := b }.goto .flg
  | .flg =>
    if g.held ≠ 8 then g.fail "unknown compression method"
    else if hasFlag b ftextReserved then g.fail "unknown header flags set"
    else { g with flags := b }.goto (.fixed 6)
  | .fixed left =>
    if left > 1 then g.goto (.fixed (left - 1))
    else if hasFlag g.flags fextra then g.goto .xlenLo
    else g.goto g.afterExtra
  | .xlenLo => { g with xlen := b.toUInt16 }.goto .xlenHi
  | .xlenHi =>
    let g : GzipStage C := { g with xlen := g.xlen ||| b.toUInt16 <<< 8 }
    if g.xlen = 0 then g.goto g.afterExtra else g.goto (.extra g.xlen)
  | .extra left => if left > 1 then g.goto (.extra (left - 1)) else g.goto g.afterExtra
  | .name => if b ≠ 0 then g.goto .name else g.goto g.afterName
  | .comment => if b ≠ 0 then g.goto .comment else g.goto g.afterComment
  | .hcrcLo => { g with held := b }.goto .hcrcHi
  | .hcrcHi =>
    if g.held.toNat + 256 * b.toNat ≠ (k.crc32 g.headerCrc).toNat % 65536 then g.fail "header crc mismatch"
    else g.goto .body
  | .trailer seen => g.trailerByte k seen b
  | .body | .between | .ignore => g.fail "unreachable"

def byte (g : GzipStage C) (b : UInt8) : Answer C := (g.coverByte b).gzByte k b

/-- The wrapper `Inflater::step` of decode.rs: at most `outCap` bytes, and the failure as its message. -/
def inflateStep (i : Inflater C) (src : Bytes) (dst : Nat) : Inflater C × Except DecodeError (Nat × Bytes × Bool) :=
  match i.step m src (min dst outCap) with
  | (i, .ok answer) => (i, .ok answer)
  | (i, .error .dataCheck) => (i, .error ⟨"incorrect data check"⟩)
  | (i, .error .tooFarBack) => (i, .error ⟨"invalid distance too far back"⟩)
  | (i, .error .invalid) => (i, .error ⟨"invalid deflate data"⟩)

/-- `run`'s loop; see `NodeInflate.stepLoop` for its fuel. -/
def runLoop (src : Bytes) (dst : Nat) : Nat → GzipStage C → Nat → GzipStage C × Except DecodeError (Nat × Bytes)
  | 0, g, consumed => (g, .ok (consumed, []))
  | fuel + 1, g, consumed =>
    match g.gz with
    | .ignore => (g, .ok (src.length, []))
    | .body =>
      match inflateStep m g.inflate (src.drop consumed) dst with
      | (inflate, .error e) => ({ g with inflate }, .error e)
      | (inflate, .ok (used, produced, ended)) =>
        let g := { g with inflate, crc := g.crc ++ produced, gz := if ended then .trailer 0 else .body }
        if 0 < produced.length ∨ ended = false then (g, .ok (consumed + used, produced))
        else runLoop src dst fuel g (consumed + used)
    | .between =>
      match src[consumed]? with
      | none => (g, .ok (consumed, []))
      | some b =>
        if b = 0 then runLoop src dst fuel { g with gz := .ignore } consumed
        else runLoop src dst fuel (g.nextMember m) consumed
    | _ =>
      match src[consumed]? with
      | none => (g, .ok (consumed, []))
      | some b =>
        match g.byte k b with
        | (g, .error e) => (g, .error e)
        | (g, .ok ()) => runLoop src dst fuel g (consumed + 1)

def run (g : GzipStage C) (src : Bytes) (dst : Nat) : GzipStage C × Except DecodeError (Nat × Bytes) :=
  runLoop m k src dst (2 * src.length + 2) g 0

end GzipStage

/-! ## The stage as a stream -/

def Gz.toPhase : Gz → Phase
  | id1 => .head0
  | id2 => .head1
  | cm => .gzCm
  | flg => .gzFlg
  | fixed left => .gzFixed left
  | xlenLo => .gzXlenLo
  | xlenHi => .gzXlenHi
  | extra left => .gzExtra left
  | name => .gzName
  | comment => .gzComment
  | hcrcLo => .gzHcrcLo
  | hcrcHi => .gzHcrcHi
  | body => .body
  | trailer seen => .gzTrailer seen
  | between => .between
  | ignore => .done

/-- The stream has no CRC before the magic bytes are in. -/
def Gz.hasCrc : Gz → Bool
  | id1 | id2 => false
  | _ => true

namespace GzipStage

variable {C : Type} {m : Miniz C} {k : Checksums}

def toNode (g : GzipStage C) : NodeInflate C :=
  { control :=
      { wrap := .gzip, phase := g.gz.toPhase, members := true,
        check := if g.gz.hasCrc then .crc g.crc else .none, headerCrc := g.headerCrc, held := g.held,
        flags := g.flags, xlen := g.xlen, trailer := g.trailer, dictionary := none }
    inflate := g.inflate }

/-- Before the magic bytes are in, no byte of the member has been seen. -/
def Fresh (g : GzipStage C) : Prop := g.gz.hasCrc = false → g.crc = []

def nodeAnswer {α : Type} (answer : GzipStage C × Except DecodeError α) : NodeInflate C × Except ZlibError α :=
  (answer.1.toNode, answer.2.mapError fun e => .data e.message)

def control (g : GzipStage C) : Control := g.toNode.control

/-- An answer to a byte, as the stream's framer gives it: a gunzip stream primes nothing. -/
def controlAnswer (answer : Answer C) : Control.Answer :=
  (answer.1.control, answer.2.mapError (fun e => .data e.message) |>.map fun _ => none)

theorem toPhase_ite (p : Prop) [Decidable p] (gz gz' : Gz) :
    (if p then gz else gz').toPhase = if p then gz.toPhase else gz'.toPhase := apply_ite Gz.toPhase p gz gz'

theorem afterComment_eq (g : GzipStage C) : g.control.afterComment = g.afterComment.toPhase := by
  rw [afterComment, toPhase_ite]
  rfl

theorem afterName_eq (g : GzipStage C) : g.control.afterName = g.afterName.toPhase := by
  rw [afterName, toPhase_ite, ← afterComment_eq]
  rfl

theorem afterExtra_eq (g : GzipStage C) : g.control.afterExtra = g.afterExtra.toPhase := by
  rw [afterExtra, toPhase_ite, ← afterName_eq]
  rfl

theorem hasCrc_afterComment (g : GzipStage C) : g.afterComment.hasCrc := by
  unfold afterComment
  split <;> rfl

theorem hasCrc_afterName (g : GzipStage C) : g.afterName.hasCrc := by
  unfold afterName
  split
  · rfl
  · exact g.hasCrc_afterComment

theorem hasCrc_afterExtra (g : GzipStage C) : g.afterExtra.hasCrc := by
  unfold afterExtra
  split
  · rfl
  · exact g.hasCrc_afterName

variable {g : GzipStage C}

theorem goto_eq (hg : g.gz.hasCrc) {gz : Gz} (hgz : gz.hasCrc) {phase : Phase}
    (hphase : phase = gz.toPhase) : g.control.goto phase = controlAnswer (g.goto gz) := by
  subst hphase
  simp only [Control.goto, controlAnswer, control, toNode, goto, hg, hgz, if_true]
  rfl

theorem ite_eq {P : Prop} [Decidable P] {x y : Control.Answer} {x' y' : Answer C} (hpos : x = controlAnswer x')
    (hneg : y = controlAnswer y') : (if P then x else y) = controlAnswer (if P then x' else y') := by
  rw [hpos, hneg, ← apply_ite controlAnswer]

theorem trailerByte_eq (hg : g.gz.hasCrc) (seen : Nat) (b : UInt8) :
    g.control.gzTrailerByte k seen b = controlAnswer (g.trailerByte k seen b) := by
  let g' : GzipStage C := { g with trailer := g.trailer.set seen b }
  have hcheck : g.control.check = .crc g.crc := if_pos hg
  have hset : { g.control with trailer := g.control.trailer.set seen b } = g'.control := rfl
  have hgoto (gz : Gz) (hgz : gz.hasCrc) : g'.control.goto gz.toPhase = controlAnswer (g'.goto gz) :=
    goto_eq (g := g') hg hgz rfl
  simp only [Control.gzTrailerByte, trailerByte, hset]
  simp only [hcheck]
  exact ite_eq (ite_eq rfl (hgoto (.trailer _) rfl)) (ite_eq (ite_eq rfl (hgoto .between rfl)) (hgoto (.trailer _) rfl))

theorem gzByte_eq (hg : g.gz.hasCrc) (hreading : g.gz.toPhase.reading) (b : UInt8) :
    g.control.phaseByte k b = controlAnswer (g.gzByte k b) := by
  have hphase : g.control.phase = g.gz.toPhase := rfl
  cases hgz : g.gz <;> simp only [Control.phaseByte, hphase, gzByte, hgz, Gz.toPhase]
  case id1 | id2 => simp [hgz, Gz.hasCrc] at hg
  case body | between | ignore => simp [hgz, Gz.toPhase, Phase.reading] at hreading
  case cm | hcrcLo => exact goto_eq (g := { g with held := b }) hg rfl rfl
  case flg => exact ite_eq rfl (ite_eq rfl (goto_eq (g := { g with flags := b }) hg rfl rfl))
  case fixed left =>
    refine ite_eq (goto_eq hg rfl rfl) (ite_eq (goto_eq hg rfl rfl) ?_)
    exact goto_eq hg g.hasCrc_afterExtra g.afterExtra_eq
  case xlenLo => exact goto_eq (g := { g with xlen := b.toUInt16 }) hg rfl rfl
  case xlenHi =>
    let g' : GzipStage C := { g with xlen := g.xlen ||| b.toUInt16 <<< 8 }
    exact ite_eq (goto_eq (g := g') hg g'.hasCrc_afterExtra g'.afterExtra_eq) (goto_eq (g := g') hg rfl rfl)
  case extra left => exact ite_eq (goto_eq hg rfl rfl) (goto_eq hg g.hasCrc_afterExtra g.afterExtra_eq)
  case name => exact ite_eq (goto_eq hg rfl rfl) (goto_eq hg g.hasCrc_afterName g.afterName_eq)
  case comment => exact ite_eq (goto_eq hg rfl rfl) (goto_eq hg g.hasCrc_afterComment g.afterComment_eq)
  case hcrcHi => exact ite_eq rfl (goto_eq hg rfl rfl)
  case trailer seen => exact trailerByte_eq hg seen b

/-- A byte leaves the inflater and the member's CRC alone, and does not take back the magic bytes. -/
structure ByteFrame (g : GzipStage C) (answer : Answer C) : Prop where
  inflate : answer.1.inflate = g.inflate
  crc : answer.1.crc = g.crc
  hasCrc : g.gz.hasCrc = true → answer.1.gz.hasCrc = true

theorem frame_fail (g : GzipStage C) (message : String) : ByteFrame g (g.fail message) := ⟨rfl, rfl, id⟩

theorem frame_goto {gz : Gz} (h : gz.hasCrc) : ByteFrame g (g.goto gz) :=
  ⟨rfl, rfl, fun _ => h⟩

theorem frame_gzByte (g : GzipStage C) (b : UInt8) : ByteFrame g (g.gzByte k b) := by
  unfold gzByte
  split
  case h_1 hgz => exact ⟨rfl, rfl, fun h => by simp [hgz, Gz.hasCrc] at h⟩
  case h_2 =>
    split
    · exact frame_fail g _
    · exact frame_goto rfl
  case h_3 => exact ⟨rfl, rfl, fun _ => rfl⟩
  case h_4 =>
    split
    · exact frame_fail g _
    split
    · exact frame_fail g _
    · exact ⟨rfl, rfl, fun _ => rfl⟩
  case h_5 =>
    split
    · exact frame_goto rfl
    split
    · exact frame_goto rfl
    · exact frame_goto g.hasCrc_afterExtra
  case h_6 => exact ⟨rfl, rfl, fun _ => rfl⟩
  case h_7 =>
    simp only
    split
    · exact ⟨rfl, rfl, fun _ => hasCrc_afterExtra _⟩
    · exact ⟨rfl, rfl, fun _ => rfl⟩
  case h_8 =>
    split
    · exact frame_goto rfl
    · exact frame_goto g.hasCrc_afterExtra
  case h_9 =>
    split
    · exact frame_goto rfl
    · exact frame_goto g.hasCrc_afterName
  case h_10 =>
    split
    · exact frame_goto rfl
    · exact frame_goto g.hasCrc_afterComment
  case h_11 => exact ⟨rfl, rfl, fun _ => rfl⟩
  case h_12 =>
    split
    · exact frame_fail g _
    · exact frame_goto rfl
  case h_13 =>
    simp only [trailerByte]
    split
    · split
      · exact ⟨rfl, rfl, id⟩
      · exact ⟨rfl, rfl, fun _ => rfl⟩
    split
    · split
      · exact ⟨rfl, rfl, id⟩
      · exact ⟨rfl, rfl, fun _ => rfl⟩
    · exact ⟨rfl, rfl, fun _ => rfl⟩
  all_goals exact frame_fail g _

theorem coverByte_eq (hreading : g.gz.toPhase.reading) (b : UInt8) :
    g.control.coverByte b = (g.coverByte b).control := by
  obtain ⟨gz, _, _, _, _, _, _, _⟩ := g
  cases gz <;> first | rfl | simp [Gz.toPhase, Phase.reading] at hreading

theorem coverByte_frame (g : GzipStage C) (b : UInt8) :
    (g.coverByte b).gz = g.gz ∧ (g.coverByte b).crc = g.crc ∧ (g.coverByte b).inflate = g.inflate := by
  unfold coverByte
  split <;> exact ⟨rfl, rfl, rfl⟩

theorem byte_eq (hfresh : g.Fresh) (hreading : g.gz.toPhase.reading) (b : UInt8) :
    g.control.headerByte k b = controlAnswer (g.byte k b) := by
  rw [Control.headerByte, coverByte_eq hreading, byte]
  obtain ⟨hgz, hcrc, -⟩ := g.coverByte_frame b
  generalize g.coverByte b = g' at hgz hcrc
  rw [← hgz] at hreading
  by_cases hmagic : g'.gz.hasCrc
  · exact gzByte_eq hmagic hreading b
  -- the two magic bytes: the stream starts its CRC behind them
  have hnil : g'.crc = [] := by
    rw [hcrc]
    exact hfresh (by rw [← hgz]; simpa using hmagic)
  obtain ⟨gz, _, crc, _, held, _, _, _⟩ := g'
  obtain rfl : crc = [] := hnil
  cases gz with
  | id1 => rfl
  | id2 =>
    by_cases hok : held = 0x1f ∧ b = 0x8b
    · obtain ⟨rfl, rfl⟩ := hok
      rfl
    have hbad : held ≠ 0x1f ∨ b ≠ 0x8b := by
      by_contra hnot
      exact hok (by simpa using hnot)
    simp only [gzByte, if_pos hbad]
    simp [Control.phaseByte, control, toNode, Gz.toPhase, hok, controlAnswer, Control.fail, fail,
      Except.mapError, Except.map, Gz.hasCrc]
  | _ => simp [Gz.hasCrc] at hmagic

theorem byte_frame (g : GzipStage C) (b : UInt8) : ByteFrame g (g.byte k b) := by
  obtain ⟨hgz, hcrc, hinflate⟩ := g.coverByte_frame b
  obtain ⟨hinflate', hcrc', hhas⟩ := frame_gzByte (k := k) (g.coverByte b) b
  exact ⟨hinflate'.trans hinflate, hcrc'.trans hcrc, fun h => hhas (by rw [hgz]; exact h)⟩

theorem byte_fresh (hfresh : g.Fresh) (b : UInt8) : (g.byte k b).1.Fresh := by
  intro h
  have hframe := byte_frame (k := k) g b
  rw [hframe.crc]
  refine hfresh ?_
  by_contra hnot
  rw [hframe.hasCrc (by simpa using hnot)] at h
  cases h

theorem headerByte_toNode (hfresh : g.Fresh) (hreading : g.gz.toPhase.reading)
    (b : UInt8) : g.toNode.headerByte k b = nodeAnswer (g.byte k b) := by
  have hframe := (byte_frame (k := k) g b).inflate
  have heq := byte_eq (k := k) hfresh hreading b
  unfold headerByte
  rw [show g.toNode.control = g.control from rfl, heq]
  generalize g.byte k b = answer at hframe
  obtain ⟨g', _ | _⟩ := answer
  · simp only [controlAnswer, nodeAnswer, Except.mapError, Except.map]
    rw [show g.toNode.inflate = g'.toNode.inflate from hframe.symm]
    rfl
  · simp only [controlAnswer, nodeAnswer, Except.mapError, Except.map]
    rw [show g.toNode.inflate = g'.toNode.inflate from hframe.symm]
    rfl

/-! ## In lockstep -/

theorem inflateStep_eq (i : Inflater C) (src : Bytes) (dst : Nat) : inflateStep m i src dst =
    ((i.step m src dst).1, (i.step m src dst).2.mapError fun failure => ⟨(ZlibError.ofInflate failure).message⟩) := by
  have hroom : i.step m src (min dst outCap) = i.step m src dst := by
    unfold Inflater.step
    rw [show min (min dst outCap) stepOut = min dst stepOut by simp only [outCap, stepOut]; omega]
  rw [inflateStep, hroom]
  obtain ⟨i', e | _⟩ := i.step m src dst
  · cases e <;> rfl
  · rfl

attribute [local simp] runLoop

section Reading

variable {src : Bytes} {dst fuel consumed : Nat} {g g' : GzipStage C} {b : UInt8}

theorem runLoop_reading (h : g.gz.toPhase.reading) : g.runLoop m k src dst (fuel + 1) consumed =
    match src[consumed]? with
    | none => (g, .ok (consumed, []))
    | some b =>
      match g.byte k b with
      | (g, .error e) => (g, .error e)
      | (g, .ok ()) => g.runLoop m k src dst fuel (consumed + 1) := by
  rw [runLoop]
  cases hgz : g.gz <;> simp_all [Gz.toPhase, Phase.reading]

end Reading

theorem ofInflate_eq (failure : InflateFailure) :
    ZlibError.ofInflate failure = .data (ZlibError.ofInflate failure).message := by
  cases failure <;> rfl

section Body

variable {src : Bytes} {dst fuel consumed : Nat} {g : GzipStage C} {inflate : Inflater C}

def produce (g : GzipStage C) (inflate : Inflater C) (p : Bytes) (ended : Bool) : GzipStage C :=
  { g with inflate, crc := g.crc ++ p, gz := if ended then .trailer 0 else .body }

theorem runLoop_failed {failure : InflateFailure} (h : g.gz = .body)
    (hstep : g.inflate.step m (src.drop consumed) dst = (inflate, .error failure)) : g.runLoop m k src dst
    (fuel + 1) consumed = ({ g with inflate }, .error ⟨(ZlibError.ofInflate failure).message⟩) := by
  obtain ⟨gz, i, _, _, _, _, _, _⟩ := g
  obtain rfl : gz = .body := h
  rw [runLoop]
  simp only [inflateStep_eq, hstep]
  rfl

theorem produce_fresh (g : GzipStage C) (inflate : Inflater C) (p : Bytes) (ended : Bool) :
    (g.produce inflate p ended).Fresh := by
  intro h
  cases ended <;> cases h

theorem produce_toNode (hgz : g.gz = .body) (p : Bytes) (ended : Bool) :
    ({ control := g.toNode.control.produce k p ended, inflate } : NodeInflate C) =
      (g.produce inflate p ended).toNode := by
  obtain ⟨gz, i, _, _, _, _, _, _⟩ := g
  obtain rfl : gz = .body := hgz
  cases ended <;> rfl

end Body

/-- What one more iteration, and so the whole loop, has to keep: the stage stands for the stream. -/
def Lockstep (m : Miniz C) (k : Checksums) (src : Bytes) (dst fuel : Nat) : Prop :=
  ∀ {g : GzipStage C} {consumed : Nat}, g.Fresh →
    g.toNode.stepLoop m k src dst fuel consumed = nodeAnswer (g.runLoop m k src dst fuel consumed) ∧
      (g.runLoop m k src dst fuel consumed).1.Fresh

theorem lockstep_body {src : Bytes} {dst fuel consumed : Nat} (hfresh : g.Fresh) (hgz : g.gz = .body)
    (ih : Lockstep m k src dst fuel) : g.toNode.stepLoop m k src dst (fuel + 1) consumed = nodeAnswer
    (g.runLoop m k src dst (fuel + 1) consumed) ∧ (g.runLoop m k src dst (fuel + 1) consumed).1.Fresh := by
  have hphase : g.toNode.control.phase = .body := congrArg Gz.toPhase hgz
  cases hstep : g.inflate.step m (src.drop consumed) dst with
  | mk inflate verdict =>
    cases verdict with
    | error failure =>
      rw [stepLoop_failed m k hphase hstep, runLoop_failed hgz hstep, ofInflate_eq failure]
      exact ⟨rfl, hfresh⟩
    | ok answer =>
      obtain ⟨_, p, ended⟩ := answer
      by_cases hstop : 0 < p.length ∨ ended = false
      · rw [stepLoop_wrote m k hphase hstep hstop, produce_toNode hgz, runLoop, hgz]
        simp only [inflateStep_eq, hstep, Except.mapError, if_pos hstop]
        exact ⟨rfl, produce_fresh g inflate p ended⟩
      · obtain ⟨rfl, rfl⟩ : p = [] ∧ ended := by simpa using hstop
        rw [stepLoop_ended m k hphase hstep, produce_toNode hgz, runLoop, hgz]
        simp only [inflateStep_eq, hstep, Except.mapError]
        exact ih (produce_fresh g inflate [] true)

theorem lockstep_between {src : Bytes} {dst fuel consumed : Nat} (hfresh : g.Fresh)
    (hgz : g.gz = .between) (ih : Lockstep m k src dst fuel) : g.toNode.stepLoop m k src dst (fuel + 1) consumed =
    nodeAnswer (g.runLoop m k src dst (fuel + 1) consumed) ∧ (g.runLoop m k src dst (fuel + 1) consumed).1.Fresh := by
  obtain ⟨gz, inflate, crc, headerCrc, held, flags, xlen, trailer⟩ := g
  obtain rfl : gz = .between := hgz
  rw [runLoop]
  cases hb : src[consumed]? with
  | none =>
    rw [stepLoop_paused m k rfl hb]
    exact ⟨rfl, hfresh⟩
  | some b =>
    by_cases hzero : b = 0
    · subst hzero
      rw [stepLoop_padding m k rfl hb]
      exact ih (g := ⟨.ignore, inflate, crc, headerCrc, held, flags, xlen, trailer⟩) nofun
    · rw [stepLoop_next m k rfl hb hzero]
      simp only [if_neg hzero]
      exact ih (g := nextMember m ⟨.between, inflate, crc, headerCrc, held, flags, xlen, trailer⟩) fun _ => rfl

/-- **An iteration of the one is an iteration of the other**, by induction on the fuel they share. -/
theorem stepLoop_toNode (src : Bytes) (dst fuel : Nat) : Lockstep m k src dst fuel := by
  induction fuel with
  | zero => exact fun hfresh => ⟨rfl, hfresh⟩
  | succ fuel ih =>
    intro g consumed hfresh
    by_cases hreading : g.gz.toPhase.reading
    · cases hb : src[consumed]? with
      | none =>
        rw [stepLoop_starved m k hreading hb, runLoop_reading hreading, hb]
        exact ⟨rfl, hfresh⟩
      | some b =>
        have hnode := headerByte_toNode (k := k) hfresh hreading b
        have hfresh' := byte_fresh (k := k) hfresh b
        cases hbyte : g.byte k b with
        | mk g' verdict =>
          rw [hbyte] at hnode hfresh'
          cases verdict with
          | error e =>
            rw [stepLoop_refused m k hreading hb hnode, runLoop_reading hreading, hb]
            simp only [hbyte]
            exact ⟨rfl, hfresh'⟩
          | ok accepted =>
            rw [stepLoop_read m k hreading hb hnode, runLoop_reading hreading, hb]
            simp only [hbyte]
            exact ih hfresh'
    · cases hgz : g.gz with
      | body => exact lockstep_body hfresh hgz ih
      | between => exact lockstep_between hfresh hgz ih
      | ignore =>
        rw [stepLoop_over m k (congrArg Gz.toPhase hgz), runLoop, hgz]
        exact ⟨rfl, hfresh⟩
      | _ => simp [hgz, Gz.toPhase, Phase.reading] at hreading

/-! ## Every sequence of calls -/

/-- A sequence of calls, each with its slice and its room: the stage after them, and the answers. -/
def calls (m : Miniz C) (k : Checksums) : GzipStage C → List (Bytes × Nat) →
    GzipStage C × List (Except DecodeError (Nat × Bytes))
  | g, [] => (g, [])
  | g, (src, dst) :: rest =>
    let (g, answer) := g.run m k src dst
    let (g, answers) := calls m k g rest
    (g, answer :: answers)

end GzipStage

def nodeCalls {C : Type} (m : Miniz C) (k : Checksums) : NodeInflate C → List (Bytes × Nat) →
    NodeInflate C × List (Except ZlibError (Nat × Bytes))
  | n, [] => (n, [])
  | n, (src, dst) :: rest =>
    let (n, answer) := n.step m k src dst
    let (n, answers) := nodeCalls m k n rest
    (n, answer :: answers)

namespace GzipStage

variable {C : Type} {m : Miniz C} {k : Checksums}

theorem nodeCalls_toNode {g : GzipStage C} (hfresh : g.Fresh) (inputs : List (Bytes × Nat)) :
    nodeCalls m k g.toNode inputs =
      ((g.calls m k inputs).1.toNode, (g.calls m k inputs).2.map (·.mapError fun e => .data e.message)) := by
  induction inputs generalizing g with
  | nil => rfl
  | cons input inputs ih =>
    obtain ⟨src, dst⟩ := input
    obtain ⟨hstep, hfresh'⟩ : g.toNode.step m k src dst = nodeAnswer (g.run m k src dst) ∧ (g.run m k src dst).1.Fresh :=
      stepLoop_toNode src dst (2 * src.length + 2) hfresh
    simp only [nodeCalls, calls, hstep, nodeAnswer, List.map_cons]
    rw [ih hfresh']

/-- **The two decoders are one machine.** Call by call they read the same, write the same and fail with the same
    message, and they are over, or between members, together. -/
theorem calls_agree (m : Miniz C) (k : Checksums) (inputs : List (Bytes × Nat)) :
    ((new m).calls m k inputs).2.map (·.mapError DecodeError.message) =
        (nodeCalls m k (withDictionary m .gzip none) inputs).2.map (·.mapError ZlibError.message) ∧
      (((new m).calls m k inputs).1.gz = .ignore ↔
        (nodeCalls m k (withDictionary m .gzip none) inputs).1.control.phase = .done) ∧
      (((new m).calls m k inputs).1.gz = .between ↔
        (nodeCalls m k (withDictionary m .gzip none) inputs).1.control.phase = .between) := by
  have hstart : withDictionary m .gzip none = (new m).toNode := rfl
  have hcalls := nodeCalls_toNode (m := m) (k := k) (g := new m) (fun _ => rfl) inputs
  rw [hstart, hcalls]
  refine ⟨?_, ?_, ?_⟩
  · rw [List.map_map]
    refine List.map_congr_left fun answer _ => ?_
    cases answer <;> rfl
  · show _ ↔ ((new m).calls m k inputs).1.gz.toPhase = .done
    cases ((new m).calls m k inputs).1.gz <;> simp [Gz.toPhase]
  · show _ ↔ ((new m).calls m k inputs).1.gz.toPhase = .between
    cases ((new m).calls m k inputs).1.gz <;> simp [Gz.toPhase]

end GzipStage

end Oam.Http
