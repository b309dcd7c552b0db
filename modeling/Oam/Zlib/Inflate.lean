/-
  Inflate as node:zlib does it (`oam_core/src/inflate.rs`), over miniz's core decoder.  Two layers, as in the source:
  `Inflater` holds the deflate HISTORY itself and hands it to miniz on every call, and `NodeInflate` is a byte machine
  for the gzip, zlib and raw wrappers around it.  miniz and the two checksums are parameters.
-/
import Oam.Lib.Checksum

namespace Oam.Zlib

/-! ## miniz and the checksums -/

/-- miniz's `TINFLStatus`. -/
inductive Status where
  | done
  | needsMoreInput
  | hasMoreOutput
  | adler32Mismatch
  | failed
  | badParam
  | failedCannotMakeProgress
  deriving DecidableEq

/-- miniz's core decoder: `decompress core zlib src hist room` writes at most `room` bytes BEHIND the history `hist`. -/
structure Miniz (C : Type) where
  init : C
  decompress : C → Bool → Bytes → Bytes → Nat → C × Status × Nat × Bytes

/-- `flate2::Crc`, by what it has seen, and `mz_adler32_oxide`, which goes on from a running sum. -/
structure Checksums where
  crc32 : Bytes → UInt32
  adler32 : UInt32 → Bytes → UInt32
  adler32_nil : ∀ sum, adler32 sum [] = sum
  adler32_append : ∀ sum first second, adler32 (adler32 sum first) second = adler32 sum (first ++ second)

def Checksums.standard : Checksums where
  crc32 := Checksum.crc32
  adler32 := Checksum.adler32
  adler32_nil := fun _ => rfl
  adler32_append := Checksum.adler32_append

/-- `Crc::amount`: the bytes seen, in 32 bits. -/
def crcAmount (seen : Bytes) : UInt32 := UInt32.ofNat seen.length

/-! ## The inflater -/

def window : Nat := 32 * 1024

def stepOut : Nat := 16 * 1024

inductive InflateFailure where
  | dataCheck
  | tooFarBack
  | invalid
  deriving DecidableEq

/-- The last `window` bytes. -/
def lastWindow (bytes : Bytes) : Bytes := bytes.drop (bytes.length - window)

/-- `hist` is the source's `hist[..pos]`: what miniz has written, or the part of it that is still kept. -/
structure Inflater (C : Type) where
  core : C
  hist : Bytes
  zlib : Bool

namespace Inflater

variable {C : Type} (m : Miniz C)

def new (zlib : Bool) : Inflater C := { core := m.init, hist := [], zlib }

def reset (i : Inflater C) : Inflater C := { i with core := m.init, hist := [] }

def prime (i : Inflater C) (dictionary : Bytes) : Inflater C := { i with hist := lastWindow dictionary }

/-- When the next step would not fit, the last window slides to the front. -/
def slide (i : Inflater C) (room : Nat) : Inflater C :=
  if i.hist.length + room > window + stepOut then { i with hist := lastWindow i.hist } else i

/-- Did the step fail on a copy from before the start of the output? Only such a copy reads a window of zeros. -/
def reachesBeforeStart (i : Inflater C) (src : Bytes) (room produced : Nat) : Bool :=
  match m.decompress i.core i.zlib src (List.replicate window 0 ++ i.hist) room with
  | (_, status, _, rerun) => status != .failed || rerun.length > produced

/-- The step proper, once there is `room` behind the history. -/
def stepIn (i : Inflater C) (src : Bytes) (room : Nat) : Inflater C × Except InflateFailure (Nat × Bytes × Bool) :=
  match m.decompress i.core i.zlib src i.hist room with
  | (core, status, consumed, produced) =>
    match status with
    | .done | .needsMoreInput | .hasMoreOutput =>
      ({ i with core, hist := i.hist ++ produced }, .ok (consumed, produced, status == .done))
    | .adler32Mismatch => ({ i with core }, .error .dataCheck)
    | _ =>
      -- the source keeps the core from before the call only while the history is below a window
      let tooFar := i.hist.length < window && i.reachesBeforeStart m src room produced.length
      ({ i with core }, .error (if tooFar then .tooFarBack else .invalid))

def step (i : Inflater C) (src : Bytes) (dst : Nat) : Inflater C × Except InflateFailure (Nat × Bytes × Bool) :=
  (i.slide (min dst stepOut)).stepIn m src (min dst stepOut)

end Inflater

/-! ## node:zlib's failures -/

structure ZlibError where
  code : String
  errno : Int
  message : String
  deriving DecidableEq

namespace ZlibError

def data (message : String) : ZlibError := { code := "Z_DATA_ERROR", errno := -3, message }

def unexpectedEof : ZlibError :=
  { code := "Z_BUF_ERROR", errno := -5, message := "unexpected end of file" }

def needDict : ZlibError := { code := "Z_NEED_DICT", errno := 2, message := "Missing dictionary" }

def badDict : ZlibError := { code := "Z_NEED_DICT", errno := 2, message := "Bad dictionary" }

/-- `From<InflateFailure>`. -/
def ofInflate : InflateFailure → ZlibError
  | .dataCheck => data "incorrect data check"
  | .tooFarBack => data "invalid distance too far back"
  | .invalid => data "invalid deflate data"

end ZlibError

/-! ## The framer -/

inductive Wrap where
  | gzip
  | zlib
  | raw
  | auto
  deriving DecidableEq

/-- Where the framer is (`At`). -/
inductive Phase where
  | head0
  | head1
  | dictId (seen : Nat)
  | gzCm
  | gzFlg
  | gzFixed (left : Nat)
  | gzXlenLo
  | gzXlenHi
  | gzExtra (left : UInt16)
  | gzName
  | gzComment
  | gzHcrcLo
  | gzHcrcHi
  | body
  | zlibTrailer (seen : Nat)
  | gzTrailer (seen : Nat)
  | between
  | done
  deriving DecidableEq

inductive Check where
  | none
  | adler (sum : UInt32)
  | crc (seen : Bytes)
  deriving DecidableEq

/-- The body's bytes go into the running check. -/
def Check.update (k : Checksums) : Check → Bytes → Check
  | .none, _ => .none
  | .adler sum, bytes => .adler (k.adler32 sum bytes)
  | .crc seen, bytes => .crc (seen ++ bytes)

def gzFhcrc : UInt8 := 0x02
def gzFextra : UInt8 := 0x04
def gzFname : UInt8 := 0x08
def gzFcomment : UInt8 := 0x10
def gzReserved : UInt8 := 0xe0
def zlibFdict : UInt8 := 0x20

/-- The flag bits `mask` of `flags` are not all zero. -/
def hasFlag (flags mask : UInt8) : Bool := flags &&& mask != 0

/-- `NodeInflate` without its inflater; `phase` is the source's `at`. -/
structure Control where
  wrap : Wrap
  phase : Phase
  members : Bool
  check : Check
  headerCrc : Bytes
  held : UInt8
  flags : UInt8
  xlen : UInt16
  trailer : Bytes
  dictionary : Option Bytes
  deriving DecidableEq

namespace Phase

/-- The bytes that the gzip header's CRC covers. -/
def inHeaderCrc : Phase → Bool
  | head0 | head1 | gzCm | gzFlg | gzFixed _ | gzXlenLo | gzXlenHi | gzExtra _ | gzName | gzComment => true
  | _ => false

/-- The phases that `Control.headerByte` is for. -/
def reading : Phase → Bool
  | body | between | done => false
  | _ => true

/-- The phases that an iteration may leave without reading a byte. -/
def rank : Phase → Nat
  | body | between => 1
  | _ => 0

end Phase

namespace Control

def afterComment (c : Control) : Phase := if hasFlag c.flags gzFhcrc then .gzHcrcLo else .body

def afterName (c : Control) : Phase := if hasFlag c.flags gzFcomment then .gzComment else c.afterComment

def afterExtra (c : Control) : Phase := if hasFlag c.flags gzFname then .gzName else c.afterName

def afterStream (c : Control) : Phase := if c.members then .between else .done

/-- The answer to a header byte: go on in `phase`.  The dictionary is what the window is primed with. -/
abbrev Answer := Control × Except ZlibError (Option Bytes)

def goto (c : Control) (phase : Phase) : Answer := ({ c with phase }, .ok none)

def fail (c : Control) (message : String) : Answer := (c, .error (.data message))

/-- `zlib_header`. -/
def zlibHeader (c : Control) (cmf flg : UInt8) : Answer :=
  if (cmf.toNat * 256 + flg.toNat) % 31 ≠ 0 then c.fail "incorrect header check"
  else if cmf &&& 0x0f ≠ 8 then c.fail "unknown compression method"
  else if cmf.toNat / 16 + 8 > 15 then c.fail "invalid window size"
  else if hasFlag flg zlibFdict then c.goto (.dictId 0)
  else { c with check := .adler 1 }.goto .body

/-- `preset_dictionary`. -/
def presetDictionary (k : Checksums) (c : Control) : Answer :=
  match c.dictionary with
  | none => (c, .error .needDict)
  | some dictionary =>
    let c := { c with dictionary := none }
    if k.adler32 1 dictionary ≠ Bytes.u32OfBe (c.trailer.take 4) then (c, .error .badDict)
    else ({ c with check := .adler 1, phase := .body }, .ok (some dictionary))

/-- The `ZlibTrailer` byte: the Adler-32 is compared once its four bytes are in. -/
def zlibTrailerByte (c : Control) (seen : Nat) (b : UInt8) : Answer :=
  let c := { c with trailer := c.trailer.set seen b }
  if seen < 3 then c.goto (.zlibTrailer (seen + 1))
  else if c.check ≠ .adler (Bytes.u32OfBe (c.trailer.take 4)) then c.fail "incorrect data check"
  else c.goto c.afterStream

/-- The CRC is compared after four bytes, the length after eight. The last branch is the source's `unreachable!`. -/
def gzTrailerByte (k : Checksums) (c : Control) (seen : Nat) (b : UInt8) : Answer :=
  let c := { c with trailer := c.trailer.set seen b }
  match c.check with
  | .crc fed =>
    if seen + 1 = 4 then
      if Bytes.u32OfLe (c.trailer.take 4) ≠ k.crc32 fed then c.fail "incorrect data check"
      else c.goto (.gzTrailer 4)
    else if seen + 1 = 8 then
      if Bytes.u32OfLe (c.trailer.drop 4) ≠ crcAmount fed then c.fail "incorrect length check"
      else c.goto c.afterStream
    else c.goto (.gzTrailer (seen + 1))
  | _ => c.fail "unreachable"

def coverByte (c : Control) (b : UInt8) : Control :=
  if c.phase.inHeaderCrc then { c with headerCrc := c.headerCrc ++ [b] } else c

/-- The `match` of `header_byte`.  The phases `body`, `between` and `done` are its `unreachable!`. -/
def phaseByte (k : Checksums) (c : Control) (b : UInt8) : Answer :=
  match c.phase with
  | .head0 => { c with held := b }.goto .head1
  | .head1 =>
    if (c.wrap = .gzip ∨ c.wrap = .auto) ∧ c.held = 0x1f ∧ b = 0x8b then
      { c with members := true, check := .crc [] }.goto .gzCm
    else if c.wrap = .gzip then c.fail "incorrect header check"
    else c.zlibHeader c.held b
  | .dictId seen =>
    let c := { c with trailer := c.trailer.set seen b }
    if seen < 3 then c.goto (.dictId (seen + 1)) else c.presetDictionary k
  | .gzCm => { c with held := b }.goto .gzFlg
  | .gzFlg =>
    if c.held ≠ 8 then c.fail "unknown compression method"
    else if hasFlag b gzReserved then c.fail "unknown header flags set"
    else { c with flags := b }.goto (.gzFixed 6)
  | .gzFixed left =>
    if left > 1 then c.goto (.gzFixed (left - 1))
    else if hasFlag c.flags gzFextra then c.goto .gzXlenLo
    else c.goto c.afterExtra
  | .gzXlenLo => { c with xlen := b.toUInt16 }.goto .gzXlenHi
  | .gzXlenHi =>
    let c : Control := { c with xlen := c.xlen ||| b.toUInt16 <<< 8 }
    if c.xlen = 0 then c.goto c.afterExtra else c.goto (.gzExtra c.xlen)
  | .gzExtra left => if left > 1 then c.goto (.gzExtra (left - 1)) else c.goto c.afterExtra
  | .gzName => if b ≠ 0 then c.goto .gzName else c.goto c.afterName
  | .gzComment => if b ≠ 0 then c.goto .gzComment else c.goto c.afterComment
  | .gzHcrcLo => { c with held := b }.goto .gzHcrcHi
  | .gzHcrcHi =>
    if c.held.toNat + 256 * b.toNat ≠ (k.crc32 c.headerCrc).toNat % 65536 then c.fail "header crc mismatch"
    else c.goto .body
  | .zlibTrailer seen => c.zlibTrailerByte seen b
  | .gzTrailer seen => c.gzTrailerByte k seen b
  | .body | .between | .done => c.fail "unreachable"

def headerByte (k : Checksums) (c : Control) (b : UInt8) : Answer := (c.coverByte b).phaseByte k b

/-- The part of the `Between` branch that starts another member. -/
def nextMember (c : Control) : Control := { c with phase := .head0, check := .none, headerCrc := [] }

def afterBody (c : Control) : Phase :=
  match c.check with
  | .none => .done
  | .adler _ => .zlibTrailer 0
  | .crc _ => .gzTrailer 0

/-- What a body's step does to the framer: its bytes are checked, and its end leads on. -/
def produce (k : Checksums) (c : Control) (produced : Bytes) (ended : Bool) : Control :=
  let c := { c with check := c.check.update k produced }
  if ended then { c with phase := c.afterBody } else c

end Control

/-! ## The stream -/

structure NodeInflate (C : Type) where
  control : Control
  inflate : Inflater C

namespace NodeInflate

variable {C : Type} (m : Miniz C) (k : Checksums)

/-- An empty dictionary is none. -/
def withDictionary (wrap : Wrap) (dictionary : Option Bytes) : NodeInflate C :=
  let dictionary := dictionary.filter fun d => !d.isEmpty
  let inflate := Inflater.new m false
  { control :=
      { wrap, phase := if wrap = .raw then .body else .head0, members := wrap = .gzip, check := .none,
        headerCrc := [], held := 0, flags := 0, xlen := 0, trailer := List.replicate 8 0,
        dictionary := if wrap = .zlib ∨ wrap = .auto then dictionary else none }
    inflate :=
      match wrap, dictionary with
      | .raw, some dictionary => inflate.prime dictionary
      | _, _ => inflate }

def isComplete (n : NodeInflate C) : Bool := n.control.phase = .between || n.control.phase = .done

def finish (n : NodeInflate C) : Except ZlibError Unit :=
  if n.isComplete then .ok () else .error .unexpectedEof

/-- One header or trailer byte.  The window is primed when the byte ends a preset dictionary's id. -/
def headerByte (n : NodeInflate C) (b : UInt8) : NodeInflate C × Except ZlibError Unit :=
  match n.control.headerByte k b with
  | (control, .error e) => ({ n with control }, .error e)
  | (control, .ok none) => ({ n with control }, .ok ())
  | (control, .ok (some dictionary)) => ({ control, inflate := n.inflate.prime dictionary }, .ok ())

/-- `step`'s loop: an iteration reads a byte, or leaves the body or the gap between members. -/
def stepLoop (src : Bytes) (dst : Nat) : Nat → NodeInflate C → Nat → NodeInflate C × Except ZlibError (Nat × Bytes)
  | 0, n, consumed => (n, .ok (consumed, []))
  | fuel + 1, n, consumed =>
    match n.control.phase with
    | .done => (n, .ok (src.length, []))
    | .body =>
      match n.inflate.step m (src.drop consumed) dst with
      | (inflate, .error failure) => ({ n with inflate }, .error (.ofInflate failure))
      | (inflate, .ok (used, produced, ended)) =>
        let n := { control := n.control.produce k produced ended, inflate }
        if 0 < produced.length ∨ ended = false then (n, .ok (consumed + used, produced))
        else stepLoop src dst fuel n (consumed + used)
    | .between =>
      match src[consumed]? with
      | none => (n, .ok (consumed, []))
      | some b =>
        if b = 0 then stepLoop src dst fuel { n with control := { n.control with phase := .done } } consumed
        else
          stepLoop src dst fuel { control := n.control.nextMember, inflate := n.inflate.reset m } consumed
    | _ =>
      match src[consumed]? with
      | none => (n, .ok (consumed, []))
      | some b =>
        match n.headerByte k b with
        | (n, .error e) => (n, .error e)
        | (n, .ok ()) => stepLoop src dst fuel n (consumed + 1)

/-- Decode from `src` into `dst` bytes of room: the bytes read, and the bytes written. -/
def step (n : NodeInflate C) (src : Bytes) (dst : Nat) : NodeInflate C × Except ZlibError (Nat × Bytes) :=
  stepLoop m k src dst (2 * src.length + 2) n 0

/-! ## One iteration of the loop -/

attribute [local simp] stepLoop

section Reading

variable {src : Bytes} {dst fuel consumed : Nat} {n n' : NodeInflate C} {b : UInt8}

theorem stepLoop_starved (h : n.control.phase.reading) (hb : src[consumed]? = none) :
    n.stepLoop m k src dst (fuel + 1) consumed = (n, .ok (consumed, [])) := by
  rw [NodeInflate.stepLoop]
  cases hphase : n.control.phase <;> simp_all [Phase.reading]

theorem stepLoop_refused {e : ZlibError} (h : n.control.phase.reading) (hb : src[consumed]? = some b)
    (hbyte : n.headerByte k b = (n', .error e)) : n.stepLoop m k src dst (fuel + 1) consumed = (n', .error e) := by
  rw [NodeInflate.stepLoop]
  cases hphase : n.control.phase <;> simp_all [Phase.reading]

theorem stepLoop_read (h : n.control.phase.reading) (hb : src[consumed]? = some b)
    (hbyte : n.headerByte k b = (n', .ok ())) :
    n.stepLoop m k src dst (fuel + 1) consumed = n'.stepLoop m k src dst fuel (consumed + 1) := by
  rw [NodeInflate.stepLoop]
  cases hphase : n.control.phase <;> simp_all [Phase.reading]

end Reading

section Gap

variable {src : Bytes} {dst fuel consumed : Nat} {n : NodeInflate C} {b : UInt8}

theorem stepLoop_over (h : n.control.phase = .done) :
    n.stepLoop m k src dst (fuel + 1) consumed = (n, .ok (src.length, [])) := by
  rw [stepLoop, h]

theorem stepLoop_paused (h : n.control.phase = .between) (hb : src[consumed]? = none) :
    n.stepLoop m k src dst (fuel + 1) consumed = (n, .ok (consumed, [])) := by
  rw [stepLoop, h, hb]

theorem stepLoop_padding (h : n.control.phase = .between) (hb : src[consumed]? = some 0) :
    n.stepLoop m k src dst (fuel + 1) consumed =
      stepLoop m k src dst fuel { n with control := { n.control with phase := .done } } consumed := by
  rw [stepLoop, h, hb]
  rfl

theorem stepLoop_next (h : n.control.phase = .between) (hb : src[consumed]? = some b) (hzero : b ≠ 0) :
    n.stepLoop m k src dst (fuel + 1) consumed =
      stepLoop m k src dst fuel { control := n.control.nextMember, inflate := n.inflate.reset m } consumed := by
  rw [stepLoop, h, hb]
  exact if_neg hzero

end Gap

section Body

variable {src : Bytes} {dst fuel consumed : Nat} {n : NodeInflate C} {inflate : Inflater C}

theorem stepLoop_failed {failure : InflateFailure} (h : n.control.phase = .body)
    (hstep : n.inflate.step m (src.drop consumed) dst = (inflate, .error failure)) :
    n.stepLoop m k src dst (fuel + 1) consumed = ({ n with inflate }, .error (.ofInflate failure)) := by
  rw [NodeInflate.stepLoop, h, hstep]

theorem stepLoop_wrote {used : Nat} {p : Bytes} {ended : Bool} (h : n.control.phase = .body)
    (hstep : n.inflate.step m (src.drop consumed) dst = (inflate, .ok (used, p, ended)))
    (hstop : 0 < p.length ∨ ended = false) :
    n.stepLoop m k src dst (fuel + 1) consumed =
      ({ control := n.control.produce k p ended, inflate }, .ok (consumed + used, p)) := by
  rw [NodeInflate.stepLoop, h, hstep]
  exact if_pos hstop

theorem stepLoop_ended {used : Nat} (h : n.control.phase = .body)
    (hstep : n.inflate.step m (src.drop consumed) dst = (inflate, .ok (used, [], true))) :
    n.stepLoop m k src dst (fuel + 1) consumed =
      NodeInflate.stepLoop m k src dst fuel { control := n.control.produce k [] true, inflate }
        (consumed + used) := by
  rw [NodeInflate.stepLoop, h, hstep]
  rfl

end Body

theorem rank_le_one (phase : Phase) : phase.rank ≤ 1 := by cases phase <;> simp [Phase.rank]

end NodeInflate

end Oam.Zlib
