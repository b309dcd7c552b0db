/-
  node:zlib's deflaters (`oam_core/src/deflate.rs`), over miniz's compressor.  Header and trailer wait in `pending`
  until an output has room for them; a preset dictionary is run through miniz first and what that writes is DROPPED.  A
  loop of the source takes fuel here, and `none` is a loop that is still going.
-/
import Oam.Zlib.Inflate

namespace Oam.Zlib

/-! ## miniz's compressor -/

/-- `MZFlush`. -/
inductive MzFlush where
  | none
  | partly
  | sync
  | full
  | finish
  deriving DecidableEq

/-- miniz's raw compressor: the new core, the bytes read, the bytes written, and whether the stream has ended. -/
structure Compressor (K : Type) where
  init : K
  setLevel : K → Nat → K
  deflate : K → Bytes → Nat → MzFlush → K × Nat × Bytes × Bool

/-- zlib's `flush`; 5, `Z_BLOCK`, is read as none. -/
def flushOf (flush : Int) : MzFlush :=
  if flush = 1 then .partly
  else if flush = 2 then .sync
  else if flush = 3 then .full
  else if flush = 4 then .finish
  else .none

def zSyncFlush : Int := 2

def zFinish : Int := 4

/-! ## Header and trailer -/

inductive Format where
  | gzip
  | deflate
  | deflateRaw
  deriving DecidableEq

/-- What follows the deflate data; a CRC is given by the bytes it has seen. -/
inductive Trailer where
  | none
  | adler (sum : UInt32)
  | gzip (seen : Bytes)

namespace Trailer

variable (k : Checksums)

def update : Trailer → Bytes → Trailer
  | none, _ => .none
  | adler sum, data => .adler (k.adler32 sum data)
  | gzip seen, data => .gzip (seen ++ data)

def bytes : Trailer → Bytes
  | none => []
  | adler sum => Bytes.beOfU32 sum
  | gzip seen => Bytes.leOfU32 (k.crc32 seen) ++ Bytes.leOfU32 (crcAmount seen)

end Trailer

/-- -1 is zlib's default, 6, as is anything outside 0..=9. -/
def minizLevel (level : Int) : Nat := if 0 ≤ level ∧ level ≤ 9 then level.toNat else 6

def gzipHeader (level : Nat) : Bytes :=
  let xfl : UInt8 := if 9 ≤ level then 2 else if level ≤ 1 then 4 else 0
  [0x1f, 0x8b, 8, 0, 0, 0, 0, 0, xfl, 255]

def zlibHeader (level : Nat) (fdict : Bool) : Bytes :=
  let flevel := if level ≤ 1 then 0 else if level ≤ 5 then 1 else if 7 ≤ level ∧ level ≤ 9 then 3 else 2
  let header := 0x7800 + flevel * 64 + if fdict then 0x20 else 0
  let header := header + (31 - header % 31)
  [UInt8.ofNat (header / 256), UInt8.ofNat header]

/-! ## The stream -/

structure NodeDeflate (K : Type) where
  core : K
  trailer : Trailer
  pending : Bytes
  pendingAt : Nat
  ended : Bool

namespace NodeDeflate

variable {K : Type} (z : Compressor K) (k : Checksums)

def dictionaryFor (format : Format) (dictionary : Option Bytes) : Option Bytes :=
  dictionary.filter fun d => !d.isEmpty && format ≠ .gzip

def header (format : Format) (level : Int) (dictionary : Option Bytes) : Bytes :=
  match format with
  | .gzip => gzipHeader (minizLevel level)
  | .deflateRaw => []
  | .deflate =>
    zlibHeader (minizLevel level) (dictionaryFor format dictionary).isSome ++ match dictionaryFor format dictionary with
      | some d => Bytes.beOfU32 (k.adler32 1 d)
      | none => []

def newTrailer : Format → Trailer
  | .gzip => .gzip []
  | .deflate => .adler 1
  | .deflateRaw => .none

/-- `prime`'s loop, with `fed` bytes of the dictionary's tail read. -/
def primeLoop (tail : Bytes) : Nat → K → Nat → Option K
  | 0, _, _ => none
  | fuel + 1, core, fed =>
    match z.deflate core (tail.drop fed) (tail.length + 64) .sync with
    | (core, consumed, written, _) =>
      if fed + consumed = tail.length ∧ written.length < tail.length + 64 then some core
      else primeLoop tail fuel core (fed + consumed)

def prime (fuel : Nat) (core : K) (tail : Bytes) : Option K := primeLoop z tail fuel core 0

def new (fuel : Nat) (format : Format) (level : Int) (dictionary : Option Bytes) : Option (NodeDeflate K) :=
  let core := z.setLevel z.init (minizLevel level)
  let core :=
    match dictionaryFor format dictionary with
    | some d => prime z fuel core (lastWindow d)
    | none => some core
  core.map fun core =>
    { core, trailer := newTrailer format, pending := header k format level dictionary, pendingAt := 0, ended := false }

def left (d : NodeDeflate K) : Bytes := d.pending.drop d.pendingAt

def drain (d : NodeDeflate K) (room : Nat) : NodeDeflate K × Bytes :=
  let n := min d.left.length room
  ({ d with pendingAt := d.pendingAt + n }, d.left.take n)

/-- The data goes into the checksum, and the end of the deflate data puts the trailer into `pending`. -/
def afterCall (d : NodeDeflate K) (core : K) (data : Bytes) (streamEnd : Bool) : NodeDeflate K :=
  let d := { d with core, trailer := d.trailer.update k data }
  if streamEnd then { d with ended := true, pending := d.pending ++ d.trailer.bytes k } else d

def deflate (d : NodeDeflate K) (input : Bytes) (room : Nat) (flush : Int) : NodeDeflate K × Nat × Bytes :=
  let (d, drained) := d.drain room
  if d.ended ∨ drained.length = room then (d, 0, drained)
  else
    match z.deflate d.core input (room - drained.length) (flushOf flush) with
    | (core, consumed, written, streamEnd) =>
      let d := d.afterCall k core (input.take consumed) streamEnd
      if streamEnd then
        let (d, rest) := d.drain (room - drained.length - written.length)
        (d, consumed, drained ++ written ++ rest)
      else (d, consumed, drained ++ written)

/-- `deflate_vec`'s loop: 16 KiB at a time, until the input is read and a call leaves room. -/
def deflateVecLoop (flush : Int) : Nat → NodeDeflate K → Bytes → Bytes → Option (NodeDeflate K × Bytes)
  | 0, _, _, _ => none
  | fuel + 1, d, input, out =>
    match d.deflate z k input stepOut flush with
    | (d, consumed, produced) =>
      if (input.drop consumed).isEmpty ∧ produced.length < stepOut then some (d, out ++ produced)
      else deflateVecLoop flush fuel d (input.drop consumed) (out ++ produced)

def deflateVec (fuel : Nat) (d : NodeDeflate K) (input : Bytes) (flush : Int) : Option (NodeDeflate K × Bytes) :=
  deflateVecLoop z k flush fuel d input []

def params (fuel : Nat) (d : NodeDeflate K) (level : Option Int) : Option (NodeDeflate K × Bytes) :=
  (deflateVec z k fuel d [] zSyncFlush).map fun (d, flushed) =>
    match level with
    | some level => ({ d with core := z.setLevel d.core (minizLevel level) }, flushed)
    | none => (d, flushed)

/-! ## A caller's schedule -/

/-- What a caller may do before the end: `deflate` or `deflate_vec` on the next `size` bytes of the data,
    or `params`. -/
inductive Op where
  | call (size room : Nat) (flush : Int)
  | vec (size : Nat) (flush : Int)
  | params (level : Option Int)

/-- How the caller ends: `Z_FINISH` on what is left until a call leaves room, or `finish_vec`. -/
inductive Ending where
  | drive (room : Nat → Nat)
  | vec

/-- The stream, the data not read yet, and the bytes written so far. -/
structure Progress (K : Type) where
  stream : NodeDeflate K
  unread : Bytes
  out : Bytes

def Progress.apply (fuel : Nat) (s : Progress K) : Op → Option (Progress K)
  | .call size room flush =>
    match s.stream.deflate z k (s.unread.take size) room flush with
    | (stream, consumed, produced) =>
      some { stream, unread := s.unread.drop consumed, out := s.out ++ produced }
  | .vec size flush =>
    (s.stream.deflateVec z k fuel (s.unread.take size) flush).map fun (stream, out) =>
      { stream, unread := s.unread.drop size, out := s.out ++ out }
  | .params level =>
    (s.stream.params z k fuel level).map fun (stream, out) => { s with stream, out := s.out ++ out }

def Progress.applyAll (fuel : Nat) : Progress K → List Op → Option (Progress K)
  | s, [] => some s
  | s, op :: ops => (s.apply z k fuel op).bind fun s => Progress.applyAll fuel s ops

/-- `Z_FINISH` driven until a call leaves room; the `n`-th call has `room n` bytes. -/
def finishLoop (room : Nat → Nat) : Nat → Nat → Progress K → Option (Progress K)
  | 0, _, _ => none
  | fuel + 1, call, s =>
    match s.stream.deflate z k s.unread (room call) zFinish with
    | (stream, consumed, produced) =>
      let s : Progress K := { stream, unread := s.unread.drop consumed, out := s.out ++ produced }
      if produced.length < room call then some s else finishLoop room fuel (call + 1) s

def Progress.finish (fuel : Nat) (s : Progress K) : Ending → Option (Progress K)
  | .drive room => finishLoop z k room fuel 0 s
  | .vec =>
    (s.stream.deflateVec z k fuel s.unread zFinish).map fun (stream, out) =>
      { stream, unread := [], out := s.out ++ out }

def compressAll (fuel : Nat) (format : Format) (level : Int) (dictionary : Option Bytes) (data : Bytes)
    (ops : List Op) (ending : Ending) : Option (Progress K) :=
  (new z k fuel format level dictionary).bind fun stream =>
    (Progress.applyAll z k fuel { stream, unread := data, out := [] } ops).bind fun s =>
      s.finish z k fuel ending

end NodeDeflate

end Oam.Zlib
