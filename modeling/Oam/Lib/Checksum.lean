/-
  The two checksums of deflate's wrappers: CRC-32 and Adler-32.

  Both are folds over the bytes, so both can be fed in pieces (`adler32_append`).  `adler32` carries its
  two sums packed in one word and goes on from any such word; a new sum is 1.
-/
import Oam.Lib.Bytes

namespace Checksum

/-- One bit of the reflected CRC-32. -/
def crcBit (crc : UInt32) : UInt32 :=
  if crc &&& 1 = 1 then (crc >>> 1) ^^^ 0xedb88320 else crc >>> 1

def crcByte (crc : UInt32) (b : UInt8) : UInt32 :=
  (List.range 8).foldl (fun crc _ => crcBit crc) (crc ^^^ b.toUInt32)

/-- CRC-32, as gzip has it. -/
def crc32 (bytes : Bytes) : UInt32 := bytes.foldl crcByte 0xffffffff ^^^ 0xffffffff

def adlerByte (sum : UInt32) (b : UInt8) : UInt32 :=
  let low := (sum.toNat % 65536 + b.toNat) % 65521
  let high := (sum.toNat / 65536 + low) % 65521
  UInt32.ofNat (high * 65536 + low)

/-- Adler-32 of more bytes, from a sum so far. -/
def adler32 (sum : UInt32) (bytes : Bytes) : UInt32 := bytes.foldl adlerByte sum

theorem adler32_append (sum : UInt32) (first second : Bytes) :
    adler32 (adler32 sum first) second = adler32 sum (first ++ second) :=
  List.foldl_append.symm

end Checksum
