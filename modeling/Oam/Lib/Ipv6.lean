/-
  Textual IPv6 addresses, as the Rust standard library reads them (`Ipv6Addr::from_str`).  A reader takes the text at
  hand and gives a value with the text after it, or `none` — and then the caller still has the text it started from,
  which is what the library's "read atomically" is.
-/
import Oam.Lib.Decimal

namespace Ipv6

open Text

/-- An address: eight 16-bit groups. -/
structure Ipv6Addr where
  segments : List UInt16
  length_eq : segments.length = 8
deriving DecidableEq

/-- `char::to_digit` for a radix up to 16. -/
def toDigit (radix : Nat) (c : Char) : Option Nat :=
  let d :=
    if '0' ≤ c ∧ c ≤ '9' then c.toNat - '0'.toNat
    else if 'a' ≤ c ∧ c ≤ 'f' then c.toNat - 'a'.toNat + 10
    else if 'A' ≤ c ∧ c ≤ 'F' then c.toNat - 'A'.toNat + 10
    else radix
  if d < radix then some d else none

/-- The run of digits at the start of a text, and the text after it. -/
def readDigits (radix : Nat) : Str → List Nat × Str
  | [] => ([], [])
  | c :: cs =>
    match toDigit radix c with
    | some d => let (ds, rest) := readDigits radix cs; (d :: ds, rest)
    | none => ([], c :: cs)

/-- A number of at most `maxDigits` digits below `bound`; a longer run is refused, not cut. -/
def readNumber (radix maxDigits bound : Nat) (allowZeroPrefix : Bool) (s : Str) : Option (Nat × Str) :=
  let (digits, rest) := readDigits radix s
  let result := digits.foldl (fun acc d => acc * radix + d) 0
  if digits.isEmpty || decide (maxDigits < digits.length) then none
  else if !allowZeroPrefix && s.head? == some '0' && decide (1 < digits.length) then none
  else if result < bound then some (result, rest)
  else none

/-- `inner`, after a separator unless it is the first (`index` 0). -/
def readSeparator {τ : Type} (sep : Char) (index : Nat) (inner : Str → Option (τ × Str)) (s : Str) : Option (τ × Str) :=
  if index = 0 then inner s
  else
    match s with
    | c :: cs => if c = sep then inner cs else none
    | [] => none

/-- One octet of an IPv4 address: no leading zero, which other readers take as octal. -/
def readOctet (index : Nat) (s : Str) : Option (Nat × Str) :=
  readSeparator '.' index (readNumber 10 3 256 false) s

def readIpv4Addr (s : Str) : Option ((UInt16 × UInt16) × Str) := do
  let (one, s) ← readOctet 0 s
  let (two, s) ← readOctet 1 s
  let (three, s) ← readOctet 2 s
  let (four, s) ← readOctet 3 s
  return ((UInt16.ofNat (one * 256 + two), UInt16.ofNat (three * 256 + four)), s)

/-- Up to `left` groups, `i` of which were read before, whether an IPv4 address ended them, and the text after them. -/
def readGroups : (left i : Nat) → Str → List UInt16 × Bool × Str
  | 0, _, s => ([], false, s)
  | left + 1, i, s =>
    match if left = 0 then none else readSeparator ':' i readIpv4Addr s with
    | some ((hi, lo), s') => ([hi, lo], true, s')
    | none =>
      match readSeparator ':' i (readNumber 16 4 65536 true) s with
      | some (g, s') =>
        let (gs, v4, s'') := readGroups left (i + 1) s'
        (UInt16.ofNat g :: gs, v4, s'')
      | none => ([], false, s)

theorem readGroups_length (left i : Nat) (s : Str) : (readGroups left i s).1.length ≤ left := by
  induction left generalizing i s with
  | zero => exact Nat.le_refl 0
  | succ left ih =>
    unfold readGroups
    split
    · rename_i h
      split at h
      · nomatch h
      · show 2 ≤ left + 1
        omega
    · split
      · exact Nat.succ_le_succ (ih _ _)
      · exact Nat.zero_le _

/-- Eight groups, or fewer around one `::`.  An IPv4 address may end the whole, not the part before
    the `::`. -/
def readIpv6Addr (s : Str) : Option (Ipv6Addr × Str) :=
  let head := readGroups 8 0 s
  if h8 : head.1.length = 8 then some (⟨head.1, h8⟩, head.2.2)
  else if head.2.1 then none
  else
    match head.2.2 with
    | ':' :: ':' :: s' =>
      let limit := 8 - (head.1.length + 1)
      let tail := readGroups limit 0 s'
      let zeros := List.replicate (8 - head.1.length - tail.1.length) (0 : UInt16)
      have hlen : (head.1 ++ zeros ++ tail.1).length = 8 := by
        have hhead : head.1.length ≤ 8 := readGroups_length 8 0 s
        have htail : tail.1.length ≤ limit := readGroups_length limit 0 s'
        simp only [List.length_append, zeros, List.length_replicate]
        omega
      some (⟨head.1 ++ zeros ++ tail.1, hlen⟩, tail.2.2)
    | _ => none

/-- `Ipv6Addr::from_str`: the whole text is one address. -/
def parse (s : Str) : Option Ipv6Addr :=
  match readIpv6Addr s with
  | some (addr, []) => some addr
  | _ => none

end Ipv6
