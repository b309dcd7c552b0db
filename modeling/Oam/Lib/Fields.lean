/-
  Lines and the fields of a line.

  `str::lines` and `str::split_whitespace`, and UTF-8 both ways: a text is accepted from bytes only if they are its
  encoding, with no overlong form and no surrogate (`decode?`).
-/
import Oam.Lib.Text

namespace Text

open List

/-! ## Lines and fields -/

/-- `char::is_whitespace`: the Unicode property `White_Space`. -/
def isWhitespace (c : Char) : Bool :=
  let n := c.toNat
  (9 ≤ n && n ≤ 13) || n == 0x20 || n == 0x85 || n == 0xA0 || n == 0x1680 || (0x2000 ≤ n && n ≤ 0x200A) ||
    n == 0x2028 || n == 0x2029 || n == 0x202F || n == 0x205F || n == 0x3000

def trimStart (s : Str) : Str := s.dropWhile isWhitespace

/-- The non-empty fields between whitespace. -/
def splitWhitespace (s : Str) : List Str := (s.splitOnP isWhitespace).filter fun field => !field.isEmpty

def stripCr (line : Str) : Str := if line.getLast? = some '\r' then line.dropLast else line

/-- The lines without their ends, `\n` or `\r\n`; the last one may lack it. -/
def lines (s : Str) : List Str :=
  let parts := s.splitOn '\n'
  (if parts.getLast? = some [] then parts.dropLast else parts).map stripCr

/-! ## UTF-8 -/

/-- The UTF-8 bytes of a text. -/
def encode (s : Str) : List UInt8 := s.flatMap String.utf8EncodeChar

def isContinuation (b : UInt8) : Bool := 0x80 ≤ b.toNat && b.toNat < 0xC0

def payload (b : UInt8) : Nat := b.toNat % 64

/-- The text of well-formed UTF-8. -/
def decode? : List UInt8 → Option Str
  | [] => some []
  | b :: rest =>
    let n := b.toNat
    if n < 0x80 then (decode? rest).map (Char.ofNat n :: ·)
    else
      match rest with
      | [] => none
      | b₁ :: rest =>
        if !isContinuation b₁ then none
        else if 0xC2 ≤ n && n < 0xE0 then (decode? rest).map (Char.ofNat ((n % 32) * 64 + payload b₁) :: ·)
        else
          match rest with
          | [] => none
          | b₂ :: rest =>
            if !isContinuation b₂ then none
            else if 0xE0 ≤ n && n < 0xF0 then
              -- neither an overlong form nor a surrogate
              if (n == 0xE0 && b₁.toNat < 0xA0) || (n == 0xED && 0xA0 ≤ b₁.toNat) then none
              else (decode? rest).map (Char.ofNat ((n % 16) * 4096 + payload b₁ * 64 + payload b₂) :: ·)
            else
              match rest with
              | [] => none
              | b₃ :: rest =>
                if !isContinuation b₃ then none
                else if 0xF0 ≤ n && n < 0xF5 then
                  if (n == 0xF0 && b₁.toNat < 0x90) || (n == 0xF4 && 0x90 ≤ b₁.toNat) then none
                  else
                    (decode? rest).map
                      (Char.ofNat ((n % 8) * 262144 + payload b₁ * 4096 + payload b₂ * 64 + payload b₃) :: ·)
                else none

theorem encode_append (s t : Str) : encode (s ++ t) = encode s ++ encode t := flatMap_append

theorem encode_ascii {s : Str} (h : ∀ c ∈ s, c.toNat < 128) : encode s = s.map fun c => UInt8.ofNat c.toNat := by
  induction s with
  | nil => rfl
  | cons c s ih =>
    have hc := h c mem_cons_self
    have henc : String.utf8EncodeChar c = [UInt8.ofNat c.toNat] := by
      unfold String.utf8EncodeChar
      dsimp only
      rw [if_pos (show c.val.toNat ≤ 0x7f by have : c.val.toNat = c.toNat := rfl; omega)]
      rfl
    rw [map_cons, ← ih (fun d hd => h d (mem_cons_of_mem c hd))]
    show String.utf8EncodeChar c ++ encode s = _
    rw [henc]
    rfl

theorem ascii_injective {s t : Str} (hs : ∀ c ∈ s, c.toNat < 128) (ht : ∀ c ∈ t, c.toNat < 128)
    (h : (s.map fun c => UInt8.ofNat c.toNat) = t.map fun c => UInt8.ofNat c.toNat) : s = t := by
  have hback {u : Str} (hu : ∀ c ∈ u, c.toNat < 128) :
      (u.map fun c => UInt8.ofNat c.toNat).map (fun b => Char.ofNat b.toNat) = u := by
    rw [map_map]
    refine (map_congr_left fun c hc => ?_).trans (map_id u)
    have hlt := hu c hc
    rw [Function.comp_apply, UInt8.toNat_ofNat', Nat.mod_eq_of_lt (by omega), Char.ofNat_toNat, id]
  rw [← hback hs, h, hback ht]

end Text
