/-
  `node_compat.js`: URLSearchParams, written out and parsed.  The pairs come back, in order, but the decoder DROPS a
  byte order mark, so U+FEFF at the start of a name or value is lost (`mark_lost`).
-/
import Oam.Js.TextDecoder

namespace Oam.Js

open List Text

/-! ## Program -/

/-- `FORM_SAFE`: letters, digits and four signs. -/
def formSafe (c : Char) : Bool := c.isAlphanum || ['*', '-', '.', '_'].contains c

/-- A digit of `byte.toString(16).toUpperCase()`. -/
def hexDigit (n : Nat) : Char := Char.ofNat (if n < 10 then 0x30 + n else 0x37 + n)

def formByte (b : UInt8) : Str :=
  let c := Char.ofNat b.toNat
  if c = ' ' then ['+'] else if formSafe c then [c] else ['%', hexDigit (b.toNat / 16), hexDigit (b.toNat % 16)]

def formEncode (text : Str) : Str := (encode text).flatMap formByte

/-- The value of a hexadecimal digit. -/
def hexValue (c : Char) : Option Nat :=
  if '0' ≤ c ∧ c ≤ '9' then some (c.toNat - 0x30)
  else if 'A' ≤ c ∧ c ≤ 'F' then some (c.toNat - 0x37)
  else if 'a' ≤ c ∧ c ≤ 'f' then some (c.toNat - 0x57)
  else none

/-- The byte of the two hexadecimal digits a text starts with. -/
def escaped : Str → Option UInt8
  | a :: b :: _ => (hexValue a).bind fun x => (hexValue b).map fun y => UInt8.ofNat (x * 16 + y)
  | _ => none

/-- The loop of `formDecode` behind the next `skip` characters; `literal` is the run that is not encoded yet. -/
def formBytes : (skip : Nat) → (literal : Str) → Str → List UInt8
  | _, literal, [] => encode literal
  | skip + 1, literal, _ :: rest => formBytes skip literal rest
  | 0, literal, c :: rest =>
    match if c = '%' then escaped rest else none with
    | some byte => encode literal ++ byte :: formBytes 2 [] rest
    | none => formBytes 0 (literal ++ [c]) rest

def unplus (c : Char) : Char := if c = '+' then ' ' else c

def formDecode (text : Str) : Str :=
  (((TextDecoder.new false false).decode false (formBytes 0 [] (text.map unplus))).2).getD []

/-- `URLSearchParams._parse`. -/
def parse (text : Str) : List (Str × Str) :=
  let raw := if text.head? = some '?' then text.tail else text
  ((raw.splitOn '&').filter fun piece => !piece.isEmpty).map fun piece =>
    match splitOnce '=' piece with
    | none => (formDecode piece, [])
    | some (name, value) => (formDecode name, formDecode value)

def pieceOf (p : Str × Str) : Str := formEncode p.1 ++ '=' :: formEncode p.2

/-- `URLSearchParams.toString`. -/
def toString (list : List (Str × Str)) : Str := ['&'].intercalate (list.map pieceOf)

/-! ## Correctness -/

theorem hexDigit_spec : ∀ d < 16, hexValue (hexDigit d) = some d ∧ unplus (hexDigit d) = hexDigit d := by decide

/-- A byte is written as itself, a space as a plus sign, or as an escape; never with a character that separates. -/
theorem formByte_cases (b : UInt8) : (((formByte b).map unplus = [Char.ofNat b.toNat] ∧ b.toNat < 128 ∧
    Char.ofNat b.toNat ≠ '%') ∨ formByte b = ['%', hexDigit (b.toNat / 16), hexDigit (b.toNat % 16)]) ∧
    (formByte b).all (· ∉ ['&', '=', '?']) := by
  have hall : ∀ n < 256, (((formByte (.ofNat n)).map unplus = [Char.ofNat n] ∧ n < 128 ∧ Char.ofNat n ≠ '%') ∨
      formByte (.ofNat n) = ['%', hexDigit (n / 16), hexDigit (n % 16)]) ∧
      (formByte (.ofNat n)).all (· ∉ ['&', '=', '?']) := by decide +kernel
  simpa using hall b.toNat b.toNat_lt

theorem formBytes_formByte (literal : Str) (b : UInt8) (rest : Str) (bytes : List UInt8)
    (h : ∀ literal, formBytes 0 literal rest = encode literal ++ bytes) :
    formBytes 0 literal ((formByte b).map unplus ++ rest) = encode literal ++ b :: bytes := by
  rcases (formByte_cases b).1 with ⟨hsame, hlt, hne⟩ | hesc
  · rw [hsame, singleton_append, formBytes, if_neg hne]
    dsimp only
    rw [h, encode_append, encode_ascii (s := [Char.ofNat b.toNat])]
    · simp [toNat_ofNat_of_valid (n := b.toNat) (by omega)]
    · simpa [toNat_ofNat_of_valid (n := b.toNat) (by omega)] using hlt
  · have hb := b.toNat_lt
    have h₁ := hexDigit_spec (b.toNat / 16) (by omega)
    have h₂ := hexDigit_spec (b.toNat % 16) (by omega)
    have hback : UInt8.ofNat (b.toNat / 16 * 16 + b.toNat % 16) = b := by
      rw [Nat.div_add_mod', UInt8.ofNat_toNat]
    rw [hesc, map_cons, map_cons, map_cons, h₁.2, h₂.2]
    simp only [map_nil, cons_append, nil_append]
    rw [formBytes, if_pos (by decide), escaped, h₁.1, h₂.1]
    simp only [Option.bind_some, Option.map_some, hback, formBytes, h]
    rfl

theorem formBytes_formEncode (text : Str) : formBytes 0 [] ((formEncode text).map unplus) = encode text := by
  have h : ∀ (bytes : List UInt8) literal,
      formBytes 0 literal ((bytes.flatMap formByte).map unplus) = encode literal ++ bytes := by
    intro bytes
    induction bytes with
    | nil => intro literal; rw [flatMap_nil, map_nil, formBytes, append_nil]
    | cons b bytes ih =>
      intro literal
      rw [flatMap_cons, map_append]
      exact formBytes_formByte literal b _ bytes ih
  exact h (encode text) []

theorem not_mem_formEncode {c : Char} (hc : c ∈ ['&', '=', '?']) (text : Str) : c ∉ formEncode text := by
  intro h
  obtain ⟨b, -, hb⟩ := mem_flatMap.mp h
  exact of_decide_eq_true (all_eq_true.mp (formByte_cases b).2 c hb) hc

def unmarked (s : Str) : Str := if s.head? = some mark then s.tail else s

theorem formDecode_formEncode (s : Str) : formDecode (formEncode s) = unmarked s := by
  rw [formDecode, formBytes_formEncode, unmarked]
  have hdecode : ((TextDecoder.new false false).decode false (encode s)).2 =
      utf8DecodeRange false ((encode s).drop (if bom.isPrefixOf (encode s) then 3 else 0)) := by
    simp [TextDecoder.decode, TextDecoder.new, TextDecoder.start]
  rw [hdecode]
  by_cases h : s.head? = some mark
  · obtain ⟨s, rfl⟩ := head?_eq_some_iff.mp h
    have hdrop : (encode (mark :: s)).drop 3 = encode s := rfl
    rw [if_pos ((bom_prefix_encode _).mpr h), if_pos h, hdrop, decode_encode]
    rfl
  · rw [if_neg fun hb => h ((bom_prefix_encode s).mp hb), if_neg h, drop_zero, decode_encode]
    rfl

theorem unmarked_eq_self {s : Str} : unmarked s = s ↔ s.head? ≠ some mark := by
  unfold unmarked
  constructor
  · intro h hmark
    rw [if_pos hmark] at h
    obtain ⟨s, rfl⟩ := head?_eq_some_iff.mp hmark
    exact cons_ne_self mark s h.symm
  · exact fun h => if_neg h

theorem not_mem_pieceOf {c : Char} (hc : c ∈ ['&', '?']) (p : Str × Str) : c ∉ pieceOf p := by
  have hne : c ≠ '=' := by rintro rfl; exact absurd hc (by decide)
  have hc : c ∈ ['&', '=', '?'] := by simp at hc ⊢; tauto
  rw [pieceOf, mem_append, mem_cons, not_or, not_or]
  exact ⟨not_mem_formEncode hc p.1, hne, not_mem_formEncode hc p.2⟩

theorem parse_toString (list : List (Str × Str)) :
    parse (toString list) = list.map fun p => (unmarked p.1, unmarked p.2) := by
  cases list with
  | nil => rfl
  | cons p list =>
  have hhead : (toString (p :: list)).head? ≠ some '?' := by
    obtain ⟨r, hr⟩ := prefix_intercalate ['&'] (pieceOf p) (list.map pieceOf)
    intro h
    rw [toString, map_cons, ← hr, head?_append_of_ne_nil _ (by simp [pieceOf])] at h
    exact not_mem_pieceOf (by decide) p (mem_of_head? h)
  have hsplit : (toString (p :: list)).splitOn '&' = (p :: list).map pieceOf :=
    splitOn_intercalate '&' (forall_mem_map.mpr fun q _ => not_mem_pieceOf (by decide) q) (by simp)
  have hall : ∀ piece ∈ (p :: list).map pieceOf, (!piece.isEmpty) := forall_mem_map.mpr fun q _ => by simp [pieceOf]
  rw [parse, if_neg hhead, hsplit, filter_eq_self.mpr hall, map_map]
  refine map_congr_left fun q _ => ?_
  have heq : '=' ∉ formEncode q.1 := not_mem_formEncode (by decide) q.1
  simp only [Function.comp_apply, pieceOf, splitOnce_append heq, formDecode_formEncode]

/-- **The parameters come back iff none of their names and values starts with U+FEFF.** -/
theorem parse_toString_iff (list : List (Str × Str)) :
    parse (toString list) = list ↔ ∀ p ∈ list, p.1.head? ≠ some mark ∧ p.2.head? ≠ some mark := by
  have hsame := map_inj_left (l := list) (f := fun p => (unmarked p.1, unmarked p.2)) (g := id)
  rw [map_id] at hsame
  rw [parse_toString, hsame]
  refine forall₂_congr fun p _ => ?_
  rw [← unmarked_eq_self, ← unmarked_eq_self]
  exact Prod.ext_iff

/-- A value that is U+FEFF comes back empty. -/
theorem mark_lost : parse (toString [(['a'], [mark])]) = [(['a'], [])] := by decide +kernel

end Oam.Js
