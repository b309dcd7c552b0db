/-
  The DER reader of `tls/names.rs`, and the strings of a certificate's names.  An element is read the same whatever
  follows it (`readDer_local`), so `derItems` accepts the rows of elements and no other text.
-/
import Oam.Lib.Decimal
import Oam.Lib.Utf

namespace Oam.Tls

open List Text

/-! ## Elements -/

structure Der where
  tag : UInt8
  content : List UInt8
  raw : List UInt8
deriving DecidableEq, Repr

def bigEndian (bytes : List UInt8) : Nat := bytes.foldl (fun acc b => acc * 256 + b.toNat) 0

/-- The length that starts with the octet `first`, and what follows it: `first` itself, or up to four octets. -/
def readLength (first : UInt8) (rest : List UInt8) : Option (Nat × List UInt8) :=
  if first &&& 0x80 = 0 then some (first.toNat, rest)
  else
    let count := (first &&& 0x7f).toNat
    if count = 0 ∨ 4 < count ∨ rest.length < count then none
    else some (bigEndian (rest.take count), rest.drop count)

/-- `read_der`: one element off the front of `input`, and what follows it.  A high tag number is refused. -/
def readDer (input : List UInt8) : Option (Der × List UInt8) :=
  match input with
  | tag :: first :: rest =>
    if tag &&& 0x1f = 0x1f then none
    else
      (readLength first rest).bind fun (len, rest) =>
        if rest.length < len then none
        else
          let header := input.length - rest.length
          some (⟨tag, rest.take len, input.take (header + len)⟩, rest.drop len)
  | _ => none

def derItemsFrom : (fuel : Nat) → List UInt8 → Option (List Der)
  | _, [] => some []
  | 0, _ :: _ => none
  | fuel + 1, content =>
    (readDer content).bind fun (item, rest) => (derItemsFrom fuel rest).map (item :: ·)

/-- `der_items`: every element in `content`, in order. -/
def derItems (content : List UInt8) : Option (List Der) := derItemsFrom content.length content

variable {content rest : List UInt8} {item : Der}

theorem readLength_local {first : UInt8} {len : Nat} (h : readLength first content = some (len, rest)) :
    ∃ octets, content = octets ++ rest ∧ ∀ rest', readLength first (octets ++ rest') = some (len, rest') := by
  unfold readLength at h ⊢
  split at h
  · next hshort =>
    cases h
    exact ⟨[], rfl, fun _ => if_pos hshort⟩
  next hlong =>
  dsimp only at h
  split at h
  · cases h
  next hcount =>
  cases h
  have htake : (content.take (first &&& 0x7f).toNat).length = (first &&& 0x7f).toNat := length_take_of_le (by omega)
  refine ⟨_, (take_append_drop ..).symm, fun rest' => ?_⟩
  rw [if_neg hlong]
  dsimp only
  rw [if_neg (by rw [length_append]; omega), take_left' htake, drop_left' htake]

/-- An element is read off its own octets, whatever follows them. -/
theorem readDer_local (h : readDer content = some (item, rest)) :
    0 < item.raw.length ∧ content = item.raw ++ rest ∧ ∀ rest', readDer (item.raw ++ rest') = some (item, rest') := by
  unfold readDer at h
  split at h
  · next tag first tail =>
    split at h
    · cases h
    next htag =>
    obtain ⟨⟨len, after⟩, hlen, h⟩ := Option.bind_eq_some_iff.mp h
    obtain ⟨octets, rfl, hlocal⟩ := readLength_local hlen
    dsimp only at h
    split at h
    · cases h
    next hlong =>
    obtain ⟨body, more, rfl, rfl⟩ : ∃ body more, after = body ++ more ∧ body.length = len :=
      ⟨_, _, (take_append_drop len after).symm, length_take_of_le (by omega)⟩
    have hraw (more : List UInt8) : take ((tag :: first :: (octets ++ (body ++ more))).length - (body ++ more).length +
        body.length) (tag :: first :: (octets ++ (body ++ more))) = tag :: first :: (octets ++ body) := by
      rw [← append_assoc, ← cons_append, ← cons_append]
      exact take_left' (by simp only [length_cons, length_append]; omega)
    rw [hraw, take_left, drop_left] at h
    cases h
    refine ⟨Nat.succ_pos _, by simp, fun rest' => ?_⟩
    rw [cons_append, cons_append, append_assoc, readDer, if_neg htag, hlocal, Option.bind_some]
    dsimp only
    rw [if_neg (by simp), hraw, take_left, drop_left]
  · cases h

theorem derItemsFrom_eq_cons {fuel : Nat} {items : List Der} : derItemsFrom (fuel + 1) content = some (item :: items) ↔
    ∃ rest, readDer content = some (item, rest) ∧ derItemsFrom fuel rest = some items := by
  cases content <;> simp [derItemsFrom, Option.bind_eq_some_iff, readDer]

/-- **The rows of elements, and no other text**: no octet is lost, and each element is cut where it ends read alone. -/
theorem derItems_eq_some_iff (content : List UInt8) (items : List Der) : derItems content = some items ↔
    content = items.flatMap (·.raw) ∧ ∀ item ∈ items, readDer item.raw = some (item, []) := by
  -- the fuel suffices, since an element has octets
  suffices hfrom : ∀ fuel, content.length ≤ fuel → (derItemsFrom fuel content = some items ↔
      content = items.flatMap (·.raw) ∧ ∀ item ∈ items, readDer item.raw = some (item, [])) from hfrom _ (Nat.le_refl _)
  induction items generalizing content with
  | nil =>
    intro fuel _
    cases content <;> cases fuel <;> simp [derItemsFrom, Option.bind_eq_some_iff]
  | cons item items ih =>
    intro fuel hfuel
    rw [flatMap_cons, forall_mem_cons]
    constructor
    · intro h
      obtain _ | fuel := fuel
      · cases content <;> cases h
      obtain ⟨rest, hread, hrest⟩ := derItemsFrom_eq_cons.mp h
      obtain ⟨hpos, rfl, hlocal⟩ := readDer_local hread
      rw [length_append] at hfuel
      obtain ⟨rfl, hitems⟩ := (ih rest fuel (by omega)).mp hrest
      exact ⟨rfl, by simpa using hlocal [], hitems⟩
    · rintro ⟨rfl, hitem, hitems⟩
      obtain ⟨hpos, -, hlocal⟩ := readDer_local hitem
      rw [length_append] at hfuel
      obtain ⟨fuel, rfl⟩ : ∃ less, fuel = less + 1 := ⟨fuel - 1, by omega⟩
      exact derItemsFrom_eq_cons.mpr ⟨_, hlocal _, (ih _ fuel (by omega)).mpr ⟨rfl, hitems⟩⟩

/-! ## Object identifiers -/

/-- The arcs that the octets spell, seven bits an octet in 128 bits; the first number is two arcs. -/
def oidArcs : List UInt8 → (acc : Nat) → (first : Bool) → List Nat
  | [], _, _ => []
  | b :: content, acc, first =>
    let acc := acc * 128 % 340282366920938463463374607431768211456 + b.toNat % 128
    if 0x80 ≤ b.toNat then oidArcs content acc first
    else if first then
      (if acc < 80 then [acc / 40, acc % 40] else [2, acc - 80]) ++ oidArcs content 0 false
    else acc :: oidArcs content 0 false

/-- `oid_text`. -/
def oidText (content : List UInt8) : Str := ['.'].intercalate ((oidArcs content 0 true).map Decimal.decimal)

/-- OpenSSL's short names for the name attributes that certificates carry. -/
def attrShortNames : List (Str × Str) :=
  [("2.5.4.3", "CN"), ("2.5.4.4", "SN"), ("2.5.4.5", "serialNumber"), ("2.5.4.6", "C"), ("2.5.4.7", "L"),
    ("2.5.4.8", "ST"), ("2.5.4.9", "street"), ("2.5.4.10", "O"), ("2.5.4.11", "OU"), ("2.5.4.12", "title"),
    ("2.5.4.13", "description"), ("2.5.4.15", "businessCategory"), ("2.5.4.17", "postalCode"), ("2.5.4.41", "name"),
    ("2.5.4.42", "GN"), ("2.5.4.43", "initials"), ("2.5.4.44", "generationQualifier"), ("2.5.4.46", "dnQualifier"),
    ("2.5.4.65", "pseudonym"), ("2.5.4.97", "organizationIdentifier"), ("0.9.2342.19200300.100.1.1", "UID"),
    ("0.9.2342.19200300.100.1.25", "DC"), ("1.2.840.113549.1.9.1", "emailAddress"),
    ("1.3.6.1.4.1.311.60.2.1.1", "jurisdictionL"), ("1.3.6.1.4.1.311.60.2.1.2", "jurisdictionST"),
    ("1.3.6.1.4.1.311.60.2.1.3", "jurisdictionC")].map fun (oid, name) => (oid.toList, name.toList)

def attrShortName (oid : Str) : Option Str := attrShortNames.lookup oid

theorem mem_oidText {c : Char} (h : c ∈ oidText content) : c = '.' ∨ c.isDigit := by
  rcases mem_intercalate h with h | ⟨_, hpart, hc⟩
  · exact .inl (mem_singleton.mp h)
  · obtain ⟨n, _, rfl⟩ := mem_map.mp hpart
    exact .inr (Decimal.isDigit_of_mem_decimal hc)

/-! ## Strings -/

/-- `char_width`: 0 for UTF-8, else the bytes of a character; `none` for a type that is no string. -/
def charWidth (tag : UInt8) : Option Nat :=
  if tag = 0x0c then some 0
  else if tag ∈ [0x12, 0x13, 0x14, 0x16, 0x17, 0x18, 0x1a] then some 1
  else if tag = 0x1c then some 4
  else if tag = 0x1e then some 2
  else none

/-- The code points of a string of `width`-byte characters. -/
def wideChars (content : List UInt8) (width : Nat) : Option (List Nat) :=
  if content.length % width ≠ 0 then none else some ((content.toChunks width).map bigEndian)

/-- `char::from_u32`. -/
def charFromU32 (n : Nat) : Option Char := if n.isValidChar then some (Char.ofNat n) else none

/-- A byte a character: `char::from(b)` of each. -/
def latin1 (bytes : List UInt8) : Str := bytes.map fun b => Char.ofNat b.toNat

/-- `asn1_string_to_utf8`: a string value as text, or `none` where OpenSSL does not convert it. -/
def asn1StringToUtf8 (tag : UInt8) (content : List UInt8) : Option Str :=
  match charWidth tag with
  | none => none
  | some 0 => decode? content
  | some 1 => some (latin1 content)
  | some width => (wideChars content width).bind fun chars => chars.mapM charFromU32

end Oam.Tls
