/-
  `http_head.rs`: node's rules for an inbound HTTP/1 request head.

  `checkRequestHead` cuts the bytes into lines and passes over them ONCE, with a running count and three framing flags,
  and stops at the first rule that is broken.  After the fields `done` the pass holds exactly `framing`, a function of
  `done`; so it comes to the end iff the `Rules` hold, and where it stops is the first line whose prefix breaks one.
-/
import Oam.Lib.Bytes
import Oam.Lib.Decimal
import Mathlib.Algebra.Group.Nat.Defs

namespace Oam.Http

open List Bytes Decimal

/-! ## Program -/

/-- The part of `HeadPolicy` that the check reads. -/
structure HeadPolicy where
  maxHeaderSize : Nat
  lenient : Bool
  fits : maxHeaderSize < 2 ^ 64

inductive HeadError where
  | badRequest (rule : String)
  | headerOverflow
deriving DecidableEq

def HeadError.status : HeadError → Nat
  | .badRequest _ => 400
  | .headerOverflow => 431

def space : UInt8 := 32

def tab : UInt8 := 9

def isOws (b : UInt8) : Bool := b == space || b == tab

def isLf (b : UInt8) : Bool := b == 10

def trimLeadingOws (v : Bytes) : Bytes := v.dropWhile isOws

def trimOws (v : Bytes) : Bytes := (trimLeadingOws v).rdropWhile isOws

/-- `line` without the byte `b` it ends in, if it does. -/
def stripSuffix (b : UInt8) (line : Bytes) : Bytes :=
  if line.getLast? = some b then line.dropLast else line

def stripEol (line : Bytes) : Bytes := stripSuffix 13 (stripSuffix 10 line)

def bareLf (line : Bytes) : Bool := [10].isSuffixOf line && !([13, 10].isSuffixOf line)

def isEmptyLine (line : Bytes) : Bool := line == [13, 10] || line == [10]

/-- The method and the target of a request line: what lies before the first space, and between it and
    the last one. -/
def splitRequestLine (line : Bytes) : Bytes × Bytes :=
  let text := stripEol line
  match position (· == space) text, rposition (· == space) text with
  | some first, some last =>
    if last > first then (text.take first, (text.take last).drop (first + 1))
    else (text.take first, [])
  | some first, none => (text.take first, [])
  | none, _ => (text, [])

def isAsciiAlphabetic (b : UInt8) : Bool :=
  (decide (65 ≤ b.toNat) && decide (b.toNat ≤ 90)) || (decide (97 ≤ b.toNat) && decide (b.toNat ≤ 122))

def isAsciiDigit (b : UInt8) : Bool := decide (48 ≤ b.toNat) && decide (b.toNat ≤ 57)

/-- `/` or `?`, which end an authority. -/
def endsAuthority (b : UInt8) : Bool := b == 47 || b == 63

def isRequestTarget (target : Bytes) : Bool :=
  match target with
  | [] => false
  | b :: _ =>
    if b == 47 || b == 42 then true
    else if isAsciiAlphabetic b then
      match (target.dropWhile isAsciiAlphabetic).dropPrefix? (ascii "://") with
      | none => false
      | some rest => !(rest.takeWhile fun b => !endsAuthority b).contains 35
    else false

def digitsText (v : Bytes) : Text.Str := v.map fun b => Char.ofNat b.toNat

def isContentLength (v : Bytes) : Bool :=
  let v := trimOws v
  !v.isEmpty && v.all isAsciiDigit && (parseUnsigned (2 ^ 64) (digitsText v)).isSome

/-- The running count after `n` more bytes. -/
def addCount (limit count n : Nat) : Except HeadError Nat :=
  let count := min (count + n) (2 ^ 64 - 1)
  if count ≥ limit then .error .headerOverflow else .ok count

/-- What the pass over the fields carries along. -/
structure Framing where
  count : Nat
  contentLengths : Nat
  transferEncoding : Bool
  chunked : Bool
deriving DecidableEq

/-- The codings of one `Transfer-Encoding` value, in order. -/
def checkCodings (strict : Bool) : Bool → List Bytes → Except HeadError Bool
  | chunked, [] => .ok chunked
  | chunked, coding :: codings =>
    if coding.isEmpty then checkCodings strict chunked codings
    else if strict && chunked then .error (.badRequest "Transfer-Encoding after chunked")
    else checkCodings strict (eqIgnoreAsciiCase coding (ascii "chunked")) codings

/-- The framing rules on one field whose bytes have been counted. -/
def checkFraming (strict : Bool) (s : Framing) (name value : Bytes) : Except HeadError Framing :=
  if eqIgnoreAsciiCase name (ascii "content-length") then
    if s.contentLengths + 1 > 1 then .error (.badRequest "duplicate Content-Length")
    else if strict && s.transferEncoding then
      .error (.badRequest "Content-Length with Transfer-Encoding")
    else if !isContentLength value then .error (.badRequest "invalid Content-Length")
    else .ok { s with contentLengths := s.contentLengths + 1 }
  else if eqIgnoreAsciiCase name (ascii "transfer-encoding") then
    -- an empty one does not count
    if (trimOws value).isEmpty then .ok s
    else if strict && decide (s.contentLengths > 0) then
      .error (.badRequest "Transfer-Encoding with Content-Length")
    else
      (checkCodings strict s.chunked ((value.splitOn 44).map trimOws)).map fun chunked =>
        { s with transferEncoding := true, chunked }
  else .ok s

def checkField (policy : HeadPolicy) (s : Framing) (line : Bytes) : Except HeadError Framing := do
  let text := stripEol line
  let colon := (position (· == 58) text).getD 0
  let name := text.take colon
  let value := trimLeadingOws (text.drop (colon + 1))
  let count ← addCount policy.maxHeaderSize s.count name.length
  let count ← addCount policy.maxHeaderSize count value.length
  if !policy.lenient && bareLf line then .error (.badRequest "bare LF line ending")
  else checkFraming (!policy.lenient) { s with count } name value

def checkFields (policy : HeadPolicy) : Framing → List Bytes → Except HeadError Framing
  | s, [] => .ok s
  | s, line :: lines =>
    if isEmptyLine line then
      if !policy.lenient && bareLf line then .error (.badRequest "bare LF line ending") else .ok s
    else (checkField policy s line).bind fun s => checkFields policy s lines

/-- A body's length must be knowable: chunked has to be the final coding. -/
def checkEnd (s : Framing) : Except HeadError Unit :=
  if s.transferEncoding && !s.chunked then
    .error (.badRequest "Transfer-Encoding not ending in chunked")
  else .ok ()

def checkRequestLine (policy : HeadPolicy) (line : Bytes) : Except HeadError Framing := do
  let (method, target) := splitRequestLine line
  let count ← addCount policy.maxHeaderSize 0 target.length
  if method != ascii "CONNECT" && !isRequestTarget target then
    .error (.badRequest "request target form")
  else if !policy.lenient && bareLf line then .error (.badRequest "bare LF line ending")
  else .ok { count, contentLengths := 0, transferEncoding := false, chunked := false }

def checkRequestHead (head : Bytes) (policy : HeadPolicy) : Except HeadError Unit :=
  match (splitInclusive isLf head).dropWhile isEmptyLine with
  | [] => .ok ()
  | requestLine :: lines => do
    let s ← checkRequestLine policy requestLine
    let s ← checkFields policy s lines
    checkEnd s

/-! ## Data: an accepted head -/

inductive Eol where
  | crlf
  | lf
deriving DecidableEq

def Eol.bytes : Eol → Bytes
  | .crlf => [13, 10]
  | .lf => [10]

/-- No carriage return and no line feed. -/
def inLine (text : Bytes) : Bool := text.all fun b => b != 13 && b != 10

/-- A header field as it stands on its line: `name:raw`. -/
structure Field where
  name : Bytes
  raw : Bytes
  eol : Eol
  name_ne : name ≠ []
  name_inLine : inLine name = true
  name_noColon : name.contains 58 = false
  raw_inLine : inLine raw = true

structure RequestHead where
  /-- The empty lines before the request line. -/
  leading : List Eol
  method : Bytes
  target : Bytes
  version : Bytes
  requestEol : Eol
  fields : List Field
  endEol : Eol
  method_ne : method ≠ []
  method_inLine : inLine method = true
  method_noSpace : method.contains space = false
  target_inLine : inLine target = true
  version_inLine : inLine version = true
  version_noSpace : version.contains space = false

def Field.line (f : Field) : Bytes := f.name ++ 58 :: f.raw ++ f.eol.bytes

def RequestHead.requestLine (h : RequestHead) : Bytes :=
  h.method ++ space :: h.target ++ space :: h.version ++ h.requestEol.bytes

def RequestHead.bytes (h : RequestHead) : Bytes :=
  (h.leading.map Eol.bytes).flatten ++ h.requestLine ++ (h.fields.map Field.line).flatten ++ h.endEol.bytes

/-! ## Specification -/

/-- The value as it is counted: without its leading whitespace. -/
def Field.value (f : Field) : Bytes := trimLeadingOws f.raw

def Field.size (f : Field) : Nat := f.name.length + f.value.length

def Field.isLength (f : Field) : Bool := eqIgnoreAsciiCase f.name (ascii "content-length")

def Field.isEncoding (f : Field) : Bool := eqIgnoreAsciiCase f.name (ascii "transfer-encoding")

/-- A `Transfer-Encoding` line with a value that is not blank. -/
def Field.encodes (f : Field) : Bool := f.isEncoding && !(trimOws f.value).isEmpty

def Field.codings (f : Field) : List Bytes :=
  if f.encodes then ((f.value.splitOn 44).map trimOws).filter fun coding => !coding.isEmpty else []

def isChunked (coding : Bytes) : Bool := eqIgnoreAsciiCase coding (ascii "chunked")

/-- One or more digits that fit a `u64`. -/
def IsLength (v : Bytes) : Prop :=
  v ≠ [] ∧ v.all isAsciiDigit = true ∧ value (digitsText v) < 2 ^ 64

/-- Origin form, anything that starts with `*`, or letters, `://` and an authority with no `#`. -/
def IsTarget (target : Bytes) : Prop :=
  (∃ rest, target = 47 :: rest) ∨ (∃ rest, target = 42 :: rest) ∨
    ∃ scheme authority rest, target = scheme ++ (ascii "://" ++ (authority ++ rest)) ∧ scheme ≠ [] ∧
      scheme.all isAsciiAlphabetic = true ∧ authority.all (fun b => !endsAuthority b && b != 35) = true ∧
      (rest = [] ∨ ∃ b tail, rest = b :: tail ∧ endsAuthority b = true)

def counted (target : Bytes) : List Field → Nat
  | [] => target.length
  | f :: fields => f.size + counted target fields

def codings (fields : List Field) : List Bytes := fields.flatMap Field.codings

structure Rules (h : RequestHead) (limit : Nat) : Prop where
  lines : h.requestEol = .crlf ∧ (∀ f ∈ h.fields, f.eol = .crlf) ∧ h.endEol = .crlf
  target : h.method = ascii "CONNECT" ∨ IsTarget h.target
  length : (h.fields.filter Field.isLength).length ≤ 1 ∧ ∀ f ∈ h.fields, f.isLength = true → IsLength (trimOws f.value)
  encoding : (∃ f ∈ h.fields, f.encodes = true) → (∀ f ∈ h.fields, f.isLength = false) ∧
    ∃ before last, codings h.fields = before ++ [last] ∧ isChunked last = true ∧
      ∀ coding ∈ before, isChunked coding = false
  size : counted h.target h.fields < limit

/-- No coding but the last is chunked. -/
def ChunkedLast (codings : List Bytes) : Prop := ∀ coding ∈ codings.dropLast, isChunked coding = false

structure FieldsOk (fields : List Field) : Prop where
  lines : ∀ f ∈ fields, f.eol = .crlf
  oneLength : (fields.filter Field.isLength).length ≤ 1
  isLength : ∀ f ∈ fields, f.isLength = true → IsLength (trimOws f.value)
  notBoth : (∃ f ∈ fields, f.encodes = true) → ∀ f ∈ fields, f.isLength = false
  chunkedLast : ChunkedLast (codings fields)

/-- The request line and the first `n` fields break none of the rules but the size. -/
def PrefixOk (h : RequestHead) (n : Nat) : Prop :=
  (h.method = ascii "CONNECT" ∨ IsTarget h.target) ∧ h.requestEol = .crlf ∧ FieldsOk (h.fields.take n)

/-- The count reaches the limit on a line before which no other rule is broken. -/
def OverflowsFirst (h : RequestHead) (limit : Nat) : Prop :=
  ∃ n ≤ h.fields.length, limit ≤ counted h.target (h.fields.take n) ∧ ∀ m < n, PrefixOk h m

open Http.Field

/-! ## Lines -/

variable {text : Bytes} {b : UInt8}

theorem beq_false_of_contains (h : text.contains b = false) : ∀ c ∈ text, (c == b) = false := by
  intro c hc
  rw [beq_eq_false_iff_ne]
  rintro rfl
  rw [contains_iff_mem.mpr hc] at h
  cases h

theorem ne_of_inLine (h : inLine text) (hb : b ∈ text) : b ≠ 13 ∧ b ≠ 10 := by
  simpa using all_eq_true.mp h b hb

theorem inLine_append {a b : Bytes} (ha : inLine a) (hb : inLine b) : inLine (a ++ b) := by
  rw [inLine, all_append, Bool.and_eq_true]
  exact ⟨ha, hb⟩

theorem inLine_cons (hb : b ≠ 13 ∧ b ≠ 10) (h : inLine text) : inLine (b :: text) := by
  rw [inLine, all_cons, Bool.and_eq_true]
  exact ⟨by simpa using hb, h⟩

theorem splitInclusive_line (h : inLine text) (e : Eol) (rest : Bytes) : splitInclusive isLf
    (text ++ e.bytes ++ rest) = (text ++ e.bytes) :: splitInclusive isLf rest := by
  have htext : ∀ b ∈ text, isLf b = false := fun b hb => by
    simpa [isLf] using (ne_of_inLine h hb).2
  cases e with
  | lf =>
    rw [append_assoc]
    exact splitInclusive_append htext rfl rest
  | crlf =>
    have hline : ∀ b ∈ text ++ [13], isLf b = false := fun b hb => by
      rcases mem_append.mp hb with hb | hb
      · exact htext b hb
      · rw [mem_singleton.mp hb]
        rfl
    have hcut := splitInclusive_append hline (rfl : isLf 10) rest
    simpa [Eol.bytes] using hcut

theorem stripEol_line (h : inLine text) (e : Eol) : stripEol (text ++ e.bytes) = text := by
  -- a text that holds no carriage return does not end in one
  have hlast : stripSuffix 13 text = text := by
    rw [stripSuffix, if_neg]
    intro hcr
    exact (ne_of_inLine h (mem_of_getLast? hcr)).1 rfl
  cases e with
  | lf =>
    have hlf : stripSuffix 10 (text ++ [10]) = text := by simp [stripSuffix]
    rw [stripEol, Eol.bytes, hlf, hlast]
  | crlf =>
    have hassoc : text ++ [13, 10] = (text ++ [13]) ++ [10] := by simp
    rw [stripEol, Eol.bytes, hassoc]
    simp [stripSuffix]

theorem bareLf_line (h : inLine text) (e : Eol) : bareLf (text ++ e.bytes) = decide (e = .lf) := by
  cases e with
  | crlf =>
    have hcrlf : [13, 10].isSuffixOf (text ++ [13, 10]) :=
      isSuffixOf_iff_suffix.mpr (suffix_append ..)
    simp [bareLf, Eol.bytes, hcrlf]
  | lf =>
    have hlf : [10].isSuffixOf (text ++ [10]) :=
      isSuffixOf_iff_suffix.mpr (suffix_append ..)
    have hcrlf : [13, 10].isSuffixOf (text ++ [10]) = false := by
      rw [Bool.eq_false_iff, Ne, isSuffixOf_iff_suffix]
      rintro ⟨start, hstart⟩
      have hlast : (start ++ [13]) ++ [10] = text ++ [10] := by simpa using hstart
      have htext : start ++ [13] = text := append_cancel_right hlast
      exact (ne_of_inLine h (by rw [← htext]; simp : (13 : UInt8) ∈ text)).1 rfl
    simp [bareLf, Eol.bytes, hlf, hcrlf]

theorem isEmptyLine_line (h : inLine text) (e : Eol) : isEmptyLine (text ++ e.bytes) = text.isEmpty := by
  cases text with
  | nil => cases e <;> rfl
  | cons =>
    have hb := ne_of_inLine h (mem_cons_self ..)
    simp [isEmptyLine, hb.1, hb.2]

/-! ## The pieces of a line -/

theorem Field.text_inLine (f : Field) : inLine (f.name ++ 58 :: f.raw) :=
  inLine_append f.name_inLine (inLine_cons (by decide) f.raw_inLine)

theorem RequestHead.text_inLine (h : RequestHead) :
    inLine (h.method ++ space :: h.target ++ space :: h.version) :=
  inLine_append
    (inLine_append h.method_inLine (inLine_cons (by decide) h.target_inLine))
    (inLine_cons (by decide) h.version_inLine)

theorem splitRequestLine_requestLine (h : RequestHead) : splitRequestLine h.requestLine = (h.method, h.target) := by
  have htext : stripEol h.requestLine = h.method ++ space :: h.target ++ space :: h.version :=
    stripEol_line h.text_inLine h.requestEol
  have hfirst : position (· == space) (h.method ++ space :: h.target ++ space :: h.version) = some h.method.length := by
    rw [append_assoc, cons_append]
    exact position_append (beq_false_of_contains h.method_noSpace) rfl
  have hlast : rposition (· == space) (h.method ++ space :: h.target ++ space :: h.version) =
      some (h.method ++ space :: h.target).length := rposition_append (beq_false_of_contains h.version_noSpace) rfl
  have hmethodTake : (h.method ++ space :: h.target ++ space :: h.version).take h.method.length = h.method := by
    rw [append_assoc, take_left]
  have htargetDrop : (h.method ++ space :: h.target).drop (h.method.length + 1) = h.target := by
    rw [drop_append, drop_of_length_le (by omega)]
    simp
  simp only [splitRequestLine, htext, hfirst, hlast]
  rw [if_pos (by simp), hmethodTake, take_left, htargetDrop]

theorem addCount_eq {limit : Nat} (hlimit : limit < 2 ^ 64) (count n : Nat) : addCount limit count n =
    if limit ≤ count + n then .error .headerOverflow else .ok (count + n) := by
  rw [addCount]
  by_cases h : limit ≤ count + n
  · rw [if_pos (by omega), if_pos h]
  · rw [if_neg (by omega), if_neg h, Nat.min_eq_left (by omega)]

variable {α : Type}

/-! ## The request target -/

theorem dropWhile_cases (p : α → Bool) (l : List α) :
    l.dropWhile p = [] ∨ ∃ b tail, l.dropWhile p = b :: tail ∧ p b = false := by
  have hhead := head?_dropWhile_not p l
  cases h : l.dropWhile p with
  | nil => exact .inl rfl
  | cons b tail =>
    rw [h] at hhead
    exact .inr ⟨b, tail, rfl, hhead⟩

theorem absoluteForm_iff (b : UInt8) (t : Bytes) :
    (isAsciiAlphabetic b ∧
      ∃ rest, ((b :: t).dropWhile isAsciiAlphabetic).dropPrefix? (ascii "://") = some rest ∧
        (rest.takeWhile fun b => !endsAuthority b).contains 35 = false) ↔
    ∃ scheme authority rest, b :: t = scheme ++ (ascii "://" ++ (authority ++ rest)) ∧ scheme ≠ [] ∧
      scheme.all isAsciiAlphabetic ∧ authority.all (fun b => !endsAuthority b && b != 35) ∧
      (rest = [] ∨ ∃ b tail, rest = b :: tail ∧ endsAuthority b) := by
  constructor
  · rintro ⟨hb, rest, hrest, hhash⟩
    refine ⟨(b :: t).takeWhile isAsciiAlphabetic, rest.takeWhile fun b => !endsAuthority b,
      rest.dropWhile fun b => !endsAuthority b, ?_, by simp [hb], all_takeWhile, ?_, ?_⟩
    · rw [takeWhile_append_dropWhile, ← Text.dropPrefix?_eq_some.mp hrest, takeWhile_append_dropWhile]
    · rw [all_eq_true]
      intro c hc
      have hends := mem_takeWhile_imp hc
      rwa [bne, beq_false_of_contains hhash c hc, Bool.not_false, Bool.and_true]
    · rcases dropWhile_cases (fun b => !endsAuthority b) rest with h | ⟨b, tail, h, hb⟩
      · exact .inl h
      · exact .inr ⟨b, tail, h, by simpa using hb⟩
  · rintro ⟨scheme, authority, rest, htarget, hne, hscheme, hauthority, hrest⟩
    rw [all_eq_true] at hscheme hauthority
    have hb : isAsciiAlphabetic b := by
      cases scheme with
      | nil => exact absurd rfl hne
      | cons =>
        cases htarget
        exact hscheme _ mem_cons_self
    have hscheme' : (b :: t).dropWhile isAsciiAlphabetic = ascii "://" ++ (authority ++ rest) := by
      rw [htarget, dropWhile_append_of_pos hscheme]
      rfl
    have hends : ∀ b ∈ authority, (!endsAuthority b) := fun b hb => by
      have h := hauthority b hb
      rw [Bool.and_eq_true] at h
      exact h.1
    have hcut : (authority ++ rest).takeWhile (fun b => !endsAuthority b) = authority := by
      rw [takeWhile_append_of_pos hends]
      rcases hrest with rfl | ⟨b, _, rfl, hb⟩
      · simp
      · simp [hb]
    refine ⟨hb, authority ++ rest, by rw [hscheme', Text.dropPrefix?_append], ?_⟩
    rw [hcut, Bool.eq_false_iff, Ne, contains_iff_mem]
    intro h35
    exact absurd (hauthority 35 h35) (by simp)

variable (target : Bytes)

theorem isRequestTarget_iff : isRequestTarget target ↔ IsTarget target := by
  cases target with
  | nil => simp [isRequestTarget, IsTarget]
  | cons b t =>
    rw [IsTarget, ← absoluteForm_iff]
    simp only [isRequestTarget, List.cons.injEq, exists_and_left, exists_eq', and_true]
    by_cases hstart : b = 47 ∨ b = 42
    · rw [if_pos (by simpa using hstart)]
      exact iff_of_true rfl (hstart.imp_right .inl)
    -- only the absolute form is left
    rw [if_neg (by simpa using hstart), ← or_assoc, or_iff_right hstart]
    by_cases hb : isAsciiAlphabetic b
    · rw [if_pos hb, and_iff_right hb]
      cases ((b :: t).dropWhile isAsciiAlphabetic).dropPrefix? (ascii "://") <;> simp
    · rw [if_neg hb]
      exact iff_of_false (by decide) fun h => hb h.1

/-! ## The length -/

theorem isDigit_of_isAsciiDigit (h : isAsciiDigit b) : (Char.ofNat b.toNat).isDigit := by
  have hdigits : ∀ n < 58, 48 ≤ n → (Char.ofNat n).isDigit := by decide
  simp only [isAsciiDigit, Bool.and_eq_true, decide_eq_true_eq] at h
  exact hdigits b.toNat (by omega) h.1

theorem isContentLength_iff (v : Bytes) : isContentLength v ↔ IsLength (trimOws v) := by
  rw [isContentLength, IsLength]
  generalize trimOws v = v
  simp only [Bool.and_eq_true, Bool.not_eq_true', isEmpty_eq_false_iff]
  rw [and_assoc]
  refine and_congr_right fun hne => and_congr_right fun hdigits => ?_
  rw [parseUnsigned_of_digits]
  · split <;> simp_all
  · simpa [digitsText] using hne
  · intro c hc
    obtain ⟨b, hb, rfl⟩ := mem_map.mp hc
    exact isDigit_of_isAsciiDigit (all_eq_true.mp hdigits b hb)

/-! ## The codings -/

/-- A check that comes to `a` where `good` holds and refuses with a `400` where it does not. -/
inductive Refuses {α : Type} (r : Except HeadError α) (good : Prop) (a : α) : Prop
  | accept (hgood : good) (h : r = .ok a)
  | refuse (hbad : ¬ good) (rule : String) (h : r = .error (.badRequest rule))

theorem Refuses.congr {r : Except HeadError α} {good good' : Prop} {a a' : α} (h : Refuses r good a)
    (hgood : good ↔ good') (ha : good → a = a') : Refuses r good' a' := by
  cases h with
  | accept hg h => exact .accept (hgood.mp hg) (by rw [h, ha hg])
  | refuse hb rule h => exact .refuse (fun hg => hb (hgood.mpr hg)) rule h

def endsChunked (codings : List Bytes) : Bool := codings.getLast?.any isChunked

theorem ChunkedLast.of_append {before after : List Bytes} (h : ChunkedLast (before ++ after)) : ChunkedLast before := by
  intro coding hcoding
  apply h coding
  cases after with
  | nil => rwa [append_nil]
  | cons =>
    rw [dropLast_append_cons]
    exact mem_append_left _ (dropLast_subset _ hcoding)

theorem endsChunked_concat (codings : List Bytes) (coding : Bytes) :
    endsChunked (codings ++ [coding]) = isChunked coding := by
  simp [endsChunked]

theorem chunkedLast_concat {codings : List Bytes} (h : ChunkedLast codings) (coding : Bytes) :
    ChunkedLast (codings ++ [coding]) ↔ endsChunked codings = false := by
  rw [ChunkedLast, dropLast_concat]
  rcases eq_nil_or_concat' codings with rfl | ⟨_, last, rfl⟩
  · exact iff_of_true (fun _ hc => absurd hc not_mem_nil) rfl
  · rw [endsChunked_concat]
    constructor
    · exact fun hall => hall last (by simp)
    · intro hlast c hc
      rcases mem_append.mp hc with hc | hc
      · exact h c (by rw [dropLast_concat]; exact hc)
      · rw [mem_singleton.mp hc]
        exact hlast

theorem checkCodings_refuses {seen : List Bytes} (hseen : ChunkedLast seen) (pieces : List Bytes) : Refuses
    (checkCodings true (endsChunked seen) pieces) (ChunkedLast (seen ++ pieces.filter fun c => !c.isEmpty))
    (endsChunked (seen ++ pieces.filter fun c => !c.isEmpty)) := by
  induction pieces generalizing seen with
  | nil =>
    rw [filter_nil, append_nil]
    exact .accept hseen rfl
  | cons piece pieces ih =>
    rw [checkCodings]
    by_cases hempty : piece.isEmpty
    · rw [if_pos hempty, filter_cons_of_neg (by simpa using hempty)]
      exact ih hseen
    rw [if_neg hempty, filter_cons_of_pos (by simpa using hempty), append_cons]
    by_cases hchunked : endsChunked seen
    · -- a coding behind chunked
      rw [if_pos (by simpa using hchunked)]
      refine .refuse (fun h => ?_) _ rfl
      rw [(chunkedLast_concat hseen piece).mp h.of_append] at hchunked
      cases hchunked
    · have hseen' := (chunkedLast_concat hseen piece).mpr (by simpa using hchunked)
      rw [if_neg (by simpa using hchunked), ← isChunked, ← endsChunked_concat seen piece]
      exact ih hseen'

/-! ## One field -/

/-- What the pass holds behind the fields `done`. -/
def framing (target : Bytes) (done : List Field) : Framing where
  count := counted target done
  contentLengths := (done.filter isLength).length
  transferEncoding := done.any encodes
  chunked := endsChunked (codings done)

theorem counted_append (done : List Field) (f : Field) :
    counted target (done ++ [f]) = counted target done + f.size := by
  induction done with
  | nil => rw [nil_append, counted, counted, Nat.add_comm]; rfl
  | cons g done ih =>
    rw [cons_append, counted, counted, ih]
    omega

theorem codings_append (done rest : List Field) : codings (done ++ rest) = codings done ++ codings rest :=
  flatMap_append

theorem codings_concat (done : List Field) (f : Field) : codings (done ++ [f]) = codings done ++ f.codings := by
  rw [codings_append]
  simp [codings]

theorem FieldsOk.nil : FieldsOk [] where
  lines _ hf := absurd hf not_mem_nil
  oneLength := Nat.zero_le _
  isLength _ hf := absurd hf not_mem_nil
  notBoth _ _ hf := absurd hf not_mem_nil
  chunkedLast _ hc := absurd hc not_mem_nil

variable {done : List Field}

theorem FieldsOk.of_append {rest : List Field} (h : FieldsOk (done ++ rest)) : FieldsOk done where
  lines f hf := h.lines f (mem_append_left _ hf)
  oneLength := by
    have hle := h.oneLength
    rw [filter_append, length_append] at hle
    omega
  isLength f hf := h.isLength f (mem_append_left _ hf)
  notBoth := fun ⟨f, hf, hencodes⟩ g hg =>
    h.notBoth ⟨f, mem_append_left _ hf, hencodes⟩ g (mem_append_left _ hg)
  chunkedLast := by
    have hlast := h.chunkedLast
    rw [codings_append] at hlast
    exact hlast.of_append

variable {f : Field}

theorem isLength_not_isEncoding (h : f.isLength) : f.isEncoding = false := by
  have hname : f.name.map lower = (ascii "content-length").map lower := by
    simpa [isLength, eqIgnoreAsciiCase] using h
  rw [isEncoding, eqIgnoreAsciiCase, hname]
  decide

theorem encodes_false (h : f.isEncoding = false) : f.encodes = false ∧ f.codings = [] := by
  have hencodes : f.encodes = false := by rw [encodes, h, Bool.false_and]
  exact ⟨hencodes, by rw [Field.codings, hencodes]; rfl⟩

structure NextOk (done : List Field) (f : Field) : Prop where
  line : f.eol = .crlf
  length : f.isLength = true → (∀ g ∈ done, g.isLength = false) ∧ (∀ g ∈ done, g.encodes = false) ∧
    IsLength (trimOws f.value)
  encoding : f.encodes = true → ∀ g ∈ done, g.isLength = false
  chunkedLast : ChunkedLast (codings done ++ f.codings)

theorem filter_isLength_eq_nil {fields : List Field} :
    fields.filter isLength = [] ↔ ∀ g ∈ fields, g.isLength = false := by
  simp [filter_eq_nil_iff]

theorem FieldsOk.next (h : FieldsOk (done ++ [f])) : NextOk done f := by
  have hf : f ∈ done ++ [f] := by simp
  have hleft : ∀ g ∈ done, g ∈ done ++ [f] := fun g hg => mem_append_left _ hg
  refine ⟨h.lines f hf, fun hlength => ⟨?_, ?_, h.isLength f hf hlength⟩, ?_, ?_⟩
  · have hone := h.oneLength
    rw [filter_append, length_append, filter_cons_of_pos hlength, filter_nil,
      length_singleton] at hone
    exact filter_isLength_eq_nil.mp (length_eq_zero_iff.mp (by omega))
  · -- a coding before it would forbid the length
    intro g hg
    rw [Bool.eq_false_iff]
    intro hencodes
    rw [h.notBoth ⟨g, hleft g hg, hencodes⟩ f hf] at hlength
    cases hlength
  · exact fun hencodes g hg => h.notBoth ⟨f, hf, hencodes⟩ g (hleft g hg)
  · rw [← codings_concat]
    exact h.chunkedLast

theorem FieldsOk.append_next (h : FieldsOk done) (hf : NextOk done f) : FieldsOk (done ++ [f]) where
  lines := forall_mem_append.mpr ⟨h.lines, forall_mem_singleton.mpr hf.line⟩
  oneLength := by
    rw [filter_append, length_append]
    cases hlength : f.isLength with
    | false =>
      rw [filter_cons_of_neg (by simp [hlength])]
      exact h.oneLength
    | true =>
      rw [filter_isLength_eq_nil.mpr (hf.length hlength).1, filter_cons_of_pos hlength]
      exact Nat.le_refl 1
  isLength := forall_mem_append.mpr
    ⟨h.isLength, forall_mem_singleton.mpr fun hlength => (hf.length hlength).2.2⟩
  notBoth := by
    rintro ⟨g, hg, hencodes⟩ k hk
    rcases mem_append.mp hg with hg | hg <;> rcases mem_append.mp hk with hk | hk
    · exact h.notBoth ⟨g, hg, hencodes⟩ k hk
    · rw [mem_singleton.mp hk, Bool.eq_false_iff]
      intro hlength
      rw [(hf.length hlength).2.1 g hg] at hencodes
      cases hencodes
    · rw [mem_singleton.mp hg] at hencodes
      exact hf.encoding hencodes k hk
    · rw [mem_singleton.mp hg] at hencodes
      rw [mem_singleton.mp hk, Bool.eq_false_iff]
      intro hlength
      rw [(encodes_false (isLength_not_isEncoding hlength)).1] at hencodes
      cases hencodes
  chunkedLast := by
    rw [codings_concat]
    exact hf.chunkedLast

theorem framing_append (done : List Field) (f : Field) : framing target (done ++ [f]) =
      { count := counted target done + f.size
        contentLengths := (done.filter isLength).length + if f.isLength then 1 else 0
        transferEncoding := done.any encodes || f.encodes
        chunked := endsChunked (codings done ++ f.codings) } := by
  rw [framing, counted_append, codings_concat]
  congr 1
  · rw [filter_append, length_append]
    cases hlength : f.isLength <;> simp [hlength]
  · simp

theorem checkFraming_length {s : Framing} {name v : Bytes}
    (hname : eqIgnoreAsciiCase name (ascii "content-length")) :
    Refuses (checkFraming true s name v)
      (s.contentLengths = 0 ∧ s.transferEncoding = false ∧ isContentLength v)
      { s with contentLengths := s.contentLengths + 1 } := by
  obtain ⟨_, lengths, encoding, _⟩ := s
  simp only [checkFraming, hname, if_true, Bool.true_and]
  by_cases hlengths : lengths + 1 > 1
  · rw [if_pos hlengths]
    exact .refuse (fun h => by omega) _ rfl
  rw [if_neg hlengths]
  cases encoding with
  | true => exact .refuse (fun h => by cases h.2.1) _ rfl
  | false =>
    cases isContentLength v with
    | false => exact .refuse (fun h => by cases h.2.2) _ rfl
    | true => exact .accept ⟨by omega, rfl, rfl⟩ rfl

theorem checkFraming_encoding {s : Framing} {name v : Bytes} {seen : List Bytes}
    (hlength : eqIgnoreAsciiCase name (ascii "content-length") = false)
    (hname : eqIgnoreAsciiCase name (ascii "transfer-encoding"))
    (hblank : (trimOws v).isEmpty = false) (hseen : ChunkedLast seen)
    (hs : s.chunked = endsChunked seen) :
    Refuses (checkFraming true s name v)
      (s.contentLengths = 0 ∧ ChunkedLast (seen ++ ((v.splitOn 44).map trimOws).filter fun c => !c.isEmpty))
      { s with
        transferEncoding := true
        chunked := endsChunked (seen ++ ((v.splitOn 44).map trimOws).filter fun c => !c.isEmpty) } := by
  obtain ⟨_, lengths, _, _⟩ := s
  subst hs
  simp only [checkFraming, hlength, hname, hblank, if_true, if_false, Bool.true_and, Bool.false_eq_true]
  by_cases hlengths : lengths > 0
  · rw [if_pos (by simpa using hlengths)]
    exact .refuse (fun h => by omega) _ rfl
  rw [if_neg (by simpa using hlengths)]
  cases checkCodings_refuses hseen ((v.splitOn 44).map trimOws) with
  | accept hlast hcodings =>
    rw [hcodings]
    exact .accept ⟨by omega, hlast⟩ rfl
  | refuse hlast rule hcodings =>
    rw [hcodings]
    exact .refuse (fun h => hlast h.2) rule rfl

theorem filter_isLength_length {fields : List Field} :
    (fields.filter isLength).length = 0 ↔ ∀ g ∈ fields, g.isLength = false := by
  rw [length_eq_zero_iff, filter_isLength_eq_nil]

theorem nextOk_length_iff (hdone : FieldsOk done) (hcrlf : f.eol = .crlf) (hlength : f.isLength) :
    ((done.filter isLength).length = 0 ∧ done.any encodes = false ∧
      isContentLength f.value) ↔ NextOk done f := by
  obtain ⟨hencodes, hcodings⟩ := encodes_false (isLength_not_isEncoding hlength)
  rw [filter_isLength_length, isContentLength_iff, any_eq_false]
  constructor
  · rintro ⟨hnone, hnoEncoding, hvalue⟩
    refine ⟨hcrlf, fun _ => ⟨hnone, fun g hg => ?_, hvalue⟩, fun h => ?_, ?_⟩
    · simpa using hnoEncoding g hg
    · rw [hencodes] at h
      cases h
    · rw [hcodings, append_nil]
      exact hdone.chunkedLast
  · intro h
    obtain ⟨hnone, hnoEncoding, hvalue⟩ := h.length hlength
    exact ⟨hnone, fun g hg => by simp [hnoEncoding g hg], hvalue⟩

/-- **One field, behind the fields `done`.** -/
theorem checkFraming_next (hdone : FieldsOk done) (hcrlf : f.eol = .crlf) : Refuses
      (checkFraming true { framing target done with count := counted target done + f.size } f.name
        f.value)
      (NextOk done f) (framing target (done ++ [f])) := by
  rw [framing_append]
  cases hlength : f.isLength with
  | true =>
    obtain ⟨hencodes, hcodings⟩ := encodes_false (isLength_not_isEncoding hlength)
    refine (checkFraming_length hlength).congr (nextOk_length_iff hdone hcrlf hlength) fun _ => ?_
    rw [hencodes, hcodings, append_nil, Bool.or_false]
    rfl
  | false =>
    cases hencodes : f.encodes with
    | true =>
      obtain ⟨hname, hblank⟩ : f.isEncoding ∧ (trimOws f.value).isEmpty = false := by
        simpa [encodes] using hencodes
      have hcodings : f.codings = ((f.value.splitOn 44).map trimOws).filter fun c => !c.isEmpty := by
        rw [Field.codings, if_pos hencodes]
      rw [hcodings]
      refine (checkFraming_encoding hlength hname hblank hdone.chunkedLast rfl).congr ?_ fun _ => ?_
      · rw [← hcodings]
        show (done.filter isLength).length = 0 ∧ _ ↔ _
        rw [filter_isLength_length]
        refine ⟨fun ⟨hnone, hlast⟩ => ⟨hcrlf, fun h => ?_, fun _ => hnone, hlast⟩,
          fun h => ⟨h.encoding hencodes, h.chunkedLast⟩⟩
        rw [hlength] at h
        cases h
      · rw [Bool.or_true]
        rfl
    | false =>
      have hcodings : f.codings = [] := by rw [Field.codings, hencodes]; rfl
      refine .accept ⟨hcrlf, fun h => ?_, fun h => ?_, ?_⟩ ?_
      · rw [hlength] at h
        cases h
      · rw [hencodes] at h
        cases h
      · rw [hcodings, append_nil]
        exact hdone.chunkedLast
      rw [hcodings, append_nil, Bool.or_false]
      have hlength' : eqIgnoreAsciiCase f.name (ascii "content-length") = false := hlength
      cases hname : eqIgnoreAsciiCase f.name (ascii "transfer-encoding") with
      | false => simp [checkFraming, hlength', hname, framing]
      | true =>
        have hblank : (trimOws f.value).isEmpty := by
          have hname' : f.isEncoding := hname
          simpa [encodes, hname'] using hencodes
        simp [checkFraming, hlength', hname, hblank, framing]

/-! ## The pass -/

theorem Field.checkField_eq (policy : HeadPolicy) (s : Framing) (f : Field) : checkField policy s f.line =
      if policy.maxHeaderSize ≤ s.count + f.size then .error .headerOverflow
      else if !policy.lenient && decide (f.eol = .lf) then
        .error (.badRequest "bare LF line ending")
      else checkFraming (!policy.lenient) { s with count := s.count + f.size } f.name f.value := by
  have hposition : position (· == 58) (f.name ++ 58 :: f.raw) = some f.name.length :=
    position_append (beq_false_of_contains f.name_noColon) rfl
  have hdrop : (f.name ++ 58 :: f.raw).drop (f.name.length + 1) = f.raw := by
    rw [drop_append, drop_of_length_le (by omega)]
    simp
  rw [checkField, line, stripEol_line f.text_inLine, bareLf_line f.text_inLine, hposition]
  simp only [Option.getD_some, take_left, hdrop]
  rw [addCount_eq policy.fits, Field.size, Field.value, ← Nat.add_assoc]
  by_cases ha : policy.maxHeaderSize ≤ s.count + f.name.length
  · rw [if_pos ha, if_pos (by omega)]
    rfl
  · rw [if_neg ha]
    show (addCount policy.maxHeaderSize (s.count + f.name.length) _).bind _ = _
    rw [addCount_eq policy.fits]
    split <;> rfl

/-- Behind the fields `done`, the count reaches the limit on a line before which no other rule is
    broken. -/
def OverflowsFrom (target : Bytes) (limit : Nat) (done rest : List Field) : Prop :=
  ∃ n ≤ rest.length, limit ≤ counted target (done ++ rest.take n) ∧ ∀ m < n, FieldsOk (done ++ rest.take m)

section Pass

variable {target : Bytes} {limit : Nat} {done rest : List Field} {f : Field}

theorem overflowsFrom_cons (hdone : FieldsOk done) (hcount : counted target done < limit) :
    OverflowsFrom target limit done (f :: rest) ↔ OverflowsFrom target limit (done ++ [f]) rest := by
  constructor
  · rintro ⟨n, hn, hover, hok⟩
    cases n with
    | zero =>
      rw [take_zero, append_nil] at hover
      omega
    | succ n =>
      rw [length_cons] at hn
      rw [take_succ_cons, append_cons] at hover
      refine ⟨n, by omega, hover, fun m hm => ?_⟩
      have h := hok (m + 1) (by omega)
      rwa [take_succ_cons, append_cons] at h
  · rintro ⟨n, hn, _, hok⟩
    refine ⟨n + 1, by rw [length_cons]; omega, ?_, fun m hm => ?_⟩
    · rwa [take_succ_cons, append_cons]
    · cases m with
      | zero =>
        rw [take_zero, append_nil]
        exact hdone
      | succ m =>
        rw [take_succ_cons, append_cons]
        exact hok m (by omega)

inductive Passes (target : Bytes) (limit : Nat) (done rest : List Field) (e : Eol)
    (r : Except HeadError Framing) : Prop
  | complete (h : r = .ok (framing target (done ++ rest))) (hok : FieldsOk (done ++ rest))
      (hsize : counted target (done ++ rest) < limit) (hend : e = .crlf)
  | overflow (h : r = .error .headerOverflow) (hover : OverflowsFrom target limit done rest)
  | refused (rule : String) (h : r = .error (.badRequest rule))
      (hbad : ¬ (FieldsOk (done ++ rest) ∧ e = .crlf)) (hfirst : ¬ OverflowsFrom target limit done rest)

theorem isEmptyLine_end (e : Eol) : isEmptyLine e.bytes := by cases e <;> rfl

theorem isEmptyLine_field (f : Field) : isEmptyLine f.line = false := by
  rw [line, isEmptyLine_line f.text_inLine]
  cases hname : f.name with
  | nil => exact absurd hname f.name_ne
  | cons => rfl

/-- **The pass.**  The induction is on the fields to come; behind it stands what is known of those
    that were passed. -/
theorem checkFields_passes (policy : HeadPolicy) (hstrict : policy.lenient = false) (e : Eol) (hdone : FieldsOk done)
    (hcount : counted target done < policy.maxHeaderSize) : Passes target policy.maxHeaderSize done rest e
    (checkFields policy (framing target done) (rest.map line ++ [e.bytes])) := by
  induction rest generalizing done with
  | nil =>
    rw [map_nil, nil_append, checkFields, if_pos (isEmptyLine_end e), hstrict]
    cases e with
    | crlf =>
      refine .complete ?_ ?_ ?_ rfl <;> rw [append_nil]
      · rfl
      · exact hdone
      · exact hcount
    | lf =>
      refine .refused _ rfl (fun h => by cases h.2) ?_
      rintro ⟨n, _, hover, _⟩
      rw [take_nil, append_nil] at hover
      omega
  | cons f rest ih =>
    have hnext : counted target (done ++ [f]) = counted target done + f.size :=
      counted_append target done f
    rw [map_cons, cons_append, checkFields, if_neg (by simp [isEmptyLine_field]),
      checkField_eq, hstrict]
    have hframing : (framing target done).count = counted target done := rfl
    rw [hframing]
    by_cases hover : policy.maxHeaderSize ≤ counted target done + f.size
    · rw [if_pos hover]
      exact .overflow rfl ((overflowsFrom_cons hdone hcount).mpr
        ⟨0, Nat.zero_le _, by rw [take_zero, append_nil]; omega, fun m hm => by omega⟩)
    rw [if_neg hover]
    -- a rule broken on this line, whose bytes are counted already
    have hrefused : ∀ rule, ¬ FieldsOk (done ++ [f]) →
        Passes target policy.maxHeaderSize done (f :: rest) e (.error (.badRequest rule)) := by
      intro rule hbad
      refine .refused rule rfl (fun h => hbad ?_) ?_
      · have hall := h.1
        rw [append_cons] at hall
        exact hall.of_append
      · rw [overflowsFrom_cons hdone hcount]
        rintro ⟨n, _, hover, hok⟩
        cases n with
        | zero =>
          rw [take_zero, append_nil] at hover
          omega
        | succ =>
          have h := hok 0 (by omega)
          rw [take_zero, append_nil] at h
          exact hbad h
    cases heol : f.eol with
    | lf =>
      refine hrefused _ fun h => ?_
      rw [h.lines f (by simp)] at heol
      cases heol
    | crlf =>
      cases checkFraming_next target hdone heol with
      | refuse hbad rule h =>
        rw [if_neg (by decide), Bool.not_false, h]
        exact hrefused rule fun hok => hbad hok.next
      | accept hgood h =>
        rw [if_neg (by decide), Bool.not_false, h]
        show Passes target policy.maxHeaderSize done (f :: rest) e
          (checkFields policy (framing target (done ++ [f])) (rest.map line ++ [e.bytes]))
        cases ih (hdone.append_next hgood) (by omega) with
        | complete h hok hsize hend =>
          rw [← append_cons] at h hok hsize
          exact .complete h hok hsize hend
        | overflow h hover => exact .overflow h ((overflowsFrom_cons hdone hcount).mpr hover)
        | refused rule h hbad hfirst =>
          rw [← append_cons] at hbad
          exact .refused rule h hbad fun hover => hfirst ((overflowsFrom_cons hdone hcount).mp hover)

end Pass

/-! ## The head -/

theorem isEmptyLine_requestLine (h : RequestHead) : isEmptyLine h.requestLine = false := by
  rw [RequestHead.requestLine, isEmptyLine_line h.text_inLine]
  cases hmethod : h.method with
  | nil => exact absurd hmethod h.method_ne
  | cons => rfl

theorem splitInclusive_fields (fields : List Field) (rest : Bytes) : splitInclusive isLf
    ((fields.map line).flatten ++ rest) = fields.map line ++ splitInclusive isLf rest := by
  induction fields with
  | nil => rfl
  | cons f fields ih =>
    rw [map_cons, flatten_cons, append_assoc, line, splitInclusive_line f.text_inLine, ih]
    rfl

theorem splitInclusive_leading (leading : List Eol) (rest : Bytes) :
    (splitInclusive isLf ((leading.map Eol.bytes).flatten ++ rest)).dropWhile isEmptyLine =
      (splitInclusive isLf rest).dropWhile isEmptyLine := by
  induction leading with
  | nil => rfl
  | cons e leading ih =>
    have hempty : inLine [] := rfl
    have hline : splitInclusive isLf (e.bytes ++ ((leading.map Eol.bytes).flatten ++ rest)) =
        e.bytes :: splitInclusive isLf ((leading.map Eol.bytes).flatten ++ rest) :=
      splitInclusive_line hempty e _
    rw [map_cons, flatten_cons, append_assoc, hline, dropWhile_cons_of_pos (isEmptyLine_end e), ih]

theorem splitInclusive_bytes (h : RequestHead) : (splitInclusive isLf h.bytes).dropWhile isEmptyLine = h.requestLine ::
    (h.fields.map line ++ [h.endEol.bytes]) := by
  have hend : splitInclusive isLf h.endEol.bytes = [h.endEol.bytes] := by
    cases h.endEol <;> rfl
  rw [RequestHead.bytes, append_assoc, append_assoc, splitInclusive_leading,
    RequestHead.requestLine, splitInclusive_line h.text_inLine, splitInclusive_fields, hend]
  exact dropWhile_cons_of_neg (by rw [← RequestHead.requestLine, isEmptyLine_requestLine]; decide)

/-- The strict policy with the limit `limit`. -/
def strictPolicy (limit : UInt64) : HeadPolicy :=
  { maxHeaderSize := limit.toNat, lenient := false, fits := limit.toNat_lt }

theorem target_iff (h : RequestHead) : (h.method != ascii "CONNECT" && !isRequestTarget h.target) = false ↔
      h.method = ascii "CONNECT" ∨ IsTarget h.target := by
  rw [← isRequestTarget_iff]
  simp only [Bool.and_eq_false_iff, bne_eq_false_iff_eq, Bool.not_eq_false']

theorem counted_append_le (fields rest : List Field) : counted target fields ≤ counted target (fields ++ rest) := by
  induction fields with
  | nil =>
    induction rest with
    | nil => exact Nat.le_refl _
    | cons f rest ih =>
      rw [nil_append] at ih ⊢
      rw [counted.eq_2 target f rest]
      omega
  | cons =>
    rw [cons_append, counted, counted]
    omega

variable {h : RequestHead} {limit : Nat}

theorem Rules.fieldsOk (hr : Rules h limit) : FieldsOk h.fields where
  lines := hr.lines.2.1
  oneLength := hr.length.1
  isLength := hr.length.2
  notBoth hencodes := (hr.encoding hencodes).1
  chunkedLast := by
    by_cases hencodes : ∃ f ∈ h.fields, f.encodes
    · obtain ⟨_, _, _, hcodings, _, hbefore⟩ := hr.encoding hencodes
      rw [hcodings, ChunkedLast, dropLast_concat]
      exact hbefore
    · -- no coding stands anywhere
      have hnone : codings h.fields = [] := by
        rw [codings, flatMap_eq_nil_iff]
        intro f hf
        rw [Field.codings, if_neg fun he => hencodes ⟨f, hf, he⟩]
      rw [hnone]
      exact fun c hc => absurd hc not_mem_nil

theorem rules_of_fieldsOk (hline : h.requestEol = .crlf)
    (htarget : h.method = ascii "CONNECT" ∨ IsTarget h.target) (hok : FieldsOk h.fields)
    (hend : h.endEol = .crlf) (hsize : counted h.target h.fields < limit)
    (hchunked : h.fields.any encodes → endsChunked (codings h.fields)) : Rules h limit where
  lines := ⟨hline, hok.lines, hend⟩
  target := htarget
  length := ⟨hok.oneLength, hok.isLength⟩
  size := hsize
  encoding hencodes := by
    refine ⟨hok.notBoth hencodes, ?_⟩
    have hlast := hchunked (List.any_eq_true.mpr hencodes)
    have hbefore := hok.chunkedLast
    rcases eq_nil_or_concat' (codings h.fields) with hnil | ⟨before, last, hcodings⟩
    · rw [hnil] at hlast
      cases hlast
    · rw [hcodings, endsChunked_concat] at hlast
      rw [hcodings, ChunkedLast, dropLast_concat] at hbefore
      exact ⟨before, last, hcodings, hlast, hbefore⟩

theorem overflowsFirst_iff (htarget : h.method = ascii "CONNECT" ∨ IsTarget h.target)
    (hline : h.requestEol = .crlf) : OverflowsFirst h limit ↔ OverflowsFrom h.target limit [] h.fields := by
  constructor
  · rintro ⟨n, hn, hover, hok⟩
    exact ⟨n, hn, hover, fun m hm => (hok m hm).2.2⟩
  · rintro ⟨n, hn, hover, hok⟩
    exact ⟨n, hn, hover, fun m hm => ⟨htarget, hline, hok m hm⟩⟩

theorem not_overflowsFirst_of_requestLine (hcount : h.target.length < limit)
    (hbad : ¬ ((h.method = ascii "CONNECT" ∨ IsTarget h.target) ∧ h.requestEol = .crlf)) :
    ¬ OverflowsFirst h limit := by
  rintro ⟨n, _, hover, hok⟩
  cases n with
  | zero => exact absurd hover (by simpa [counted] using hcount)
  | succ =>
    obtain ⟨htarget, hline, _⟩ := hok 0 (by omega)
    exact hbad ⟨htarget, hline⟩

theorem not_overflowsFirst_of_size (hsize : counted h.target h.fields < limit) : ¬ OverflowsFirst h limit := by
  rintro ⟨n, _, _, _⟩
  have hle := counted_append_le h.target (h.fields.take n) (h.fields.drop n)
  rw [take_append_drop] at hle
  omega

inductive Verdict (h : RequestHead) (limit : Nat) (r : Except HeadError Unit) : Prop
  | ok (hr : r = .ok ()) (hrules : Rules h limit)
  | overflow (hr : r = .error .headerOverflow) (hover : OverflowsFirst h limit)
      (hsize : limit ≤ counted h.target h.fields)
  | refused (rule : String) (hr : r = .error (.badRequest rule)) (hrules : ¬ Rules h limit)
      (hover : ¬ OverflowsFirst h limit)

theorem OverflowsFirst.size (hover : OverflowsFirst h limit) : limit ≤ counted h.target h.fields := by
  by_contra hlt
  exact not_overflowsFirst_of_size (by omega) hover

theorem checkRequestHead_verdict (limit : UInt64) (h : RequestHead) :
    Verdict h limit.toNat (checkRequestHead h.bytes (strictPolicy limit)) := by
  rw [checkRequestHead, splitInclusive_bytes]
  show Verdict h limit.toNat ((checkRequestLine (strictPolicy limit) h.requestLine).bind fun s =>
    (checkFields (strictPolicy limit) s (h.fields.map line ++ [h.endEol.bytes])).bind checkEnd)
  have hbare : bareLf h.requestLine = decide (h.requestEol = .lf) := bareLf_line h.text_inLine h.requestEol
  simp only [checkRequestLine, splitRequestLine_requestLine, addCount_eq (strictPolicy limit).fits, Nat.zero_add, hbare]
  show Verdict _ _ (((if limit.toNat ≤ h.target.length then _ else _ : Except HeadError Nat).bind _).bind _)
  by_cases hover : limit.toNat ≤ h.target.length
  · rw [if_pos hover]
    have hfirst : OverflowsFirst h limit.toNat :=
      ⟨0, Nat.zero_le _, by simpa [counted] using hover, fun m hm => by omega⟩
    exact .overflow rfl hfirst hfirst.size
  · rw [if_neg hover]
    simp only [Except.bind, strictPolicy, Bool.not_false, Bool.true_and, decide_eq_true_eq]
    cases htarget : h.method != ascii "CONNECT" && !isRequestTarget h.target with
    | true =>
      have hbad : ¬ (h.method = ascii "CONNECT" ∨ IsTarget h.target) := fun ht => by
        rw [(target_iff h).mpr ht] at htarget
        cases htarget
      exact .refused _ rfl (fun hr => hbad hr.target)
        (not_overflowsFirst_of_requestLine (by omega) fun hok => hbad hok.1)
    | false =>
      have htarget' := (target_iff h).mp htarget
      rw [if_neg (by decide)]
      cases hline : h.requestEol with
      | lf =>
        refine .refused _ rfl (fun hr => ?_)
          (not_overflowsFirst_of_requestLine (by omega) fun hok => ?_)
        · rw [hr.lines.1] at hline
          cases hline
        · rw [hok.2] at hline
          cases hline
      | crlf =>
        have hcount : counted h.target [] < limit.toNat := by
          rw [counted]
          omega
        have hpasses : Passes h.target limit.toNat [] h.fields h.endEol
            (checkFields (strictPolicy limit) (framing h.target [])
              (h.fields.map line ++ [h.endEol.bytes])) :=
          checkFields_passes (strictPolicy limit) rfl h.endEol FieldsOk.nil hcount
        show Verdict h limit.toNat ((checkFields (strictPolicy limit) (framing h.target [])
          (h.fields.map line ++ [h.endEol.bytes])).bind checkEnd)
        cases hpasses with
        | complete hr hok hsize hend =>
          rw [hr]
          show Verdict h limit.toNat (checkEnd (framing h.target h.fields))
          rw [checkEnd]
          cases hencodes : h.fields.any encodes with
          | false =>
            refine .ok ?_ (rules_of_fieldsOk hline htarget' hok hend hsize fun he => ?_)
            · rw [framing, hencodes]
              rfl
            · rw [hencodes] at he
              cases he
          | true =>
            cases hchunked : endsChunked (codings h.fields) with
            | true =>
              refine .ok ?_ (rules_of_fieldsOk hline htarget' hok hend hsize fun _ => hchunked)
              rw [framing, hencodes, hchunked]
              rfl
            | false =>
              refine .refused "Transfer-Encoding not ending in chunked" ?_ (fun hr => ?_)
                (not_overflowsFirst_of_size hsize)
              · rw [framing, hencodes, hchunked]
                rfl
              · obtain ⟨_, _, _, hcodings, hlast, _⟩ :=
                  hr.encoding (List.any_eq_true.mp hencodes)
                rw [hcodings, endsChunked_concat, hlast] at hchunked
                cases hchunked
        | overflow hr hfrom =>
          rw [hr]
          have hfirst := (overflowsFirst_iff htarget' hline).mpr hfrom
          exact .overflow rfl hfirst hfirst.size
        | refused rule hr hbad hfrom =>
          rw [hr]
          refine .refused rule rfl (fun hrules => hbad ⟨hrules.fieldsOk, hrules.lines.2.2⟩) ?_
          exact fun hfirst => hfrom ((overflowsFirst_iff htarget' hline).mp hfirst)

/-- **The strict check is node's.** A head passes iff the rules hold, and otherwise its status is that of the first rule
    its bytes break. -/
theorem checkRequestHead_iff_rules (limit : UInt64) (h : RequestHead) :
    (checkRequestHead h.bytes (strictPolicy limit) = .ok () ↔ Rules h limit.toNat) ∧ ∀ error, checkRequestHead h.bytes
    (strictPolicy limit) = .error error → (OverflowsFirst h limit.toNat ∧ error.status = 431) ∨
    (¬ OverflowsFirst h limit.toNat ∧ error.status = 400) := by
  cases checkRequestHead_verdict limit h with
  | ok hr hrules =>
    refine ⟨iff_of_true hr hrules, fun error herror => ?_⟩
    rw [hr] at herror
    cases herror
  | overflow hr hover =>
    refine ⟨iff_of_false (by rw [hr]; intro h; cases h) fun hrules => ?_, fun error herror => ?_⟩
    · exact absurd hrules.size (by omega)
    · rw [hr] at herror
      injection herror with herror
      exact .inl ⟨hover, by rw [← herror]; rfl⟩
  | refused rule hr hrules hover =>
    refine ⟨iff_of_false (by rw [hr]; intro h; cases h) hrules, fun error herror => ?_⟩
    rw [hr] at herror
    injection herror with herror
    exact .inr ⟨hover, by rw [← herror]; rfl⟩

end Oam.Http
