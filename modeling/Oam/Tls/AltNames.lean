/-
  `subjectaltname`, taken apart again by `tls.checkServerIdentity` (`node_compat.js`).  A printed name is an `Entry`
  that `Reads` it, WHATEVER bytes it carries; the splitter takes a list of entries apart where it was joined.
-/
import Oam.Lib.JsonString
import Oam.Tls.Names

namespace Oam.Tls

open UInt8 List Text JsonString

def comma : UInt16 := 0x2c

/-! ## The splitter -/

/-- What makes the split throw: `Invalid subject alternative name string`, or `JSON.parse`. -/
inductive SplitError where
  | format
  | json
deriving DecidableEq, Repr

/-- How far `jsonStringPattern` goes behind the opening quote. -/
def patternRest : Units → Option Nat
  | [] => none
  | u :: us =>
    if u = quote then some 1
    else if u = backslash then
      match us with
      | [] => none
      | e :: us =>
        if e = 0x75 then
          match us with
          | a :: b :: c :: d :: us => (hex4 a b c d).bind fun _ => (patternRest us).map (· + 6)
          | _ => none
        else (escaped e).bind fun _ => (patternRest us).map (· + 2)
    else if u.toNat < 0x20 then none
    else (patternRest us).map (· + 1)

/-- The length of the literal that a text starts with: `jsonStringPattern.exec(text)`. -/
def jsonStringPattern : Units → Option Nat
  | u :: us => if u = quote then (patternRest us).map (· + 1) else none
  | [] => none

def quoteFirst : (nextQuote nextSep : Option Nat) → Option Nat
  | some q, some s => if q < s then some q else none
  | some q, none => some q
  | none, _ => none

/-- The loop of `splitEscapedAltNames` from an offset on: what is left of the text, and the entry at hand. -/
def splitLoop : (fuel : Nat) → (rest currentToken : Units) → Except SplitError (List Units)
  | 0, _, currentToken => .ok [currentToken]
  | fuel + 1, rest, currentToken =>
    if rest = [] then .ok [currentToken]
    else
      let nextSep := rest.idxOf? comma
      let nextQuote := rest.idxOf? quote
      match quoteFirst nextQuote nextSep with
      | some q =>
        match jsonStringPattern (rest.drop q) with
        | none => .error .format
        | some n =>
          match parse ((rest.drop q).take n) with
          | none => .error .json
          | some text => splitLoop fuel (rest.drop (q + n)) (currentToken ++ rest.take q ++ text)
      | none =>
        match nextSep with
        | some s => (splitLoop fuel (rest.drop (s + 2)) []).map ((currentToken ++ rest.take s) :: ·)
        | none => splitLoop fuel [] (currentToken ++ rest)

def splitEscapedAltNames (altNames : Units) : Except SplitError (List Units) := splitLoop altNames.length altNames []

/-- `altNames.split(", ")`. -/
def splitPlain : Units → List Units
  | [] => [[]]
  | [u] => [[u]]
  | u :: v :: us =>
    if u = comma ∧ v = 0x20 then [] :: splitPlain us
    else (splitPlain (v :: us)).modifyHead (u :: ·)

/-- The entries that `checkServerIdentity` looks at; an empty text has none. -/
def splitAltNames (altNames : Units) : Except SplitError (List Units) :=
  if altNames = [] then .ok []
  else if quote ∈ altNames then splitEscapedAltNames altNames
  else .ok (splitPlain altNames)

/-! ## The loop, one entry at a time -/

variable {us vs : Units}

theorem patternRest_literal (h : Literal us vs) (rest : Units) :
    patternRest (us ++ quote :: rest) = some (us.length + 1) := by
  induction h with
  | nil =>
    rw [nil_append, patternRest.eq_def]
    exact if_pos rfl
  | @bare u us vs hu _ ih =>
    rw [cons_append, patternRest.eq_def]
    dsimp only
    rw [if_neg hu.2.1, if_neg hu.2.2, if_neg (by have := hu.1; omega), ih]
    rfl
  | @escape e v us vs he _ ih =>
    rw [cons_append, cons_append, patternRest.eq_def]
    dsimp only
    rw [if_neg (by decide), if_pos rfl, if_neg (ne_u_of_escaped he), he, ih]
    rfl
  | @code a b c d v us vs hv _ ih =>
    simp only [cons_append]
    rw [patternRest.eq_def]
    dsimp only
    rw [if_neg (by decide), if_pos rfl, if_pos rfl, hv, ih]
    rfl

theorem idxOf?_append_cons {a : UInt16} (h : a ∉ us) (vs : Units) : (us ++ a :: vs).idxOf? a = some us.length := by
  induction us with
  | nil => simp [idxOf?_cons]
  | cons u us ih =>
    rw [mem_cons, not_or] at h
    rw [cons_append, idxOf?_cons, if_neg (by simpa using Ne.symm h.1), ih h.2]
    rfl

theorem lt_of_idxOf? {a b : UInt16} (hab : a ≠ b) (hb : b ∉ us) {i : Nat}
    (h : (us ++ a :: vs).idxOf? b = some i) : us.length < i := by
  induction us generalizing i with
  | nil =>
    rw [nil_append, idxOf?_cons, if_neg (by simpa using hab)] at h
    obtain ⟨j, _, rfl⟩ := Option.map_eq_some_iff.mp h
    exact Nat.succ_pos j
  | cons u us ih =>
    rw [mem_cons, not_or] at hb
    rw [cons_append, idxOf?_cons, if_neg (by simpa using Ne.symm hb.1)] at h
    obtain ⟨j, hj, rfl⟩ := Option.map_eq_some_iff.mp h
    exact Nat.succ_lt_succ (ih hb.2 hj)

theorem quoteFirst_of_quote (hq : quote ∉ us) (hc : comma ∉ us) :
    quoteFirst ((us ++ quote :: vs).idxOf? quote) ((us ++ quote :: vs).idxOf? comma) = some us.length := by
  rw [idxOf?_append_cons hq]
  cases hs : (us ++ quote :: vs).idxOf? comma with
  | none => rfl
  | some => rw [quoteFirst, if_pos (lt_of_idxOf? (by decide) hc hs)]

theorem quoteFirst_of_comma (hq : quote ∉ us) (hc : comma ∉ us) :
    quoteFirst ((us ++ comma :: vs).idxOf? quote) ((us ++ comma :: vs).idxOf? comma) = none := by
  rw [idxOf?_append_cons hc]
  cases hs : (us ++ comma :: vs).idxOf? quote with
  | none => rfl
  | some =>
    have := lt_of_idxOf? (by decide) hq hs
    rw [quoteFirst, if_neg (by omega)]

theorem splitLoop_quote {lit text : Units} (hq : quote ∉ us) (hc : comma ∉ us) (hlit : Literal lit text)
    (fuel : Nat) (rest token : Units) :
    splitLoop (fuel + 1) (us ++ quote :: (lit ++ quote :: rest)) token = splitLoop fuel rest (token ++ us ++ text) := by
  have hpattern : jsonStringPattern (quote :: (lit ++ quote :: rest)) = some (lit.length + 2) := by
    rw [jsonStringPattern, if_pos rfl, patternRest_literal hlit]
    rfl
  have htake : (quote :: (lit ++ quote :: rest)).take (lit.length + 2) = quote :: (lit ++ [quote]) := by
    rw [take_succ_cons, take_append, take_of_length_le (by omega)]
    simp
  have hdrop : (us ++ quote :: (lit ++ quote :: rest)).drop (us.length + (lit.length + 2)) = rest := by
    rw [drop_append, drop_of_length_le (by omega), nil_append,
      show us.length + (lit.length + 2) - us.length = lit.length + 1 + 1 by omega, drop_succ_cons,
      drop_append, drop_of_length_le (by omega), nil_append,
      show lit.length + 1 - lit.length = 0 + 1 by omega, drop_succ_cons, drop_zero]
  rw [splitLoop, if_neg (by simp)]
  dsimp only
  rw [quoteFirst_of_quote hq hc]
  dsimp only
  rw [drop_left, hpattern]
  dsimp only
  rw [htake, hlit.parses]
  dsimp only
  rw [hdrop, take_left]

theorem splitLoop_comma (hq : quote ∉ us) (hc : comma ∉ us) (fuel : Nat) (u : UInt16) (rest token : Units) : splitLoop
    (fuel + 1) (us ++ comma :: u :: rest) token = (splitLoop fuel rest []).map ((token ++ us) :: ·) := by
  have hdrop : (us ++ comma :: u :: rest).drop (us.length + 2) = rest := by
    rw [drop_append, drop_of_length_le (by omega), nil_append,
      show us.length + 2 - us.length = 2 by omega]
    rfl
  rw [splitLoop, if_neg (by simp)]
  dsimp only
  rw [quoteFirst_of_comma hq hc, idxOf?_append_cons hc]
  dsimp only
  rw [hdrop, take_left]

theorem splitLoop_nil (fuel : Nat) (token : Units) : splitLoop fuel [] token = .ok [token] := by
  cases fuel <;> rfl

theorem splitLoop_end (hq : quote ∉ us) (hc : comma ∉ us) {fuel : Nat} (hfuel : us.length ≤ fuel)
    (token : Units) : splitLoop fuel us token = .ok [token ++ us] := by
  cases us with
  | nil => rw [splitLoop_nil, append_nil]
  | cons u us =>
    cases fuel with
    | zero => cases hfuel
    | succ fuel =>
      rw [splitLoop, if_neg (cons_ne_nil u us)]
      dsimp only
      rw [idxOf?_eq_none_iff.mpr hq, idxOf?_eq_none_iff.mpr hc]
      exact splitLoop_nil fuel _

/-! ## A list of entries -/

/-- **An entry as printed and as read.** It stands for itself, or it ends in one literal. -/
inductive Entry : (printed read : Units) → Prop
  | plain {us : Units} (hq : quote ∉ us) (hc : comma ∉ us) : Entry us us
  | literal {us lit text : Units} (hq : quote ∉ us) (hc : comma ∉ us) (hlit : Literal lit text) :
      Entry (us ++ quote :: (lit ++ [quote])) (us ++ text)

def separator : Units := [comma, 0x20]

variable {p : Units} {ps rs : List Units}

theorem splitLoop_entries {r : Units} (h : Entry p r) (hs : Forall₂ Entry ps rs) {fuel : Nat}
    (hfuel : (separator.intercalate (p :: ps)).length ≤ fuel) :
    splitLoop fuel (separator.intercalate (p :: ps)) [] = .ok (r :: rs) := by
  induction hs generalizing p r fuel with
  | nil =>
    rw [intercalate_singleton] at hfuel ⊢
    cases h with
    | plain hq hc => rw [splitLoop_end hq hc hfuel, nil_append]
    | @literal us lit text hq hc hlit =>
      cases fuel with
      | zero => simp at hfuel
      | succ => rw [splitLoop_quote hq hc hlit, splitLoop_nil, nil_append]
  | @cons p' r' ps rs h' _ ih =>
    rw [intercalate_cons_cons, append_assoc] at hfuel ⊢
    generalize htext : separator.intercalate (p' :: ps) = text at *
    have hrest : ∀ fuel, text.length ≤ fuel → splitLoop fuel text [] = .ok (r' :: rs) := by
      intro fuel hle
      rw [← htext]
      exact ih h' (by rw [htext]; exact hle)
    cases h with
    | plain hq hc =>
      cases fuel with
      | zero => simp [separator] at hfuel
      | succ fuel =>
        simp only [length_append, separator, length_cons, length_nil] at hfuel
        show splitLoop (fuel + 1) (p ++ comma :: 0x20 :: text) [] = _
        rw [splitLoop_comma hq hc, hrest fuel (by omega)]
        rfl
    | @literal us lit value hq hc hlit =>
      simp only [length_append, length_cons, length_nil, separator] at hfuel
      obtain ⟨fuel, rfl⟩ : ∃ n, fuel = n + 2 := ⟨fuel - 2, by omega⟩
      have hshape : us ++ quote :: (lit ++ [quote]) ++ (separator ++ text) =
          us ++ quote :: (lit ++ quote :: ([] ++ comma :: 0x20 :: text)) := by simp [separator]
      rw [hshape, splitLoop_quote hq hc hlit, splitLoop_comma not_mem_nil not_mem_nil,
        hrest fuel (by omega), append_nil, nil_append]
      rfl

theorem splitPlain_end (hc : comma ∉ us) : splitPlain us = [us] := by
  induction us with
  | nil => rfl
  | cons u us ih =>
    rw [mem_cons, not_or] at hc
    cases us with
    | nil => rfl
    | cons =>
      rw [splitPlain, if_neg fun h => hc.1 h.1.symm, ih hc.2]
      rfl

theorem splitPlain_comma (hc : comma ∉ us) (rest : Units) :
    splitPlain (us ++ comma :: 0x20 :: rest) = us :: splitPlain rest := by
  induction us with
  | nil => rw [nil_append, splitPlain, if_pos ⟨rfl, rfl⟩]
  | cons u us ih =>
    rw [mem_cons, not_or] at hc
    have hne : ∃ v vs, us ++ comma :: 0x20 :: rest = v :: vs := by
      cases us with
      | nil | cons => exact ⟨_, _, rfl⟩
    obtain ⟨v, vs, hv⟩ := hne
    rw [cons_append, hv, splitPlain, if_neg fun h => hc.1 h.1.symm, ← hv, ih hc.2]
    rfl

theorem splitPlain_entries {r : Units} (h : Entry p r) (hs : Forall₂ Entry ps rs)
    (hq : quote ∉ separator.intercalate (p :: ps)) : splitPlain (separator.intercalate (p :: ps)) = r :: rs := by
  induction hs generalizing p r with
  | nil =>
    rw [intercalate_singleton] at hq ⊢
    cases h with
    | plain _ hc => exact splitPlain_end hc
    | literal => exact absurd (by simp) hq
  | @cons p' r' ps rs h' _ ih =>
    rw [intercalate_cons_cons, append_assoc, mem_append, not_or, mem_append, not_or] at hq
    rw [intercalate_cons_cons, append_assoc]
    cases h with
    | plain _ hc =>
      show splitPlain (p ++ comma :: 0x20 :: separator.intercalate (p' :: ps)) = _
      rw [splitPlain_comma hc, ih h' hq.2.2]
    | literal => exact absurd (by simp) hq.1

/-- **A list of entries comes apart where it was joined**, whichever way it is split. -/
theorem splitAltNames_entries (h : Forall₂ Entry ps rs) (hne : ∀ p ∈ ps, p ≠ []) :
    splitAltNames (separator.intercalate ps) = .ok rs := by
  cases h with
  | nil => rfl
  | @cons p r ps rs h hs =>
    have hp : p ≠ [] := hne p mem_cons_self
    have hjoin : separator.intercalate (p :: ps) ≠ [] := by
      cases ps with
      | nil => rwa [intercalate_singleton]
      | cons =>
        rw [intercalate_cons_cons, append_assoc]
        exact append_ne_nil_of_left_ne_nil hp _
    rw [splitAltNames, if_neg hjoin]
    by_cases hq : quote ∈ separator.intercalate (p :: ps)
    · rw [if_pos hq, splitEscapedAltNames, splitLoop_entries h hs (Nat.le_refl _)]
    · rw [if_neg hq, splitPlain_entries h hs hq]

/-! ## Printed names are entries -/

def IsPlain (c : Char) : Prop := c.toNat < 128 ∧ c ≠ ',' ∧ c ≠ '"'

instance (c : Char) : Decidable (IsPlain c) := inferInstanceAs (Decidable (_ ∧ _))

theorem isPlain_of_isDigit {c : Char} (h : c.isDigit) : IsPlain c := by
  have hbounds : 48 ≤ c.toNat ∧ c.toNat ≤ 57 := by
    simp only [Char.isDigit, Bool.and_eq_true, decide_eq_true_eq] at h
    exact ⟨h.1, h.2⟩
  refine ⟨by omega, ?_, ?_⟩ <;> rintro rfl <;> exact absurd hbounds (by decide)

variable {s : Str}

theorem map_encode (h : ∀ c ∈ s, c.toNat < 128) : (encode s).map UInt8.toUInt16 = utf16 s := by
  rw [encode_ascii h, utf16_ascii h, map_map]
  apply map_congr_left
  intro c hc
  have := h c hc
  apply UInt16.toNat_inj.mp
  rw [Function.comp_apply, UInt8.toNat_toUInt16, UInt8.toNat_ofNat', toNat_unit (by omega)]
  omega

theorem encode_lt (h : ∀ c ∈ s, c.toNat < 128) : ∀ b ∈ encode s, b.toNat < 128 := by
  intro b hb
  rw [encode_ascii h] at hb
  obtain ⟨c, hc, rfl⟩ := mem_map.mp hb
  have := h c hc
  rw [UInt8.toNat_ofNat']
  omega

theorem notMem_utf16 (h : ∀ c ∈ s, IsPlain c) : quote ∉ utf16 s ∧ comma ∉ utf16 s := by
  constructor
  · intro hmem
    exact (h '"' ((unit_mem_utf16 (by decide)).mp hmem)).2.2 rfl
  · intro hmem
    exact (h ',' ((unit_mem_utf16 (by decide)).mp hmem)).2.1 rfl

/-- The word before the colon of an otherName, as units. -/
def prefixText : Option String → Str
  | none => []
  | some word => word.toList ++ [':']

theorem printPrefix_eq (label : Option String) : printPrefix label = encode (prefixText label) := by
  cases label with
  | none => rfl
  | some word => exact (encode_append word.toList [':']).symm

theorem digitChar_lt : ∀ d < 16, (Nat.digitChar d).toNat < 128 := by decide

theorem hexValue_digitChar : ∀ d < 16, hexValue (unit (Nat.digitChar d)) = some d := by decide

theorem code_hexByte (c : UInt8) : (∀ b ∈ ascii "\\u00" ++ encode (Hex.hexByte c), b.toNat < 128) ∧
      (ascii "\\u00" ++ encode (Hex.hexByte c)).map toUInt16 =
        [backslash, 0x75, 0x30, 0x30, unit (Nat.digitChar (c.toNat / 16)), unit (Nat.digitChar (c.toNat % 16))] ∧
      hex4 0x30 0x30 (unit (Nat.digitChar (c.toNat / 16))) (unit (Nat.digitChar (c.toNat % 16))) = some c.toUInt16 := by
  have hc := c.toNat_lt
  have hhigh : c.toNat / 16 < 16 := by omega
  have hlow : c.toNat % 16 < 16 := by omega
  have hdigits : ∀ d ∈ Hex.hexByte c, d.toNat < 128 := by
    intro d hd
    rcases mem_cons.mp hd with rfl | hd
    · exact digitChar_lt _ hhigh
    · rw [mem_singleton.mp hd]
      exact digitChar_lt _ hlow
  have hlead : ∀ b ∈ ascii "\\u00", b.toNat < 128 := forall_mem_of_all (by decide +kernel)
  have hleadUnits : (ascii "\\u00").map toUInt16 = [backslash, 0x75, 0x30, 0x30] := by decide +kernel
  refine ⟨?_, ?_, ?_⟩
  · intro b hb
    rcases mem_append.mp hb with hb | hb
    · exact hlead b hb
    · exact encode_lt hdigits b hb
  · rw [map_append, map_encode hdigits, utf16_ascii hdigits, hleadUnits]
    rfl
  · have hzero : hexValue 0x30 = some 0 := by decide
    simp only [hex4, hzero, hexValue_digitChar _ hhigh, hexValue_digitChar _ hlow, Option.bind_eq_bind,
      Option.bind_some, Option.pure_def, Option.some.injEq]
    apply UInt16.toNat_inj.mp
    rw [UInt16.toNat_ofNat', toNat_toUInt16]
    omega

variable {utf8 : Bool}

theorem literal_escapeByte {c : UInt8} (h : c.toNat < 128 ∨ utf8 = false) :
    (∀ b ∈ escapeByte utf8 c, b.toNat < 128) ∧ Literal ((escapeByte utf8 c).map toUInt16) [c.toUInt16] := by
  have hc := c.toNat_lt
  unfold escapeByte
  split
  · next he =>
    subst he
    exact ⟨forall_mem_of_all (by decide), .escape (by decide) .nil⟩
  · next hbackslash =>
    split
    · next he =>
      subst he
      exact ⟨forall_mem_of_all (by decide), .escape (by decide) .nil⟩
    · next hquote =>
      split
      · next hbare =>
        have hlt : 0x20 ≤ c.toNat ∧ c.toNat < 128 := by
          rcases hbare with hbare | hbare
          · omega
          · rcases h with h | h
            · exact absurd hbare.2 (by
                have hall : ∀ n < 128, ofNat n &&& 0x80 = 0 := by decide +kernel
                have := hall c.toNat h
                rwa [UInt8.ofNat_toNat, ← not_ne_iff] at this)
            · rw [h] at hbare
              cases hbare.1
        refine ⟨fun b hb => by rw [mem_singleton.mp hb]; exact hlt.2, .bare ⟨?_, ?_, ?_⟩ .nil⟩
        · rw [toNat_toUInt16]
          exact hlt.1
        · exact fun he => hquote (toUInt16_inj.mp he)
        · exact fun he => hbackslash (toUInt16_inj.mp he)
      · have hcode := code_hexByte c
        refine ⟨hcode.1, ?_⟩
        rw [hcode.2.1]
        exact .code hcode.2.2 .nil

variable {name : List UInt8}

/-- **What is escaped is a literal**, and of the bytes themselves unless they are UTF-8. -/
theorem literal_escape (h : Shown (name.flatMap (escapeByte utf8)) us) :
    ∃ vs, Literal us vs ∧ (utf8 = false → vs = name.map toUInt16) := by
  induction name generalizing us with
  | nil =>
    cases h
    exact ⟨[], .nil, fun _ => rfl⟩
  | cons c name ih =>
    rw [flatMap_cons] at h
    by_cases hc : c.toNat < 128 ∨ utf8 = false
    · obtain ⟨hlt, hlit⟩ := literal_escapeByte hc
      obtain ⟨vs, rfl, hvs⟩ := shown_ascii_append hlt h
      obtain ⟨ws, hws, hvalue⟩ := ih hvs
      exact ⟨c.toUInt16 :: ws, hlit.append hws, fun hutf8 => by rw [hvalue hutf8, map_cons]⟩
    · -- a byte of UTF-8 as it is: whatever shows it is not ASCII, so it stands for itself
      rw [not_or, Bool.not_eq_false] at hc
      have hself : escapeByte utf8 c = [c] := by
        have hall : ∀ n < 256, 128 ≤ n → ofNat n &&& 0x80 ≠ 0 := by decide +kernel
        have hbit := hall c.toNat c.toNat_lt (by omega)
        rw [UInt8.ofNat_toNat] at hbit
        have hne : ∀ b : UInt8, b.toNat < 128 → c ≠ b := fun b hb he => hc.1 (he ▸ hb)
        rw [escapeByte, if_neg (hne _ (by decide)), if_neg (hne _ (by decide)), if_pos (.inr ⟨hc.2, hbit⟩)]
      rw [hself, singleton_append] at h
      cases h with
      | ascii hb => exact absurd hb hc.1
      | other vs hb hvs h =>
        obtain ⟨ws, hws, -⟩ := ih h
        refine ⟨vs ++ ws, (literal_bare fun v hv => ?_).append hws, fun hutf8 => ?_⟩
        · have hv := hvs v hv
          refine ⟨by omega, ?_, ?_⟩ <;> rintro rfl <;> exact absurd hv (by decide)
        · rw [hc.2] at hutf8
          cases hutf8

theorem isSafeAltName_notMem (h : isSafeAltName name utf8) : (0x22 : UInt8) ∉ name ∧ (0x2c : UInt8) ∉ name := by
  rw [isSafeAltName, all_eq_true] at h
  exact ⟨fun hmem => absurd (h _ hmem) (by simp), fun hmem => absurd (h _ hmem) (by simp)⟩

theorem isSafeAltName_ascii (h : isSafeAltName name false) : ∀ b ∈ name, b.toNat < 128 := by
  rw [isSafeAltName, all_eq_true] at h
  intro b hb
  have := h b hb
  split at this
  · cases this
  · simp only [Bool.false_eq_true, if_false, decide_eq_true_eq] at this
    omega

theorem entry_printAltName {lead : Units} (hlead : quote ∉ lead ∧ comma ∉ lead) {label : Option String}
    (hlabel : ∀ c ∈ prefixText label, IsPlain c ∧ Bare (unit c)) (h : Shown (printAltName name utf8 label) us) : ∃ vs,
    Entry (lead ++ us) (lead ++ vs) ∧ (utf8 = false → label = none → vs = name.map toUInt16) := by
  have hlt : ∀ c ∈ prefixText label, c.toNat < 128 := fun c hc => (hlabel c hc).1.1
  have hplain := notMem_utf16 fun c hc => (hlabel c hc).1
  rw [printAltName, printPrefix_eq] at h
  split at h
  · next hsafe =>
    obtain ⟨vs, rfl, hvs⟩ := shown_ascii_append (encode_lt hlt) h
    obtain ⟨hq, hc⟩ := isSafeAltName_notMem hsafe
    have hq' : quote ∉ vs := shown_notMem hvs (by decide) hq
    have hc' : comma ∉ vs := shown_notMem hvs (by decide) hc
    rw [map_encode hlt]
    refine ⟨utf16 (prefixText label) ++ vs, .plain ?_ ?_, ?_⟩
    · simp only [mem_append, not_or]
      exact ⟨hlead.1, hplain.1, hq'⟩
    · simp only [mem_append, not_or]
      exact ⟨hlead.2, hplain.2, hc'⟩
    · rintro rfl rfl
      exact shown_ascii (isSafeAltName_ascii hsafe) hvs
  · have hshape : [0x22] ++ encode (prefixText label) ++ name.flatMap (escapeByte utf8) ++ [0x22] =
        ([0x22] ++ encode (prefixText label)) ++ (name.flatMap (escapeByte utf8) ++ [0x22]) := by simp
    rw [hshape] at h
    have hstart : ∀ b ∈ [0x22] ++ encode (prefixText label), b.toNat < 128 := by
      intro b hb
      rcases mem_append.mp hb with hb | hb
      · rw [mem_singleton.mp hb]
        decide
      · exact encode_lt hlt b hb
    obtain ⟨ws, rfl, hws⟩ := shown_ascii_append hstart h
    obtain ⟨body, rfl, hbody⟩ := shown_append_ascii (by decide) hws
    obtain ⟨vs, hlit, hvalue⟩ := literal_escape hbody
    have hword : Literal (utf16 (prefixText label)) (utf16 (prefixText label)) := by
      rw [utf16_ascii hlt]
      apply literal_bare
      intro u hu
      obtain ⟨c, hc, rfl⟩ := mem_map.mp hu
      exact (hlabel c hc).2
    refine ⟨utf16 (prefixText label) ++ vs, ?_, ?_⟩
    · have hentry := Entry.literal hlead.1 hlead.2 (hword.append hlit)
      rw [map_append, map_encode hlt]
      simpa [quote] using hentry
    · rintro hutf8 rfl
      exact hvalue hutf8

/-! ## What is read of a name -/

inductive Form where
  | dns | email | uri | directory | ip | registered | other | x400 | ediParty
deriving DecidableEq

def form : GeneralName → Form
  | .dns _ => .dns
  | .email _ => .email
  | .uri _ => .uri
  | .directory _ => .directory
  | .ip _ => .ip
  | .registered _ => .registered
  | .other _ _ => .other
  | .x400 => .x400
  | .ediParty => .ediParty

def Form.label : Form → Str
  | .dns => "DNS:".toList
  | .email => "email:".toList
  | .uri => "URI:".toList
  | .directory => "DirName:".toList
  | .ip => "IP Address:".toList
  | .registered => "Registered ID:".toList
  | .other => "othername:".toList
  | .x400 => "X400Name:".toList
  | .ediParty => "EdiPartyName:".toList

def label (name : GeneralName) : Str := (form name).label

/-- **A name, read.** Its entry has the name's own kind, and what follows is its bytes, or the address as printed. -/
structure Reads (name : GeneralName) (entry : Units) : Prop where
  dns : utf16 "DNS:".toList <+: entry ↔ ∃ bytes, name = .dns bytes
  dnsName : ∀ bytes, name = .dns bytes → entry = utf16 "DNS:".toList ++ bytes.map toUInt16
  ip : utf16 "IP Address:".toList <+: entry ↔ ∃ bytes, name = .ip bytes
  address : ∀ bytes, name = .ip bytes → entry = utf16 "IP Address:".toList ++ utf16 (ipEntryText bytes)

theorem isPlain_label (name : GeneralName) : ∀ c ∈ label name, IsPlain c := by
  refine forall_mem_of_all ?_
  unfold label
  cases form name <;> decide +kernel

variable {name : GeneralName}

theorem form_eq_dns : form name = .dns ↔ ∃ bytes, name = .dns bytes := by
  cases name <;> simp [form]

theorem form_eq_ip : form name = .ip ↔ ∃ bytes, name = .ip bytes := by
  cases name <;> simp [form]

theorem form_eq_of_prefix {f g : Form} (h : utf16 f.label <+: utf16 g.label ++ us) : g = f := by
  obtain ⟨vs, hvs⟩ := h
  have htake := congrArg (List.take 3) hvs
  rw [take_append_of_le_length (by cases f <;> decide +kernel),
    take_append_of_le_length (by cases g <;> decide +kernel)] at htake
  have hdistinct : (utf16 f.label).take 3 = (utf16 g.label).take 3 → g = f := by
    cases f <;> cases g <;> decide +kernel
  exact hdistinct htake

theorem dns_label : utf16 "DNS:".toList <+: utf16 (label name) ++ us ↔ ∃ bytes, name = .dns bytes := by
  rw [← form_eq_dns]
  constructor
  · exact fun h => form_eq_of_prefix (f := .dns) h
  · intro h
    rw [label, h]
    exact prefix_append _ _

theorem ip_label : utf16 "IP Address:".toList <+: utf16 (label name) ++ us ↔ ∃ bytes, name = .ip bytes := by
  rw [← form_eq_ip]
  constructor
  · exact fun h => form_eq_of_prefix (f := .ip) h
  · intro h
    rw [label, h]
    exact prefix_append _ _

theorem isPlain_of_mem_upperHex {n : Nat} {c : Char} (h : c ∈ upperHex n) : IsPlain c := by
  have hdigit : ∀ d < 16, IsPlain (Nat.digitChar d).toUpper := by decide +kernel
  obtain ⟨c', hc', rfl⟩ := mem_map.mp h
  obtain ⟨d, hd, rfl⟩ := Hex.exists_digit_of_mem_hex hc'
  exact hdigit d hd

theorem isPlain_ipEntryText {bytes : List UInt8} : ∀ c ∈ ipEntryText bytes, IsPlain c := by
  intro c hc
  unfold ipEntryText at hc
  split at hc
  · rcases mem_intercalate hc with hc | ⟨part, hpart, hc⟩
    · rw [mem_singleton.mp hc]
      decide
    · obtain ⟨b, _, rfl⟩ := mem_map.mp hpart
      exact isPlain_of_isDigit (Decimal.isDigit_of_mem_decimal hc)
  · split at hc
    · rcases mem_intercalate hc with hc | ⟨part, hpart, hc⟩
      · rw [mem_singleton.mp hc]
        decide
      · obtain ⟨n, _, rfl⟩ := mem_map.mp hpart
        exact isPlain_of_mem_upperHex hc
    · rw [mem_append, mem_append] at hc
      have hopen : ∀ c ∈ "<invalid length=".toList, IsPlain c := forall_mem_of_all (by decide +kernel)
      have hclose : ∀ c ∈ ">".toList, IsPlain c := forall_mem_of_all (by decide +kernel)
      rcases hc with (hc | hc) | hc
      · exact hopen c hc
      · exact isPlain_of_isDigit (Decimal.isDigit_of_mem_decimal hc)
      · exact hclose c hc

theorem isPlain_oidText {oid : List UInt8} : ∀ c ∈ oidText oid, IsPlain c := by
  intro c hc
  rcases mem_oidText hc with rfl | hc
  · decide
  · exact isPlain_of_isDigit hc

theorem entry_plain (name : GeneralName) (hs : ∀ c ∈ s, IsPlain c)
    (h : Shown (encode (label name) ++ encode s) us) : us = utf16 (label name) ++ utf16 s ∧ Entry us us := by
  have hplain : ∀ c ∈ label name ++ s, IsPlain c := by
    intro c hc
    rcases mem_append.mp hc with hc | hc
    · exact isPlain_label name c hc
    · exact hs c hc
  rw [← encode_append] at h
  have hlt := fun c hc => (hplain c hc).1
  obtain rfl := map_encode hlt ▸ shown_ascii (encode_lt hlt) h
  obtain ⟨hq, hc⟩ := notMem_utf16 hplain
  exact ⟨utf16_append _ _, .plain hq hc⟩

theorem entry_label (name : GeneralName) {bytes : List UInt8} {word : Option String}
    (hword : ∀ c ∈ prefixText word, IsPlain c ∧ Bare (unit c))
    (h : Shown (encode (label name) ++ printAltName bytes utf8 word) us) :
    ∃ vs, Entry us (utf16 (label name) ++ vs) ∧ (utf8 = false → word = none → vs = bytes.map toUInt16) := by
  have hlt : ∀ c ∈ label name, c.toNat < 128 := fun c hc => (isPlain_label name c hc).1
  obtain ⟨vs, rfl, hvs⟩ := shown_ascii_append (encode_lt hlt) h
  rw [map_encode hlt]
  exact entry_printAltName (notMem_utf16 (isPlain_label name)) hword hvs

/-- **A printed name is one entry, and is read for what it is.** -/
theorem entry_of_name (name : GeneralName) :
    ∃ vs, Entry (utf16 (generalNameText name)) (utf16 (label name) ++ vs) ∧ Reads name (utf16 (label name) ++ vs) := by
  suffices hvalue : ∃ vs, Entry (utf16 (generalNameText name)) (utf16 (label name) ++ vs) ∧
      (∀ bytes, name = .dns bytes → vs = bytes.map toUInt16) ∧
      ∀ bytes, name = .ip bytes → vs = utf16 (ipEntryText bytes) by
    obtain ⟨vs, hentry, hdns, hip⟩ := hvalue
    refine ⟨vs, hentry, dns_label, fun bytes h => ?_, ip_label, fun bytes h => ?_⟩
    · rw [hdns bytes h, h]
      rfl
    · rw [hip bytes h, h]
      rfl
  have hshown : Shown (generalNameBytes name) (utf16 (generalNameText name)) := shown_lossy (generalNameBytes name)
  generalize utf16 (generalNameText name) = us at hshown
  have hnone : ∀ c ∈ prefixText none, IsPlain c ∧ Bare (unit c) := fun c hc => absurd hc not_mem_nil
  have hunsupported : ∀ c ∈ "<unsupported>".toList, IsPlain c := forall_mem_of_all (by decide +kernel)
  cases name with
  | dns bytes =>
    obtain ⟨vs, hentry, hvs⟩ := entry_label (.dns bytes) hnone hshown
    refine ⟨_, hentry, fun b hb => ?_, nofun⟩
    cases hb
    exact hvs rfl rfl
  | email bytes =>
    obtain ⟨vs, hentry, -⟩ := entry_label (.email bytes) hnone hshown
    exact ⟨_, hentry, nofun, nofun⟩
  | uri bytes =>
    obtain ⟨vs, hentry, -⟩ := entry_label (.uri bytes) hnone hshown
    exact ⟨_, hentry, nofun, nofun⟩
  | directory der =>
    rw [generalNameBytes] at hshown
    cases hprint : printDirectoryName der with
    | none =>
      rw [hprint] at hshown
      obtain ⟨rfl, hentry⟩ := entry_plain (.directory der) hunsupported hshown
      exact ⟨_, hentry, nofun, nofun⟩
    | some =>
      rw [hprint] at hshown
      obtain ⟨vs, hentry, -⟩ := entry_label (.directory der) hnone hshown
      exact ⟨_, hentry, nofun, nofun⟩
  | ip bytes =>
    obtain ⟨rfl, hentry⟩ := entry_plain (.ip bytes) isPlain_ipEntryText hshown
    refine ⟨_, hentry, nofun, fun b hb => ?_⟩
    cases hb
    rfl
  | registered oid =>
    obtain ⟨rfl, hentry⟩ := entry_plain (.registered oid) isPlain_oidText hshown
    exact ⟨_, hentry, nofun, nofun⟩
  | other typeId value =>
    rw [generalNameBytes] at hshown
    cases hwanted : (otherNamePrefix typeId).filter fun wanted => value.tag = if wanted.2 then 0x0c else 0x16 with
    | none =>
      rw [hwanted] at hshown
      have hsplit : ascii "othername:<unsupported>" =
          encode Form.other.label ++ encode "<unsupported>".toList := by decide +kernel
      rw [hsplit] at hshown
      obtain ⟨rfl, hentry⟩ := entry_plain (.other typeId value) hunsupported hshown
      exact ⟨_, hentry, nofun, nofun⟩
    | some wanted =>
      rw [hwanted] at hshown
      have hplain : ∀ c ∈ prefixText (some wanted.1), IsPlain c ∧ Bare (unit c) := by
        have hsome := (Option.filter_eq_some_iff.mp hwanted).1
        unfold otherNamePrefix at hsome
        dsimp only at hsome
        repeat' split at hsome
        all_goals cases hsome
        all_goals exact forall_mem_of_all (by decide +kernel)
      obtain ⟨vs, hentry, -⟩ := entry_label (.other typeId value) hplain hshown
      exact ⟨_, hentry, nofun, nofun⟩
  | x400 =>
    have hsplit : ascii "X400Name:<unsupported>" = encode (label .x400) ++ encode "<unsupported>".toList := by
      decide +kernel
    rw [generalNameBytes, hsplit] at hshown
    obtain ⟨rfl, hentry⟩ := entry_plain .x400 hunsupported hshown
    exact ⟨_, hentry, nofun, nofun⟩
  | ediParty =>
    have hsplit : ascii "EdiPartyName:<unsupported>" = encode (label .ediParty) ++ encode "<unsupported>".toList := by
      decide +kernel
    rw [generalNameBytes, hsplit] at hshown
    obtain ⟨rfl, hentry⟩ := entry_plain .ediParty hunsupported hshown
    exact ⟨_, hentry, nofun, nofun⟩

theorem Entry.printed_ne_nil (h : Entry us vs) (hvs : vs ≠ []) : us ≠ [] := by
  cases h with
  | plain => exact hvs
  | literal => exact append_ne_nil_of_right_ne_nil _ (cons_ne_nil _ _)

theorem utf16_label_ne_nil (name : GeneralName) : utf16 (label name) ≠ [] := by
  unfold label
  cases form name <;> decide +kernel

/-- **One entry per name, in order, each read for what it is.**  The split does not throw. -/
theorem splitAltNames_altNames (names : List GeneralName) :
    ∃ entries, splitAltNames (utf16 (altNames names)) = .ok entries ∧ Forall₂ Reads names entries := by
  have hentries : ∃ entries, Forall₂ Entry (names.map fun name => utf16 (generalNameText name)) entries ∧
      Forall₂ Reads names entries := by
    induction names with
    | nil => exact ⟨[], .nil, .nil⟩
    | cons name names ih =>
      obtain ⟨entries, hentries, hreads⟩ := ih
      obtain ⟨vs, hentry, hread⟩ := entry_of_name name
      exact ⟨_ :: entries, .cons hentry hentries, .cons hread hreads⟩
  obtain ⟨entries, hentries, hreads⟩ := hentries
  have hseparator : utf16 ", ".toList = separator := by decide +kernel
  refine ⟨entries, ?_, hreads⟩
  rw [altNames, utf16_intercalate, hseparator, map_map]
  apply splitAltNames_entries hentries
  intro p hp
  obtain ⟨name, -, rfl⟩ := mem_map.mp hp
  obtain ⟨vs, hentry, -⟩ := entry_of_name name
  exact hentry.printed_ne_nil (append_ne_nil_of_left_ne_nil (utf16_label_ne_nil name) vs)

end Oam.Tls
