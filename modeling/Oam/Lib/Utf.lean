/-
  Texts on their way between UTF-8 and UTF-16.  ASCII is what the two encodings share: a byte below 0x80 is its own unit
  and no decoding touches it, however broken the bytes around it are (`Shown`).  So a text is cut at an ASCII character
  in the same places in both (`splitOn_utf16`).
-/
import Oam.Lib.Fields

namespace Text

open UInt16 List

/-- U+FFFD. -/
def replacement : Char := Char.ofNat 0xFFFD

abbrev Units := List UInt16

/-! ## UTF-8 that may be broken -/

/-- What may follow the first byte `n` of a character of three bytes: no overlong form, no surrogate. -/
def second3 (n : Nat) (b : UInt8) : Bool :=
  isContinuation b && !(n == 0xE0 && b.toNat < 0xA0) && !(n == 0xED && 0xA0 ≤ b.toNat)

/-- What may follow the first byte `n` of a character of four bytes. -/
def second4 (n : Nat) (b : UInt8) : Bool :=
  isContinuation b && !(n == 0xF0 && b.toNat < 0x90) && !(n == 0xF4 && 0x90 ≤ b.toNat)

/-- The character that starts with the byte `b`, not ASCII, and how many more bytes it has; U+FFFD where there is none.
    -/
def lossyChar (b : UInt8) (rest : List UInt8) : Char × Nat :=
  let n := b.toNat
  let b₁ := rest.getD 0 0
  let b₂ := rest.getD 1 0
  let b₃ := rest.getD 2 0
  if 0xC2 ≤ n ∧ n < 0xE0 then
    if !isContinuation b₁ then (replacement, 0)
    else (Char.ofNat ((n % 32) * 64 + payload b₁), 1)
  else if 0xE0 ≤ n ∧ n < 0xF0 then
    if !second3 n b₁ then (replacement, 0)
    else if !isContinuation b₂ then (replacement, 1)
    else (Char.ofNat ((n % 16) * 4096 + payload b₁ * 64 + payload b₂), 2)
  else if 0xF0 ≤ n ∧ n < 0xF5 then
    if !second4 n b₁ then (replacement, 0)
    else if !isContinuation b₂ then (replacement, 1)
    else if !isContinuation b₃ then (replacement, 2)
    else (Char.ofNat ((n % 8) * 262144 + payload b₁ * 4096 + payload b₂ * 64 + payload b₃), 3)
  else (replacement, 0)

/-- The text of the bytes behind the first `skip`. -/
def lossyFrom : (skip : Nat) → List UInt8 → Str
  | _, [] => []
  | skip + 1, _ :: rest => lossyFrom skip rest
  | 0, b :: rest =>
    if b.toNat < 128 then Char.ofNat b.toNat :: lossyFrom 0 rest
    else (lossyChar b rest).1 :: lossyFrom (lossyChar b rest).2 rest

/-- `String::from_utf8_lossy`. -/
def lossy (bytes : List UInt8) : Str := lossyFrom 0 bytes

theorem lossyFrom_skip (n : Nat) (bytes : List UInt8) : lossyFrom n bytes = lossy (bytes.drop n) := by
  induction n generalizing bytes with
  | zero => rfl
  | succ n ih =>
    cases bytes with
    | nil => rfl
    | cons b bytes => exact ih bytes

/-- A character is read off its own encoding. -/
theorem lossy_encodeChar (c : Char) (rest : List UInt8) : lossy (String.utf8EncodeChar c ++ rest) = c :: lossy rest := by
  have hvalid : c.toNat < 0xD800 ∨ (0xDFFF < c.toNat ∧ c.toNat < 0x110000) := c.valid
  have hread (b : UInt8) (tail : List UInt8) (hb : 128 ≤ b.toNat) (h : lossyChar b (tail ++ rest) = (c, tail.length)) :
      lossy (b :: (tail ++ rest)) = c :: lossy rest := by
    rw [lossy, lossyFrom, if_neg (by omega), h, lossyFrom_skip, drop_left]
  have hback {n : Nat} (hn : n = c.toNat) : Char.ofNat n = c := by rw [hn, Char.ofNat_toNat]
  have hbyte {n : Nat} (hn : n < 256) : (UInt8.ofNat n).toNat = n := UInt8.toNat_ofNat_of_lt hn
  unfold String.utf8EncodeChar
  dsimp only [Char.toNat_val]
  split_ifs with h₁ h₂ h₃
  · show lossyFrom 0 (UInt8.ofNat c.toNat :: rest) = _
    rw [lossyFrom, hbyte (by omega), if_pos (by omega), hback rfl]
    rfl
  · refine hread _ [_] (by rw [hbyte (by omega)]; omega) ?_
    simp (disch := omega) only [lossyChar, cons_append, getD_cons_zero, getD_cons_succ, hbyte, isContinuation, payload,
      second3, second4]
    rw [if_pos (by omega), if_neg (by simp; omega), hback (by omega)]
    rfl
  · refine hread _ [_, _] (by rw [hbyte (by omega)]; omega) ?_
    simp (disch := omega) only [lossyChar, cons_append, getD_cons_zero, getD_cons_succ, hbyte, isContinuation, payload,
      second3, second4]
    rw [if_neg (by omega), if_pos (by omega), if_neg (by simp; omega), if_neg (by simp; omega), hback (by omega)]
    rfl
  · refine hread _ [_, _, _] (by rw [hbyte (by omega)]; omega) ?_
    simp (disch := omega) only [lossyChar, cons_append, getD_cons_zero, getD_cons_succ, hbyte, isContinuation, payload,
      second3, second4]
    rw [if_neg (by omega), if_neg (by omega), if_pos (by omega), if_neg (by simp; omega), if_neg (by simp; omega),
      if_neg (by simp; omega), hback (by omega)]
    rfl

/-- **What is valid comes out as it went in.** -/
theorem lossy_encode (s : Str) : lossy (encode s) = s := by
  induction s with
  | nil => rfl
  | cons c s ih =>
    rw [show encode (c :: s) = String.utf8EncodeChar c ++ encode s from rfl, lossy_encodeChar, ih]
/-! ## UTF-16 -/

/-- The code unit of a character below U+10000. -/
def unit (c : Char) : UInt16 := ofNat c.toNat

def utf16Char (c : Char) : Units :=
  if c.toNat < 0x10000 then [unit c]
  else
    [ofNat (0xD800 + (c.toNat - 0x10000) / 0x400), ofNat (0xDC00 + (c.toNat - 0x10000) % 0x400)]

def utf16 (s : Str) : Units := s.flatMap utf16Char

/-- The text of UTF-16 units; a surrogate without its pair becomes U+FFFD. -/
def ofUtf16 : Units → Str
  | [] => []
  | u :: rest =>
    if 0xD800 ≤ u.toNat ∧ u.toNat < 0xDC00 then
      match rest with
      | [] => [replacement]
      | v :: rest' =>
        if 0xDC00 ≤ v.toNat ∧ v.toNat < 0xE000 then
          Char.ofNat (0x10000 + (u.toNat - 0xD800) * 0x400 + (v.toNat - 0xDC00)) :: ofUtf16 rest'
        else replacement :: ofUtf16 (v :: rest')
    else if 0xDC00 ≤ u.toNat ∧ u.toNat < 0xE000 then replacement :: ofUtf16 rest
    else Char.ofNat u.toNat :: ofUtf16 rest

@[simp] theorem utf16_nil : utf16 [] = [] := rfl

theorem utf16_cons (c : Char) (s : Str) : utf16 (c :: s) = utf16Char c ++ utf16 s := rfl

@[simp] theorem utf16_append (s t : Str) : utf16 (s ++ t) = utf16 s ++ utf16 t := flatMap_append

theorem utf16_intercalate (sep : Str) (texts : List Str) :
    utf16 (sep.intercalate texts) = (utf16 sep).intercalate (texts.map utf16) := by
  induction texts with
  | nil => rfl
  | cons s texts ih =>
    cases texts with
    | nil => simp [intercalate]
    | cons =>
      rw [map_cons, map_cons, intercalate_cons_cons, intercalate_cons_cons, utf16_append,
        utf16_append, ih, map_cons]

theorem mem_intercalate {α : Type} {sep : List α} {parts : List (List α)} {x : α} (h : x ∈ sep.intercalate parts) :
    x ∈ sep ∨ ∃ part ∈ parts, x ∈ part := by
  induction parts with
  | nil => cases h
  | cons part parts ih =>
    cases parts with
    | nil =>
      rw [intercalate_singleton] at h
      exact .inr ⟨part, mem_cons_self, h⟩
    | cons =>
      rw [intercalate_cons_cons, append_assoc, mem_append, mem_append] at h
      rcases h with h | h | h
      · exact .inr ⟨part, mem_cons_self, h⟩
      · exact .inl h
      · rcases ih h with h | ⟨p, hp, hx⟩
        · exact .inl h
        · exact .inr ⟨p, mem_cons_of_mem part hp, hx⟩

theorem prefix_intercalate {α : Type} (sep part : List α) (parts : List (List α)) :
    part <+: sep.intercalate (part :: parts) := by
  cases parts with
  | nil =>
    exact ⟨[], by rw [intercalate_singleton, append_nil]⟩
  | cons =>
    rw [intercalate_cons_cons, append_assoc]
    exact prefix_append _ _

theorem toNat_unit {c : Char} (h : c.toNat < 0x10000) : (unit c).toNat = c.toNat := by
  rw [unit, toNat_ofNat']
  omega

theorem utf16Char_ascii {c : Char} (h : c.toNat < 128) : utf16Char c = [unit c] := if_pos (by omega)

theorem utf16_ascii {s : Str} (h : ∀ c ∈ s, c.toNat < 128) : utf16 s = s.map unit := by
  induction s with
  | nil => rfl
  | cons c s ih =>
    rw [utf16_cons, utf16Char_ascii (h c mem_cons_self), ih fun d hd => h d (mem_cons_of_mem c hd)]
    rfl

theorem mem_utf16Char {c : Char} {u : UInt16} (h : u ∈ utf16Char c) : u.toNat = c.toNat ∨ 0xD800 ≤ u.toNat := by
  have hc : c.toNat < 0x110000 := by
    have := c.valid
    rcases this with h | h
    · have : c.toNat < 0xD800 := h
      omega
    · exact h.2
  unfold utf16Char at h
  split at h
  · next hlt =>
    rw [mem_singleton.mp h]
    exact .inl (toNat_unit hlt)
  · rcases mem_cons.mp h with rfl | h
    · right
      rw [toNat_ofNat']
      omega
    · right
      rw [mem_singleton.mp h, toNat_ofNat']
      omega

theorem unit_notMem_utf16Char {a c : Char} (ha : a.toNat < 128) (h : c ≠ a) : unit a ∉ utf16Char c := by
  intro hmem
  rcases mem_utf16Char hmem with he | hle
  · rw [toNat_unit (by omega)] at he
    exact h (Char.ext (UInt32.toNat.inj he.symm))
  · rw [toNat_unit (by omega)] at hle
    omega

theorem unit_mem_utf16 {a : Char} (ha : a.toNat < 128) {s : Str} : unit a ∈ utf16 s ↔ a ∈ s := by
  rw [utf16, mem_flatMap]
  constructor
  · rintro ⟨c, hc, hmem⟩
    by_contra hne
    exact unit_notMem_utf16Char ha (fun he => hne (he ▸ hc)) hmem
  · intro h
    exact ⟨a, h, by rw [utf16Char_ascii ha]; exact mem_singleton_self _⟩

/-! ### The way back -/

theorem ofUtf16_cons (c : Char) (us : Units) : ofUtf16 (utf16Char c ++ us) = c :: ofUtf16 us := by
  have hvalid : c.toNat < 0xD800 ∨ (0xDFFF < c.toNat ∧ c.toNat < 0x110000) := c.valid
  unfold utf16Char
  by_cases hlt : c.toNat < 0x10000
  · rw [if_pos hlt, singleton_append, ofUtf16.eq_def]
    dsimp only
    rw [toNat_unit hlt, if_neg (by omega), if_neg (by omega), Char.ofNat_toNat]
  · have hhigh : (ofNat (0xD800 + (c.toNat - 0x10000) / 0x400)).toNat = 0xD800 + (c.toNat - 0x10000) / 0x400 := by
      rw [toNat_ofNat']
      omega
    have hlow : (ofNat (0xDC00 + (c.toNat - 0x10000) % 0x400)).toNat = 0xDC00 + (c.toNat - 0x10000) % 0x400 := by
      rw [toNat_ofNat']
      omega
    have hback : 0x10000 + (0xD800 + (c.toNat - 0x10000) / 0x400 - 0xD800) * 0x400 +
        (0xDC00 + (c.toNat - 0x10000) % 0x400 - 0xDC00) = c.toNat := by omega
    rw [if_neg hlt, cons_append, singleton_append, ofUtf16, hhigh, if_pos (by omega), hlow,
      if_pos (by omega), hback, Char.ofNat_toNat]

variable {us : Units}

/-- **A text comes back from its units.** -/
theorem ofUtf16_utf16 (s : Str) : ofUtf16 (utf16 s) = s := by
  induction s with
  | nil => rfl
  | cons c s ih => rw [utf16_cons, ofUtf16_cons, ih]

theorem utf16_injective {s t : Str} (h : utf16 s = utf16 t) : s = t := by
  rw [← ofUtf16_utf16 s, h, ofUtf16_utf16]

@[simp] theorem utf16_inj {s t : Str} : utf16 s = utf16 t ↔ s = t := ⟨utf16_injective, congrArg utf16⟩

/-! ### Cutting at an ASCII character -/

theorem splitOn_notMem_append {a : UInt16} (h : a ∉ us) (vs : Units) :
    (us ++ vs).splitOn a = (vs.splitOn a).modifyHead (us ++ ·) := by
  induction us with
  | nil => cases hv : vs.splitOn a <;> simp [hv]
  | cons u us ih =>
    rw [cons_append, splitOn_cons_eq_if_modifyHead,
      if_neg (by simpa using fun he : u = a => h (by rw [he]; exact mem_cons_self)),
      ih fun hm => h (mem_cons_of_mem u hm), modifyHead_modifyHead]
    rfl

/-- **A text and its units are cut at an ASCII character in the same places.** -/
theorem splitOn_utf16 {a : Char} (ha : a.toNat < 128) (s : Str) :
    (utf16 s).splitOn (unit a) = (s.splitOn a).map utf16 := by
  induction s with
  | nil => rfl
  | cons c s ih =>
    rw [utf16_cons, splitOn_cons_eq_if_modifyHead]
    by_cases hc : c = a
    · subst hc
      rw [utf16Char_ascii ha, singleton_append, splitOn_cons_eq_if_modifyHead, if_pos (beq_self_eq_true _),
        if_pos (beq_self_eq_true _), ih]
      rfl
    · rw [splitOn_notMem_append (unit_notMem_utf16Char ha hc), if_neg (by simpa using hc), ih]
      cases s.splitOn a with
      | nil | cons => rfl

/-! ### What is left of broken UTF-8 -/

theorem toNat_ofNat_of_valid {n : Nat} (h : n < 0xD800 ∨ (0xDFFF < n ∧ n < 0x110000)) : (Char.ofNat n).toNat = n := by
  rw [Char.ofNat, dif_pos h]
  rfl

variable {b : UInt8}

theorem isContinuation_bounds (h : isContinuation b) : 128 ≤ b.toNat ∧ b.toNat < 192 := by
  simpa [isContinuation] using h

theorem take_high {rest : List UInt8} {k : Nat} (h : ∀ i < k, isContinuation (rest.getD i 0)) :
    ∀ b ∈ rest.take k, 128 ≤ b.toNat := by
  intro b hb
  obtain ⟨i, hi⟩ := mem_iff_getElem?.mp hb
  rw [getElem?_take] at hi
  split at hi
  · next hlt =>
    have hcont := h i hlt
    rw [getD_eq_getElem?_getD, hi, Option.getD_some] at hcont
    exact (isContinuation_bounds hcont).1
  · cases hi

/-- What stands for bytes that are not ASCII is not ASCII, and only continuation bytes are taken with the first. -/
theorem lossyChar_spec (b : UInt8) (rest : List UInt8) : 128 ≤ (lossyChar b rest).1.toNat ∧
    ∀ i < (lossyChar b rest).2, isContinuation (rest.getD i 0) := by
  unfold lossyChar payload
  dsimp only
  have hreplacement : 128 ≤ replacement.toNat := by decide
  have hnone : ∀ i < 0, isContinuation (rest.getD i 0) := by omega
  have hone (h₁ : isContinuation (rest.getD 0 0)) : ∀ i < 1, isContinuation (rest.getD i 0) := by
    intro i hi
    rwa [show i = 0 by omega]
  have htwo (h₁ : isContinuation (rest.getD 0 0)) (h₂ : ¬ (!isContinuation (rest.getD 1 0))) :
      ∀ i < 2, isContinuation (rest.getD i 0) := by
    intro i hi
    obtain rfl | rfl : i = 0 ∨ i = 1 := by omega
    · exact h₁
    · simpa using h₂
  split
  · split
    · exact ⟨hreplacement, hnone⟩
    · next h₁ =>
      rw [toNat_ofNat_of_valid (by omega)]
      exact ⟨by omega, hone (by simpa using h₁)⟩
  · split
    · split
      · exact ⟨hreplacement, hnone⟩
      · next hsecond =>
        obtain ⟨h₁, hlow, hhigh⟩ := by simpa [second3, and_assoc, imp_iff_not_or, -getD_eq_getElem?_getD] using hsecond
        have hb₁ := isContinuation_bounds h₁
        split
        · exact ⟨hreplacement, hone h₁⟩
        · next h₂ =>
          rw [toNat_ofNat_of_valid (by omega)]
          exact ⟨by omega, htwo h₁ h₂⟩
    · split
      · split
        · exact ⟨hreplacement, hnone⟩
        · next hsecond =>
          obtain ⟨h₁, hlow, hhigh⟩ := by simpa [second4, and_assoc, imp_iff_not_or, -getD_eq_getElem?_getD] using hsecond
          have hb₁ := isContinuation_bounds h₁
          split
          · exact ⟨hreplacement, hone h₁⟩
          next h₂ =>
          split
          · exact ⟨hreplacement, htwo h₁ h₂⟩
          next h₃ =>
          rw [toNat_ofNat_of_valid (by omega)]
          refine ⟨by omega, fun i hi => ?_⟩
          obtain hi | rfl : i < 2 ∨ i = 2 := by omega
          · exact htwo h₁ h₂ i hi
          · simpa using h₃
      · exact ⟨hreplacement, hnone⟩

/-- **What units can show bytes.** An ASCII byte is shown by its unit, any other by units that are not ASCII. -/
inductive Shown : List UInt8 → Units → Prop
  | nil : Shown [] []
  | ascii {b : UInt8} {bs : List UInt8} {us : Units} (hb : b.toNat < 128) (h : Shown bs us) :
      Shown (b :: bs) (b.toUInt16 :: us)
  | other {b : UInt8} {bs : List UInt8} {us : Units} (vs : Units) (hb : 128 ≤ b.toNat)
      (hvs : ∀ v ∈ vs, 128 ≤ v.toNat) (h : Shown bs us) : Shown (b :: bs) (vs ++ us)

theorem unit_ofNat : unit (Char.ofNat b.toNat) = b.toUInt16 := by
  have hb := b.toNat_lt
  apply UInt16.toNat_inj.mp
  rw [unit, toNat_ofNat_of_valid (by omega), UInt16.toNat_ofNat', UInt8.toNat_toUInt16]
  omega

theorem shown_lossyFrom {skip : Nat} {bytes : List UInt8} (h : ∀ b ∈ bytes.take skip, 128 ≤ b.toNat) :
    Shown bytes (utf16 (lossyFrom skip bytes)) := by
  induction bytes generalizing skip with
  | nil =>
    rw [lossyFrom]
    exact Shown.nil
  | cons b rest ih =>
    cases skip with
    | succ =>
      rw [lossyFrom]
      exact Shown.other [] (h b (by simp)) (by simp) (ih fun c hc => h c (by simp [hc]))
    | zero =>
      rw [lossyFrom]
      split
      · next hlt =>
        rw [utf16_cons, utf16Char_ascii (by rw [toNat_ofNat_of_valid (by omega)]; exact hlt), unit_ofNat]
        exact Shown.ascii hlt (ih (by simp))
      · next hge =>
        rw [utf16_cons]
        refine Shown.other _ (by omega) (fun v hv => ?_) (ih (take_high (lossyChar_spec b rest).2))
        rcases mem_utf16Char hv with he | hle
        · rw [he]
          exact (lossyChar_spec b rest).1
        · omega

/-- **The text shows its bytes**, broken or not. -/
theorem shown_lossy (bytes : List UInt8) : Shown bytes (utf16 (lossy bytes)) := shown_lossyFrom (by simp)

theorem shown_ascii_append {as bs : List UInt8} (has : ∀ a ∈ as, a.toNat < 128)
    (h : Shown (as ++ bs) us) : ∃ vs, us = as.map UInt8.toUInt16 ++ vs ∧ Shown bs vs := by
  induction as generalizing us with
  | nil => exact ⟨us, rfl, h⟩
  | cons a as ih =>
    cases h with
    | ascii _ h =>
      obtain ⟨vs, rfl, hvs⟩ := ih (fun c hc => has c (mem_cons_of_mem a hc)) h
      exact ⟨vs, rfl, hvs⟩
    | other =>
      have := has a mem_cons_self
      omega

variable {bs : List UInt8}

theorem shown_ascii (hbs : ∀ b ∈ bs, b.toNat < 128) (h : Shown bs us) : us = bs.map UInt8.toUInt16 := by
  rw [← append_nil bs] at h
  obtain ⟨vs, rfl, hvs⟩ := shown_ascii_append hbs h
  cases hvs
  rw [append_nil]

theorem shown_append_ascii {a : UInt8} (ha : a.toNat < 128) (h : Shown (bs ++ [a]) us) :
    ∃ vs, us = vs ++ [a.toUInt16] ∧ Shown bs vs := by
  induction bs generalizing us with
  | nil =>
    obtain ⟨vs, rfl, hvs⟩ := shown_ascii_append (fun c hc => mem_singleton.mp hc ▸ ha) h
    cases hvs
    exact ⟨[], rfl, .nil⟩
  | cons b bs ih =>
    cases h with
    | ascii hb h =>
      obtain ⟨vs, rfl, hvs⟩ := ih h
      exact ⟨b.toUInt16 :: vs, rfl, .ascii hb hvs⟩
    | other ws hb hws h =>
      obtain ⟨vs, rfl, hvs⟩ := ih h
      exact ⟨ws ++ vs, by rw [append_assoc], .other ws hb hws hvs⟩

theorem shown_notMem (h : Shown bs us) {a : UInt8} (ha : a.toNat < 128) (hbs : a ∉ bs) : a.toUInt16 ∉ us := by
  induction h with
  | nil => exact not_mem_nil
  | @ascii b bs us hb h ih =>
    rw [mem_cons, not_or] at hbs ⊢
    refine ⟨fun he => hbs.1 (UInt8.toNat_inj.mp ?_), ih hbs.2⟩
    have := congrArg toNat he
    rwa [UInt8.toNat_toUInt16, UInt8.toNat_toUInt16] at this
  | @other b bs us vs hb hvs h ih =>
    rw [mem_append, not_or]
    refine ⟨fun hmem => ?_, ih fun hm => hbs (mem_cons_of_mem b hm)⟩
    have := hvs _ hmem
    rw [UInt8.toNat_toUInt16] at this
    omega

end Text
