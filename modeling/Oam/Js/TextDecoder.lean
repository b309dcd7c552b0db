/-
  `node_compat.js`: TextDecoder for UTF-8.  What it builds has no lone surrogate: it is a text.  Bytes are held back
  where a cut does not show (`hold_cut`), so that a stream is read as its bytes are (`decodeAll_eq`), but from where the
  FIRST call starts: a mark that is cut stays in the text (`mark_left_in`).
-/
import Oam.Lib.Utf

namespace Oam.Js

open List Text

/-! ## Program -/

/-- A first byte's share of the code point, and the bounds of each byte that has to follow. -/
def leadOf (n : Nat) : Option (Nat × List (Nat × Nat)) :=
  let tail := (0x80, 0xBF)
  if n < 0x80 then some (n, [])
  else if 0xC2 ≤ n ∧ n ≤ 0xDF then some (n % 32, [tail])
  else if 0xE0 ≤ n ∧ n ≤ 0xEF then
    some (n % 16, [(if n = 0xE0 then 0xA0 else 0x80, if n = 0xED then 0x9F else 0xBF), tail])
  else if 0xF0 ≤ n ∧ n ≤ 0xF4 then
    some (n % 8, [(if n = 0xF0 then 0x90 else 0x80, if n = 0xF4 then 0x8F else 0xBF), tail, tail])
  else none

/-- How many of the bytes that have to follow are there. -/
def matched : List (Nat × Nat) → List UInt8 → Nat
  | (lower, upper) :: bounds, b :: rest => if lower ≤ b.toNat ∧ b.toNat ≤ upper then 1 + matched bounds rest else 0
  | _, _ => 0

/-- One turn of `utf8DecodeRange`: the character, and how many of the bytes behind `b` the turn goes past. -/
def utf8Turn (b : UInt8) (rest : List UInt8) : Option Char × Nat :=
  match leadOf b.toNat with
  | none => (none, 0)
  | some (bits, bounds) =>
    let k := matched bounds rest
    let cp := (rest.take k).foldl (fun cp b => cp * 64 + payload b) bits
    (if k = bounds.length then some (Char.ofNat cp) else none, k)

/-- The turns over the bytes behind the next `skip`. -/
def utf8Turns : (skip : Nat) → List UInt8 → List (Option Char)
  | _, [] => []
  | skip + 1, _ :: rest => utf8Turns skip rest
  | 0, b :: rest => (utf8Turn b rest).1 :: utf8Turns (utf8Turn b rest).2 rest

/-- What the turns come to: one that fails throws (`none`) when `fatal`, and is U+FFFD when not. -/
def render (fatal : Bool) (turns : List (Option Char)) : Option Str :=
  if fatal && turns.any Option.isNone then none else some (turns.map (·.getD replacement))

def utf8DecodeRange (fatal : Bool) (bytes : List UInt8) : Option Str := render fatal (utf8Turns 0 bytes)

structure TextDecoder where
  fatal : Bool
  ignoreBOM : Bool
  pending : List UInt8 := []
  atStart : Bool := true
deriving DecidableEq

/-- How many bytes a character takes that starts with `lead`. -/
def need (lead : UInt8) : Nat :=
  if 0xF0 ≤ lead.toNat then 4 else if 0xE0 ≤ lead.toNat then 3 else if 0xC0 ≤ lead.toNat then 2 else 1

/-- Where the bytes held back begin: the first byte of a character that takes more than there are. -/
def hold (bytes : List UInt8) : Nat :=
  let cont := ((bytes.reverse.take 3).takeWhile isContinuation).length
  match bytes.reverse[cont]? with
  | some lead => if 0xC0 ≤ lead.toNat ∧ cont + 1 < need lead then bytes.length - (cont + 1) else bytes.length
  | none => bytes.length

def bom : List UInt8 := [0xEF, 0xBB, 0xBF]

/-- Where decoding starts: behind the mark, if it is looked for and there. -/
def TextDecoder.start (d : TextDecoder) (bytes : List UInt8) : Nat :=
  if d.atStart && !d.ignoreBOM && bom.isPrefixOf bytes then 3 else 0

/-- `decode(bytes, { stream })`: the decoder after it, and the text. -/
def TextDecoder.decode (d : TextDecoder) (stream : Bool) (bytes : List UInt8) : TextDecoder × Option Str :=
  let bytes := d.pending ++ bytes
  let keep := if stream then hold bytes else bytes.length
  let now := bytes.take keep
  ({ d with pending := bytes.drop keep, atStart := !stream }, utf8DecodeRange d.fatal (now.drop (d.start now)))

def TextDecoder.new (fatal ignoreBOM : Bool) : TextDecoder := { fatal, ignoreBOM }

/-- The calls on the chunks of a stream, the last one on `final`: the text, if none of them throws. -/
def TextDecoder.decodeAll (d : TextDecoder) : List (List UInt8) → (final : List UInt8) → TextDecoder × Option Str
  | [], final => d.decode false final
  | chunk :: chunks, final =>
    let now := d.decode true chunk
    let later := now.1.decodeAll chunks final
    (later.1, now.2.bind fun text => later.2.map (text ++ ·))

/-! ## Correctness -/

theorem turns_skip (n : Nat) (l : List UInt8) : utf8Turns n l = utf8Turns 0 (l.drop n) := by
  induction n generalizing l with
  | zero => rfl
  | succ n ih =>
    cases l with
    | nil => rfl
    | cons b l => exact ih l

/-- A first byte with all that has to follow. -/
theorem turns_whole (tail : List UInt8) {b : UInt8} {bits : Nat} {bounds : List (Nat × Nat)} (rest : List UInt8)
    (hlead : leadOf b.toNat = some (bits, bounds)) (hlen : bounds.length = tail.length)
    (htail : matched bounds (tail ++ rest) = tail.length) : utf8Turns 0 (b :: (tail ++ rest)) =
      some (Char.ofNat (tail.foldl (fun cp b => cp * 64 + payload b) bits)) :: utf8Turns 0 rest := by
  rw [utf8Turns, utf8Turn, hlead]
  simp only [htail, hlen, take_left, if_true]
  rw [turns_skip, drop_left]

theorem turns_encodeChar (c : Char) (rest : List UInt8) :
    utf8Turns 0 (String.utf8EncodeChar c ++ rest) = some c :: utf8Turns 0 rest := by
  have hvalid : c.toNat < 0xD800 ∨ (0xDFFF < c.toNat ∧ c.toNat < 0x110000) := c.valid
  have hback {n : Nat} (hn : n = c.toNat) : some (Char.ofNat n) :: utf8Turns 0 rest = some c :: utf8Turns 0 rest := by
    rw [hn, Char.ofNat_toNat]
  have hlead {n : Nat} (hn : n < 256) : leadOf (UInt8.ofNat n).toNat = leadOf n :=
    congrArg leadOf (UInt8.toNat_ofNat_of_lt hn)
  unfold String.utf8EncodeChar
  dsimp only [Char.toNat_val]
  split_ifs with h₁ h₂ h₃
  · refine (turns_whole [] rest ((hlead (by omega)).trans (if_pos (by omega))) rfl rfl).trans (hback rfl)
  · refine (turns_whole [_] rest (by
      rw [hlead (by omega), leadOf, if_neg (by omega), if_pos (by omega)]) rfl ?_).trans (hback ?_)
    · simp [matched]
      omega
    · simp [payload]
      omega
  · refine (turns_whole [_, _] rest (by
      rw [hlead (by omega), leadOf, if_neg (by omega), if_neg (by omega), if_pos (by omega)]) rfl ?_).trans (hback ?_)
    · simp [matched]
      split_ifs <;> omega
    · simp [payload]
      omega
  · refine (turns_whole [_, _, _] rest (by
      rw [hlead (by omega), leadOf, if_neg (by omega), if_neg (by omega), if_neg (by omega), if_pos (by omega)])
      rfl ?_).trans (hback ?_)
    · simp [matched]
      split_ifs <;> omega
    · simp [payload]
      omega

theorem turns_encode (s : Str) : utf8Turns 0 (encode s) = s.map some := by
  induction s with
  | nil => rfl
  | cons c s ih =>
    rw [map_cons, ← ih]
    exact turns_encodeChar c (encode s)

theorem decode_encode (fatal : Bool) (s : Str) : utf8DecodeRange fatal (encode s) = some s := by
  rw [utf8DecodeRange, turns_encode, render]
  simp [Function.comp_def]

/-- U+FEFF, which is the byte order mark. -/
def mark : Char := Char.ofNat 0xFEFF

theorem bom_prefix_encode (s : Str) : bom.isPrefixOf (encode s) ↔ s.head? = some mark := by
  refine isPrefixOf_iff_prefix.trans ?_
  constructor
  · rintro ⟨r, hr⟩
    have hturns : some mark :: utf8Turns 0 r = s.map some := by rw [← turns_encode, ← hr]; rfl
    cases s with
    | nil => cases hturns
    | cons c s => exact (cons.inj hturns).1.symm
  · intro h
    obtain ⟨s, rfl⟩ := head?_eq_some_iff.mp h
    exact ⟨encode s, rfl⟩

/-! ## Cuts -/

/-- No byte of `z` continues what is before it. -/
def Starts (z : List UInt8) : Prop := ∀ y more, z = y :: more → isContinuation y = false

/-- Nothing can continue `x`. -/
def Closed (x : List UInt8) : Prop :=
  ∀ before b rest, x = before ++ b :: rest → (∀ y ∈ rest, isContinuation y) → need b ≤ rest.length + 1

variable {b : UInt8} {rest z : List UInt8} {bits : Nat} {bounds : List (Nat × Nat)}

theorem leadOf_spec (h : leadOf b.toNat = some (bits, bounds)) :
    bounds.length + 1 = need b ∧ ∀ p ∈ bounds, 0x80 ≤ p.1 ∧ p.2 ≤ 0xBF := by
  unfold leadOf at h
  unfold need
  dsimp only at h
  split_ifs at h <;> cases h <;> simp <;> (try split_ifs) <;> omega

theorem matched_le : matched bounds rest ≤ rest.length := by
  fun_induction matched bounds rest with
  | case1 => rw [length_cons]; omega
  | case2 | case3 => exact Nat.zero_le _

theorem matched_append (hb : ∀ p ∈ bounds, 0x80 ≤ p.1 ∧ p.2 ≤ 0xBF)
    (h : Starts z ∨ ((∀ y ∈ rest, isContinuation y) → bounds.length ≤ rest.length)) :
    matched bounds (rest ++ z) = matched bounds rest := by
  induction bounds generalizing rest with
  | nil => rw [matched, matched] <;> nofun
  | cons p bounds ih =>
    have hp := hb p mem_cons_self
    cases rest with
    | nil =>
      cases z with
      | nil => rfl
      | cons y z =>
        have hy := h.resolve_right (fun hn => by simpa using hn nofun) y z rfl
        rw [nil_append, matched, if_neg, matched]
        · nofun
        · simp [isContinuation] at hy
          omega
    | cons x rest =>
      rw [cons_append, matched, matched]
      split
      · next hx =>
        rw [ih fun q hq => hb q (mem_cons_of_mem p hq)]
        refine h.imp_right fun hn hrest => ?_
        have hcont : isContinuation x := by simp [isContinuation]; omega
        exact Nat.le_of_succ_le_succ (hn (forall_mem_cons.mpr ⟨hcont, hrest⟩))
      · rfl

theorem turn_le : (utf8Turn b rest).2 ≤ rest.length := by
  unfold utf8Turn
  split
  · exact Nat.zero_le _
  · exact matched_le

theorem turn_append (h : Starts z ∨ ((∀ y ∈ rest, isContinuation y) → need b ≤ rest.length + 1)) :
    utf8Turn b (rest ++ z) = utf8Turn b rest := by
  unfold utf8Turn
  cases hlead : leadOf b.toNat with
  | none => rfl
  | some p =>
    obtain ⟨hlen, hbounds⟩ := leadOf_spec hlead
    have hsame : matched p.2 (rest ++ z) = matched p.2 rest :=
      matched_append hbounds (h.imp_right fun hn hrest => by have := hn hrest; omega)
    simp only [hsame, take_append_of_le_length matched_le]

variable {x : List UInt8}

theorem Closed.tail (h : Closed (b :: x)) : Closed x := fun before c rest hx =>
  h (b :: before) c rest (by rw [hx, cons_append])

/-- **A cut that does not show.** -/
theorem turns_append (h : Starts z ∨ Closed x) {skip : Nat} (hskip : skip ≤ x.length) :
    utf8Turns skip (x ++ z) = utf8Turns skip x ++ utf8Turns 0 z := by
  induction x generalizing skip with
  | nil =>
    obtain rfl : skip = 0 := Nat.le_zero.mp hskip
    rfl
  | cons b x ih =>
    have ih := fun {skip} => @ih (h.imp_right Closed.tail) skip
    cases skip with
    | succ skip => exact ih (Nat.le_of_succ_le_succ hskip)
    | zero =>
      rw [cons_append, utf8Turns, utf8Turns, turn_append (h.imp_right fun hx => hx [] b x rfl), ih turn_le]
      rfl

theorem render_append (fatal : Bool) (u v : List (Option Char)) :
    render fatal (u ++ v) = (render fatal u).bind fun s => (render fatal v).map (s ++ ·) := by
  unfold render
  rw [any_append, Bool.and_or_distrib_left, map_append]
  cases fatal && u.any Option.isNone with
  | true => rfl
  | false => cases fatal && v.any Option.isNone <;> rfl

theorem hold_of_short {before : List UInt8} (hrest : ∀ y ∈ rest, isContinuation y) (hshort : rest.length + 1 < need b) :
    hold (before ++ b :: rest) = before.length := by
  have hneed : need b ≤ 4 := by
    unfold need
    split_ifs <;> omega
  have hlead : 0xC0 ≤ b.toNat := by
    unfold need at hshort
    split_ifs at hshort <;> omega
  have hb : isContinuation b = false := by
    simp [isContinuation]
    omega
  rcases rest with _ | ⟨x, _ | ⟨y, _ | _⟩⟩ <;> simp at hrest hshort
  · simp [hold, hb, hlead, hshort]
  · simp [hold, hb, hlead, hshort, hrest]
  · simp [hold, hb, hlead, hshort, hrest]
  · omega

/-- **Where the bytes are held back, the cut does not show.** -/
theorem hold_cut (bytes : List UInt8) : (∃ lead more, bytes.drop (hold bytes) = lead :: more ∧ 0xC0 ≤ lead.toNat ∧
    more.length + 1 < need lead) ∨ hold bytes = bytes.length ∧ Closed bytes := by
  by_cases hall : hold bytes = bytes.length
  · refine .inr ⟨hall, fun before b rest hx hrest => Nat.le_of_not_lt fun hshort => ?_⟩
    subst hx
    rw [hold_of_short hrest hshort] at hall
    simp at hall
  · left
    unfold hold at hall ⊢
    dsimp only at hall ⊢
    split at hall
    · next lead hlead =>
      split at hall
      · next hcond =>
        rw [if_pos hcond]
        obtain ⟨hlt, hget⟩ := List.getElem?_eq_some_iff.mp hlead
        rw [length_reverse] at hlt
        rw [getElem_reverse] at hget
        rw [Nat.add_comm, ← Nat.sub_sub, drop_eq_getElem_cons (by omega), hget]
        exact ⟨lead, _, rfl, hcond.1, by rw [length_drop]; omega⟩
      · exact absurd rfl hall
    · exact absurd rfl hall

/-- What is decoded now is read apart from what is held back, wherever the reading starts. -/
theorem decode_hold (fatal : Bool) (bytes z : List UInt8) {n : Nat} (hn : n ≤ (bytes.take (hold bytes)).length) :
    utf8DecodeRange fatal ((bytes ++ z).drop n) = (utf8DecodeRange fatal ((bytes.take (hold bytes)).drop n)).bind
      fun text => (utf8DecodeRange fatal (bytes.drop (hold bytes) ++ z)).map (text ++ ·) := by
  have hwhole : (bytes ++ z).drop n = (bytes.take (hold bytes)).drop n ++ (bytes.drop (hold bytes) ++ z) := by
    rw [← append_assoc, ← drop_append_of_le_length hn, take_append_drop, drop_append_of_le_length]
    exact Nat.le_trans hn (length_take_le' ..)
  have hcut : Starts (bytes.drop (hold bytes) ++ z) ∨ Closed ((bytes.take (hold bytes)).drop n) := by
    rcases hold_cut bytes with ⟨lead, more, hdrop, hlead, -⟩ | ⟨hall, hclosed⟩
    · left
      rw [hdrop]
      rintro y _ ⟨⟩
      simp [isContinuation]
      omega
    · right
      rw [hall, take_length]
      intro before b rest hx
      exact hclosed (bytes.take n ++ before) b rest (by rw [append_assoc, ← hx, take_append_drop])
  rw [hwhole, utf8DecodeRange, turns_append hcut (Nat.zero_le _), render_append]
  rfl

/-! ## The mark -/

variable {r : List UInt8}

theorem hold_bom : 3 ≤ hold (bom ++ r) := by
  rcases hold_cut (bom ++ r) with ⟨lead, more, hdrop, hlead, hshort⟩ | ⟨hall, -⟩
  · refine Nat.le_of_not_lt fun hlt => ?_
    obtain h | h | h : hold (bom ++ r) = 0 ∨ hold (bom ++ r) = 1 ∨ hold (bom ++ r) = 2 := by omega
    all_goals
      rw [h] at hdrop
      cases hdrop
    · exact absurd hshort (by simp [need])
    · exact absurd hlead (by decide)
    · exact absurd hlead (by decide)
  · rw [hall, length_append]
    exact Nat.le_add_right ..

/-! ## Streams -/

variable (d : TextDecoder) (chunks : List (List UInt8)) (final : List UInt8)

theorem start_le (bytes : List UInt8) : d.start bytes ≤ bytes.length := by
  unfold TextDecoder.start
  split
  · next h =>
    have hbom := isPrefixOf_iff_prefix.mp (Bool.and_eq_true _ _ ▸ h).2
    exact hbom.length_le
  · exact Nat.zero_le _

/-- What the first call decodes. -/
def TextDecoder.first : List (List UInt8) → List UInt8
  | [] => d.pending ++ final
  | chunk :: _ => (d.pending ++ chunk).take (hold (d.pending ++ chunk))

/-- **A stream is read as its bytes are**, from where the first call starts. -/
theorem decodeAll_eq : d.decodeAll chunks final = ({ d with pending := [], atStart := true },
    utf8DecodeRange d.fatal ((d.pending ++ (chunks.flatten ++ final)).drop (d.start (d.first final chunks)))) := by
  induction chunks generalizing d with
  | nil =>
    rw [TextDecoder.decodeAll, TextDecoder.decode, TextDecoder.first]
    simp only [Bool.false_eq_true, if_false, take_length, drop_length]
    rfl
  | cons chunk chunks ih =>
    rw [TextDecoder.decodeAll, TextDecoder.first, flatten_cons, append_assoc, ← append_assoc,
      decode_hold _ _ _ (start_le d _), ih]
    rfl

theorem start_new (fatal ignoreBOM : Bool) (bytes : List UInt8) :
    (TextDecoder.new fatal ignoreBOM).start bytes = if ignoreBOM = false ∧ bom <+: bytes then 3 else 0 := by
  simp [TextDecoder.start, TextDecoder.new]

/-- The first call sees the mark iff its chunk starts with it. -/
theorem bom_first (fatal ignoreBOM : Bool) :
    bom <+: (TextDecoder.new fatal ignoreBOM).first final chunks ↔ bom <+: (chunks ++ [final]).headD [] := by
  cases chunks with
  | nil => rfl
  | cons chunk =>
    show bom <+: chunk.take (hold chunk) ↔ bom <+: chunk
    have htake : chunk.take (hold chunk) <+: chunk := take_prefix ..
    refine ⟨fun h => h.trans htake, ?_⟩
    rintro ⟨r, rfl⟩
    exact prefix_take_iff.mpr ⟨prefix_append .., hold_bom⟩

theorem decode_bom (fatal : Bool) :
    utf8DecodeRange fatal (bom ++ r) = (utf8DecodeRange fatal r).map (mark :: ·) := by
  have hturns : utf8Turns 0 (bom ++ r) = [some mark] ++ utf8Turns 0 r := rfl
  rw [utf8DecodeRange, hturns, render_append]
  cases fatal <;> rfl

/-- **A stream is decoded as its bytes are at once, iff the mark is not cut off**, unless the bytes are refused either
    way. -/
theorem stream_eq_once_iff (fatal ignoreBOM : Bool) :
    let d : TextDecoder := .new fatal ignoreBOM
    let whole := chunks.flatten ++ final
    ((d.decodeAll chunks final).2 = (d.decode false whole).2 ∧
      (d.decodeAll chunks final).2 =
        utf8DecodeRange fatal (if ignoreBOM = false ∧ bom <+: whole then whole.drop 3 else whole) ∧
      (d.decodeAll chunks final).1 = d) ↔
    (ignoreBOM = false → bom <+: whole → bom <+: (chunks ++ [final]).headD [] ∨
      utf8DecodeRange fatal whole = none) := by
  intro d whole
  have honce : d.decode false whole = (d, utf8DecodeRange fatal (whole.drop (d.start whole))) := decodeAll_eq d [] whole
  have hstream : d.decodeAll chunks final =
      (d, utf8DecodeRange fatal (whole.drop (d.start (d.first final chunks)))) := decodeAll_eq d chunks final
  have hsees : bom <+: d.first final chunks ↔ _ := bom_first chunks final fatal ignoreBOM
  rw [hstream, honce, start_new, start_new]
  by_cases hmark : ignoreBOM = false ∧ bom <+: whole
  · obtain ⟨r, hr⟩ := hmark.2
    rw [if_pos hmark, if_pos hmark]
    by_cases hfirst : bom <+: (chunks ++ [final]).headD []
    · rw [if_pos ⟨hmark.1, hsees.mpr hfirst⟩]
      exact iff_of_true ⟨rfl, rfl, rfl⟩ fun _ _ => .inl hfirst
    · rw [if_neg fun h => hfirst (hsees.mp h.2), drop_zero, ← hr, decode_bom]
      cases h : utf8DecodeRange fatal r with
      | none => exact iff_of_true ⟨h.symm, h.symm, rfl⟩ fun _ _ => .inr rfl
      | some text =>
        refine iff_of_false (fun hsame => ?_) fun hall => ?_
        · exact cons_ne_self _ _ (Option.some.inj (hsame.1.trans h))
        · exact (hall hmark.1 ⟨r, rfl⟩).elim hfirst nofun
  · have hwhole : (chunks ++ [final]).headD [] <+: whole := by
      cases chunks with
      | nil => exact prefix_rfl
      | cons chunk => exact ⟨_, (append_assoc ..).symm⟩
    rw [if_neg hmark, if_neg hmark, if_neg fun h => hmark ⟨h.1, (hsees.mp h.2).trans hwhole⟩]
    exact iff_of_true ⟨rfl, rfl, rfl⟩ fun hi hw => absurd ⟨hi, hw⟩ hmark

/-- The mark cut behind its first byte. -/
theorem mark_left_in : ((TextDecoder.new false false).decodeAll [[0xEF]] [0xBB, 0xBF, 0x61]).2 = some [mark, 'a'] ∧
    ((TextDecoder.new false false).decode false [0xEF, 0xBB, 0xBF, 0x61]).2 = some ['a'] := by
  decide +kernel

end Oam.Js
