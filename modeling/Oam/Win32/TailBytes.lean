/-
  `oam_core`: the normaliser's loop as it is written, over BYTES.  A cut that is out of range, or inside a character,
  panics: `none`.  Between two characters the loop's registers are those of the pass over characters (`Reads`); inside a
  character nothing is a separator or a dot.
-/
import Oam.Lib.Fields
import Oam.Win32.Resolve

namespace Oam.Win32

open List Text

/-! ## Program -/

/-- The registers: `lastSlash` is the index of the last separator, `-1` before the first. -/
structure ByteNorm where
  res : Str
  lastSegmentLength : Nat
  lastSlash : Int
  dots : Int

def isSepByte (b : UInt8) : Bool := b == 47 || b == 92

/-- `&path[a..b]`. -/
def slice (path : Str) (a b : Nat) : Option Str :=
  (splitAtByte path b).bind fun head => (splitAtByte head.1 a).map Prod.snd

/-- A separator at the index `i`, or the end of the text. -/
def endSegmentAt (allowAboveRoot : Bool) (path : Str) (i : Nat) (s : ByteNorm) : Option ByteNorm :=
  if s.lastSlash = i - 1 ∨ s.dots = 1 then some { s with lastSlash := i, dots := 0 }
  else if s.dots = 2 then
    let endsInDotdot := 2 ≤ utf8Len s.res ∧ s.lastSegmentLength = 2 ∧ ['.', '.'] <:+ s.res
    if ¬ endsInDotdot ∧ 2 < utf8Len s.res then
      match rsplitOnce '\\' s.res with
      | none => some ⟨[], 0, i, 0⟩
      | some (kept, _) => some ⟨kept, segmentLength kept, i, 0⟩
    else if ¬ endsInDotdot ∧ s.res ≠ [] then some ⟨[], 0, i, 0⟩
    else if allowAboveRoot then
      some ⟨if s.res = [] then ['.', '.'] else s.res ++ ['\\', '.', '.'], 2, i, 0⟩
    else some { s with lastSlash := i, dots := 0 }
  else
    (slice path (s.lastSlash + 1).toNat i).map fun seg =>
      ⟨(if s.res = [] then [] else s.res ++ ['\\']) ++ seg, (i - s.lastSlash - 1).toNat, i, 0⟩

def byteStep (allowAboveRoot : Bool) (path : Str) (i : Nat) (s : ByteNorm) (code : UInt8) : Option ByteNorm :=
  if isSepByte code then endSegmentAt allowAboveRoot path i s
  else if code = 46 ∧ s.dots ≠ -1 then some { s with dots := s.dots + 1 }
  else some { s with dots := -1 }

def byteLoop (allowAboveRoot : Bool) (path : Str) : Nat → ByteNorm → List UInt8 → Option ByteNorm
  | _, s, [] => some s
  | i, s, code :: rest =>
    (byteStep allowAboveRoot path i s code).bind fun s' => byteLoop allowAboveRoot path (i + 1) s' rest

/-- Behind the last byte there is one more separator, unless that byte was one. -/
def normalizeWin32TailBytes (path : Str) (allowAboveRoot : Bool) : Option Str :=
  let bytes := encode path
  (byteLoop allowAboveRoot path 0 ⟨[], 0, -1, 0⟩ bytes).bind fun s =>
    if bytes.getLast?.any isSepByte then some s.res
    else (byteStep allowAboveRoot path bytes.length s 47).map ByteNorm.res

/-! ## The bytes of a character -/

theorem utf8EncodeChar_high {c : Char} (hc : 128 ≤ c.toNat) : ∀ b ∈ String.utf8EncodeChar c, 128 ≤ b.toNat := by
  have hval : c.val.toNat = c.toNat := rfl
  intro b hb
  unfold String.utf8EncodeChar at hb
  dsimp only at hb
  rw [hval, if_neg (by omega)] at hb
  split at hb
  · simp only [mem_cons, not_mem_nil, or_false] at hb
    rcases hb with rfl | rfl <;> rw [UInt8.toNat_ofNat'] <;> omega
  split at hb
  · simp only [mem_cons, not_mem_nil, or_false] at hb
    rcases hb with rfl | rfl | rfl <;> rw [UInt8.toNat_ofNat'] <;> omega
  · simp only [mem_cons, not_mem_nil, or_false] at hb
    rcases hb with rfl | rfl | rfl | rfl <;> rw [UInt8.toNat_ofNat'] <;> omega

theorem length_encode (s : Str) : (encode s).length = utf8Len s := by
  induction s with
  | nil => rfl
  | cons c s ih =>
    rw [utf8Len_cons, ← ih, ← String.length_utf8EncodeChar, ← length_append]
    rfl

def isPlainByte (b : UInt8) : Bool := !isSepByte b && b != 46

theorem utf8EncodeChar_cases (c : Char) :
    (c.utf8Size = 1 ∧ ∃ b, String.utf8EncodeChar c = [b] ∧ isSepByte b = isSep c ∧ (b = 46 ↔ c = '.')) ∨
      (isSep c = false ∧ c ≠ '.' ∧ String.utf8EncodeChar c ≠ [] ∧ ∀ b ∈ String.utf8EncodeChar c, isPlainByte b) := by
  by_cases hc : c.toNat < 128
  · have hbyte : String.utf8EncodeChar c = [UInt8.ofNat c.toNat] := by
      simpa [encode] using encode_ascii (s := [c]) (by simpa using hc)
    have heq {a : Char} (ha : a.toNat < 128) : UInt8.ofNat c.toNat = UInt8.ofNat a.toNat ↔ c = a := by
      refine ⟨fun h => ?_, fun h => by rw [h]⟩
      simpa using ascii_injective (s := [c]) (t := [a]) (by simpa using hc) (by simpa using ha) (by simpa using h)
    refine .inl ⟨by rw [← String.length_utf8EncodeChar, hbyte]; rfl, _, hbyte, ?_, heq (a := '.') (by decide)⟩
    rw [Bool.eq_iff_iff]
    simp only [isSepByte, isSep, Bool.or_eq_true, beq_iff_eq]
    exact or_congr (heq (a := '/') (by decide)) (heq (a := '\\') (by decide))
  · have hne {a : Char} (ha : a.toNat < 128) : c ≠ a := by
      rintro rfl
      exact hc ha
    refine .inr ⟨?_, hne (by decide), fun hnil => ?_, fun b hb => ?_⟩
    · simp [isSep, hne (a := '/') (by decide), hne (a := '\\') (by decide)]
    · have hlen := String.length_utf8EncodeChar c
      rw [hnil] at hlen
      exact absurd hlen.symm (Nat.ne_of_gt (Char.utf8Size_pos c))
    · have hb := utf8EncodeChar_high (Nat.le_of_not_lt hc) b hb
      have hother {a : UInt8} (ha : a.toNat < 128) : b ≠ a := by
        rintro rfl
        omega
      simp [isPlainByte, isSepByte, hother (a := 47) (by decide), hother (a := 92) (by decide), hother (a := 46) (by decide)]

/-! ## Between two characters -/

section Reads

variable (up : Bool) {pre rest : Str} {s : Norm} {b : ByteNorm}

/-- The registers behind the text `pre`. -/
def Reads (pre : Str) (s : Norm) (b : ByteNorm) : Prop :=
  ∃ front, pre = front ++ s.seg ∧ b = ⟨s.res, s.lastSegmentLength, utf8Len front - 1, s.dots⟩

theorem endSegmentAt_reads (h : Reads pre s b) : endSegmentAt up (pre ++ rest) (utf8Len pre) b =
    some ⟨(endSegment up s).res, (endSegment up s).lastSegmentLength, utf8Len pre, (endSegment up s).dots⟩ := by
  obtain ⟨front, rfl, rfl⟩ := h
  have hempty : ((utf8Len front : Int) - 1 = utf8Len (front ++ s.seg) - 1) ↔ s.seg = [] := by
    rw [utf8Len_append]
    refine ⟨fun h => ?_, fun h => by rw [h]; simp⟩
    by_contra hne
    have := utf8Len_pos hne
    omega
  have hfrom : ((utf8Len front : Int) - 1 + 1).toNat = utf8Len front := by omega
  have hlen : ((utf8Len (front ++ s.seg) : Int) - (utf8Len front - 1) - 1).toNat = utf8Len s.seg := by
    rw [utf8Len_append]
    omega
  simp only [endSegmentAt, endSegment, hempty, hfrom, hlen, slice, splitAtByte_append, Option.bind_some,
    Option.map_some]
  split
  · rfl
  split
  · split
    · cases rsplitOnce '\\' s.res <;> rfl
    · split
      · rfl
      · split <;> rfl
  · rfl

theorem endSegment_seg (s : Norm) : (endSegment up s).seg = [] := by
  unfold endSegment
  split
  · rfl
  split
  · dsimp only
    split
    · split <;> rfl
    · split
      · rfl
      · split <;> rfl
  · rfl

theorem byteLoop_plain {bytes more : List UInt8} (hplain : ∀ x ∈ bytes, isPlainByte x) (hne : bytes ≠ [])
    (path : Str) (i : Nat) (b : ByteNorm) :
    byteLoop up path i b (bytes ++ more) = byteLoop up path (i + bytes.length) { b with dots := -1 } more := by
  induction bytes generalizing i b with
  | nil => exact absurd rfl hne
  | cons x bytes ih =>
    obtain ⟨hx, hrest⟩ := forall_mem_cons.mp hplain
    simp only [isPlainByte, Bool.and_eq_true, Bool.not_eq_true', bne_iff_ne] at hx
    have hstep : byteStep up path i b x = some { b with dots := -1 } := by
      rw [byteStep, if_neg (by simp [hx.1]), if_neg fun hd => hx.2 hd.1]
    rw [cons_append, byteLoop, hstep, Option.bind_some]
    cases bytes with
    | nil => rfl
    | cons y bytes => rw [ih hrest (cons_ne_nil y bytes), length_cons (a := x), Nat.add_right_comm, Nat.add_assoc]

/-- **The loop over bytes is the pass over characters.** -/
theorem byteLoop_reads (h : Reads pre s b) (t : Str) (more : List UInt8) (path : Str) (hpath : path = pre ++ t ++ rest) :
    ∃ b', byteLoop up path (utf8Len pre) b (encode t ++ more) =
      byteLoop up path (utf8Len (pre ++ t)) b' more ∧ Reads (pre ++ t) (t.foldl (normStep up) s) b' := by
  induction t generalizing pre s b with
  | nil => exact ⟨b, by rw [append_nil]; rfl, by rwa [append_nil]⟩
  | cons c t ih =>
    have hcons : pre ++ c :: t = pre ++ [c] ++ t := by simp
    have hencode : encode (c :: t) ++ more = String.utf8EncodeChar c ++ (encode t ++ more) := by
      rw [← append_assoc]
      rfl
    have hnext : utf8Len pre + c.utf8Size = utf8Len (pre ++ [c]) := by simp
    -- one character, and then the rest of the text
    have hone (b₁ : ByteNorm) (hread : Reads (pre ++ [c]) (normStep up s c) b₁)
        (hloop : byteLoop up path (utf8Len pre) b (encode (c :: t) ++ more) =
          byteLoop up path (utf8Len (pre ++ [c])) b₁ (encode t ++ more)) :
        ∃ b', byteLoop up path (utf8Len pre) b (encode (c :: t) ++ more) =
          byteLoop up path (utf8Len (pre ++ c :: t)) b' more ∧
            Reads (pre ++ c :: t) ((c :: t).foldl (normStep up) s) b' := by
      obtain ⟨b', hrest, hreads⟩ := ih hread (by rw [hpath, hcons])
      exact ⟨b', by rw [hloop, hrest, hcons], by rw [hcons]; exact hreads⟩
    obtain ⟨front, hpre, hb⟩ := id h
    rcases utf8EncodeChar_cases c with ⟨hsize, x, hbytes, hsep, hdot⟩ | ⟨hsep, hdot, hne, hplain⟩
    · have hstep : byteLoop up path (utf8Len pre) b (encode (c :: t) ++ more) =
          (byteStep up path (utf8Len pre) b x).bind fun b₁ =>
            byteLoop up path (utf8Len (pre ++ [c])) b₁ (encode t ++ more) := by
        rw [hencode, hbytes, singleton_append, byteLoop, ← hnext, hsize]
      unfold byteStep at hstep
      rw [hsep] at hstep
      by_cases hc : isSep c
      · rw [if_pos hc, hpath, append_assoc, endSegmentAt_reads up h, ← append_assoc, ← hpath] at hstep
        refine hone _ ⟨pre ++ [c], ?_, ?_⟩ hstep
        · rw [normStep, if_pos hc, endSegment_seg, append_nil]
        · rw [normStep, if_pos hc, ← hnext, hsize]
          simp
      · have hread (dots : Int) (hdots : normStep up s c = { s with seg := s.seg ++ [c], dots := dots }) :
            Reads (pre ++ [c]) (normStep up s c) { b with dots := dots } :=
          ⟨front, by rw [hdots, hpre, append_assoc], by rw [hdots, hb]⟩
        have hdots : b.dots = s.dots := by rw [hb]
        simp only [if_neg hc, hdot, hdots] at hstep
        by_cases hd : c = '.' ∧ s.dots ≠ -1
        · rw [if_pos hd] at hstep
          exact hone _ (hread _ (by rw [normStep, if_neg hc, if_pos hd])) hstep
        · rw [if_neg hd] at hstep
          exact hone _ (hread _ (by rw [normStep, if_neg hc, if_neg hd])) hstep
    · have hstep : normStep up s c = { s with seg := s.seg ++ [c], dots := -1 } := by
        rw [normStep, if_neg (by simp [hsep]), if_neg fun hx => hdot hx.1]
      refine hone { b with dots := -1 } ⟨front, ?_, ?_⟩ ?_
      · rw [hstep, hpre, append_assoc]
      · rw [hstep, hb]
      · rw [hencode, byteLoop_plain up hplain hne, String.length_utf8EncodeChar, hnext]

end Reads

/-- **The loop leaves the joined stack**: it keeps of the segments what the stack keeps, for every text. -/
theorem normalizes_to_stack (path : Str) (allowAboveRoot : Bool) : normalizeWin32TailBytes path allowAboveRoot =
    some (['\\'].intercalate ((path.splitOnP isSep).foldl (pushSegment allowAboveRoot) [])) := by
  rw [← (normalizeWin32Tail_stack allowAboveRoot path).2]
  have hinit : Reads [] ⟨[], 0, [], 0⟩ ⟨[], 0, -1, 0⟩ := ⟨[], rfl, rfl⟩
  obtain ⟨b, hloop, hread⟩ := byteLoop_reads allowAboveRoot hinit path [] path (by simp : path = [] ++ path ++ [])
  have hlast : (encode path).getLast?.any isSepByte = path.getLast?.any isSep := by
    rcases eq_nil_or_concat path with rfl | ⟨q, c, rfl⟩
    · rfl
    · have hbytes : encode [c] = String.utf8EncodeChar c := append_nil _
      rw [concat_eq_append, encode_append, getLast?_concat, hbytes]
      rcases utf8EncodeChar_cases c with ⟨-, b, hbytes, hsep, -⟩ | ⟨hsep, -, hne, hplain⟩
      · rw [hbytes, getLast?_concat]
        exact hsep
      · rw [getLast?_append_of_ne_nil _ hne, getLast?_eq_some_getLast hne]
        have hbyte := hplain _ (getLast_mem hne)
        simp only [isPlainByte, Bool.and_eq_true, Bool.not_eq_true'] at hbyte
        exact hbyte.1.trans hsep.symm
  have hend : endSegmentAt allowAboveRoot (path ++ []) (utf8Len path) b = _ := endSegmentAt_reads allowAboveRoot hread
  rw [append_nil] at hloop hend
  have hloop : byteLoop allowAboveRoot path 0 ⟨[], 0, -1, 0⟩ (encode path) = some b := hloop
  have hend : byteStep allowAboveRoot path (utf8Len path) b 47 = _ := hend
  unfold normalizeWin32TailBytes normalizeWin32Tail
  dsimp only
  rw [hloop, Option.bind_some, hlast, length_encode, hend]
  obtain ⟨front, -, rfl⟩ := hread
  split <;> rfl

end Oam.Win32
