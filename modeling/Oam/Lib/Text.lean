/-
  Texts as lists of characters: cuts at ONE separator, codes that are read off the front of a text, the UTF-8 length and
  the ASCII-case-blind comparison.
-/
import Mathlib.Data.List.DropRight

namespace Text

open List

/-- A text: the characters of a Rust `&str`. -/
abbrev Str := List Char

section Cuts

variable {α : Type} [DecidableEq α]

/-! ## Cutting at the first separator -/

/-- `l` cut at the FIRST `a`: what precedes it and what follows it (`str::split_once`). -/
def splitOnce (a : α) : List α → Option (List α × List α)
  | [] => none
  | x :: xs => if x = a then some ([], xs) else (splitOnce a xs).map fun p => (x :: p.1, p.2)

variable {a : α}

theorem splitOnce_eq_none {l : List α} : splitOnce a l = none ↔ a ∉ l := by
  induction l with
  | nil => simp [splitOnce]
  | cons x xs ih =>
    by_cases hx : x = a
    · subst hx; simp [splitOnce]
    · simp [splitOnce, hx, ih, Ne.symm hx]

theorem splitOnce_append {u v : List α} (hu : a ∉ u) : splitOnce a (u ++ a :: v) = some (u, v) := by
  induction u with
  | nil => rw [nil_append, splitOnce, if_pos rfl]
  | cons x u ih =>
    rw [mem_cons, not_or] at hu
    rw [cons_append, splitOnce, if_neg (Ne.symm hu.1), ih hu.2]
    rfl

/-- **The first cut, exactly**: `l` is `u`, `a`, `v` and `u` has no `a` of its own. -/
theorem splitOnce_eq_some {l u v : List α} : splitOnce a l = some (u, v) ↔ l = u ++ a :: v ∧ a ∉ u := by
  constructor
  · intro h
    have hmem : a ∈ l := by
      by_contra hn
      rw [splitOnce_eq_none.mpr hn] at h
      cases h
    obtain ⟨u', v', rfl, hu'⟩ := eq_append_cons_of_mem hmem
    rw [splitOnce_append hu'] at h
    cases h
    exact ⟨rfl, hu'⟩
  · rintro ⟨rfl, hu⟩
    exact splitOnce_append hu

/-! ## Cutting at the last separator -/

/-- `l` cut at the LAST `a` (`str::rsplit_once`). -/
def rsplitOnce (a : α) : List α → Option (List α × List α)
  | [] => none
  | x :: xs =>
    match rsplitOnce a xs with
    | some (u, v) => some (x :: u, v)
    | none => if x = a then some ([], xs) else none

theorem rsplitOnce_eq_none {l : List α} : rsplitOnce a l = none ↔ a ∉ l := by
  induction l with
  | nil => simp [rsplitOnce]
  | cons x xs ih =>
    rw [rsplitOnce, mem_cons, not_or, ← ih]
    cases rsplitOnce a xs with
    | none => simp [eq_comm]
    | some => simp

theorem rsplitOnce_append {u v : List α} (hv : a ∉ v) : rsplitOnce a (u ++ a :: v) = some (u, v) := by
  induction u with
  | nil => rw [nil_append, rsplitOnce, rsplitOnce_eq_none.mpr hv, if_pos rfl]
  | cons x u ih => rw [cons_append, rsplitOnce, ih]

/-- **The last cut, exactly.** -/
theorem rsplitOnce_eq_some {l u v : List α} : rsplitOnce a l = some (u, v) ↔ l = u ++ a :: v ∧ a ∉ v := by
  constructor
  · intro h
    have hmem : a ∈ l := by
      by_contra hn
      rw [rsplitOnce_eq_none.mpr hn] at h
      cases h
    obtain ⟨v', u', hl, hv'⟩ := eq_append_cons_of_mem (mem_reverse.mpr hmem)
    obtain rfl : l = u'.reverse ++ a :: v'.reverse := by rw [← reverse_reverse l, hl]; simp
    rw [rsplitOnce_append (by rwa [mem_reverse])] at h
    cases h
    exact ⟨rfl, by rwa [mem_reverse]⟩
  · rintro ⟨rfl, hv⟩
    exact rsplitOnce_append hv

/-! ## Stripping a prefix -/

theorem dropPrefix?_eq_some {l p s : List α} : l.dropPrefix? p = some s ↔ l = p ++ s := by
  rw [dropPrefix?_eq_some_iff]
  simp

theorem dropPrefix?_append {p s : List α} : (p ++ s).dropPrefix? p = some s :=
  dropPrefix?_eq_some.mpr rfl

/-! ## Trimming the end -/

/-- `l` without the copies of `a` it ends in (`str::trim_end_matches`). -/
def trimEndMatches (a : α) (l : List α) : List α := l.rdropWhile (· = a)

theorem trimEndMatches_append (a : α) (l : List α) :
    ∃ copies, l = trimEndMatches a l ++ copies ∧ ∀ x ∈ copies, x = a := by
  refine ⟨l.rtakeWhile (· = a), (rdropWhile_append_rtakeWhile ..).symm, fun x hx => ?_⟩
  have hdecide := mem_rtakeWhile_imp hx
  exact of_decide_eq_true hdecide

theorem trimEndMatches_of_copies {l copies : List α} (hl : a ∉ l)
    (hcopies : ∀ x ∈ copies, x = a) : trimEndMatches a (l ++ copies) = l := by
  induction copies using reverseRecOn with
  | nil =>
    rw [append_nil, trimEndMatches, rdropWhile_eq_self_iff]
    intro hne hlast
    exact hl (of_decide_eq_true hlast ▸ getLast_mem hne)
  | append_singleton copies x ih =>
    rw [← append_assoc, trimEndMatches, rdropWhile_concat_pos]
    · exact ih fun y hy => hcopies y (mem_append_left _ hy)
    · exact decide_eq_true (hcopies x (by simp))

/-- `str::contains` of a text. -/
def containsText (needle : Str) : Str → Bool
  | [] => needle.isEmpty
  | c :: s => needle.isPrefixOf (c :: s) || containsText needle s

theorem containsText_iff {needle s : Str} : containsText needle s ↔ needle <:+: s := by
  induction s with
  | nil => simp [containsText]
  | cons c s ih =>
    rw [containsText, Bool.or_eq_true, isPrefixOf_iff_prefix, ih, infix_cons_iff]

end Cuts

/-! ## Bytes and letter case -/

/-- The number of bytes of a text in UTF-8: `str::len`. -/
def utf8Len : Str → Nat
  | [] => 0
  | c :: s => c.utf8Size + utf8Len s

@[simp] theorem utf8Len_nil : utf8Len [] = 0 := rfl

@[simp] theorem utf8Len_cons (c : Char) (s : Str) : utf8Len (c :: s) = c.utf8Size + utf8Len s :=
  rfl

@[simp] theorem utf8Len_append (s t : Str) : utf8Len (s ++ t) = utf8Len s + utf8Len t := by
  induction s with
  | nil => simp
  | cons c s ih => rw [cons_append, utf8Len_cons, utf8Len_cons, ih, Nat.add_assoc]

theorem utf8Len_pos {s : Str} (h : s ≠ []) : 0 < utf8Len s := by
  cases s with
  | nil => exact absurd rfl h
  | cons c =>
    have := Char.utf8Size_pos c
    rw [utf8Len_cons]
    omega

/-- `s` cut behind its first `n` bytes, if a character ends there: `s.get(..n)` and `s.get(n..)`. -/
def splitAtByte : Str → Nat → Option (Str × Str)
  | s, 0 => some ([], s)
  | [], _ + 1 => none
  | c :: s, n + 1 =>
    if c.utf8Size ≤ n + 1 then
      (splitAtByte s (n + 1 - c.utf8Size)).map fun p => (c :: p.1, p.2)
    else none

theorem splitAtByte_append (u v : Str) : splitAtByte (u ++ v) (utf8Len u) = some (u, v) := by
  induction u with
  | nil => cases v <;> rfl
  | cons c u ih =>
    have hc := Char.utf8Size_pos c
    obtain ⟨n, hn⟩ : ∃ n, c.utf8Size + utf8Len u = n + 1 :=
      ⟨c.utf8Size + utf8Len u - 1, by omega⟩
    have hrest : n + 1 - c.utf8Size = utf8Len u := by omega
    rw [utf8Len_cons, hn, cons_append, splitAtByte, if_pos (by omega), hrest, ih]
    rfl

/-- **The cut, exactly.** -/
theorem splitAtByte_eq_some {s u v : Str} {n : Nat} : splitAtByte s n = some (u, v) ↔ s = u ++ v ∧ utf8Len u = n := by
  constructor
  · intro h
    fun_induction splitAtByte s n generalizing u with
    | case1 =>
      injection h with h
      injection h with hu hv
      subst hu hv
      exact ⟨rfl, rfl⟩
    | case2 => cases h
    | case3 c s n hle ih =>
      obtain ⟨⟨u', v'⟩, hcut, h⟩ := Option.map_eq_some_iff.mp h
      injection h with hu hv
      subst hu hv
      obtain ⟨hs, hlen⟩ := ih hcut
      refine ⟨by rw [hs, cons_append], ?_⟩
      show c.utf8Size + utf8Len u' = n + 1
      omega
    | case4 => cases h
  · rintro ⟨rfl, rfl⟩
    exact splitAtByte_append u v

/-! ## Prefix-free codes -/

/-- What is written by `f` can be read off the front of any text. -/
structure PrefixFree {α β : Type} (f : α → List β) : Prop where
  read : ∀ {a b x y}, f a ++ x = f b ++ y → a = b ∧ x = y

section Codes

variable {α β : Type} {f : α → List β}

theorem prefixFree_of_words (h : ∀ a b, f a <+: f b → a = b) : PrefixFree f := by
  refine ⟨fun {a b x y} heq => ?_⟩
  have hab : a = b := by
    rcases append_eq_append_iff.mp heq with ⟨more, hmore, -⟩ | ⟨more, hmore, -⟩
    · exact h a b ⟨more, hmore.symm⟩
    · exact (h b a ⟨more, hmore.symm⟩).symm
  subst hab
  exact ⟨rfl, append_cancel_left heq⟩

theorem PrefixFree.quoted (hf : PrefixFree f) {q : β} (hq : ∀ a x y, f a ++ x ≠ q :: y) :
    PrefixFree fun l : List α => l.flatMap f ++ [q] := by
  refine ⟨fun {l l' x y} h => ?_⟩
  simp only [append_assoc, singleton_append] at h
  induction l generalizing l' with
  | nil =>
    cases l' with
    | nil => exact ⟨rfl, (cons.inj h).2⟩
    | cons =>
      rw [flatMap_cons, append_assoc] at h
      exact (hq _ _ _ h.symm).elim
  | cons a l ih =>
    cases l' with
    | nil =>
      rw [flatMap_cons, append_assoc] at h
      exact (hq _ _ _ h).elim
    | cons =>
      simp only [flatMap_cons, append_assoc] at h
      obtain ⟨rfl, hrest⟩ := hf.read h
      obtain ⟨rfl, hxy⟩ := ih hrest
      exact ⟨rfl, hxy⟩

end Codes

theorem forall_mem_of_all {α : Type} {P : α → Prop} [DecidablePred P] {l : List α}
    (h : l.all (fun a => decide (P a))) : ∀ a ∈ l, P a :=
  fun a ha => of_decide_eq_true (all_eq_true.mp h a ha)

/-- ASCII letters folded to lower case, every other character kept (`char::to_ascii_lowercase`). -/
def asciiLower (c : Char) : Char :=
  if 'A' ≤ c ∧ c ≤ 'Z' then Char.ofNat (c.toNat + 32) else c

/-- `str::eq_ignore_ascii_case`. -/
def eqIgnoreAsciiCase (s t : Str) : Bool := s.map asciiLower == t.map asciiLower

end Text
