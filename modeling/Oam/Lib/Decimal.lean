/-
  Decimal numerals: rendering, and the two readings Rust's integers have.  `decimal` is a bijection onto the canonical
  numerals, so a reader that insists on canonical digits accepts exactly one spelling of each number.
-/
import Oam.Lib.Text

namespace Decimal

open Nat List Text

/-- The decimal digits of `n`. -/
def decimal (n : Nat) : Str := toDigits 10 n

def value (s : Str) : Nat := ofDigitChars 10 s 0

/-- Digits, with no leading zero unless the numeral is `0` itself. -/
def IsCanonical (s : Str) : Prop :=
  s ≠ [] ∧ (∀ c ∈ s, c.isDigit = true) ∧ (s = ['0'] ∨ s.head? ≠ some '0')

/-- A text without its leading `+`, if it has one. -/
def stripPlus (s : Str) : Str := if s.head? = some '+' then s.tail else s

/-- `str::parse` of an unsigned integer type with `bound` values. -/
def parseUnsigned (bound : Nat) (s : Str) : Option Nat :=
  let digits := stripPlus s
  if digits ≠ [] ∧ digits.all Char.isDigit ∧ value digits < bound then
    some (value digits)
  else none

theorem decimal_ne_nil (n : Nat) : decimal n ≠ [] := toDigits_ne_nil

variable {c : Char}

theorem isDigit_of_mem_decimal {n : Nat} (h : c ∈ decimal n) : c.isDigit :=
  isDigit_of_mem_toDigits (by decide) (by decide) h

theorem not_mem_decimal (hc : c.isDigit = false) (n : Nat) : c ∉ decimal n := fun h => by
  rw [isDigit_of_mem_decimal h] at hc
  nomatch hc

theorem value_decimal (n : Nat) : value (decimal n) = n := ofDigitChars_ten_toDigits

theorem decimal_injective {m n : Nat} (h : decimal m = decimal n) : m = n := by
  rw [← value_decimal m, h, value_decimal]

/-! ## Canonical numerals -/

theorem decimal_digit (hc : c.isDigit) : decimal (c.toNat - '0'.toNat) = [c] := by
  obtain ⟨hlo, hhi⟩ : 48 ≤ c.toNat ∧ c.toNat ≤ 57 := by
    simp only [Char.isDigit, Bool.and_eq_true, decide_eq_true_eq] at hc
    exact ⟨hc.1, hc.2⟩
  have hcases : c.toNat = 48 ∨ c.toNat = 49 ∨ c.toNat = 50 ∨ c.toNat = 51 ∨ c.toNat = 52 ∨
      c.toNat = 53 ∨ c.toNat = 54 ∨ c.toNat = 55 ∨ c.toNat = 56 ∨ c.toNat = 57 := by omega
  rw [← Char.ofNat_toNat c]
  rcases hcases with h | h | h | h | h | h | h | h | h | h <;> rw [h] <;> decide

theorem digit_value_lt (hc : c.isDigit) : c.toNat - '0'.toNat < 10 := by
  simp only [Char.isDigit, Bool.and_eq_true, decide_eq_true_eq] at hc
  have hhi : c.toNat ≤ 57 := hc.2
  show c.toNat - 48 < 10
  omega

theorem decimal_ofDigitChars {ds : Str} (hds : ∀ c ∈ ds, c.isDigit) :
    ∀ {n : Nat}, 0 < n → decimal (ofDigitChars 10 ds n) = decimal n ++ ds := by
  induction ds with
  | nil => intro n _; simp [ofDigitChars]
  | cons d ds ih =>
    intro n hn
    have hd := hds d (mem_cons_self ..)
    have hstep : decimal n ++ [d] = decimal (10 * n + (d.toNat - '0'.toNat)) := by
      rw [← decimal_digit hd]
      exact toDigits_append_toDigits (by decide) hn (digit_value_lt hd)
    rw [ofDigitChars_cons, ih (fun c hc => hds c (mem_cons_of_mem _ hc)) (by omega), ← hstep]
    simp

/-- **Uniqueness.**  A canonical numeral is the rendering of its value. -/
theorem decimal_value_of_isCanonical {s : Str} (h : IsCanonical s) : decimal (value s) = s := by
  obtain ⟨hne, hdig, hcan⟩ := h
  rcases hcan with rfl | hlead
  · decide
  · cases s with
    | nil => exact absurd rfl hne
    | cons d ds =>
      have hd := hdig d (mem_cons_self ..)
      have hd0 : d ≠ '0' := fun he => hlead (by rw [he]; rfl)
      have hpos : 0 < d.toNat - '0'.toNat := by
        rcases Nat.eq_zero_or_pos (d.toNat - '0'.toNat) with hz | hp
        · have hz' := decimal_digit hd
          rw [hz] at hz'
          exact absurd (List.cons.inj (hz'.symm.trans (by decide : decimal 0 = ['0']))).1 hd0
        · exact hp
      rw [value, Nat.ofDigitChars_cons, Nat.mul_zero, Nat.zero_add,
        decimal_ofDigitChars (fun c hc => hdig c (mem_cons_of_mem _ hc)) hpos,
        decimal_digit hd]
      rfl

/-- **A rendering is canonical.**  A longer numeral keeps the head of `n / 10`, which is not zero. -/
theorem isCanonical_decimal (n : Nat) : IsCanonical (decimal n) := by
  refine ⟨decimal_ne_nil n, fun c hc => isDigit_of_mem_decimal hc, ?_⟩
  rcases Nat.eq_zero_or_pos n with rfl | hpos
  · exact .inl (by decide)
  · right
    induction n using Nat.strongRecOn with
    | ind n ih =>
      by_cases hlt : n < 10
      · have hcases : n = 1 ∨ n = 2 ∨ n = 3 ∨ n = 4 ∨ n = 5 ∨ n = 6 ∨ n = 7 ∨ n = 8 ∨ n = 9 := by
          omega
        rcases hcases with h | h | h | h | h | h | h | h | h <;> rw [h] <;> decide
      · have hrec : decimal n = decimal (n / 10) ++ [(n % 10).digitChar] :=
          toDigits_of_base_le (by decide) (by omega)
        have hhead := ih (n / 10) (by omega) (by omega)
        rw [hrec]
        cases hd : decimal (n / 10) with
        | nil => exact absurd hd (decimal_ne_nil _)
        | cons c cs =>
          rw [hd] at hhead
          exact hhead

/-! ## Reading -/

theorem parseUnsigned_of_digits {bound : Nat} {s : Str} (hne : s ≠ []) (hdig : ∀ c ∈ s, c.isDigit) :
    parseUnsigned bound s = if value s < bound then some (value s) else none := by
  have hplus : s.head? ≠ some '+' := by
    intro hh
    exact absurd (hdig '+' (mem_of_mem_head? hh)) (by decide)
  simp only [parseUnsigned, stripPlus, if_neg hplus]
  by_cases hlt : value s < bound
  · rw [if_pos ⟨hne, all_eq_true.mpr hdig, hlt⟩, if_pos hlt]
  · rw [if_neg fun h => hlt h.2.2, if_neg hlt]

theorem parseUnsigned_decimal {bound n : Nat} (h : n < bound) : parseUnsigned bound (decimal n) = some n := by
  rw [parseUnsigned_of_digits (decimal_ne_nil n) fun c hc => isDigit_of_mem_decimal hc, value_decimal, if_pos h]

theorem mem_of_parseUnsigned {bound n : Nat} {s : Str} (h : parseUnsigned bound s = some n)
    (hc : c ∈ s) : c = '+' ∨ c.isDigit := by
  rw [parseUnsigned] at h
  split at h
  · next hdigits =>
    by_cases hplus : s.head? = some '+'
    · rw [stripPlus, if_pos hplus] at hdigits
      rw [head?_eq_some_iff] at hplus
      obtain ⟨digits, rfl⟩ := hplus
      rcases mem_cons.mp hc with rfl | hc
      · exact .inl rfl
      · exact .inr (all_eq_true.mp hdigits.2.1 c hc)
    · rw [stripPlus, if_neg hplus] at hdigits
      exact .inr (all_eq_true.mp hdigits.2.1 c hc)
  · cases h

end Decimal
