/-
  Byte strings: what Rust's `&[u8]` methods do to a `List UInt8`.  A text that is built from lines is cut back into
  exactly those lines (`splitInclusive_append`), and a place that is built to be the first or the last of its kind is
  found there (`position_append`, `rposition_append`).
-/
import Oam.Lib.Text

abbrev Bytes := List UInt8

namespace Bytes

open List

/-- A byte-string literal `b"…"`. -/
def ascii (s : String) : Bytes := s.toList.map fun c => UInt8.ofNat c.toNat

section Pieces

variable {α : Type}

/-- `slice::split_inclusive`. -/
def splitInclusive (p : α → Bool) : List α → List (List α)
  | [] => []
  | x :: xs =>
    if p x then [x] :: splitInclusive p xs
    else
      match splitInclusive p xs with
      | [] => [[x]]
      | piece :: pieces => (x :: piece) :: pieces

variable {p : α → Bool}

theorem splitInclusive_append {line : List α} {sep : α} (hline : ∀ x ∈ line, p x = false) (hsep : p sep)
    (rest : List α) : splitInclusive p (line ++ sep :: rest) = (line ++ [sep]) :: splitInclusive p rest := by
  induction line with
  | nil => simp [splitInclusive, hsep]
  | cons x line ih =>
    have hx := hline x (mem_cons_self ..)
    rw [cons_append, splitInclusive, ih fun y hy => hline y (mem_cons_of_mem _ hy)]
    simp [hx]

/-- `Iterator::position`. -/
def position (p : α → Bool) (l : List α) : Option Nat := l.findIdx? p

/-- `Iterator::rposition`. -/
def rposition (p : α → Bool) (l : List α) : Option Nat :=
  (l.reverse.findIdx? p).map fun i => l.length - 1 - i

theorem position_append {before after : List α} {x : α} (hbefore : ∀ y ∈ before, p y = false)
    (hx : p x) : position p (before ++ x :: after) = some before.length := by
  have hnone : before.findIdx? p = none := by
    rw [findIdx?_eq_none_iff]
    exact hbefore
  simp [position, findIdx?_append, hnone, findIdx?_cons, hx]

theorem rposition_append {before after : List α} {x : α} (hafter : ∀ y ∈ after, p y = false)
    (hx : p x) : rposition p (before ++ x :: after) = some before.length := by
  have hrev : (before ++ x :: after).reverse = after.reverse ++ x :: before.reverse := by simp
  have hlast : position p (after.reverse ++ x :: before.reverse) = some after.reverse.length :=
    position_append (fun y hy => hafter y (mem_reverse.mp hy)) hx
  rw [position] at hlast
  rw [rposition, hrev, hlast, Option.map_some, length_reverse, length_append, length_cons]
  congr 1
  omega

end Pieces

/-- `u8::to_ascii_lowercase`. -/
def lower (b : UInt8) : UInt8 := if 65 ≤ b.toNat ∧ b.toNat ≤ 90 then b + 32 else b

/-- `slice::eq_ignore_ascii_case`. -/
def eqIgnoreAsciiCase (a b : Bytes) : Bool := a.map lower == b.map lower

/-! ## 32-bit words -/

/-- `u32::from_le_bytes`. -/
def u32OfLe (bytes : Bytes) : UInt32 := UInt32.ofNat (bytes.foldr (fun b n => b.toNat + 256 * n) 0)

/-- `u32::from_be_bytes`. -/
def u32OfBe (bytes : Bytes) : UInt32 := u32OfLe bytes.reverse

/-- `u32::to_le_bytes`. -/
def leOfU32 (word : UInt32) : Bytes :=
  [word.toNat, word.toNat / 256, word.toNat / 65536, word.toNat / 16777216].map UInt8.ofNat

/-- `u32::to_be_bytes`. -/
def beOfU32 (word : UInt32) : Bytes := (leOfU32 word).reverse

@[simp] theorem length_leOfU32 (word : UInt32) : (leOfU32 word).length = 4 := rfl

@[simp] theorem length_beOfU32 (word : UInt32) : (beOfU32 word).length = 4 := rfl

theorem u32OfLe_leOfU32 (word : UInt32) : u32OfLe (leOfU32 word) = word := by
  have hword : word.toNat < 4294967296 := word.toNat_lt
  rw [← UInt32.toNat_inj]
  simp only [u32OfLe, leOfU32, map_cons, map_nil, foldr_cons, foldr_nil,
    UInt8.toNat_ofNat', UInt32.toNat_ofNat']
  omega

theorem u32OfBe_beOfU32 (word : UInt32) : u32OfBe (beOfU32 word) = word := by
  rw [u32OfBe, beOfU32, reverse_reverse, u32OfLe_leOfU32]

end Bytes
