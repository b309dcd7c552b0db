/-
  JSON string literals in a JavaScript string: `JSON.parse` of one, and their grammar.

  `Literal us vs` says that `us`, between quotes, is a literal of the string `vs` (ECMA-404).  It is what a printer shows
  of its output and what a reader needs to know: `JSON.parse` gives `vs` back (`Literal.parses`).
-/
import Oam.Lib.Utf

namespace JsonString

open Text

def quote : UInt16 := 0x22

def backslash : UInt16 := 0x5c

def hexValue (u : UInt16) : Option Nat :=
  if 0x30 ≤ u.toNat ∧ u.toNat ≤ 0x39 then some (u.toNat - 0x30)
  else if 0x41 ≤ u.toNat ∧ u.toNat ≤ 0x46 then some (u.toNat - 0x37)
  else if 0x61 ≤ u.toNat ∧ u.toNat ≤ 0x66 then some (u.toNat - 0x57)
  else none

def hex4 (a b c d : UInt16) : Option UInt16 := do
  let a ← hexValue a
  let b ← hexValue b
  let c ← hexValue c
  let d ← hexValue d
  return UInt16.ofNat (a * 4096 + b * 256 + c * 16 + d)

/-- What a backslash and one unit after it stand for. -/
def escapes : List (UInt16 × UInt16) :=
  [(0x22, 0x22), (0x5c, 0x5c), (0x2f, 0x2f), (0x62, 8), (0x66, 12), (0x6e, 10), (0x72, 13), (0x74, 9)]

def escaped (e : UInt16) : Option UInt16 := escapes.lookup e

/-- The value of a literal whose opening quote is behind us; the closing one has to be the last unit. -/
def parseRest : Units → Option Units
  | [] => none
  | u :: us =>
    if u = quote then if us = [] then some [] else none
    else if u = backslash then
      match us with
      | [] => none
      | e :: us =>
        if e = 0x75 then
          match us with
          | a :: b :: c :: d :: us => (hex4 a b c d).bind fun v => (parseRest us).map (v :: ·)
          | _ => none
        else (escaped e).bind fun v => (parseRest us).map (v :: ·)
    else if u.toNat < 0x20 then none
    else (parseRest us).map (u :: ·)

/-- `JSON.parse` of a string literal; `none` where it throws. -/
def parse : Units → Option Units
  | u :: us => if u = quote then parseRest us else none
  | [] => none

def Bare (u : UInt16) : Prop := 0x20 ≤ u.toNat ∧ u ≠ quote ∧ u ≠ backslash

instance (u : UInt16) : Decidable (Bare u) := inferInstanceAs (Decidable (_ ∧ _))

/-- **The grammar.**  Between two quotes, the units `us` are a literal of the string `vs`. -/
inductive Literal : Units → Units → Prop
  | nil : Literal [] []
  | bare {u : UInt16} {us vs : Units} (hu : Bare u) (h : Literal us vs) : Literal (u :: us) (u :: vs)
  | escape {e v : UInt16} {us vs : Units} (he : escaped e = some v) (h : Literal us vs) :
      Literal (backslash :: e :: us) (v :: vs)
  | code {a b c d v : UInt16} {us vs : Units} (hv : hex4 a b c d = some v) (h : Literal us vs) :
      Literal (backslash :: 0x75 :: a :: b :: c :: d :: us) (v :: vs)

theorem ne_u_of_escaped {e v : UInt16} (h : escaped e = some v) : e ≠ 0x75 := by
  rintro rfl
  have hnone : escaped 0x75 = none := by decide
  rw [hnone] at h
  cases h

theorem Literal.append {us vs us' vs' : Units} (h : Literal us vs) (h' : Literal us' vs') :
    Literal (us ++ us') (vs ++ vs') := by
  induction h with
  | nil => exact h'
  | bare hu _ ih => exact .bare hu ih
  | escape he _ ih => exact .escape he ih
  | code hv _ ih => exact .code hv ih

theorem literal_bare {us : Units} (h : ∀ u ∈ us, Bare u) : Literal us us := by
  induction us with
  | nil => exact .nil
  | cons u us ih => exact .bare (h u List.mem_cons_self) (ih fun v hv => h v (List.mem_cons_of_mem u hv))

/-- **A literal is parsed to its string.** -/
theorem Literal.parses {us vs : Units} (h : Literal us vs) : parse (quote :: (us ++ [quote])) = some vs := by
  rw [parse, if_pos rfl]
  induction h with
  | nil => rfl
  | @bare u us vs hu _ ih =>
    rw [List.cons_append, parseRest.eq_def]
    dsimp only
    rw [if_neg hu.2.1, if_neg hu.2.2, if_neg (by have := hu.1; omega), ih]
    rfl
  | @escape e v us vs he _ ih =>
    rw [List.cons_append, List.cons_append, parseRest.eq_def]
    dsimp only
    rw [if_neg (by decide), if_pos rfl, if_neg (ne_u_of_escaped he), he, ih]
    rfl
  | @code a b c d v us vs hv _ ih =>
    simp only [List.cons_append]
    rw [parseRest.eq_def]
    dsimp only
    rw [if_neg (by decide), if_pos rfl, if_pos rfl, hv, ih]
    rfl

end JsonString
