/-
  The natural numbers a binary64 can hold: above `2 ^ 53` a sum or a difference is ROUNDED to the nearest one that fits,
  and a tie goes to the even one (`toNumber`).
-/
import Mathlib.Algebra.Order.Group.Nat

namespace Number

/-- The first natural number with a successor that is not a double. -/
def limit : Nat := 2 ^ 53

/-- How many low bits of `n` do not fit. -/
def excess (n : Nat) : Nat := n.log2 - 52

/-- The nearest double, ties to even. -/
def toNumber (n : Nat) : Nat :=
  let unit := 2 ^ excess n
  let low := n / unit
  let rest := n % unit
  if 2 * rest < unit ∨ (2 * rest = unit ∧ low % 2 = 0) then low * unit else (low + 1) * unit

theorem toNumber_of_lt {n : Nat} (h : n < limit) : toNumber n = n := by
  have hlog : n.log2 ≤ 52 := by
    by_cases hzero : n = 0
    · subst hzero
      decide
    · have hlt : n.log2 < 53 := (Nat.log2_lt hzero).mpr h
      omega
  have hexcess : excess n = 0 := Nat.sub_eq_zero_of_le hlog
  simp [toNumber, hexcess, Nat.mod_one]

theorem limit_le_toNumber {n : Nat} (h : limit ≤ n) : limit ≤ toNumber n := by
  have hne : n ≠ 0 := by
    intro hzero
    subst hzero
    exact absurd h (by decide)
  have hlog : 53 ≤ n.log2 := (Nat.le_log2 hne).mpr h
  have hpow : 2 ^ n.log2 ≤ n := Nat.log2_self_le hne
  -- the bits that are kept already make up 2 ^ 52 units, and a unit is at least two
  have hkept : 2 ^ 52 ≤ n / 2 ^ excess n := by
    rw [Nat.le_div_iff_mul_le (Nat.two_pow_pos _), ← Nat.pow_add]
    exact Nat.le_trans (Nat.pow_le_pow_right (by decide) (by unfold excess; omega)) hpow
  have hunit : 2 ≤ 2 ^ excess n := by
    calc 2 = 2 ^ 1 := rfl
      _ ≤ 2 ^ excess n := Nat.pow_le_pow_right (by decide) (by unfold excess; omega)
  have hlow : limit ≤ n / 2 ^ excess n * 2 ^ excess n := by
    calc limit = 2 ^ 52 * 2 := rfl
      _ ≤ n / 2 ^ excess n * 2 ^ excess n := Nat.mul_le_mul hkept hunit
  unfold toNumber
  dsimp only
  split
  · exact hlow
  · exact Nat.le_trans hlow (Nat.mul_le_mul_right _ (Nat.le_succ _))

theorem lt_of_toNumber_lt {n : Nat} (h : toNumber n < limit) : n < limit := by
  by_contra hge
  exact absurd (limit_le_toNumber (Nat.le_of_not_lt hge)) (Nat.not_le_of_lt h)

-- the rounding is used through these lemmas; nothing is gained by computing it in the middle of a proof
attribute [irreducible] toNumber

end Number
