import Mathlib.Algebra.Ring.Nat
import Mathlib.Data.Nat.Log
import Mathlib.Tactic.Common

/-!
# Rounding to a number of significant bits

`roundBits p n` is the value nearest to `n` among those with at most `p` significant bits, ties to
even.  This is how the operations of a binary floating-point format round, as long as exponents
neither overflow nor underflow.  Numbers with a fraction are taken at a fixed scale: rounding
commutes with multiplication by a power of two.

The value is off by at most half a unit in the last place (`roundBits_near`), which is a small
part of the number itself (`roundBits_le_add`, `le_roundBits_add`).
-/

namespace Rounding

/-- The number of low bits that do not fit `p` significant ones. -/
def excess (p n : Nat) : Nat := n.log2 + 1 - p

/-- The nearest number with `p` significant bits, ties to even. -/
def roundBits (p n : Nat) : Nat :=
  let unit := 2 ^ excess p n
  let quotient := n / unit
  let rest := n % unit
  if 2 * rest > unit ∨ (2 * rest = unit ∧ quotient % 2 = 1) then (quotient + 1) * unit
  else quotient * unit

variable {p n : Nat}

theorem excess_of_lt (h : n < 2 ^ (p + 1)) : excess (p + 1) n = 0 := by
  unfold excess
  rcases Nat.eq_zero_or_pos n with rfl | hpos
  · rw [Nat.log2_zero]
    omega
  · have hlog := (Nat.log2_lt (by omega)).mpr h
    omega

/-- Numbers that fit are not changed. -/
theorem roundBits_of_lt (h : n < 2 ^ (p + 1)) : roundBits (p + 1) n = n := by
  unfold roundBits
  rw [excess_of_lt h]
  simp [Nat.mod_one]

/-- The value is off by at most half a unit. -/
theorem roundBits_near (p n : Nat) :
    2 * n ≤ 2 * roundBits p n + 2 ^ excess p n ∧ 2 * roundBits p n ≤ 2 * n + 2 ^ excess p n := by
  have hunit := Nat.two_pow_pos (excess p n)
  have hdiv := Nat.div_add_mod n (2 ^ excess p n)
  have hmod := Nat.mod_lt n hunit
  unfold roundBits
  dsimp only
  generalize 2 ^ excess p n = unit at *
  have hnext : (n / unit + 1) * unit = unit * (n / unit) + unit := by
    rw [Nat.succ_mul, Nat.mul_comm]
  have hsame : n / unit * unit = unit * (n / unit) := Nat.mul_comm _ _
  split
  · omega
  · omega

/-- A unit in the last place is a small part of the number. -/
theorem unit_le (p n : Nat) : 2 ^ excess (p + 1) n ≤ 2 * (n / 2 ^ (p + 1)) + 1 := by
  rcases Nat.lt_or_ge n (2 ^ (p + 1)) with hlt | hge
  · rw [excess_of_lt hlt, Nat.pow_zero]
    exact Nat.le_add_left 1 _
  · have hpos : n ≠ 0 := by
      have := Nat.two_pow_pos (p + 1)
      omega
    have hlog : p + 1 ≤ n.log2 := (Nat.le_log2 hpos).mpr hge
    have hsum : excess (p + 1) n + p = n.log2 := by
      unfold excess
      omega
    have hmul : 2 ^ excess (p + 1) n * 2 ^ p ≤ n := by
      rw [← Nat.pow_add, hsum]
      exact Nat.log2_self_le hpos
    have hdiv := (Nat.le_div_iff_mul_le (Nat.two_pow_pos p)).mpr hmul
    have htwo : n / 2 ^ (p + 1) = n / 2 ^ p / 2 := by
      rw [Nat.pow_succ, Nat.div_div_eq_div_mul]
    omega

theorem le_roundBits_add (p n : Nat) : n ≤ roundBits (p + 1) n + n / 2 ^ (p + 1) := by
  have hnear := (roundBits_near (p + 1) n).1
  have hunit := unit_le p n
  omega

theorem roundBits_le_add (p n : Nat) : roundBits (p + 1) n ≤ n + n / 2 ^ (p + 1) := by
  have hnear := (roundBits_near (p + 1) n).2
  have hunit := unit_le p n
  omega

end Rounding
