import Mathlib.Algebra.Order.Ring.Nat

/-!
# Rounding to a number of significant bits

A floating-point number with `p` significant bits is a multiple of a power of two,
its last place. An operation rounds its exact result to the nearest such number,
and to the one with an even significand if two are equally near. Magnitudes here
are natural numbers in a unit chosen by the user, and the exponent is not limited.

Rounding moves a number by half of its last place at most, so it does not pass a
multiple of the last place that is nearer than that.
-/

namespace Machine.Significand

/-- The last place of a number with `p` significant bits in the binade of `n`. -/
def ulp (p n : Nat) : Nat := 2 ^ (n.log2 + 1 - p)

/-- `n` to `p` significant bits, to nearest, ties to even. -/
def round (p n : Nat) : Nat :=
  if 2 * (n % ulp p n) < ulp p n ∨ 2 * (n % ulp p n) = ulp p n ∧ n / ulp p n % 2 = 0 then
    n / ulp p n * ulp p n
  else
    (n / ulp p n + 1) * ulp p n

theorem ulp_pos (p n : Nat) : 0 < ulp p n := Nat.pow_pos Nat.two_pos

theorem ulp_dvd_round (p n : Nat) : ulp p n ∣ round p n := by
  rw [round]
  split <;> exact Nat.dvd_mul_left _ _

/-- Rounding moves a number by half of the last place at most. -/
theorem round_error (p n : Nat) :
    2 * round p n ≤ 2 * n + ulp p n ∧ 2 * n ≤ 2 * round p n + ulp p n := by
  have hdiv := Nat.div_add_mod n (ulp p n)
  have hmod := Nat.mod_lt n (ulp_pos p n)
  rw [Nat.mul_comm] at hdiv
  rw [round]
  split
  · omega
  · rw [Nat.add_one_mul (n / ulp p n)]
    omega

/-- A multiple that lies less than one step above another one is not above it. -/
theorem le_of_dvd_of_lt_add {u a c : Nat} (ha : u ∣ a) (hc : u ∣ c) (h : a < c + u) : a ≤ c := by
  by_contra hlt
  have hstep : u ≤ a - c := Nat.le_of_dvd (by omega) (Nat.dvd_sub ha hc)
  omega

/-- Rounding does not go below a multiple of the last place that lies less than half
of it above the number. -/
theorem le_round {p n c : Nat} (hdvd : ulp p n ∣ c) (h : 2 * c < 2 * n + ulp p n) :
    c ≤ round p n := by
  have herror := (round_error p n).2
  exact le_of_dvd_of_lt_add hdvd (ulp_dvd_round p n) (by omega)

theorem round_le {p n c : Nat} (hdvd : ulp p n ∣ c) (h : 2 * n < 2 * c + ulp p n) :
    round p n ≤ c := by
  have herror := (round_error p n).1
  exact le_of_dvd_of_lt_add (ulp_dvd_round p n) hdvd (by omega)

/-- The last place of a number of `p + k` bits is not above bit `k`. -/
theorem ulp_dvd_two_pow {p k n : Nat} (hne : n ≠ 0) (hn : n < 2 ^ (p + k)) : ulp p n ∣ 2 ^ k := by
  have hlog := (Nat.log2_lt hne).mpr hn
  exact Nat.pow_dvd_pow 2 (by omega)

/-- All digits of a number lie above or among the `p` digits from its last place. -/
theorem lt_ulp_mul (p n : Nat) : n < ulp p n * 2 ^ p := by
  calc n < 2 ^ (n.log2 + 1) := Nat.lt_log2_self
    _ ≤ 2 ^ (n.log2 + 1 - p + p) := Nat.pow_le_pow_right Nat.two_pos (by omega)
    _ = ulp p n * 2 ^ p := Nat.pow_add 2 _ p

/-- A number of at most `p` bits is exact. -/
theorem round_of_lt {p n : Nat} (hn : n < 2 ^ p) : round p n = n := by
  have hpos := ulp_pos p n
  have hdvd : ulp p n ∣ n := by
    by_cases hzero : n = 0
    · rw [hzero]
      exact Nat.dvd_zero _
    · exact (ulp_dvd_two_pow (k := 0) hzero hn).trans (Nat.one_dvd n)
  exact Nat.le_antisymm (round_le hdvd (by omega)) (le_round hdvd (by omega))

end Machine.Significand
