import Mathlib.Data.Nat.Bitwise
import Mathlib.Tactic.Ring

/-!
# Machine words and power-of-two alignment

`size_t`, pointers-as-integers and `uint64_t` are 64-bit words with wrapping
arithmetic. The only bit trick the allocators use on them is rounding up to a
multiple of a power of two by an addition and a mask. The addition can wrap, so
the mask computes the exact multiple modulo the word range, not the multiple.
-/

namespace Machine

/-- A 64-bit machine word with wrapping arithmetic. -/
abbrev Word : Type := BitVec 64

/-- `n` rounded up to a multiple of `align`, in exact arithmetic. -/
def alignUp (align n : Nat) : Nat :=
  (n + (align - 1)) / align * align

theorem dvd_alignUp (align n : Nat) : align ∣ alignUp align n :=
  Nat.dvd_mul_left _ _

theorem le_alignUp {align : Nat} (n : Nat) (ha : 0 < align) : n ≤ alignUp align n := by
  have hdiv := Nat.div_add_mod (n + (align - 1)) align
  have hmod := Nat.mod_lt (n + (align - 1)) ha
  rw [Nat.mul_comm] at hdiv
  show n ≤ (n + (align - 1)) / align * align
  omega

theorem alignUp_lt_add {align : Nat} (n : Nat) (ha : 0 < align) :
    alignUp align n < n + align := by
  have hdiv := Nat.div_mul_le_self (n + (align - 1)) align
  show (n + (align - 1)) / align * align < n + align
  omega

/-- Clearing the low `k` bits rounds down to a multiple of `2 ^ k`. -/
theorem toNat_and_not_mask {w k : Nat} (x : BitVec w) (hk : k ≤ w) :
    (x &&& ~~~BitVec.ofNat w (2 ^ k - 1)).toNat = x.toNat / 2 ^ k * 2 ^ k := by
  apply Nat.eq_of_testBit_eq
  intro i
  rw [BitVec.testBit_toNat, BitVec.getLsbD_and, BitVec.getLsbD_not, BitVec.getLsbD_ofNat,
    Nat.testBit_two_pow_sub_one, Nat.testBit_mul_two_pow, Nat.testBit_div_two_pow]
  by_cases hki : k ≤ i
  · rw [Nat.sub_add_cancel hki, BitVec.testBit_toNat]
    by_cases hiw : i < w
    · simp [hki, hiw, Nat.not_lt.mpr hki]
    · simp [hki, hiw, BitVec.getLsbD_of_ge x i (Nat.le_of_not_lt hiw)]
  · have hiw : i < w := by omega
    simp [hki, hiw, Nat.lt_of_not_le hki]

/-- The usual add-and-mask computes the exact multiple modulo the word range.
When the addition wraps the exact multiple is `2 ^ w`, and the mask gives zero. -/
theorem toNat_add_and_not_mask {w k : Nat} (x : BitVec w) (hk : k ≤ w) :
    ((x + BitVec.ofNat w (2 ^ k - 1)) &&& ~~~BitVec.ofNat w (2 ^ k - 1)).toNat =
      alignUp (2 ^ k) x.toNat % 2 ^ w := by
  have hpos : 0 < 2 ^ k := Nat.two_pow_pos k
  have hsplit : 2 ^ w = 2 ^ k * 2 ^ (w - k) := by
    rw [← Nat.pow_add, Nat.add_sub_cancel' hk]
  rw [toNat_and_not_mask _ hk, BitVec.toNat_add, BitVec.toNat_ofNat, Nat.add_mod_mod, alignUp,
    hsplit, Nat.mod_mul_right_div_self, Nat.mul_comm (2 ^ k) (2 ^ (w - k)),
    Nat.mul_mod_mul_right]

end Machine
