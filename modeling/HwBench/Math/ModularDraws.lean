import Mathlib.Algebra.Order.Floor.Div
import Mathlib.Data.Fintype.BigOperators
import Mathlib.Data.Int.CardIntervalMod

/-!
# Draws reduced modulo a bound

Of the `N` values of a draw, those with a given remainder modulo `r` are `N / r` in
number, or one more for the small remainders. Independent draws multiply.
-/

namespace ModularDraws

open Finset

/-- How many values below `N` have remainder `v` modulo `r`. -/
def weight (N r v : ℕ) : ℕ := N / r + if v < N % r then 1 else 0

theorem card_filter_mod (N : ℕ) {r v : ℕ} (hv : v < r) :
    #{x : Fin N | x.val % r = v} = weight N r v := by
  have hcount := Nat.count_modEq_card (b := N) (Nat.zero_lt_of_lt hv) v
  rw [Nat.mod_eq_of_lt hv, Nat.count_eq_card_filter_range] at hcount
  rw [weight, ← hcount, ← card_map Fin.valEmbedding]
  congr 1
  ext x
  simp only [mem_map, mem_filter, mem_univ, true_and, Fin.valEmbedding_apply, mem_range,
    Nat.ModEq, Nat.mod_eq_of_lt hv]
  constructor
  · rintro ⟨y, hy, rfl⟩
    exact ⟨y.isLt, hy⟩
  · rintro ⟨hlt, hx⟩
    exact ⟨⟨x, hlt⟩, hx, rfl⟩

/-- Vectors of draws with given remainders, when draw `e i` is reduced modulo `r i`. -/
theorem card_filter_forall_mod (N : ℕ) {m : ℕ} (e : Equiv.Perm (Fin m)) {r v : Fin m → ℕ}
    (hv : ∀ i, v i < r i) :
    #{d : Fin m → Fin N | ∀ i, (d (e i)).val % r i = v i} = ∏ i, weight N (r i) (v i) := by
  have hpi : ({d : Fin m → Fin N | ∀ i, (d (e i)).val % r i = v i} : Finset _) =
      Fintype.piFinset fun k => {x : Fin N | x.val % r (e.symm k) = v (e.symm k)} := by
    ext d
    simp only [mem_filter, mem_univ, true_and, Fintype.mem_piFinset]
    constructor
    · intro h k
      simpa using h (e.symm k)
    · intro h i
      simpa using h (e i)
  rw [hpi, Fintype.card_piFinset, ← Equiv.prod_comp e]
  refine Finset.prod_congr rfl fun i _ => ?_
  rw [Equiv.symm_apply_apply, card_filter_mod N (hv i)]

theorem weight_zero_pos {N r : ℕ} (hN : 0 < N) (hr : 0 < r) : 0 < weight N r 0 := by
  rw [weight]
  obtain hlt | hle := Nat.lt_or_ge N r
  · rw [Nat.mod_eq_of_lt hlt, if_pos hN]
    exact Nat.succ_pos _
  · exact Nat.add_pos_left (Nat.div_pos hle hr) _

/-- All remainders are equally frequent if the bound divides the number of values. -/
theorem weight_of_dvd {N r : ℕ} (h : r ∣ N) (v : ℕ) : weight N r v = N / r := by
  rw [weight, Nat.mod_eq_zero_of_dvd h, if_neg (Nat.not_lt_zero v), Nat.add_zero]

theorem div_le_weight (N r v : ℕ) : N / r ≤ weight N r v := Nat.le_add_right _ _

theorem weight_le_ceilDiv (N v : ℕ) {r : ℕ} (hr : 0 < r) : weight N r v ≤ N ⌈/⌉ r := by
  have hsplit := Nat.div_add_mod N r
  rw [weight, Nat.ceilDiv_eq_add_pred_div, Nat.le_div_iff_mul_le hr, Nat.mul_comm, Nat.mul_add]
  split_ifs <;> omega

end ModularDraws
