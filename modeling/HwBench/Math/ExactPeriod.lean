import Mathlib.Algebra.BigOperators.Group.Finset.Basic
import Mathlib.Algebra.Order.Floor.Div
import Mathlib.Data.Int.CardIntervalMod

/-!
# Sequences with an exact period

A sequence has exact period `p` when two of its terms are equal exactly for
indices that are congruent modulo `p`. Its first `p` terms are then distinct and
all later ones repeat them, so both the number of different terms and the number
of times each term occurs among the first `count` are known. The multiples of
a stride modulo a length are such a sequence.
-/

/-- Terms agree exactly at congruent indices. -/
def ExactPeriod {α : Type*} (f : ℕ → α) (p : ℕ) : Prop :=
  ∀ i j, f i = f j ↔ i ≡ j [MOD p]

namespace ExactPeriod

variable {α : Type*} {f : ℕ → α} {p : ℕ}

theorem injOn (h : ExactPeriod f p) : Set.InjOn f (Finset.range p) := by
  intro i hi j hj heq
  rw [Finset.mem_coe, Finset.mem_range] at hi hj
  exact Nat.ModEq.eq_of_lt_of_lt ((h i j).mp heq) hi hj

variable [DecidableEq α]

/-- A whole period is all the sequence ever shows. -/
theorem image_range (h : ExactPeriod f p) (hp : 0 < p) {count : ℕ} (hle : p ≤ count) :
    (Finset.range count).image f = (Finset.range p).image f := by
  refine Finset.Subset.antisymm ?_ (Finset.image_subset_image (Finset.range_mono hle))
  intro x hx
  obtain ⟨t, _, rfl⟩ := Finset.mem_image.mp hx
  exact Finset.mem_image.mpr
    ⟨t % p, Finset.mem_range.mpr (Nat.mod_lt t hp), (h (t % p) t).mpr (Nat.mod_modEq t p)⟩

/-- The first `count` terms are distinct up to the period. -/
theorem card_image (h : ExactPeriod f p) (hp : 0 < p) (count : ℕ) :
    ((Finset.range count).image f).card = min count p := by
  obtain hle | hle := Nat.le_total count p
  · rw [Nat.min_eq_left hle, Finset.card_image_of_injOn, Finset.card_range]
    exact h.injOn.mono (Finset.coe_subset.mpr (Finset.range_mono hle))
  · rw [Nat.min_eq_right hle, h.image_range hp hle, Finset.card_image_of_injOn h.injOn,
      Finset.card_range]

/-- How many of the terms of a run are not among the first `warm` terms. -/
theorem card_image_sdiff (h : ExactPeriod f p) (hp : 0 < p) (count warm : ℕ) :
    ((Finset.range count).image f \ (Finset.range warm).image f).card =
      min count p - min warm p := by
  obtain hle | hle := Nat.le_total count warm
  · rw [Finset.sdiff_eq_empty_iff_subset.mpr (Finset.image_subset_image (Finset.range_mono hle)),
      Finset.card_empty]
    omega
  · rw [Finset.card_sdiff_of_subset (Finset.image_subset_image (Finset.range_mono hle)),
      h.card_image hp, h.card_image hp]

/-- How often a term occurs among the first `count`. -/
theorem count_map_range (h : ExactPeriod f p) (hp : 0 < p) (count k : ℕ) :
    ((List.range count).map f).count (f k) =
      count / p + if k % p < count % p then 1 else 0 := by
  rw [← Nat.count_modEq_card _ hp, Nat.count, List.count, List.countP_map]
  apply List.countP_congr
  intro t _
  simp only [Function.comp_apply, beq_iff_eq, decide_eq_true_eq, h t k]

/-- Every term occurs equally often, up to the one incomplete period at the end. -/
theorem count_map_range_eq_or (h : ExactPeriod f p) (hp : 0 < p) (count k : ℕ) :
    ((List.range count).map f).count (f k) = count / p ∨
      ((List.range count).map f).count (f k) = count ⌈/⌉ p := by
  rw [h.count_map_range hp]
  by_cases hk : k % p < count % p
  · right
    have hceil : count + p - 1 = (count % p - 1) + p * (count / p + 1) := by
      have hdiv := Nat.mod_add_div count p
      rw [Nat.mul_add, Nat.mul_one]
      omega
    have hsmall : count % p - 1 < p :=
      Nat.lt_of_le_of_lt (Nat.sub_le _ 1) (Nat.mod_lt count hp)
    rw [if_pos hk, Nat.ceilDiv_eq_add_pred_div, hceil, Nat.add_mul_div_left _ _ hp,
      Nat.div_eq_of_lt hsmall, Nat.zero_add]
  · exact .inl (by rw [if_neg hk, Nat.add_zero])

omit [DecidableEq α] in
/-- A sum over the first `count` terms, collected by the terms of one period. -/
theorem sum_range (h : ExactPeriod f p) (hp : 0 < p) (g : α → ℕ) (count : ℕ) :
    ∑ t ∈ Finset.range count, g (f t) =
      ∑ k ∈ Finset.range p, (count / p + if k < count % p then 1 else 0) * g (f k) := by
  rw [← Finset.sum_fiberwise_of_maps_to (g := (· % p)) fun t _ =>
    Finset.mem_range.mpr (Nat.mod_lt t hp)]
  refine Finset.sum_congr rfl fun k hk => ?_
  have hlt := Finset.mem_range.mp hk
  have hcard : ((Finset.range count).filter (· % p = k)).card =
      count / p + if k < count % p then 1 else 0 := by
    have hcount := Nat.count_modEq_card count hp k
    rw [Nat.count_eq_card_filter_range, Nat.mod_eq_of_lt hlt] at hcount
    rw [← hcount]
    congr 1
    refine Finset.filter_congr fun t _ => ?_
    rw [Nat.ModEq, Nat.mod_eq_of_lt hlt]
  rw [← hcard, ← smul_eq_mul, ← Finset.sum_const]
  refine Finset.sum_congr rfl fun t ht => ?_
  have hmod : t % p = k := (Finset.mem_filter.mp ht).2
  rw [(h t k).mpr (hmod ▸ (Nat.mod_modEq t p).symm)]

end ExactPeriod

/-- The numbers from zero on, reduced modulo `n`. -/
theorem exactPeriod_mod (n : ℕ) : ExactPeriod (· % n) n := fun _ _ => Iff.rfl

/-- The multiples of a stride modulo a length repeat after the length divided by
its greatest common divisor with the stride, and not before. -/
theorem exactPeriod_mul_mod {n : ℕ} (hn : 0 < n) (s : ℕ) :
    ExactPeriod (fun t => t * s % n) (n / n.gcd s) := by
  intro i j
  refine ⟨fun h => Nat.ModEq.cancel_right_div_gcd hn h, fun h => ?_⟩
  have hmultiple : n ∣ n / n.gcd s * s := by
    rw [Nat.div_mul_right_comm (Nat.gcd_dvd_left n s), Nat.mul_div_assoc n (Nat.gcd_dvd_right n s)]
    exact Nat.dvd_mul_right n _
  exact (h.mul_right' s).of_dvd hmultiple
