import HwBench.Machine.Significand
import HwBench.Math.Ranks
import Mathlib.Algebra.Field.Rat
import Mathlib.Algebra.Order.Ring.Rat

/-!
# Summary statistics of timing samples

`compute_stats` sorts its samples in place and reads the minimum, the maximum, the
median and the 99th percentile at fixed indices. The mean is a left fold over the
sorted samples, so it does not depend on their order even though floating-point
addition is not associative.

The samples are values of any linear order, with the arithmetic of the mean as a
parameter. The index of the percentile is a product of floating-point numbers. It
is the exact quotient, rounded down, for every number of samples below `2 ^ 40`.
-/

namespace HwBench

open Machine Ranks

/-- `struct Stats`. -/
structure Stats (α : Type*) where
  min : α
  max : α
  median : α
  mean : α
  p99 : α
  deriving DecidableEq

/-- The operations on samples that the mean is made of: `0.0`, `+`, and the division
by a `size_t`. -/
structure Arithmetic (α : Type*) where
  zero : α
  add : α → α → α
  div : α → Nat → α

/-- The arithmetic of an exact number type. -/
def Arithmetic.exact (α : Type*) [Field α] : Arithmetic α where
  zero := 0
  add x y := x + y
  div x n := x / n

/-! ### The index of the percentile -/

/-- The literal `0.99` in units of `2 ^ -53`. -/
def literal99 : Nat := 8917127262193582

/-- `static_cast<size_t>(n * 0.99)`: the number of samples is converted to `double`,
multiplied, and the product truncated. -/
def p99Index (n : Nat) : Nat := Significand.round 53 (Significand.round 53 n * literal99) / 2 ^ 53

/-- The literal is the double nearest to `99 / 100`. -/
theorem literal99_error : 100 * literal99 + 8 = 99 * 2 ^ 53 := by decide

/-- Rounding the product does not move it across an integer: it lies a hundredth
above an integer at least, or just below the integer that it is rounded to. -/
theorem p99Index_eq {n : Nat} (hn : n < 2 ^ 40) : p99Index n = 99 * n / 100 := by
  obtain rfl | hpos := Nat.eq_zero_or_pos n
  · rfl
  have hliteral := literal99_error
  have hdiv := Nat.div_add_mod (99 * n) 100
  have hmod := Nat.mod_lt (99 * n) (by decide : 0 < 100)
  have hexact : 100 * (n * literal99) + 8 * n = 99 * n * 2 ^ 53 := by
    rw [Nat.mul_left_comm, Nat.mul_comm 8, ← Nat.mul_add, hliteral]
    omega
  have hulp : Significand.ulp 53 (n * literal99) ∣ 2 ^ 40 := by
    refine Significand.ulp_dvd_two_pow ?_ ?_ <;> rw [literal99] <;> omega
  have hulple := Nat.le_of_dvd (by decide) hulp
  have hplace := Significand.lt_ulp_mul 53 (n * literal99)
  obtain ⟨herrlo, herrhi⟩ := Significand.round_error 53 (n * literal99)
  have hconvert : Significand.round 53 n = n := Significand.round_of_lt (by omega)
  rw [p99Index, hconvert]
  generalize 99 * n / 100 = q at hdiv ⊢
  have hdvd : Significand.ulp 53 (n * literal99) ∣ q * 2 ^ 53 :=
    hulp.trans (Nat.dvd_mul_left_of_dvd (Nat.pow_dvd_pow 2 (by decide)) q)
  have hlow : q * 2 ^ 53 ≤ Significand.round 53 (n * literal99) :=
    Significand.le_round hdvd (by omega)
  apply Nat.div_eq_of_lt_le <;> omega

/-! ### The function -/

section Run

variable {α : Type*} [LinearOrder α]

/-- `std::sort(samples.begin(), samples.end());` -/
def sortSamples (samples : List α) : List α := samples.mergeSort (· ≤ ·)

/-- The statistics and the vector as the function leaves it. An index outside the
vector is a fault. -/
def computeStats (ops : Arithmetic α) (samples : List α) : Option (Stats α × List α) := do
  let samples := sortSamples samples
  let n := samples.length
  let min ← samples.head?
  let max ← samples.getLast?
  let median ← samples[n / 2]?
  let mean := ops.div (samples.foldl ops.add ops.zero) n
  let p99 ← samples[p99Index n]?
  some ({ min, max, median, mean, p99 }, samples)

theorem perm_sortSamples (samples : List α) : (sortSamples samples).Perm samples :=
  List.mergeSort_perm _ _

theorem pairwise_sortSamples (samples : List α) : (sortSamples samples).Pairwise (· ≤ ·) :=
  List.pairwise_mergeSort' _ _

/-- The sorted vector depends on the samples as a multiset. -/
theorem sortSamples_congr {samples samples' : List α} (h : samples'.Perm samples) :
    sortSamples samples' = sortSamples samples :=
  sorted_unique (((perm_sortSamples samples').trans h).trans (perm_sortSamples samples).symm)
    (pairwise_sortSamples samples') (pairwise_sortSamples samples)

theorem computeStats_congr (ops : Arithmetic α) {samples samples' : List α}
    (h : samples'.Perm samples) : computeStats ops samples' = computeStats ops samples := by
  rw [computeStats, computeStats, sortSamples_congr h]

/-- Where the statistics of a sorted vector come from. -/
structure ReadFrom (ops : Arithmetic α) (sorted : List α) (s : Stats α) : Prop where
  min_eq : sorted[0]? = some s.min
  max_eq : sorted[sorted.length - 1]? = some s.max
  median_eq : sorted[sorted.length / 2]? = some s.median
  mean_eq : s.mean = ops.div (sorted.foldl ops.add ops.zero) sorted.length
  p99_eq : sorted[99 * sorted.length / 100]? = some s.p99

/-- The function does not fault, and reads the sorted vector at these indices. -/
theorem exists_computeStats (ops : Arithmetic α) {samples : List α} (hne : samples ≠ [])
    (hlength : samples.length < 2 ^ 40) :
    ∃ s, computeStats ops samples = some (s, sortSamples samples) ∧
      ReadFrom ops (sortSamples samples) s := by
  have hn : (sortSamples samples).length = samples.length := (perm_sortSamples samples).length_eq
  have hpos : 0 < (sortSamples samples).length := hn ▸ List.length_pos_of_ne_nil hne
  have hindex : p99Index (sortSamples samples).length = 99 * (sortSamples samples).length / 100 :=
    p99Index_eq (hn ▸ hlength)
  have hmin := List.getElem?_eq_getElem hpos
  have hmax := List.getElem?_eq_getElem (Nat.sub_one_lt_of_lt hpos)
  have hmedian := List.getElem?_eq_getElem (Nat.div_lt_self hpos Nat.one_lt_two)
  have hp99 := List.getElem?_eq_getElem
    (show 99 * (sortSamples samples).length / 100 < (sortSamples samples).length by omega)
  refine ⟨⟨_, _, _, _, _⟩, ?_, hmin, hmax, hmedian, rfl, hp99⟩
  simp only [computeStats, hindex, List.head?_eq_getElem?, List.getLast?_eq_getElem?, hmin, hmax,
    hmedian, hp99, Option.bind_eq_bind, Option.bind_some]

/-- How the statistics lie among the samples. -/
structure Describes (samples : List α) (s : Stats α) : Prop where
  min_le_median : s.min ≤ s.median
  median_le_p99 : s.median ≤ s.p99
  p99_le_max : s.p99 ≤ s.max
  half_le_median : samples.length ≤ 2 * samples.countP (· ≤ s.median)
  half_ge_median : samples.length ≤ 2 * samples.countP (s.median ≤ ·)
  most_le_p99 : 99 * samples.length ≤ 100 * samples.countP (· ≤ s.p99)
  few_gt_p99 : 100 * samples.countP (s.p99 < ·) < samples.length

namespace ReadFrom

variable {ops : Arithmetic α} {l : List α} {s : Stats α}

theorem describes (h : ReadFrom ops l s) (hl : l.Pairwise (· ≤ ·)) : Describes l s := by
  obtain ⟨hpos, hmin⟩ := List.getElem?_eq_some_iff.mp h.min_eq
  obtain ⟨hlast, hmax⟩ := List.getElem?_eq_some_iff.mp h.max_eq
  obtain ⟨hhalf, hmedian⟩ := List.getElem?_eq_some_iff.mp h.median_eq
  obtain ⟨hmost, hp99⟩ := List.getElem?_eq_some_iff.mp h.p99_eq
  have hrankMedian := lt_countP_le hl hhalf
  have hrankMedian' := length_le_add_countP_ge hl hhalf
  have hrankP99 := lt_countP_le hl hmost
  have hrankP99' := add_countP_gt_lt hl hmost
  rw [hmedian] at hrankMedian hrankMedian'
  rw [hp99] at hrankP99 hrankP99'
  exact
    { min_le_median := hmin ▸ hmedian ▸ getElem_le_getElem hl (Nat.zero_le _) hhalf
      median_le_p99 := hmedian ▸ hp99 ▸ getElem_le_getElem hl (by omega) hmost
      p99_le_max := hp99 ▸ hmax ▸ getElem_le_getElem hl (by omega) hlast
      half_le_median := by omega
      half_ge_median := by omega
      most_le_p99 := by omega
      few_gt_p99 := by omega }

/-- With exact arithmetic the mean lies between the extremes. -/
theorem mean_bounds [Field α] [IsStrictOrderedRing α] (h : ReadFrom (.exact α) l s)
    (hl : l.Pairwise (· ≤ ·)) : s.min ≤ s.mean ∧ s.mean ≤ s.max := by
  obtain ⟨hpos, hmin⟩ := List.getElem?_eq_some_iff.mp h.min_eq
  obtain ⟨hlast, hmax⟩ := List.getElem?_eq_some_iff.mp h.max_eq
  have hne : l ≠ [] := List.ne_nil_of_length_pos hpos
  have hmean : s.mean = l.sum / l.length := by
    rw [h.mean_eq, List.sum_eq_foldl]
    rfl
  rw [hmean]
  refine ⟨le_mean hne fun x hx => ?_, mean_le hne fun x hx => ?_⟩
  · obtain ⟨i, hi, rfl⟩ := List.getElem_of_mem hx
    exact hmin ▸ getElem_le_getElem hl (Nat.zero_le i) hi
  · obtain ⟨i, hi, rfl⟩ := List.getElem_of_mem hx
    exact hmax ▸ getElem_le_getElem hl (by omega) hlast

end ReadFrom

theorem Describes.congr {samples samples' : List α} {s : Stats α} (h : Describes samples s)
    (hperm : samples.Perm samples') : Describes samples' s := by
  obtain ⟨h₁, h₂, h₃, h₄, h₅, h₆, h₇⟩ := h
  rw [hperm.length_eq, hperm.countP_eq] at h₄ h₅ h₆ h₇
  exact ⟨h₁, h₂, h₃, h₄, h₅, h₆, h₇⟩

/-- The statistics are those of the sorted samples, whatever their order was and
whatever addition the mean uses, and lie among them as their names say. -/
theorem computeStats_describes (ops : Arithmetic α) (samples : List α) (hne : samples ≠ [])
    (hlength : samples.length < 2 ^ 40) :
    samples.length / 2 < samples.length ∧ p99Index samples.length < samples.length ∧
    p99Index samples.length = 99 * samples.length / 100 ∧
    (sortSamples samples).Perm samples ∧ (sortSamples samples).Pairwise (· ≤ ·) ∧
    ∃ s, computeStats ops samples = some (s, sortSamples samples) ∧
      (∀ samples', samples'.Perm samples →
        computeStats ops samples' = some (s, sortSamples samples)) ∧
      computeStats ops (sortSamples samples) = some (s, sortSamples samples) ∧
      Describes samples s ∧
      ∀ [Field α] [IsStrictOrderedRing α], ops = .exact α → s.min ≤ s.mean ∧ s.mean ≤ s.max := by
  have hpos := List.length_pos_of_ne_nil hne
  have hindex := p99Index_eq hlength
  have hperm := perm_sortSamples samples
  have hsorted := pairwise_sortSamples samples
  obtain ⟨s, hrun, hread⟩ := exists_computeStats ops hne hlength
  refine ⟨by omega, by omega, hindex, hperm, hsorted, s, hrun,
    fun samples' h => (computeStats_congr ops h).trans hrun,
    (computeStats_congr ops hperm).trans hrun, (hread.describes hsorted).congr hperm, ?_⟩
  intro _ _ hexact
  subst hexact
  exact hread.mean_bounds hsorted

/-- Three samples and their exact mean. -/
theorem computeStats_describes_three : ∃ s : Stats ℚ,
    computeStats (.exact ℚ) [3, 1, 2] = some (s, sortSamples [3, 1, 2]) ∧
      computeStats (.exact ℚ) [1, 2, 3] = some (s, sortSamples [3, 1, 2]) ∧
      s.min ≤ s.mean ∧ s.mean ≤ s.max := by
  obtain ⟨_, _, _, _, _, s, hrun, hperm, _, _, hmean⟩ :=
    computeStats_describes (.exact ℚ) [3, 1, 2] (by simp) (by simp)
  exact ⟨s, hrun, hperm [1, 2, 3] (by decide), hmean rfl⟩

end Run

end HwBench
