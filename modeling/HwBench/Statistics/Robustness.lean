import HwBench.Statistics.ComputeStats
import Mathlib.Order.Bounds.Basic

/-!
# How the statistics depend on the samples

Smaller samples give smaller statistics, all five of them, when the arithmetic of the
mean is monotone, as that of floating-point numbers is.

Replacing `k` samples moves the median and the percentile by at most `k` ranks of the
sorted samples, and can move them that far in either direction.
-/

namespace HwBench

open Ranks

variable {α : Type*} [LinearOrder α]

/-! ### Smaller samples -/

/-- The sum and the quotient of larger numbers are not smaller. -/
structure Arithmetic.Monotone (ops : Arithmetic α) : Prop where
  add_le : ∀ a b c d, a ≤ b → c ≤ d → ops.add a c ≤ ops.add b d
  div_le : ∀ a b n, a ≤ b → ops.div a n ≤ ops.div b n

theorem Arithmetic.Monotone.foldl_le {ops : Arithmetic α} (hops : ops.Monotone) {l m : List α}
    (h : List.Forall₂ (· ≤ ·) l m) {a b : α} (hab : a ≤ b) :
    l.foldl ops.add a ≤ m.foldl ops.add b := by
  induction h generalizing a b with
  | nil => exact hab
  | cons hhead _ ih => exact ih (hops.add_le _ _ _ _ hab hhead)

/-- Sorting keeps the order of two lists that are ordered entry by entry. -/
theorem getElem_sortSamples_le {samples samples' : List α}
    (h : List.Forall₂ (· ≤ ·) samples samples') {i : Nat} (hi : i < (sortSamples samples).length)
    (hi' : i < (sortSamples samples').length) :
    (sortSamples samples)[i] ≤ (sortSamples samples')[i] := by
  refine getElem_le_getElem_of_countP (k := 0) (pairwise_sortSamples samples)
    (pairwise_sortSamples samples') (fun x => ?_) hi hi' (Nat.le_refl i)
  rw [(perm_sortSamples samples).countP_eq, (perm_sortSamples samples').countP_eq]
  exact countP_le_of_forall₂ h x

theorem forall₂_sortSamples {samples samples' : List α}
    (h : List.Forall₂ (· ≤ ·) samples samples') :
    List.Forall₂ (· ≤ ·) (sortSamples samples) (sortSamples samples') := by
  refine List.forall₂_iff_get.mpr ⟨?_, fun i hi hi' => getElem_sortSamples_le h hi hi'⟩
  rw [(perm_sortSamples samples).length_eq, (perm_sortSamples samples').length_eq, h.length_eq]

/-- No statistic of smaller samples is larger. -/
theorem computeStats_mono (ops : Arithmetic α) (hops : ops.Monotone) (samples samples' : List α)
    (h : List.Forall₂ (· ≤ ·) samples samples') (hne : samples ≠ [])
    (hlength : samples.length < 2 ^ 40) :
    ∃ s s', computeStats ops samples = some (s, sortSamples samples) ∧
      computeStats ops samples' = some (s', sortSamples samples') ∧ s.min ≤ s'.min ∧
      s.max ≤ s'.max ∧ s.median ≤ s'.median ∧ s.mean ≤ s'.mean ∧ s.p99 ≤ s'.p99 := by
  have hsame : samples'.length = samples.length := h.length_eq.symm
  have hne' : samples' ≠ [] := by
    rintro rfl
    exact hne (List.length_eq_zero_iff.mp hsame.symm)
  obtain ⟨s, hrun, hread⟩ := exists_computeStats ops hne hlength
  obtain ⟨s', hrun', hread'⟩ := exists_computeStats ops hne' (hsame ▸ hlength)
  have hlen : (sortSamples samples').length = (sortSamples samples).length := by
    rw [(perm_sortSamples samples).length_eq, (perm_sortSamples samples').length_eq, hsame]
  have hentry : ∀ (i : Nat) (x x' : α), (sortSamples samples)[i]? = some x →
      (sortSamples samples')[i]? = some x' → x ≤ x' := by
    intro i x x' hx hx'
    obtain ⟨hi, rfl⟩ := List.getElem?_eq_some_iff.mp hx
    obtain ⟨hi', rfl⟩ := List.getElem?_eq_some_iff.mp hx'
    exact getElem_sortSamples_le h hi hi'
  obtain ⟨hmin, hmax, hmedian, hmean, hp99⟩ := hread
  obtain ⟨hmin', hmax', hmedian', hmean', hp99'⟩ := hread'
  rw [hlen] at hmax' hmedian' hmean' hp99'
  refine ⟨s, s', hrun, hrun', hentry _ _ _ hmin hmin', hentry _ _ _ hmax hmax',
    hentry _ _ _ hmedian hmedian', ?_, hentry _ _ _ hp99 hp99'⟩
  rw [hmean, hmean']
  exact hops.div_le _ _ _ (hops.foldl_le (forall₂_sortSamples h) (le_refl _))

/-- Every sample of the second run is larger. -/
theorem computeStats_mono_three : ∃ s s' : Stats ℚ,
    computeStats (.exact ℚ) [3, 1, 2] = some (s, sortSamples [3, 1, 2]) ∧
      computeStats (.exact ℚ) [4, 2, 5] = some (s', sortSamples [4, 2, 5]) ∧
      s.mean ≤ s'.mean ∧ s.p99 ≤ s'.p99 := by
  have hops : (Arithmetic.exact ℚ).Monotone :=
    ⟨fun _ _ _ _ => add_le_add, fun _ _ n h => div_le_div_of_nonneg_right h n.cast_nonneg⟩
  have hsamples : List.Forall₂ (· ≤ ·) ([3, 1, 2] : List ℚ) [4, 2, 5] :=
    .cons (by decide) (.cons (by decide) (.cons (by decide) .nil))
  obtain ⟨s, s', hrun, hrun', _, _, _, hmean, hp99⟩ :=
    computeStats_mono (.exact ℚ) hops [3, 1, 2] [4, 2, 5] hsamples (by simp) (by simp)
  exact ⟨s, s', hrun, hrun', hmean, hp99⟩

/-! ### Replaced samples -/

/-- The values of a statistic after at most `k` samples are replaced. -/
def Reachable (ops : Arithmetic α) (stat : Stats α → α) (samples : List α) (k : Nat) : Set α :=
  {x | ∃ samples' s, Replaced k samples samples' ∧
    computeStats ops samples' = some (s, sortSamples samples') ∧ stat s = x}

theorem sortSamples_of_pairwise {l : List α} (h : l.Pairwise (· ≤ ·)) : sortSamples l = l :=
  sorted_unique (perm_sortSamples l) (pairwise_sortSamples l) h

/-- With the `k` smallest of the samples replaced by the largest, the entries of the sorted
samples are found `k` places earlier. -/
theorem exists_raised (samples : List α) {k r : Nat} {x : α}
    (h : (sortSamples samples)[r + k]? = some x) :
    ∃ samples', Replaced k samples samples' ∧ (sortSamples samples')[r]? = some x := by
  obtain ⟨hindex, hx⟩ := List.getElem?_eq_some_iff.mp h
  have hsorted := pairwise_sortSamples samples
  have hperm := perm_sortSamples samples
  generalize sortSamples samples = l at h hindex hx hsorted hperm
  have hlast : l.length - 1 < l.length := by omega
  have hraised : (l.drop k ++ List.replicate k l[l.length - 1]).Pairwise (· ≤ ·) := by
    refine List.pairwise_append.mpr
      ⟨hsorted.drop, List.pairwise_replicate.mpr (.inr (le_refl _)), fun a ha b hb => ?_⟩
    obtain ⟨i, hi, rfl⟩ := List.getElem_of_mem (List.mem_of_mem_drop ha)
    rw [List.eq_of_mem_replicate hb]
    exact getElem_le_getElem hsorted (by omega) hlast
  refine ⟨_, ⟨l.drop k, l.take k, List.replicate k l[l.length - 1], ?_, .refl _, ?_, ?_⟩, ?_⟩
  · have hsplit : l.Perm (l.drop k ++ l.take k) :=
      (List.Perm.of_eq (List.take_append_drop k l).symm).trans List.perm_append_comm
    exact hperm.symm.trans hsplit
  · rw [List.length_take, List.length_replicate]
    omega
  · rw [List.length_replicate]
  · have hr : r < (l.drop k).length := by
      rw [List.length_drop]
      omega
    rw [sortSamples_of_pairwise hraised, List.getElem?_append_left hr, List.getElem?_drop,
      Nat.add_comm]
    exact h

/-- With the `k` largest of the samples replaced by the smallest, the entries of the sorted
samples are found `k` places later. -/
theorem exists_lowered (samples : List α) {k r : Nat} {x : α} (hk : r + k < samples.length)
    (h : (sortSamples samples)[r]? = some x) :
    ∃ samples', Replaced k samples samples' ∧ (sortSamples samples')[r + k]? = some x := by
  have hsorted := pairwise_sortSamples samples
  have hperm := perm_sortSamples samples
  rw [← hperm.length_eq] at hk
  generalize sortSamples samples = l at h hk hsorted hperm
  have hfirst : 0 < l.length := by omega
  have hlowered : (List.replicate k l[0] ++ l.take (l.length - k)).Pairwise (· ≤ ·) := by
    refine List.pairwise_append.mpr
      ⟨List.pairwise_replicate.mpr (.inr (le_refl _)), hsorted.take, fun a ha b hb => ?_⟩
    obtain ⟨i, hi, rfl⟩ := List.getElem_of_mem (List.mem_of_mem_take hb)
    rw [List.eq_of_mem_replicate ha]
    exact getElem_le_getElem hsorted (Nat.zero_le i) hi
  refine ⟨_, ⟨l.take (l.length - k), l.drop (l.length - k), List.replicate k l[0],
    ?_, List.perm_append_comm, ?_, ?_⟩, ?_⟩
  · exact hperm.symm.trans (.of_eq (List.take_append_drop _ l).symm)
  · rw [List.length_drop, List.length_replicate]
    omega
  · rw [List.length_replicate]
  · have hlength : (List.replicate k l[0]).length = k := List.length_replicate
    rw [sortSamples_of_pairwise hlowered, List.getElem?_append_right (by omega), hlength,
      Nat.add_sub_cancel, List.getElem?_take_of_lt (by omega)]
    exact h

/-- The statistic of `n` samples is the entry at this index of the sorted samples. -/
def ReadAt (ops : Arithmetic α) (stat : Stats α → α) (n index : Nat) : Prop :=
  ∀ samples s, samples.length = n → ReadFrom ops (sortSamples samples) s →
    (sortSamples samples)[index]? = some (stat s)

theorem readAt_median (ops : Arithmetic α) (n : Nat) : ReadAt ops Stats.median n (n / 2) := by
  rintro samples s rfl hread
  rw [← (perm_sortSamples samples).length_eq]
  exact hread.median_eq

theorem readAt_p99 (ops : Arithmetic α) (n : Nat) : ReadAt ops Stats.p99 n (99 * n / 100) := by
  rintro samples s rfl hread
  rw [← (perm_sortSamples samples).length_eq]
  exact hread.p99_eq

section

variable {ops : Arithmetic α} {stat : Stats α → α} {samples samples' : List α} {index k : Nat}

/-- The statistics of the samples after a replacement. -/
theorem exists_stat_of_replaced (h : Replaced k samples samples') (hne : samples ≠ [])
    (hlength : samples.length < 2 ^ 40) (hstat : ReadAt ops stat samples.length index) :
    ∃ s, computeStats ops samples' = some (s, sortSamples samples') ∧
      (sortSamples samples')[index]? = some (stat s) := by
  have hsame := h.length_eq
  have hne' : samples' ≠ [] := by
    rintro rfl
    exact hne (List.length_eq_zero_iff.mp hsame.symm)
  obtain ⟨s, hrun, hread⟩ := exists_computeStats ops hne' (hsame ▸ hlength)
  exact ⟨s, hrun, hstat samples' s hsame hread⟩

/-- The sorted samples of a replacement, `k` ranks further. -/
theorem le_of_replaced (h : Replaced k samples samples') {i j : Nat} {x y : α}
    (hx : (sortSamples samples)[i]? = some x) (hy : (sortSamples samples')[j]? = some y)
    (hij : i + k ≤ j) : x ≤ y := by
  obtain ⟨hi, rfl⟩ := List.getElem?_eq_some_iff.mp hx
  obtain ⟨hj, rfl⟩ := List.getElem?_eq_some_iff.mp hy
  refine getElem_le_getElem_of_countP (pairwise_sortSamples samples)
    (pairwise_sortSamples samples') (fun z => ?_) hi hj hij
  rw [(perm_sortSamples samples).countP_eq, (perm_sortSamples samples').countP_eq]
  exact h.countP_le _

variable (hne : samples ≠ []) (hlength : samples.length < 2 ^ 40)
  (hstat : ReadAt ops stat samples.length index)

include hne hlength hstat

theorem isGreatest_reachable {x : α} (hx : (sortSamples samples)[index + k]? = some x) :
    IsGreatest (Reachable ops stat samples k) x := by
  constructor
  · obtain ⟨samples', hreplaced, hx'⟩ := exists_raised samples hx
    obtain ⟨s, hrun, hs⟩ := exists_stat_of_replaced hreplaced hne hlength hstat
    exact ⟨samples', s, hreplaced, hrun, Option.some.inj (hs.symm.trans hx')⟩
  · rintro y ⟨samples', s, hreplaced, hrun, rfl⟩
    obtain ⟨s', hrun', hs'⟩ := exists_stat_of_replaced hreplaced hne hlength hstat
    rw [hrun] at hrun'
    cases hrun'
    exact le_of_replaced hreplaced.symm hs' hx (Nat.le_refl _)

theorem isLeast_reachable {x : α} (hk : k ≤ index)
    (hx : (sortSamples samples)[index - k]? = some x) :
    IsLeast (Reachable ops stat samples k) x := by
  constructor
  · obtain ⟨s, _, hread⟩ := exists_computeStats ops hne hlength
    obtain ⟨hindex, _⟩ := List.getElem?_eq_some_iff.mp (hstat samples s rfl hread)
    rw [(perm_sortSamples samples).length_eq] at hindex
    have hend : index - k + k < samples.length := by omega
    obtain ⟨samples', hreplaced, hx'⟩ := exists_lowered samples hend hx
    rw [Nat.sub_add_cancel hk] at hx'
    obtain ⟨s, hrun, hs⟩ := exists_stat_of_replaced hreplaced hne hlength hstat
    exact ⟨samples', s, hreplaced, hrun, Option.some.inj (hs.symm.trans hx')⟩
  · rintro y ⟨samples', s, hreplaced, hrun, rfl⟩
    obtain ⟨s', hrun', hs'⟩ := exists_stat_of_replaced hreplaced hne hlength hstat
    rw [hrun] at hrun'
    cases hrun'
    exact le_of_replaced hreplaced hx hs' (by omega)

end

/-- Replacing `k` samples moves the median and the percentile by `k` ranks at most, in
either direction, and both bounds are reached. -/
theorem computeStats_replaced (ops : Arithmetic α) (samples : List α) (hne : samples ≠ [])
    (hlength : samples.length < 2 ^ 40) (k : Nat) (x : α) :
    ((sortSamples samples)[samples.length / 2 + k]? = some x →
      IsGreatest (Reachable ops Stats.median samples k) x) ∧
    ((sortSamples samples)[99 * samples.length / 100 + k]? = some x →
      IsGreatest (Reachable ops Stats.p99 samples k) x) ∧
    (k ≤ samples.length / 2 → (sortSamples samples)[samples.length / 2 - k]? = some x →
      IsLeast (Reachable ops Stats.median samples k) x) ∧
    (k ≤ 99 * samples.length / 100 → (sortSamples samples)[99 * samples.length / 100 - k]? = some x →
      IsLeast (Reachable ops Stats.p99 samples k) x) :=
  have hmedian := readAt_median ops samples.length
  have hp99 := readAt_p99 ops samples.length
  ⟨isGreatest_reachable hne hlength hmedian, isGreatest_reachable hne hlength hp99,
    isLeast_reachable hne hlength hmedian, isLeast_reachable hne hlength hp99⟩

/-- One of three samples moves the median up to the maximum. -/
theorem computeStats_replaced_three :
    IsGreatest (Reachable (.exact ℚ) Stats.median [3, 1, 2] 1) 3 := by
  have hsorted : sortSamples ([3, 1, 2] : List ℚ) = [1, 2, 3] :=
    sorted_unique ((perm_sortSamples _).trans (by decide)) (pairwise_sortSamples _) (by decide)
  refine (computeStats_replaced (.exact ℚ) [3, 1, 2] (by simp) (by simp) 1 3).1 ?_
  rw [hsorted]
  rfl

end HwBench
