import HwBench.Statistics.ComputeStats

/-!
# How tight the percentile is

The index of the percentile is the number of samples that one percent leaves,
rounded down, as the index of the median is half of them. So at most 99 percent of
the samples are not above any value below the percentile.

Exactly 99 percent can be reached below it: in a multiple of a hundred samples the
sample before the percentile has that many, unless both are equal. The nearest-rank
percentile would be that sample.
-/

namespace HwBench

open Ranks

variable {α : Type*} [LinearOrder α]

/-- No sample below the percentile has 99 percent of the samples up to it. -/
def Tight (samples : List α) (s : Stats α) : Prop :=
  ∀ x ∈ samples, x < s.p99 → 100 * samples.countP (· ≤ x) < 99 * samples.length

/-- The samples are a multiple of a hundred, and the one at the index of the percentile
differs from the one before. -/
def Separated (samples : List α) : Prop :=
  100 ∣ samples.length ∧
    (sortSamples samples)[99 * samples.length / 100 - 1]? ≠
      (sortSamples samples)[99 * samples.length / 100]?

namespace ReadFrom

variable {ops : Arithmetic α} {l : List α} {s : Stats α}

/-- At most 99 percent of the samples are not above a value below the percentile. -/
theorem countP_le (h : ReadFrom ops l s) (hl : l.Pairwise (· ≤ ·)) {x : α} (hx : x < s.p99) :
    l.countP (· ≤ x) ≤ 99 * l.length / 100 := by
  obtain ⟨hindex, hp99⟩ := List.getElem?_eq_some_iff.mp h.p99_eq
  exact countP_le_of_lt hl hindex (hp99 ▸ hx)

/-- A value below the percentile that has 99 percent of the samples up to it lies
between two different samples at the indices around the percentile. -/
theorem separated_of_reaching (h : ReadFrom ops l s) (hl : l.Pairwise (· ≤ ·)) {x : α}
    (hx : x < s.p99) (hreach : 99 * l.length ≤ 100 * l.countP (· ≤ x)) :
    100 ∣ l.length ∧ l[99 * l.length / 100 - 1]? ≠ l[99 * l.length / 100]? := by
  have hcount := h.countP_le hl hx
  obtain ⟨hindex, hp99⟩ := List.getElem?_eq_some_iff.mp h.p99_eq
  refine ⟨by omega, fun hsame => ?_⟩
  rw [h.p99_eq] at hsame
  obtain ⟨hbefore, heq⟩ := List.getElem?_eq_some_iff.mp hsame
  have hless := countP_le_of_lt hl hbefore (heq ▸ hx)
  omega

/-- The sample before the percentile has 99 percent of a multiple of a hundred
samples up to it. -/
theorem exists_reaching (h : ReadFrom ops l s) (hl : l.Pairwise (· ≤ ·))
    (hdvd : 100 ∣ l.length) (hdiff : l[99 * l.length / 100 - 1]? ≠ l[99 * l.length / 100]?) :
    ∃ x ∈ l, x < s.p99 ∧ 99 * l.length ≤ 100 * l.countP (· ≤ x) := by
  obtain ⟨hindex, hp99⟩ := List.getElem?_eq_some_iff.mp h.p99_eq
  have hbefore : 99 * l.length / 100 - 1 < l.length := by omega
  have hle := getElem_le_getElem hl (Nat.sub_le (99 * l.length / 100) 1) hindex
  rw [List.getElem?_eq_getElem hbefore, List.getElem?_eq_getElem hindex, Ne,
    Option.some.injEq] at hdiff
  have hrank := lt_countP_le hl hbefore
  refine ⟨_, List.getElem_mem hbefore, hp99 ▸ lt_of_le_of_ne hle hdiff, ?_⟩
  omega

end ReadFrom

/-- No value below the percentile has more than 99 percent of the samples up to it,
and none of the samples has 99 percent unless the two around it are separated. -/
theorem tight_iff (ops : Arithmetic α) (samples : List α) (hne : samples ≠ [])
    (hlength : samples.length < 2 ^ 40) :
    ∃ s, computeStats ops samples = some (s, sortSamples samples) ∧
      (∀ x < s.p99, 100 * samples.countP (· ≤ x) ≤ 99 * samples.length) ∧
      (Tight samples s ↔ ¬Separated samples) := by
  obtain ⟨s, hrun, hread⟩ := exists_computeStats ops hne hlength
  have hsorted := pairwise_sortSamples samples
  have hperm := perm_sortSamples samples
  have hcount := fun x => hperm.countP_eq fun y => decide (y ≤ x)
  refine ⟨s, hrun, fun x hx => ?_, ⟨fun htight ⟨hdvd, hdiff⟩ => ?_, fun hnot x _ hx => ?_⟩⟩
  · have hle := hread.countP_le hsorted hx
    rw [hcount, hperm.length_eq] at hle
    omega
  · rw [← hperm.length_eq] at hdvd hdiff
    obtain ⟨x, hx, hlt, hreach⟩ := hread.exists_reaching hsorted hdvd hdiff
    rw [hcount, hperm.length_eq] at hreach
    exact absurd (htight x (hperm.mem_iff.mp hx) hlt) (Nat.not_lt.mpr hreach)
  · by_contra hreach
    rw [Nat.not_lt, ← hcount, ← hperm.length_eq] at hreach
    have hseparated := hread.separated_of_reaching hsorted hx hreach
    rw [hperm.length_eq] at hseparated
    exact hnot hseparated

/-- Three samples are not a multiple of a hundred. -/
theorem tight_iff_three : ∃ s : Stats ℚ,
    computeStats (.exact ℚ) [3, 1, 2] = some (s, sortSamples [3, 1, 2]) ∧ Tight [3, 1, 2] s := by
  obtain ⟨s, hrun, _, hiff⟩ := tight_iff (.exact ℚ) [3, 1, 2] (by simp) (by simp)
  exact ⟨s, hrun, hiff.mpr fun h => absurd h.1 (by decide)⟩

/-- Of the numbers below a hundred, 99 are at most 98, but the percentile is 99. -/
theorem not_tight :
    ¬ ∀ (ops : Arithmetic ℕ) (samples : List ℕ), samples ≠ [] → samples.length < 2 ^ 40 →
      ∃ s sorted, computeStats ops samples = some (s, sorted) ∧ Tight samples s := by
  intro h
  let ops : Arithmetic ℕ := ⟨0, Nat.add, Nat.div⟩
  have hne : List.range 100 ≠ [] := List.cons_ne_nil _ _
  obtain ⟨s, sorted, hrun, htight⟩ := h ops (List.range 100) hne (by simp)
  obtain ⟨s', hrun', hread⟩ := exists_computeStats ops hne (by simp)
  rw [hrun'] at hrun
  cases hrun
  have hsorted : sortSamples (List.range 100) = List.range 100 :=
    sorted_unique (perm_sortSamples _) (pairwise_sortSamples _) List.pairwise_le_range
  have hp99 : s.p99 = 99 := by
    have heq := hread.p99_eq
    rw [hsorted] at heq
    exact (Option.some.inj heq).symm
  exact absurd (htight 98 (List.mem_range.mpr (by decide)) (by omega)) (by decide +kernel)

end HwBench
