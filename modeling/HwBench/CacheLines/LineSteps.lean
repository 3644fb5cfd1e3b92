import HwBench.CacheLines.ReadOrder
import HwBench.Constants
import HwBench.Machine.Granule
import Mathlib.Combinatorics.Enumerative.DoubleCounting

/-!
# How many steps of the pointer chase are easy for the cache

A step of the chase is easy if it stays in the cache line that it has just read, or if it
goes on to the following element. Every pair of different elements is a step of the same
number of cycles, so over all choices the number of such steps is the number of such
pairs, and these are few: a line has eight elements.
-/

namespace HwBench

open Machine Finset
open scoped Nat

namespace PointerChase

variable {n : Nat}

/-- The steps `idx = chain[idx]` among the first ones that go from an element to one
related to it. -/
def relatedSteps (related : Nat → Nat → Bool) (chain : Vector Nat n) (start steps : Nat) : Nat :=
  (List.range steps).countP fun t =>
    (chase chain start t).any fun idx => chain[idx]?.any (related idx)

/-- The cache lines of `chain[idx]`. -/
def linesOf (base idx : Nat) : Finset Nat := (Span.nth base 8 idx).granules cacheLineSize

/-- Steps that stay in the cache line of the element just read. -/
def sameLineSteps (base : Nat) : Vector Nat n → Nat → Nat → Nat :=
  relatedSteps fun idx next => linesOf base idx = linesOf base next

/-- Steps to the following element. -/
def nextElementSteps : Vector Nat n → Nat → Nat → Nat :=
  relatedSteps fun idx next => next = idx + 1

/-- A round of the chase takes the step of every element. -/
theorem relatedSteps_round (related : Nat → Nat → Bool) {chain : Vector Nat n}
    (h : IsHamiltonianCycle chain) {start : Nat} (hs : start < n) :
    relatedSteps related chain start n =
      #{idx ∈ range n | chain[idx]?.any (related idx)} := by
  have hround := (h.visits start hs).countP_eq fun read =>
    read.any fun idx => chain[idx]?.any (related idx)
  rw [List.countP_map, List.countP_map] at hround
  rw [relatedSteps]
  refine hround.trans (List.countP_eq_length_filter.trans ?_)
  have hfilter : ({idx ∈ range n | chain[idx]?.any (related idx)} : Finset Nat) =
      ((List.range n).filter fun idx => chain[idx]?.any (related idx)).toFinset := by
    ext idx
    simp
  rw [hfilter, List.toFinset_card_of_nodup (List.nodup_range.filter _)]
  rfl

/-- The element after a given one is a given other one in one of `n - 1` cycles. -/
theorem card_successor (hn : 0 < n) {idx next : Nat} (hidx : idx < n) (hnext : next < n)
    (hne : idx ≠ next) : #{j : Choices n | (chainOf j hn)[idx] = next} = (n - 2)! := by
  have hnodup : [idx, next].Nodup := by simpa using hne
  have hcard := card_reads hn hnodup (by simpa using ⟨hidx, hnext⟩)
  have hreads : ∀ j : Choices n, reads (chainOf j hn) idx 2 = [some idx, some next] ↔
      (chainOf j hn)[idx] = next := by
    intro j
    simp [reads, List.range_succ, chase, hidx]
  simpa only [List.length_singleton, List.map_cons, List.map_nil, hreads, Nat.sub_sub] using hcard

/-- An element leads to another one. -/
theorem chainOf_lt_and_ne (hn : 2 ≤ n) (j : Choices n) {idx : Nat} (hidx : idx < n) :
    (chainOf j (Nat.lt_of_succ_lt hn))[idx] < n ∧ (chainOf j (Nat.lt_of_succ_lt hn))[idx] ≠ idx := by
  have hpos : 0 < n := Nat.lt_of_succ_lt hn
  have hcycle := isCycleOn_choices j hpos
  have hmem : idx ∈ (range n : Set ℕ) := mem_coe.mpr (mem_range.mpr hidx)
  have hnontrivial : (range n : Set ℕ).Nontrivial :=
    ⟨0, mem_coe.mpr (mem_range.mpr hpos), 1, mem_coe.mpr (mem_range.mpr hn), Nat.zero_ne_one⟩
  rw [holds_chainOf j hpos idx hidx]
  exact ⟨mem_range.mp (hcycle.1.mapsTo hmem), hcycle.apply_ne hnontrivial hmem⟩

/-- In how many cycles an element leads to one that is related to it. -/
theorem card_related_successor (hn : 2 ≤ n) (related : Nat → Nat → Bool) {idx : Nat}
    (hidx : idx < n) :
    #{j : Choices n | (chainOf j (Nat.lt_of_succ_lt hn))[idx]?.any (related idx)} =
      #{next ∈ range n | next ≠ idx ∧ related idx next} * (n - 2)! := by
  have hpos : 0 < n := Nat.lt_of_succ_lt hn
  have hany : ∀ j : Choices n, (chainOf j hpos)[idx]?.any (related idx) =
      related idx (chainOf j hpos)[idx] := fun j => by
    rw [Vector.getElem?_eq_getElem hidx, Option.any_some]
  have hmaps : Set.MapsTo (fun j : Choices n => (chainOf j hpos)[idx])
      ({j | related idx (chainOf j hpos)[idx]} : Finset (Choices n))
      ({next ∈ range n | next ≠ idx ∧ related idx next} : Finset Nat) := by
    intro j hj
    obtain ⟨hlt, hne⟩ := chainOf_lt_and_ne hn j hidx
    exact mem_coe.mpr (mem_filter.mpr
      ⟨mem_range.mpr hlt, hne, (mem_filter.mp (mem_coe.mp hj)).2⟩)
  have hfiber : ∀ next ∈ ({next ∈ range n | next ≠ idx ∧ related idx next} : Finset Nat),
      #{j ∈ ({j | related idx (chainOf j hpos)[idx]} : Finset (Choices n)) |
        (chainOf j hpos)[idx] = next} = (n - 2)! := by
    intro next hnext
    obtain ⟨hlt, hne, hrelated⟩ := mem_filter.mp hnext
    rw [← card_successor hpos hidx (mem_range.mp hlt) hne.symm, filter_filter]
    refine congrArg card (filter_congr fun j _ => ?_)
    exact ⟨fun h => h.2, fun h => ⟨h ▸ hrelated, h⟩⟩
  simp only [hany]
  rw [card_eq_sum_card_fiberwise hmaps, sum_congr rfl hfiber, sum_const, smul_eq_mul]

/-- Steps between related elements, over the rounds of all cycles. -/
theorem sum_relatedSteps (hn : 2 ≤ n) (related : Nat → Nat → Bool) {start : Nat} (hs : start < n) :
    ∑ j : Choices n, relatedSteps related (chainOf j (Nat.lt_of_succ_lt hn)) start n =
      (∑ idx ∈ range n, #{next ∈ range n | next ≠ idx ∧ related idx next}) * (n - 2)! := by
  have hpos : 0 < n := Nat.lt_of_succ_lt hn
  calc ∑ j : Choices n, relatedSteps related (chainOf j hpos) start n
      = ∑ j : Choices n, #{idx ∈ range n | (chainOf j hpos)[idx]?.any (related idx)} :=
        sum_congr rfl fun j _ => relatedSteps_round related (isHamiltonianCycle_chainOf hpos j) hs
    _ = ∑ idx ∈ range n, #{j : Choices n | (chainOf j hpos)[idx]?.any (related idx)} :=
        sum_card_bipartiteAbove_eq_sum_card_bipartiteBelow
          fun (j : Choices n) idx => ((chainOf j hpos)[idx]?.any (related idx) : Prop)
    _ = ∑ idx ∈ range n, #{next ∈ range n | next ≠ idx ∧ related idx next} * (n - 2)! :=
        sum_congr rfl fun idx hidx => card_related_successor hn related (mem_range.mp hidx)
    _ = (∑ idx ∈ range n, #{next ∈ range n | next ≠ idx ∧ related idx next}) * (n - 2)! :=
        (sum_mul _ _ _).symm

/-! ### Elements on one line -/

theorem linesOf_eq {base : Nat} (hbase : 8 ∣ base) (idx : Nat) :
    linesOf base idx = {(base + idx * 8) / 64} :=
  Granule.granules_aligned (Nat.succ_pos 7) (Nat.dvd_add hbase (Nat.dvd_mul_left 8 idx)) (by decide)
    (by decide)

theorem linesOf_eq_iff {base : Nat} (hbase : 8 ∣ base) (idx next : Nat) :
    linesOf base idx = linesOf base next ↔ (base + idx * 8) / 64 = (base + next * 8) / 64 := by
  rw [linesOf_eq hbase, linesOf_eq hbase, singleton_inj]

/-- A line has room for seven other elements. -/
theorem card_sameLine_le {base : Nat} (hbase : 8 ∣ base) (n idx : Nat) :
    #{next ∈ range n | next ≠ idx ∧ linesOf base idx = linesOf base next} ≤ 7 := by
  obtain ⟨b, rfl⟩ := hbase
  -- in units of elements, from the address zero
  have hroom : #((Ico ((b + idx) / 8 * 8) ((b + idx) / 8 * 8 + 8)).erase (b + idx)) = 7 := by
    rw [card_erase_of_mem (mem_Ico.mpr (by omega)), Nat.card_Ico]
    omega
  rw [← hroom]
  refine card_le_card_of_injOn (b + ·) (fun next hnext => ?_) (add_right_injective b).injOn
  obtain ⟨_, hne, hline⟩ := mem_filter.mp hnext
  rw [linesOf_eq_iff ⟨b, rfl⟩] at hline
  refine mem_coe.mpr (mem_erase.mpr ⟨?_, mem_Ico.mpr ⟨?_, ?_⟩⟩) <;> dsimp only <;> omega

/-- All lines are full if the elements start with a line and end with one. -/
theorem card_sameLine {base n idx : Nat} (hbase : 64 ∣ base) (hn : 8 ∣ n) (hidx : idx < n) :
    #{next ∈ range n | next ≠ idx ∧ linesOf base idx = linesOf base next} = 7 := by
  have hline : ({next ∈ range n | next ≠ idx ∧ linesOf base idx = linesOf base next} : Finset Nat) =
      (Ico (idx / 8 * 8) (idx / 8 * 8 + 8)).erase idx := by
    ext next
    rw [mem_filter, linesOf_eq_iff (Nat.dvd_trans (by decide) hbase), mem_erase, mem_Ico, mem_range]
    omega
  rw [hline, card_erase_of_mem (mem_Ico.mpr (by omega)), Nat.card_Ico]
  omega

/-- Every element but the last one has a following element. -/
theorem sum_nextElement (n : Nat) :
    ∑ idx ∈ range n, #{next ∈ range n | next ≠ idx ∧ next = idx + 1} = n - 1 := by
  have hnext : ∀ idx, ({next ∈ range n | next ≠ idx ∧ next = idx + 1} : Finset Nat) =
      if idx + 1 < n then {idx + 1} else ∅ := by
    intro idx
    ext next
    split_ifs <;> simp only [mem_filter, mem_range, mem_singleton, notMem_empty,
      iff_false] <;> omega
  have hlast : ({idx ∈ range n | idx + 1 < n} : Finset Nat) = range (n - 1) := by
    ext idx
    rw [mem_filter, mem_range, mem_range]
    omega
  simp only [hnext, apply_ite card, card_singleton, card_empty]
  rw [sum_boole, hlast, card_range, Nat.cast_id]

/-- A round of the chase stays in its line for `7 * n / (n - 1)` steps on the average, and
goes on to the following element once. -/
theorem sum_lineSteps (n : Nat) (hn : 2 ≤ n) (base start : Nat) (hbase : 8 ∣ base)
    (hs : start < n) :
    ∑ j : Choices n, sameLineSteps base (chainOf j (Nat.lt_of_succ_lt hn)) start n ≤
        7 * n * (n - 2)! ∧
      (64 ∣ base → 8 ∣ n →
        ∑ j : Choices n, sameLineSteps base (chainOf j (Nat.lt_of_succ_lt hn)) start n =
          7 * n * (n - 2)!) ∧
      ∑ j : Choices n, nextElementSteps (chainOf j (Nat.lt_of_succ_lt hn)) start n =
        (n - 1)! := by
  simp only [sameLineSteps, nextElementSteps, sum_relatedSteps hn _ hs, decide_eq_true_eq]
  refine ⟨Nat.mul_le_mul_right _ ?_, fun hline hfull => ?_, ?_⟩
  · refine (sum_le_card_nsmul _ _ 7 fun idx _ => card_sameLine_le hbase n idx).trans ?_
    rw [card_range, smul_eq_mul, Nat.mul_comm]
  · rw [sum_congr rfl fun idx hidx => card_sameLine hline hfull (mem_range.mp hidx), sum_const,
      card_range, smul_eq_mul, Nat.mul_comm n]
  · rw [sum_nextElement, show n - 2 = n - 1 - 1 by omega]
    exact Nat.mul_factorial_pred (by omega)

/-- Eight elements are one line, and the eight steps of each of their `7!` cycles stay in
it. -/
theorem sum_lineSteps_eight :
    ∑ j : Choices 8, sameLineSteps 64 (chainOf j (by decide)) 0 8 = 8 * 7! := by
  have hline := (sum_lineSteps 8 (by decide) 64 0 (by decide) (by decide)).2.1
    (by decide) (by decide)
  exact hline.trans (by decide)

end PointerChase
end HwBench
