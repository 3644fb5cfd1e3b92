import HwBench.CacheLines.SattoloUniform
import HwBench.Math.ModularDraws

/-!
# How the cycles are distributed

The loop reduces words of the generator modulo the loop index. The number of vectors of
words that lead to a cycle is therefore a product with one factor for each loop index,
and a factor depends on the choice when the index does not divide `2 ^ 64`. Three is the
first index that does not, so words that are all equally likely give all the cycles the
same probability only for at most three elements.
-/

namespace HwBench

open Machine Finset ModularDraws

namespace PointerChase

variable {n : Nat}

/-- The words that the loop draws. -/
abbrev Words (n : Nat) : Type := Fin (n - 1) → Fin (2 ^ 64)

/-- A generator that starts with these words. -/
def rngOf (d : Words n) (k : Nat) : Word :=
  if hk : k < n - 1 then BitVec.ofFin (d ⟨k, hk⟩) else 0

/-- The choices of the loop come from the words in reverse order. -/
theorem drawn_rngOf_eq_iff (d : Words n) (j : Choices n) :
    drawn (rngOf d) n = j ↔ ∀ i : Fin (n - 1), (d (Fin.revPerm i)).val % (i.val + 1) = (j i).val := by
  have hdraw : ∀ i : Fin (n - 1), (drawn (rngOf d) n i).val =
      (d (Fin.revPerm i)).val % (i.val + 1) := by
    intro i
    have hlt : n - 1 - (i.val + 1) < n - 1 := by omega
    have hrev : (⟨n - 1 - (i.val + 1), hlt⟩ : Fin (n - 1)) = Fin.revPerm i := rfl
    simp only [drawn, rngOf, dif_pos hlt, hrev]
    rfl
  constructor
  · rintro rfl i
    exact (hdraw i).symm
  · intro h
    funext i
    exact Fin.ext ((hdraw i).trans (h i))

/-- How many vectors of words lead to this chain. -/
def wordsOf (hn : 0 < n) (chain : Vector Nat n) : Nat :=
  #{d : Words n | buildChain (rngOf d) hn = chain}

theorem wordsOf_chainOf (hn : 0 < n) (j : Choices n) :
    wordsOf hn (chainOf j hn) = ∏ i : Fin (n - 1), weight (2 ^ 64) (i.val + 1) (j i).val := by
  rw [← card_filter_forall_mod (2 ^ 64) Fin.revPerm fun i => (j i).isLt, wordsOf]
  congr 1
  ext d
  rw [mem_filter_univ, mem_filter_univ, ← drawn_rngOf_eq_iff d j, buildChain]
  exact (chainOf_injective hn).eq_iff

theorem isHamiltonianCycle_chainOf (hn : 0 < n) (j : Choices n) :
    IsHamiltonianCycle (chainOf j hn) :=
  (holds_chainOf j hn).isHamiltonianCycle (isCycleOn_choices j hn)

/-- A cycle is reached from as many vectors of words as its choices have weight. -/
theorem exists_choices_wordsOf (n : Nat) (hn : 1 ≤ n) (chain : Vector Nat n)
    (h : IsHamiltonianCycle chain) :
    ∃ j : Choices n, chainOf j hn = chain ∧
      wordsOf hn chain = ∏ i : Fin (n - 1),
        (2 ^ 64 / (i.val + 1) + if (j i).val < 2 ^ 64 % (i.val + 1) then 1 else 0) := by
  obtain ⟨j, rfl⟩ := exists_choices hn h
  exact ⟨j, rfl, wordsOf_chainOf hn j⟩

theorem exists_choices_wordsOf_three : ∃ j : Choices 3, chainOf j (by decide) = #v[1, 2, 0] ∧
    wordsOf (by decide) #v[1, 2, 0] = ∏ i : Fin 2,
      (2 ^ 64 / (i.val + 1) + if (j i).val < 2 ^ 64 % (i.val + 1) then 1 else 0) :=
  exists_choices_wordsOf 3 (by decide) #v[1, 2, 0] ⟨by decide, by decide, by decide⟩

/-- All choices are zero, but for a one at loop index `3`. -/
def oneAtThree (n : Nat) : Choices n := fun i => ⟨if i.val = 2 then 1 else 0, by split <;> omega⟩

/-- One word fewer leads to the choice `1` at loop index `3` than to the choice `0`. -/
theorem wordsOf_oneAtThree_lt (hn : 4 ≤ n) :
    wordsOf (by omega) (chainOf (oneAtThree n) (by omega)) <
      wordsOf (by omega) (chainOf (fun _ => 0 : Choices n) (by omega)) := by
  have hthree : weight (2 ^ 64) 3 1 < weight (2 ^ 64) 3 0 := by decide
  have hone : 0 < weight (2 ^ 64) 3 1 := by decide
  rw [wordsOf_chainOf, wordsOf_chainOf]
  refine Finset.prod_lt_prod (fun i _ => ?_) (fun i _ => ?_) ⟨⟨2, by omega⟩, mem_univ _, hthree⟩
  · by_cases hi : i.val = 2
    · simpa only [oneAtThree, hi, if_true] using hone
    · simpa only [oneAtThree, hi, if_false] using weight_zero_pos (by decide) i.val.succ_pos
  · by_cases hi : i.val = 2
    · simp only [oneAtThree, hi, if_true]
      exact hthree.le
    · simp only [oneAtThree, hi, if_false]
      exact le_refl _

/-- All cycles are reached from the same number of vectors of words exactly when there
are at most three elements. -/
theorem wordsOf_uniform_iff (n : Nat) (hn : 1 ≤ n) :
    (∀ chain chain' : Vector Nat n, IsHamiltonianCycle chain → IsHamiltonianCycle chain' →
      wordsOf hn chain = wordsOf hn chain') ↔ n ≤ 3 := by
  constructor
  · intro hsame
    by_contra hfour
    have hlt := wordsOf_oneAtThree_lt (n := n) (by omega)
    exact absurd (hsame _ _ (isHamiltonianCycle_chainOf hn _) (isHamiltonianCycle_chainOf hn _)) hlt.ne
  · intro hthree chain chain' h h'
    obtain ⟨j, rfl⟩ := exists_choices hn h
    obtain ⟨j', rfl⟩ := exists_choices hn h'
    rw [wordsOf_chainOf, wordsOf_chainOf]
    refine Finset.prod_congr rfl fun i _ => ?_
    have hdvd : i.val + 1 ∣ 2 ^ 64 := by
      have hi : i.val = 0 ∨ i.val = 1 := by omega
      obtain hi | hi := hi <;> rw [hi] <;> decide
    rw [weight_of_dvd hdvd, weight_of_dvd hdvd]

theorem wordsOf_uniform_iff_four : ¬∀ chain chain' : Vector Nat 4, IsHamiltonianCycle chain →
    IsHamiltonianCycle chain' → wordsOf (by decide) chain = wordsOf (by decide) chain' :=
  fun h => absurd ((wordsOf_uniform_iff 4 (by decide)).mp h) (by decide)

end PointerChase

end HwBench
