import HwBench.CacheLines.PointerChase
import HwBench.Math.IndexPerm
import Mathlib.Data.Fintype.BigOperators
import Mathlib.Data.Nat.Factorial.BigOperators
import Mathlib.Probability.Distributions.Uniform

/-!
# Every pointer-chase cycle comes from exactly one vector of choices

A chain that is a single cycle holds a permutation of the naturals that is a
cycle on the indices and fixes everything else. Such a permutation is a product
of insertions in exactly one way, and the factors are the choices of the loop.
So independent unbiased choices give each of the `(n - 1)!` cycles with the same
probability.
-/

namespace HwBench

open Equiv CycleInsertion
open scoped Nat

namespace PointerChase

variable {n : Nat}

namespace IsHamiltonianCycle

variable {chain : Vector Nat n}

/-- The chain as a permutation of the naturals, the identity from `n` on. -/
noncomputable def toPerm (h : IsHamiltonianCycle chain) : Perm ℕ :=
  Equiv.ofBijective (fun x => if hx : x < n then chain[x] else x) <| by
    constructor
    · intro x y heq
      simp only at heq
      split at heq <;> split at heq
      · next hx hy => exact IndexPerm.getElem_inj h.perm hx hy heq
      · next hx hy => exact absurd (heq ▸ IndexPerm.getElem_lt h.perm hx) hy
      · next hx hy => exact absurd (heq ▸ IndexPerm.getElem_lt h.perm hy) hx
      · exact heq
    · intro y
      by_cases hy : y < n
      · obtain ⟨x, hx, heq⟩ := IndexPerm.exists_getElem h.perm hy
        exact ⟨x, (dif_pos hx).trans heq⟩
      · exact ⟨y, dif_neg hy⟩

theorem holds_toPerm (h : IsHamiltonianCycle chain) : Holds chain h.toPerm :=
  fun _ hx => (dif_pos hx).symm

theorem toPerm_apply_of_le (h : IsHamiltonianCycle chain) {x : Nat} (hx : n ≤ x) :
    h.toPerm x = x := dif_neg (Nat.not_lt.mpr hx)

/-- The visits of a chase relate all indices to each other. -/
theorem isCycleOn_toPerm (h : IsHamiltonianCycle chain) :
    h.toPerm.IsCycleOn (Finset.range n) := by
  have hmem : ∀ x, h.toPerm x ∈ Finset.range n ↔ x ∈ Finset.range n := by
    intro x
    rw [Finset.mem_range, Finset.mem_range]
    by_cases hx : x < n
    · rw [← h.holds_toPerm x hx]
      exact iff_of_true (IndexPerm.getElem_lt h.perm hx) hx
    · rw [h.toPerm_apply_of_le (Nat.le_of_not_lt hx)]
  refine ⟨Equiv.bijOn _ hmem, fun x hx y hy => ?_⟩
  rw [Finset.mem_coe, Finset.mem_range] at hx hy
  have hvisit : some y ∈ (List.range n).map (chase chain x) :=
    (h.visits x hx).mem_iff.mpr (List.mem_map_of_mem (List.mem_range.mpr hy))
  obtain ⟨t, _, hchase⟩ := List.mem_map.mp hvisit
  have hmaps : Set.MapsTo h.toPerm (Finset.range n) (Finset.range n) := fun x => (hmem x).mpr
  rw [(chase_eq h.holds_toPerm hmaps hx t).2] at hchase
  exact ⟨t, by rw [zpow_natCast]; exact Option.some.inj hchase⟩

end IsHamiltonianCycle

/-- A chain is determined by the permutation it holds. -/
theorem Holds.ext {chain chain' : Vector Nat n} {σ : Perm ℕ} (h : Holds chain σ)
    (h' : Holds chain' σ) : chain = chain' :=
  Vector.ext fun x hx => (h x hx).trans (h' x hx).symm

/-- Two vectors of choices with the same chain are equal. -/
theorem chainOf_injective (hn : 0 < n) :
    Function.Injective fun j : Choices n => chainOf j hn := by
  intro j j' heq
  simp only at heq
  have hprod : insertions (choiceFn j) (n - 1) = insertions (choiceFn j') (n - 1) := by
    ext x
    by_cases hx : x < n
    · have h' := holds_chainOf j' hn x hx
      rw [← heq, holds_chainOf j hn x hx] at h'
      exact h'
    · rw [insertions_apply_of_lt (fun i _ => choiceFn_le j i) (by omega),
        insertions_apply_of_lt (fun i _ => choiceFn_le j' i) (by omega)]
  funext i
  have hchoice := insertions_injective (fun i _ => choiceFn_le j i) (fun i _ => choiceFn_le j' i)
    hprod i i.isLt
  rw [choiceFn_of_lt j i.isLt, choiceFn_of_lt j' i.isLt] at hchoice
  exact Fin.ext hchoice

/-- Every single cycle is the chain of some vector of choices. -/
theorem exists_choices (hn : 0 < n) {chain : Vector Nat n} (h : IsHamiltonianCycle chain) :
    ∃ j : Choices n, chainOf j hn = chain := by
  have hcycle : h.toPerm.IsCycleOn (Finset.range (n - 1 + 1)) := by
    rw [Nat.sub_add_cancel hn]
    exact h.isCycleOn_toPerm
  obtain ⟨c, hc, hprod⟩ := exists_insertions hcycle
    fun x hx => h.toPerm_apply_of_le (by omega)
  let j : Choices n := fun i => ⟨c i, Nat.lt_succ_of_le (hc i i.isLt)⟩
  have hagree : insertions (choiceFn j) (n - 1) = insertions c (n - 1) :=
    insertions_congr fun i hi => choiceFn_of_lt j hi
  refine ⟨j, Holds.ext (holds_chainOf j hn) ?_⟩
  rw [hagree, hprod]
  exact h.holds_toPerm

theorem card_choices (n : Nat) : Fintype.card (Choices n) = (n - 1)! := by
  rw [Fintype.card_pi, ← Finset.prod_range_add_one_eq_factorial, Finset.prod_range]
  simp only [Fintype.card_fin]

/-- A single cycle is the chain of exactly one vector of choices, so under
unbiased independent choices it has probability `1 / (n - 1)!`, like every other. -/
theorem existsUnique_choices (n : Nat) (hn : 1 ≤ n) (chain : Vector Nat n)
    (h : IsHamiltonianCycle chain) :
    (∃! j : Choices n, chainOf j hn = chain) ∧
      (PMF.uniformOfFintype (Choices n)).map (fun j => chainOf j hn) chain =
        ((n - 1)! : ENNReal)⁻¹ := by
  obtain ⟨j, hj⟩ := exists_choices hn h
  have huniq : ∀ j', chainOf j' hn = chain → j' = j :=
    fun j' hj' => chainOf_injective hn (hj'.trans hj.symm)
  refine ⟨⟨j, hj, huniq⟩, ?_⟩
  rw [PMF.map_apply, tsum_eq_single j]
  · rw [if_pos hj.symm, PMF.uniformOfFintype_apply, card_choices]
  · intro j' hne
    exact if_neg fun heq => hne (huniq j' heq.symm)

theorem existsUnique_choices_three : ∃! j : Choices 3, chainOf j (by decide) = #v[1, 2, 0] :=
  (existsUnique_choices 3 (by decide) #v[1, 2, 0] ⟨by decide, by decide, by decide⟩).1

end PointerChase
end HwBench
