import HwBench.Machine.Word
import HwBench.Math.CycleInsertion

/-!
# The pointer-chase cycle of the cache hierarchy test

`run_cache_hierarchy` fills `chain` with the identity and runs Sattolo's loop:
for `i` from `n - 1` down to `1`, exchange `chain[i]` with `chain[j]` for some
`j < i`. The chase then follows `idx = chain[idx]`.

The loop is stated over a vector of choices, one for each loop index; the
program draws its choices from the random number generator. The chain after the
loop is a product of transpositions, which inserts the indices `1, ..., n - 1`
one after the other into a cycle. So it is a single cycle, and each single cycle
comes from exactly one vector of choices.
-/

namespace HwBench

open Machine Equiv CycleInsertion

namespace PointerChase

variable {n : Nat}

/-- One `j < i` for each loop index `i` from `1` to `n - 1`; the entry `i` is the
choice at loop index `i + 1`. -/
abbrev Choices (n : Nat) : Type := (i : Fin (n - 1)) → Fin (i + 1)

/-- `std::iota(chain.begin(), chain.end(), 0)`. -/
def iota (n : Nat) : Vector Nat n := Vector.ofFn fun i => i.val

/-- `for (size_t i = last; i > 0; --i) std::swap(chain[i], chain[j]);` -/
def sattoloLoop (j : Choices n) : (last : Nat) → last < n → Vector Nat n → Vector Nat n
  | 0, _, chain => chain
  | i + 1, hi, chain =>
      let choice := j ⟨i, Nat.lt_sub_of_add_lt hi⟩
      sattoloLoop j i (Nat.lt_of_succ_lt hi)
        (chain.swap (i + 1) choice hi (Nat.lt_trans choice.isLt hi))

/-- `size_t j = rng() % i`, where loop index `i` is reached after `n - 1 - i` draws. -/
def drawn (rng : Nat → Word) (n : Nat) : Choices n :=
  fun i => ⟨(rng (n - 1 - (i + 1))).toNat % (i + 1), Nat.mod_lt _ (Nat.succ_pos _)⟩

/-- The chain after `std::iota` and the loop with choices `j`. -/
def chainOf (j : Choices n) (hn : 0 < n) : Vector Nat n :=
  sattoloLoop j (n - 1) (Nat.sub_lt hn Nat.one_pos) (iota n)

/-- The chain that `run_cache_hierarchy` chases through. -/
def buildChain (rng : Nat → Word) (hn : 0 < n) : Vector Nat n := chainOf (drawn rng n) hn

/-- `idx` after `steps` executions of `idx = chain[idx]`; `none` once an access
has left the vector. -/
def chase (chain : Vector Nat n) (idx : Nat) : (steps : Nat) → Option Nat
  | 0 => some idx
  | steps + 1 => do
      let idx ← chase chain idx steps
      chain[idx]?

/-- The chain is a permutation of its indices, and from every start the first
`n` positions are all the indices, once each, with the next one back at the start. -/
structure IsHamiltonianCycle (chain : Vector Nat n) : Prop where
  perm : chain.toList.Perm (List.range n)
  visits : ∀ start, start < n →
    ((List.range n).map (chase chain start)).Perm ((List.range n).map some)
  closes : ∀ start, start < n → chase chain start n = some start

/-! ### Chains that are permutations -/

/-- The chain holds the values of `σ`. -/
def Holds (chain : Vector Nat n) (σ : Perm ℕ) : Prop :=
  ∀ x (hx : x < n), chain[x] = σ x

theorem holds_iota (n : Nat) : Holds (iota n) 1 := by
  intro x hx
  simp only [iota, Vector.getElem_ofFn, Perm.coe_one, id]

theorem Holds.swap {chain : Vector Nat n} {σ : Perm ℕ} (h : Holds chain σ) {i j : Nat}
    (hi : i < n) (hj : j < n) : Holds (chain.swap i j hi hj) (σ * Equiv.swap i j) := by
  intro x hx
  rw [Vector.getElem_swap, Perm.mul_apply, swap_apply_def]
  split_ifs
  · exact h j hj
  · exact h i hi
  · exact h x hx

/-- The choices as a function of all naturals, zero where there is no choice. -/
def choiceFn (j : Choices n) (i : ℕ) : ℕ := if hi : i < n - 1 then j ⟨i, hi⟩ else 0

theorem choiceFn_le (j : Choices n) (i : ℕ) : choiceFn j i ≤ i := by
  rw [choiceFn]
  split
  · next hi => exact Nat.le_of_lt_succ (j ⟨i, hi⟩).isLt
  · exact Nat.zero_le i

theorem choiceFn_of_lt (j : Choices n) {i : ℕ} (hi : i < n - 1) : choiceFn j i = j ⟨i, hi⟩ :=
  dif_pos hi

/-- The loop multiplies the chain by the transpositions it still has to do. -/
theorem holds_sattoloLoop (j : Choices n) {last : Nat} (hlast : last < n) {chain : Vector Nat n}
    {σ : Perm ℕ} (h : Holds chain σ) :
    Holds (sattoloLoop j last hlast chain) (σ * insertions (choiceFn j) last) := by
  induction last generalizing chain σ with
  | zero => simpa only [sattoloLoop, insertions, mul_one] using h
  | succ i ih =>
      have hi : i < n - 1 := Nat.lt_sub_of_add_lt hlast
      have hrest := ih (Nat.lt_of_succ_lt hlast)
        (h.swap hlast (Nat.lt_trans (j ⟨i, hi⟩).isLt hlast))
      have hproduct : insertions (choiceFn j) (i + 1) =
          Equiv.swap (i + 1) (j ⟨i, hi⟩) * insertions (choiceFn j) i := by
        rw [insertions, choiceFn_of_lt j hi]
      rw [hproduct, ← mul_assoc]
      exact hrest

/-- The finished chain is the product of all the insertions. -/
theorem holds_chainOf (j : Choices n) (hn : 0 < n) :
    Holds (chainOf j hn) (insertions (choiceFn j) (n - 1)) := by
  have hloop := holds_sattoloLoop j (Nat.sub_lt hn Nat.one_pos) (holds_iota n)
  rwa [one_mul] at hloop

theorem isCycleOn_choices (j : Choices n) (hn : 0 < n) :
    (insertions (choiceFn j) (n - 1)).IsCycleOn (Finset.range n) := by
  simpa only [Nat.sub_add_cancel hn] using
    isCycleOn_insertions (m := n - 1) fun i _ => choiceFn_le j i

/-! ### Chasing through a single cycle -/

section Chase

variable {chain : Vector Nat n} {σ : Perm ℕ}

theorem chase_succ (chain : Vector Nat n) (idx steps : Nat) :
    chase chain idx (steps + 1) = (chase chain idx steps).bind fun idx => chain[idx]? := rfl

/-- A chain that holds a permutation of its indices is never left, and the
chase computes the powers of the permutation. -/
theorem chase_eq (h : Holds chain σ) (hσ : Set.MapsTo σ (Finset.range n) (Finset.range n))
    {start : Nat} (hs : start < n) (steps : Nat) :
    (σ ^ steps) start < n ∧ chase chain start steps = some ((σ ^ steps) start) := by
  induction steps with
  | zero => exact ⟨hs, rfl⟩
  | succ steps ih =>
      obtain ⟨hlt, hchase⟩ := ih
      have hnext := Finset.mem_range.mp (hσ (Finset.mem_coe.mpr (Finset.mem_range.mpr hlt)))
      rw [pow_succ', Perm.mul_apply, chase_succ, hchase, Option.bind_some]
      exact ⟨hnext, (Vector.getElem?_eq_getElem hlt).trans (congrArg some (h _ hlt))⟩

/-- The positions of the first `n` steps on a cycle are all its points. -/
theorem perm_map_pow (hσ : σ.IsCycleOn (Finset.range n)) {start : Nat} (hs : start < n) :
    ((List.range n).map fun t => (σ ^ t) start).Perm (List.range n) := by
  have hmem : start ∈ Finset.range n := Finset.mem_range.mpr hs
  have hcard : (Finset.range n).card = n := Finset.card_range n
  have hinj : ∀ t ∈ List.range n, ∀ t' ∈ List.range n,
      (σ ^ t) start = (σ ^ t') start → t = t' := by
    intro t ht t' ht' heq
    have hmod := (hσ.pow_apply_eq_pow_apply hmem).mp heq
    rw [hcard] at hmod
    exact Nat.ModEq.eq_of_lt_of_lt hmod (List.mem_range.mp ht) (List.mem_range.mp ht')
  refine (List.perm_ext_iff_of_nodup (List.Nodup.map_on hinj List.nodup_range)
    List.nodup_range).mpr fun y => ?_
  rw [List.mem_map, List.mem_range]
  constructor
  · rintro ⟨t, _, rfl⟩
    exact Finset.mem_range.mp ((hσ.1.perm_pow t).mapsTo hmem)
  · intro hy
    obtain ⟨t, ht, heq⟩ := hσ.exists_pow_eq hmem (Finset.mem_range.mpr hy)
    exact ⟨t, List.mem_range.mpr (hcard ▸ ht), heq⟩

theorem Holds.isHamiltonianCycle (h : Holds chain σ) (hσ : σ.IsCycleOn (Finset.range n)) :
    IsHamiltonianCycle chain := by
  have hcard : (Finset.range n).card = n := Finset.card_range n
  refine ⟨?_, fun start hs => ?_, fun start hs => ?_⟩
  · have hvalues : chain.toList = (List.range n).map σ := by
      apply List.ext_getElem
      · simp
      · intro x hx _
        simpa using h x (by simpa using hx)
    rw [hvalues]
    refine (List.perm_ext_iff_of_nodup (List.nodup_range.map σ.injective) List.nodup_range).mpr
      fun y => ?_
    rw [List.mem_map, List.mem_range]
    constructor
    · rintro ⟨x, hx, rfl⟩
      exact Finset.mem_range.mp (hσ.1.mapsTo (Finset.mem_range.mpr (List.mem_range.mp hx)))
    · intro hy
      obtain ⟨x, hx, heq⟩ := hσ.1.surjOn (Finset.mem_coe.mpr (Finset.mem_range.mpr hy))
      exact ⟨x, List.mem_range.mpr (Finset.mem_range.mp hx), heq⟩
  · have hchase : (List.range n).map (chase chain start) =
        ((List.range n).map fun t => (σ ^ t) start).map some := by
      rw [List.map_map]
      exact List.map_congr_left fun t _ => (chase_eq h hσ.1.mapsTo hs t).2
    rw [hchase]
    exact (perm_map_pow hσ hs).map some
  · rw [(chase_eq h hσ.1.mapsTo hs n).2]
    have hpow := hσ.pow_card_apply (Finset.mem_range.mpr hs)
    rw [hcard] at hpow
    rw [hpow]

end Chase

/-- For every sequence of random numbers the chain is a single cycle through all
the indices, no element of which points to itself, and no chase leaves it. -/
theorem buildChain_hamiltonian (n : Nat) (hn : 1 ≤ n) (rng : Nat → Word) :
    IsHamiltonianCycle (buildChain rng hn) ∧
      (2 ≤ n → ∀ x (hx : x < n), (buildChain rng hn)[x] ≠ x) ∧
      ∀ start, start < n → ∀ steps,
        ∃ idx, idx < n ∧ chase (buildChain rng hn) start steps = some idx := by
  have hholds := holds_chainOf (drawn rng n) hn
  have hcycle := isCycleOn_choices (drawn rng n) hn
  refine ⟨hholds.isHamiltonianCycle hcycle, fun htwo x hx => ?_, fun start hs steps => ?_⟩
  · have hnontrivial : (Finset.range n : Set ℕ).Nontrivial :=
      ⟨0, Finset.mem_coe.mpr (Finset.mem_range.mpr hn), 1,
        Finset.mem_coe.mpr (Finset.mem_range.mpr htwo), Nat.zero_ne_one⟩
    rw [buildChain, hholds x hx]
    exact hcycle.apply_ne hnontrivial (by simpa using hx)
  · obtain ⟨hlt, hchase⟩ := chase_eq hholds hcycle.1.mapsTo hs steps
    exact ⟨_, hlt, hchase⟩

theorem buildChain_hamiltonian_three :
    IsHamiltonianCycle (buildChain (n := 3) (fun k => 7 + BitVec.ofNat 64 k) (by decide)) :=
  (buildChain_hamiltonian 3 (by decide) _).1

end PointerChase
end HwBench
