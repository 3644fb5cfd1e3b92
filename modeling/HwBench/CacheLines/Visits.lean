import HwBench.CacheLines.PointerChase
import HwBench.Math.ExactPeriod
import HwBench.Machine.Loop
import HwBench.Suite.RandomReads
import Mathlib.Algebra.BigOperators.Fin

/-!
# How often the cache tests read each element

The pointer chase goes around its cycle: in any number of steps it reads all the
elements equally often, up to one. It starts from the same element for the warmup and
for the measurement, so the elements that the measurement is the first to read are those
that the warmup was too short for.

The sequential pass also reads the elements equally often. On its data of ones it has the
same sum as the random pass, the number of accesses.
-/

namespace HwBench

open Machine

namespace PointerChase

variable {n : Nat}

/-- The element that is read in each of the first `steps` iterations of
`idx = chain[idx]`. -/
def reads (chain : Vector Nat n) (start steps : Nat) : List (Option Nat) :=
  (List.range steps).map (chase chain start)

/-- The chase returns to an element after `n` steps, and not before. -/
theorem exactPeriod_chase (rng : Nat → Word) (hn : 0 < n) {start : Nat} (hs : start < n) :
    ExactPeriod (chase (buildChain rng hn) start) n := by
  have hholds := holds_chainOf (drawn rng n) hn
  have hcycle := isCycleOn_choices (drawn rng n) hn
  have hmem : start ∈ Finset.range n := Finset.mem_range.mpr hs
  intro i j
  have hi := (chase_eq hholds hcycle.1.mapsTo hs i).2
  have hj := (chase_eq hholds hcycle.1.mapsTo hs j).2
  rw [buildChain, hi, hj, Option.some.injEq, hcycle.pow_apply_eq_pow_apply hmem, Finset.card_range]

theorem toFinset_reads (chain : Vector Nat n) (start steps : Nat) :
    (reads chain start steps).toFinset = (Finset.range steps).image (chase chain start) := by
  ext x
  simp [reads]

/-- Any `n` reads in a row are all the elements. -/
theorem window_perm (rng : Nat → Word) (hn : 0 < n) {start : Nat} (hs : start < n) (first : Nat) :
    ((List.range n).map fun t => chase (buildChain rng hn) start (first + t)).Perm
      ((List.range n).map some) := by
  have hholds := holds_chainOf (drawn rng n) hn
  have hcycle := isCycleOn_choices (drawn rng n) hn
  obtain ⟨hlt, _⟩ := chase_eq hholds hcycle.1.mapsTo hs first
  have hwindow : (List.range n).map (fun t => chase (buildChain rng hn) start (first + t)) =
      ((List.range n).map fun t => (CycleInsertion.insertions (choiceFn (drawn rng n)) (n - 1) ^ t)
        ((CycleInsertion.insertions (choiceFn (drawn rng n)) (n - 1) ^ first) start)).map some := by
    rw [List.map_map]
    refine List.map_congr_left fun t _ => ?_
    rw [buildChain, (chase_eq hholds hcycle.1.mapsTo hs (first + t)).2, Nat.add_comm, pow_add]
    rfl
  rw [hwindow]
  exact (perm_map_pow hcycle hlt).map some

/-- The reads of the measurement, and how many of them the warmup did not make. -/
theorem chase_reads (n : Nat) (hn : 1 ≤ n) (rng : Nat → Word) (warmup accesses : Nat) :
    (∀ x, x < n →
      (reads (buildChain rng hn) 0 accesses).countP (· = some x) = accesses / n ∨
        (reads (buildChain rng hn) 0 accesses).countP (· = some x) = accesses ⌈/⌉ n) ∧
    (∀ first, ((List.range n).map fun t => chase (buildChain rng hn) 0 (first + t)).Perm
      ((List.range n).map some)) ∧
    ((reads (buildChain rng hn) 0 accesses).toFinset \
      (reads (buildChain rng hn) 0 warmup).toFinset).card = min accesses n - min warmup n := by
  have hperiod := exactPeriod_chase rng hn hn
  refine ⟨fun x hx => ?_, window_perm rng hn hn, ?_⟩
  · have hmem : some x ∈ (List.range n).map fun t => chase (buildChain rng hn) 0 (0 + t) :=
      (window_perm rng hn hn 0).mem_iff.mpr (List.mem_map_of_mem (List.mem_range.mpr hx))
    obtain ⟨k, _, hk⟩ := List.mem_map.mp hmem
    rw [← hk, Nat.zero_add, reads]
    simpa only [List.count, beq_eq_decide] using hperiod.count_map_range_eq_or hn accesses k
  · rw [toFinset_reads, toFinset_reads]
    exact hperiod.card_image_sdiff hn accesses warmup

/-- Five elements, a warmup of two reads and a measurement of seven. -/
theorem chase_reads_five :
    ((reads (buildChain (n := 5) (fun k => 3 + BitVec.ofNat 64 k) (by decide)) 0 7).toFinset \
      (reads (buildChain (n := 5) (fun k => 3 + BitVec.ofNat 64 k) (by decide)) 0 2).toFinset).card =
      3 :=
  (chase_reads 5 (by decide) _ 2 7).2.2

end PointerChase

/-! ### Sequential and random reads -/

namespace SequentialVsRandom

variable {n : Nat}

/-- `sum += data[idx];`, where `index` gives the `idx` of iteration `i`. -/
def addRead (data : Vector Word n) (index : Nat → Option Nat) (total : Word × List Nat) (i : Nat) :
    Option (Word × List Nat) := do
  let idx ← index i
  let value ← data[idx]?
  some (total.1 + value, total.2 ++ [idx])

/-- `for (int i = 0; i < ACCESSES; ++i)` from `sum = 0`, with the indices read. -/
def sumOf (data : Vector Word n) (index : Nat → Option Nat) (accesses : Nat) :
    Option (Word × List Nat) :=
  (List.range accesses).foldlM (addRead data index) (0, [])

/-- The pass over `data[i % n]`; a remainder modulo zero is undefined. -/
def sequential (data : Vector Word n) (accesses : Nat) : Option (Word × List Nat) :=
  sumOf data (fun i => if n = 0 then none else some (i % n)) accesses

/-- The pass over `data[random_indices[i]]`. -/
def random (data : Vector Word n) (rng : Nat → Word) (accesses : Nat) : Option (Word × List Nat) :=
  let randomIndices := randomIndices rng accesses n
  sumOf data (fun i => randomIndices[i]?) accesses

/-- A pass over indices inside the vector. -/
theorem sumOf_eq {data : Vector Word n} {index : Nat → Option Nat} {accesses : Nat}
    {idx : Nat → Nat} {value : Nat → Word} (hindex : ∀ i, i < accesses → index i = some (idx i))
    (hvalue : ∀ i, i < accesses → data[idx i]? = some (value i)) :
    sumOf data index accesses = some (wrappingSum value accesses, (List.range accesses).map idx) := by
  have hstep : ∀ i total, i < accesses → total = (wrappingSum value i, (List.range i).map idx) →
      ∃ total', addRead data index total i = some total' ∧
        total' = (wrappingSum value (i + 1), (List.range (i + 1)).map idx) := by
    rintro i _ hi rfl
    refine ⟨_, ?_, rfl⟩
    simp only [addRead, hindex i hi, hvalue i hi, Option.bind_eq_bind, Option.bind_some,
      wrappingSum_succ, List.range_succ, List.map_append, List.map_cons, List.map_nil]
  obtain ⟨total, hrun, rfl⟩ := foldlM_range_invariant hstep rfl
  exact hrun

/-- The element that iteration `i` of the sequential pass reads. -/
theorem sequential_eq (data : Vector Word n) (hn : 1 ≤ n) (accesses : Nat) :
    sequential data accesses =
      some (wrappingSum (fun i => data[(⟨i % n, Nat.mod_lt i hn⟩ : Fin n)]) accesses,
        (List.range accesses).map (· % n)) :=
  sumOf_eq (fun _ _ => if_neg (Nat.pos_iff_ne_zero.mp hn))
    fun i _ => Vector.getElem?_eq_getElem (Nat.mod_lt i hn)

theorem random_eq (data : Vector Word n) (hn : 1 ≤ n) (rng : Nat → Word) (accesses : Nat) :
    random data rng accesses =
      some (wrappingSum (fun i => data[(⟨(rng i).toNat % n, Nat.mod_lt _ hn⟩ : Fin n)]) accesses,
        randomIndices rng accesses n) := by
  refine sumOf_eq (fun i hi => ?_) fun i _ => Vector.getElem?_eq_getElem (Nat.mod_lt _ hn)
  simp [randomIndices, hi]

/-- The sequential pass adds each element as often as its index occurs. -/
theorem sum_sequential (data : Vector Word n) (hn : 1 ≤ n) (accesses : Nat) :
    wrappingSum (fun i => data[(⟨i % n, Nat.mod_lt i hn⟩ : Fin n)]) accesses =
      BitVec.ofNat 64 (∑ k : Fin n,
        (accesses / n + if k < accesses % n then 1 else 0) * data[k].toNat) := by
  let g : Nat → Nat := fun k => if hk : k < n then data[k].toNat else 0
  have hterm : ∀ i ∈ Finset.range accesses,
      data[(⟨i % n, Nat.mod_lt i hn⟩ : Fin n)].toNat = g (i % n) := fun i _ => by
    simp only [g, dif_pos (Nat.mod_lt i hn), Fin.getElem_fin]
  have hfin : ∀ k : Fin n, g (k % n) = data[k].toNat := fun k => by
    simp only [g, Nat.mod_eq_of_lt k.isLt, dif_pos k.isLt, Fin.getElem_fin]
  rw [wrappingSum, Finset.sum_congr rfl hterm, (exactPeriod_mod n).sum_range hn g, Finset.sum_range]
  simp only [hfin]

theorem wrappingSum_one (accesses : Nat) :
    wrappingSum (fun _ => 1#64) accesses = BitVec.ofNat 64 accesses := by
  simp [wrappingSum]

/-- Neither pass leaves the vector. The sequential one reads every element equally often,
the first ones once more, so its sum is that of the multiples; on ones, both passes count
the accesses. -/
theorem sums (n : Nat) (hn : 1 ≤ n) (data : Vector Word n) (rng : Nat → Word) (accesses : Nat) :
    sequential data accesses =
      some (BitVec.ofNat 64 (∑ k : Fin n,
          (accesses / n + if k < accesses % n then 1 else 0) * data[k].toNat),
        (List.range accesses).map (· % n)) ∧
    (∃ sum, random data rng accesses = some (sum, randomIndices rng accesses n)) ∧
    (data = Vector.replicate n 1 → ∀ pass ∈ [sequential data accesses, random data rng accesses],
      pass.map Prod.fst = some (BitVec.ofNat 64 accesses)) := by
  refine ⟨?_, ⟨_, random_eq data hn rng accesses⟩, ?_⟩
  · rw [sequential_eq data hn, sum_sequential data hn]
  · rintro rfl pass hpass
    obtain rfl | rfl : pass = _ ∨ pass = _ := by simpa using hpass
    · rw [sequential_eq _ hn]
      simp only [Fin.getElem_fin, Vector.getElem_replicate, wrappingSum_one, Option.map_some]
    · rw [random_eq _ hn]
      simp only [Fin.getElem_fin, Vector.getElem_replicate, wrappingSum_one, Option.map_some]

/-- Eight accesses to three elements: the first two are read three times. -/
theorem sums_three :
    sequential (#v[5, 7, 11] : Vector Word 3) 8 = some (58, [0, 1, 2, 0, 1, 2, 0, 1]) :=
  (sums 3 (by decide) #v[5, 7, 11] (fun _ => 0) 8).1

end SequentialVsRandom

end HwBench
