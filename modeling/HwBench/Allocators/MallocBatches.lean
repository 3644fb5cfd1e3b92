import HwBench.Machine.Loop
import Mathlib.Data.List.Perm.Basic

/-!
# Batches on `malloc`

Both tests compare their allocators with `malloc` and `free`. A batch calls `malloc` for
every entry of a vector of pointers, then `free` for every entry in the same order. The
answers of `malloc` are arbitrary, and it may fail. Every block is given back once, and no
block is left in use after a batch.
-/

namespace HwBench

open Machine

/-- The vector `ptrs`, the blocks in use, and the number of calls of `malloc` so far. -/
structure MallocBatches (batchSize : Nat) where
  ptrs : Vector Nat batchSize
  inUse : List Nat
  calls : Nat

namespace MallocBatches

variable {batchSize : Nat}

/-- `ptrs[i] = std::malloc(OBJECT_SIZE);`, where `malloc` gives the answer to each call. -/
def allocateEntry (malloc : Nat → Nat) (s : MallocBatches batchSize) (i : Nat) :
    Option (MallocBatches batchSize) :=
  let ptr := malloc s.calls
  some {
    ptrs := s.ptrs.setIfInBounds i ptr
    inUse := if ptr = 0 then s.inUse else ptr :: s.inUse
    calls := s.calls + 1 }

/-- `std::free(ptrs[i]);`, which ignores null and is undefined for a block not in use. -/
def freeEntry (s : MallocBatches batchSize) (i : Nat) : Option (MallocBatches batchSize) := do
  let ptr ← s.ptrs[i]?
  if ptr = 0 then
    some s
  else if ptr ∈ s.inUse then
    some { s with inUse := s.inUse.erase ptr }
  else
    none

/-- The body of the loop over the batches, with the pointers that were handed out. -/
def batch (malloc : Nat → Nat) (s : MallocBatches batchSize) :
    Option (MallocBatches batchSize × Vector Nat batchSize) := do
  let full ← (List.range batchSize).foldlM (allocateEntry malloc) s
  let empty ← (List.range batchSize).foldlM freeEntry full
  some (empty, full.ptrs)

/-- The blocks among `count` answers from the `first` one on. -/
def blocks (malloc : Nat → Nat) (first count : Nat) : List Nat :=
  ((List.range' first count).map malloc).filter (· ≠ 0)

theorem blocks_concat (malloc : Nat → Nat) (first count : Nat) :
    blocks malloc first (count + 1) =
      blocks malloc first count ++ [malloc (first + count)].filter (· ≠ 0) := by
  rw [blocks, List.range'_concat, List.map_append, List.filter_append, Nat.one_mul]
  rfl

theorem blocks_succ (malloc : Nat → Nat) (first count : Nat) :
    blocks malloc first (count + 1) =
      [malloc first].filter (· ≠ 0) ++ blocks malloc (first + 1) count := by
  rw [blocks, List.range'_succ, List.map_cons, ← List.singleton_append, List.filter_append]
  rfl

/-- The first `n` entries hold the answers from the `first` one on. -/
def Holds (malloc : Nat → Nat) (first n : Nat) (s : MallocBatches batchSize) : Prop :=
  ∀ i, i < n → i < batchSize → s.ptrs[i]? = some (malloc (first + i))

/-- The first `n` calls of `malloc` are made, and their blocks are in use. -/
structure Filling (malloc : Nat → Nat) (first n : Nat) (s : MallocBatches batchSize) : Prop where
  calls_eq : s.calls = first + n
  holds : Holds malloc first n s
  inUse : s.inUse.Perm (blocks malloc first n)

/-- The first `n` calls of `free` are made, and the blocks behind them are in use. -/
structure Emptying (malloc : Nat → Nat) (first n : Nat) (s : MallocBatches batchSize) : Prop where
  calls_eq : s.calls = first + batchSize
  holds : Holds malloc first batchSize s
  inUse : s.inUse.Perm (blocks malloc (first + n) (batchSize - n))

section Entries

variable {malloc : Nat → Nat} {first n : Nat} {s : MallocBatches batchSize}

theorem Filling.step (h : Filling malloc first n s) :
    ∃ s', s.allocateEntry malloc n = some s' ∧ Filling malloc first (n + 1) s' := by
  refine ⟨_, rfl, ⟨by rw [h.calls_eq, Nat.add_assoc], fun i hi hbatch => ?_, ?_⟩⟩
  · rw [Vector.getElem?_setIfInBounds, h.calls_eq]
    obtain hprev | rfl := Nat.lt_succ_iff_lt_or_eq.mp hi
    · rw [if_neg (Nat.ne_of_gt hprev)]
      exact h.holds i hprev hbatch
    · rw [if_pos rfl, if_pos hbatch]
  · rw [blocks_concat, h.calls_eq]
    by_cases hnull : malloc (first + n) = 0
    · simpa [hnull] using h.inUse
    · have hblock : [malloc (first + n)].filter (· ≠ 0) = [malloc (first + n)] := by simp [hnull]
      rw [if_neg hnull, hblock]
      exact (h.inUse.cons _).trans (List.perm_append_singleton _ _).symm

theorem Emptying.step (h : Emptying malloc first n s) (hn : n < batchSize) :
    ∃ s', s.freeEntry n = some s' ∧ Emptying malloc first (n + 1) s' := by
  have hentry := h.holds n hn hn
  have hinUse := h.inUse
  have hcount : batchSize - n = batchSize - (n + 1) + 1 := by omega
  rw [hcount, blocks_succ] at hinUse
  simp only [freeEntry, hentry, Option.bind_eq_bind, Option.bind_some]
  by_cases hnull : malloc (first + n) = 0
  · rw [if_pos hnull]
    exact ⟨s, rfl, h.calls_eq, h.holds, by simpa [hnull, Nat.add_assoc] using hinUse⟩
  · have hblock : [malloc (first + n)].filter (· ≠ 0) = [malloc (first + n)] := by simp [hnull]
    rw [hblock, List.singleton_append] at hinUse
    have hmem : malloc (first + n) ∈ s.inUse := hinUse.mem_iff.mpr List.mem_cons_self
    rw [if_neg hnull, if_pos hmem]
    refine ⟨_, rfl, h.calls_eq, h.holds, ?_⟩
    have herase := hinUse.erase (malloc (first + n))
    rwa [List.erase_cons_head, Nat.add_assoc] at herase

end Entries

/-- Between two batches no block is in use, and `calls` calls of `malloc` are made. -/
structure Between (calls : Nat) (s : MallocBatches batchSize) : Prop where
  calls_eq : s.calls = calls
  inUse : s.inUse = []

theorem between_new (ptrs : Vector Nat batchSize) : Between 0 ⟨ptrs, [], 0⟩ :=
  ⟨rfl, rfl⟩

/-- A batch hands out the next answers of `malloc` and gives every block back. -/
theorem batch_spec (malloc : Nat → Nat) {calls : Nat} {s : MallocBatches batchSize}
    (h : Between calls s) :
    ∃ s' handedOut, s.batch malloc = some (s', handedOut) ∧
      (∀ i, i < batchSize → handedOut[i]? = some (malloc (calls + i))) ∧
      Between (calls + batchSize) s' := by
  have hstart : Filling malloc calls 0 s :=
    ⟨h.calls_eq, fun i hi => absurd hi (Nat.not_lt_zero i), by rw [h.inUse]; exact .nil⟩
  obtain ⟨full, hfirst, hfull⟩ :=
    foldlM_range_invariant (n := batchSize) (fun _ _ _ hs => Filling.step hs) hstart
  have hemptying : Emptying malloc calls 0 full := ⟨hfull.calls_eq, hfull.holds, hfull.inUse⟩
  obtain ⟨empty, hsecond, hempty⟩ :=
    foldlM_range_invariant (fun _ _ hn hs => Emptying.step hs hn) hemptying
  refine ⟨empty, full.ptrs, ?_, fun i hi => hfull.holds i hi hi, hempty.calls_eq, ?_⟩
  · simp only [batch, hfirst, hsecond, Option.bind_eq_bind, Option.bind_some]
  · have hnone := hempty.inUse
    rw [Nat.sub_self] at hnone
    exact hnone.eq_nil

/-- Batch `k` hands out the answers from the call `k * batchSize` on. -/
theorem batches_spec (malloc : Nat → Nat) (numBatches : Nat) {s : MallocBatches batchSize}
    (h : Between 0 s) :
    ∃ s' batches, countedLoop (batch malloc) numBatches s = some (s', batches) ∧
      Between (numBatches * batchSize) s' ∧ batches.length = numBatches ∧
      ∀ (k : Nat) (handedOut : Vector Nat batchSize), batches[k]? = some handedOut →
        ∀ i, i < batchSize → handedOut[i]? = some (malloc (k * batchSize + i)) := by
  have hstart : Between (0 * batchSize) s := by rwa [Nat.zero_mul]
  obtain ⟨s', batches, hrun, hend, hlength, hevents⟩ :=
    countedLoop_invariant (P := fun k s => Between (k * batchSize) s) (fun k s hs => by
      rw [Nat.succ_mul]
      exact batch_spec malloc hs) numBatches hstart
  rw [Nat.zero_add] at hend
  refine ⟨s', batches, hrun, hend, hlength, fun k handedOut hk i hi => ?_⟩
  have hbatch := hevents k handedOut hk i hi
  rwa [Nat.zero_add] at hbatch

/-- Three calls, the second of which fails. -/
example : ((⟨#v[0, 0, 0], [], 0⟩ : MallocBatches 3).batch fun i => #[4096, 0, 8192].getD i 0).map
    (fun r => (r.1.inUse, r.2)) = some ([], #v[4096, 0, 8192]) := by decide

end MallocBatches

end HwBench
