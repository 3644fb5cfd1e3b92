import HwBench.Constants
import HwBench.Machine.Mappings
import HwBench.Numa.DetectNodes

/-!
# Random reads of mapped pages

The TLB and NUMA tests map a buffer, fill it with zeros, and read it at random
indices, first to warm up and then for the measurement. The operating system decides
whether a mapping succeeds and where it lies.
-/

namespace HwBench

open Machine Effect

/-- The page size that is asked for. -/
inductive Pages where
  | regular
  | huge
  deriving DecidableEq, Repr

/-- How the operating system answers: where the `k`-th call of `mmap` puts its region,
if it succeeds, and whether `mbind` succeeds for a region, a mask of nodes and a limit. -/
structure Os where
  mmap : Pages → Nat → Option Nat
  mbind : Nat → Word → CInt → Bool
  mmap_ne_zero : ∀ pages k a, mmap pages k = some a → a ≠ 0

/-- Regions of either kind always at the same address. -/
def Os.fixed (regular huge : Nat) (hregular : regular ≠ 0) (hhuge : huge ≠ 0)
    (mbind : Nat → Word → CInt → Bool) : Os where
  mmap pages _ :=
    match pages with
    | .regular => some regular
    | .huge => some huge
  mbind := mbind
  mmap_ne_zero := by
    rintro (_ | _) k a ⟨⟩
    · exact hregular
    · exact hhuge

/-- The benchmarks of the suite. -/
inductive Benchmark where
  | tlb
  | cache
  | numa
  | branch
  | access
  | prefetch
  | alloc
  deriving DecidableEq, Repr

/-- What is measured by random reads. -/
inductive Measurement where
  | pages (p : Pages)
  | localMemory
  | node (k : Nat)
  deriving DecidableEq, Repr

/-- The lines of output that depend on what happened, other than by the time it took. An
object with two counters comes with its size and their addresses, a measurement with the
final sum and the addresses that were read. -/
inductive Report where
  | usage (program : String)
  | pinned
  | header (b : Benchmark)
  | allocationFailed (p : Pages)
  | detected (nodes : CInt)
  | bindFailed (node : Nat)
  | noBinding
  | secondCore (core : CInt)
  | counters (size a b : Nat)
  | measured (what : Measurement) (sum : Word) (reads : List Nat)
  | done
  deriving DecidableEq, Repr

/-- A step of the suite; an exception or a signed overflow comes from the NUMA test. -/
abbrev Suite (α : Type) : Type := Effect (Process Report) (Stop NumaBenchmark.Fault) α

/-- `alloc_regular_pages(size)` and `alloc_huge_pages(size)`: null if `mmap` fails. -/
def allocPages (os : Os) (pages : Pages) (size : Nat) : Suite Nat := do
  let ptr ← Process.mmap (os.mmap pages) size
  pure (ptr.getD 0)

/-- `free_pages(ptr, size)` -/
def freePages (ptr size : Nat) : Suite Unit := Process.munmap ptr size

/-- `for (auto& idx : indices) idx = rng() % n;` -/
def randomIndices (rng : Nat → Word) (accesses n : Nat) : List Nat :=
  (List.range accesses).map fun k => (rng k).toNat % n

/-- `data[indices[i]]`, with its address. -/
def readRandom (data : Nat) (indices : List Nat) (i : Nat) : Suite (Word × Nat) := do
  match indices[i]? with
  | none => throw (.fault (.badIndex i))
  | some idx =>
      let value ← Process.readWord (data + 8 * idx)
      pure (value, data + 8 * idx)

/-- `for (i < count) do_not_optimize(data[indices[i]]);` -/
def warmUp (data : Nat) (indices : List Nat) (count : Nat) : Suite Unit :=
  (List.range count).forM fun i => do
    let _ ← readRandom data indices i
    pure ⟨⟩

/-- `sum += data[indices[i]];` -/
def addRandom (data : Nat) (indices : List Nat) (total : Word × List Nat) (i : Nat) :
    Suite (Word × List Nat) := do
  let (value, addr) ← readRandom data indices i
  pure (total.1 + value, total.2 ++ [addr])

/-- The loop over `i < accesses` from `sum = 0`, with the addresses read. -/
def sumReads (data : Nat) (indices : List Nat) (accesses : Nat) : Suite (Word × List Nat) :=
  (List.range accesses).foldlM (addRandom data indices) (0, [])

/-- `memset(data, 0, size);` then the warmup and the measured loop. -/
def measure (data size : Nat) (indices : List Nat) (warmup accesses : Nat) :
    Suite (Word × List Nat) := do
  Process.memset data size
  warmUp data indices warmup
  sumReads data indices accesses

/-- From `memset` to `free_pages`. The source has this four times, for two kinds of pages,
for the local memory and for a node. -/
def measureAndFree (what : Measurement) (data size : Nat) (indices : List Nat)
    (warmup accesses : Nat) : Suite Unit := do
  let (sum, reads) ← measure data size indices warmup accesses
  Process.report (.measured what sum reads)
  freePages data size

/-- The addresses that a measurement reads, in order. -/
def readAddrs (rng : Nat → Word) (accesses data size : Nat) : List Nat :=
  (randomIndices rng accesses (size / 8)).map fun idx => data + 8 * idx

/-! ### Contracts -/

section Contracts

variable {mapped : List Span} {mmaps : Nat} {output : List Report} {data size : Nat}
  {indices : List Nat} {E : Stop NumaBenchmark.Fault → Process Report → Prop}

theorem allocPages_spec (os : Os) (pages : Pages) (size : Nat) :
    Contract (Process.At mapped mmaps output) (allocPages os pages size)
      (fun ptr p =>
        (ptr = 0 ∧ os.mmap pages mmaps = none ∧ Process.At mapped (mmaps + 1) output p) ∨
        (ptr ≠ 0 ∧ os.mmap pages mmaps = some ptr ∧
          Process.At (⟨ptr, size⟩ :: mapped) (mmaps + 1) output p)) E := by
  refine (Process.mmap_spec (os.mmap pages) size).bind fun r => Contract.pure ?_
  rintro p ⟨hanswer, hp⟩
  cases r with
  | none => exact .inl ⟨rfl, hanswer, hp⟩
  | some a => exact .inr ⟨os.mmap_ne_zero pages mmaps a hanswer, hanswer, hp⟩

/-- Either the allocation fails, or the new region is mapped for what follows. -/
theorem allocPages_bind {os : Os} {pages : Pages} {f : Nat → Suite Unit}
    {Q : Unit → Process Report → Prop}
    (hnone : os.mmap pages mmaps = none →
      Contract (Process.At mapped (mmaps + 1) output) (f 0) Q E)
    (hsome : ∀ ptr, ptr ≠ 0 → os.mmap pages mmaps = some ptr →
      Contract (Process.At (⟨ptr, size⟩ :: mapped) (mmaps + 1) output) (f ptr) Q E) :
    Contract (Process.At mapped mmaps output) (allocPages os pages size >>= f) Q E := by
  refine (allocPages_spec os pages size).bind fun ptr => Contract.or ?_ ?_
  · refine Contract.assume (p := ptr = 0 ∧ os.mmap pages mmaps = none)
      (fun p hp => ⟨hp.1, hp.2.1⟩) fun ⟨hptr, hanswer⟩ => ?_
    subst hptr
    exact (hnone hanswer).weaken (fun p hp => hp.2.2) fun _ _ h => h
  · refine Contract.assume (p := ptr ≠ 0 ∧ os.mmap pages mmaps = some ptr)
      (fun p hp => ⟨hp.1, hp.2.1⟩) fun ⟨hptr, hanswer⟩ => ?_
    exact (hsome ptr hptr hanswer).weaken (fun p hp => hp.2.2) fun _ _ h => h

theorem length_randomIndices (rng : Nat → Word) (accesses n : Nat) :
    (randomIndices rng accesses n).length = accesses := by
  simp [randomIndices]

theorem lt_of_mem_randomIndices {rng : Nat → Word} {accesses n idx : Nat} (hn : 0 < n)
    (h : idx ∈ randomIndices rng accesses n) : idx < n := by
  obtain ⟨k, _, rfl⟩ := List.mem_map.mp h
  exact Nat.mod_lt _ hn

/-- The process has mapped the buffer and filled it with zeros. -/
def Ready (mapped : List Span) (mmaps : Nat) (output : List Report) (data size : Nat)
    (p : Process Report) : Prop :=
  Process.At (⟨data, size⟩ :: mapped) mmaps output p ∧ Process.Zero data size p

theorem readRandom_spec (hin : ∀ idx ∈ indices, 8 * idx + 8 ≤ size) {i : Nat}
    (hi : i < indices.length) :
    Contract (Ready mapped mmaps output data size) (readRandom data indices i)
      (fun r p => r = (0, data + 8 * indices[i]) ∧ Ready mapped mmaps output data size p) E := by
  have hidx := hin _ (List.getElem_mem hi)
  rw [readRandom, List.getElem?_eq_getElem hi]
  have hlo : data ≤ data + 8 * indices[i] := Nat.le_add_right _ _
  have hhi : data + 8 * indices[i] + 8 ≤ data + size := by omega
  refine (Process.readWord_spec hlo hhi).bind fun v => Contract.pure ?_
  rintro p ⟨rfl, hp⟩
  exact ⟨rfl, hp⟩

theorem warmUp_spec (hin : ∀ idx ∈ indices, 8 * idx + 8 ≤ size) {count : Nat}
    (hcount : count ≤ indices.length) :
    Contract (Ready mapped mmaps output data size) (warmUp data indices count)
      (fun _ => Ready mapped mmaps output data size) E := by
  refine Contract.forM_range (I := fun _ => Ready mapped mmaps output data size) fun i hi => ?_
  refine (readRandom_spec hin (by omega)).bind fun _ => Contract.pure fun p hp => hp.2

/-- The sum of the zeros is zero, and the addresses are those of the indices. -/
theorem sumReads_spec (hin : ∀ idx ∈ indices, 8 * idx + 8 ≤ size) {accesses : Nat}
    (hlen : indices.length = accesses) :
    Contract (Ready mapped mmaps output data size) (sumReads data indices accesses)
      (fun r p => r = (0, indices.map fun idx => data + 8 * idx) ∧
        Ready mapped mmaps output data size p) E := by
  subst hlen
  have hloop := Contract.foldlM_range (E := E) (n := indices.length)
    (f := addRandom data indices)
    (I := fun i r p => r = ((0 : Word), (indices.take i).map fun idx => data + 8 * idx) ∧
      Ready mapped mmaps output data size p) ?_ (0, [])
  · refine hloop.weaken (fun p hp => ⟨by simp, hp⟩) ?_
    rintro r p ⟨rfl, hp⟩
    exact ⟨by rw [List.take_length], hp⟩
  · intro i total hi
    refine Contract.assume (fun p hp => hp.1) fun htotal => ?_
    subst htotal
    refine Contract.weaken ((readRandom_spec hin hi).bind fun v => Contract.pure ?_)
      (fun p hp => hp.2) fun _ _ h => h
    rintro p ⟨rfl, hp⟩
    refine ⟨?_, hp⟩
    simp only [List.take_succ_eq_append_getElem hi, List.map_append, List.map_cons, List.map_nil]
    rfl

/-- Every read is inside the buffer. -/
theorem measure_spec {rng : Nat → Word} {warmup accesses : Nat} (hsize : 8 ≤ size)
    (hwarmup : warmup ≤ accesses) :
    Contract (Process.At (⟨data, size⟩ :: mapped) mmaps output)
      (measure data size (randomIndices rng accesses (size / 8)) warmup accesses)
      (fun r p => r = (0, readAddrs rng accesses data size) ∧
        Process.At (⟨data, size⟩ :: mapped) mmaps output p) E := by
  have hlen := length_randomIndices rng accesses (size / 8)
  have hin : ∀ idx ∈ randomIndices rng accesses (size / 8), 8 * idx + 8 ≤ size := fun idx hidx => by
    have hlt := lt_of_mem_randomIndices (by omega : 0 < size / 8) hidx
    omega
  have hcount : warmup ≤ (randomIndices rng accesses (size / 8)).length := by omega
  refine Process.memset_spec.bind fun _ => (warmUp_spec hin hcount).bind fun _ => ?_
  exact (sumReads_spec hin hlen).weaken (fun _ hp => hp) fun _ _ hp => ⟨hp.1, hp.2.1⟩

theorem measureAndFree_spec {rng : Nat → Word} (what : Measurement) {warmup accesses : Nat}
    (hsize : 8 ≤ size) (hwarmup : warmup ≤ accesses) :
    Contract (Process.At (⟨data, size⟩ :: mapped) mmaps output)
      (measureAndFree what data size (randomIndices rng accesses (size / 8)) warmup accesses)
      (fun _ => Process.At mapped mmaps
        (output ++ [.measured what 0 (readAddrs rng accesses data size)])) E := by
  refine (measure_spec hsize hwarmup).bind fun total => ?_
  refine Contract.assume (fun p hp => hp.1) fun htotal => ?_
  subst htotal
  refine Contract.weaken ?_ (fun p hp => hp.2) fun _ _ h => h
  exact (Process.report_spec _).bind fun _ => Process.munmap_spec

end Contracts

end HwBench
