import HwBench.AccessPatterns.InMemory
import HwBench.Allocators.ArenaBatches
import HwBench.Allocators.MallocBatches
import HwBench.Allocators.PoolBatches
import HwBench.BranchPrediction.SortedBranches
import HwBench.CacheLines.FalseSharing
import HwBench.CacheLines.Visits
import HwBench.Prefetching.LinkedList
import HwBench.Prefetching.StridedAccess
import HwBench.Statistics.ComputeStats
import HwBench.Suite.RandomReads

/-!
# The benchmarks that map no memory

Five of the benchmarks work on vectors, on objects on the stack and on blocks of `malloc`.
Each of their tests is a computation on variables of its own, which has no value if an
access leaves its vector or its block, a null pointer is followed or a signed operation
overflows. With the sizes and counts of the source none of this happens, whatever the
random numbers, the threads and the allocator do.

What the tests measure is time. So they report nothing behind their banner, apart from the
cores and the objects of the false sharing test.
-/

namespace HwBench

open Machine Effect

section

variable {mapped : List Span} {mmaps : Nat} {output : List Report}
  {E : Stop NumaBenchmark.Fault → Process Report → Prop}

/-! ### Cache lines -/

namespace CacheLineBenchmark

open FalseSharing PointerChase SequentialVsRandom

/-- The two threads of a counter test: whether their calls of `pin_to_core` succeed, and
which thread the scheduler names for each move. -/
structure Threads where
  pinned : Member → Bool
  named : Nat → Thread

/-- What the false sharing test finds: the number of cores, its two objects on the stack,
and the threads of either test. -/
structure Counting where
  hardwareConcurrency : BitVec 32
  packed : Heap countersPacked.size
  padded : Heap countersPadded.size
  packedThreads : Threads
  paddedThreads : Threads

def increments : CInt := 50000000

/-- `sizeof(counters)`, `&counters.a` and `&counters.b` -/
def describe (c : Counters) (h : Heap c.size) : Report :=
  .counters c.size (c.cellAt h.base .a).start (c.cellAt h.base .b).start

/-- `run_false_sharing`, by a thread that may run on the cores of `affinity`. -/
def runFalseSharing (counting : Counting) (affinity : Finset CInt) : Suite Unit := do
  let place := placement affinity counting.hardwareConcurrency
  Process.report (.secondCore (getSecondCore counting.hardwareConcurrency))
  Process.report (describe countersPacked counting.packed)
  Process.report (describe countersPadded counting.padded)
  let _ ← Process.require (finishCounterTest countersPacked increments
    (place counting.packedThreads.pinned) counting.packedThreads.named counting.packed)
  let _ ← Process.require (finishCounterTest countersPadded increments
    (place counting.paddedThreads.pinned) counting.paddedThreads.named counting.padded)
  pure ⟨⟩

def sizes : List Nat :=
  [4*KB, 8*KB, 16*KB, 32*KB, 48*KB, 64*KB, 128*KB, 256*KB, 512*KB, 1*MB,
    2*MB, 4*MB, 8*MB, 16*MB, 32*MB, 64*MB, 128*MB, 256*MB]

def chaseWarmup : Nat := 100000
def accesses : Nat := 10000000

/-- The warmup and the measurement on a chain of `size` bytes. The loop that builds the
chain starts from `n - 1`, which wraps for an empty one. -/
def chaseThrough (rng : Nat → Word) (size : Nat) : Option Unit :=
  if hn : 0 < size / 8 then do
    let chain := buildChain rng hn
    let _ ← chase chain 0 chaseWarmup
    let _ ← chase chain 0 accesses
    some ⟨⟩
  else
    none

def runCacheHierarchy (rng : Nat → Word) : Option Unit := sizes.forM (chaseThrough rng)

/-- `std::vector<uint64_t> data(n, 1);` and the two passes. -/
def runSequentialVsRandom (rng : Nat → Word) : Option Unit := do
  let data : Vector Word (64 * MB / 8) := Vector.replicate _ 1
  let _ ← sequential data accesses
  let _ ← random data rng accesses
  some ⟨⟩

/-- `CacheLineBenchmark::run` -/
def run (counting : Counting) (affinity : Finset CInt) (rng : Nat → Word) : Suite Unit := do
  Process.report (.header .cache)
  runFalseSharing counting affinity
  let _ ← Process.require (runCacheHierarchy rng)
  let _ ← Process.require (runSequentialVsRandom rng)
  pure ⟨⟩

/-- The lines of the false sharing test. -/
def counterLines (counting : Counting) : List Report :=
  [.secondCore (getSecondCore counting.hardwareConcurrency),
    describe countersPacked counting.packed, describe countersPadded counting.padded]

/-- Both counter tests return, under every scheduler. -/
theorem runFalseSharing_spec (counting : Counting) (affinity : Finset CInt) :
    Contract (Process.At mapped mmaps output) (runFalseSharing counting affinity)
      (fun _ => Process.At mapped mmaps (output ++ counterLines counting)) E := by
  obtain ⟨packed, _, hpacked, _⟩ := finishCounterTest_spec countersPacked increments
    (placement affinity counting.hardwareConcurrency counting.packedThreads.pinned)
    counting.packedThreads.named counting.packed
  obtain ⟨padded, _, hpadded, _⟩ := finishCounterTest_spec countersPadded increments
    (placement affinity counting.hardwareConcurrency counting.paddedThreads.pinned)
    counting.paddedThreads.named counting.padded
  refine (Process.report_spec _).bind fun _ => (Process.report_spec _).bind fun _ =>
    (Process.report_spec _).bind fun _ => ?_
  refine Process.require_bind hpacked (Process.require_bind hpadded (Contract.pure fun p hp => ?_))
  simpa [counterLines] using hp

/-- The chase stays on the cycle that was built. -/
theorem chaseThrough_eq (rng : Nat → Word) {size : Nat} (hsize : 8 ≤ size) :
    chaseThrough rng size = some ⟨⟩ := by
  have hn : 0 < size / 8 := Nat.div_pos hsize (by decide)
  have hchase : ∀ steps, ∃ idx, chase (buildChain rng hn) 0 steps = some idx := fun steps =>
    ⟨_, (chase_eq (holds_chainOf (drawn rng _) hn) (isCycleOn_choices (drawn rng _) hn).1.mapsTo
      hn steps).2⟩
  obtain ⟨warm, hwarm⟩ := hchase chaseWarmup
  obtain ⟨idx, hidx⟩ := hchase accesses
  rw [chaseThrough, dif_pos hn]
  simp only [hwarm, hidx, Option.bind_eq_bind, Option.bind_some]

theorem runCacheHierarchy_eq (rng : Nat → Word) : runCacheHierarchy rng = some ⟨⟩ := by
  have hsizes : ∀ size ∈ sizes, 8 ≤ size := by decide
  exact forM_eq_some fun size hsize => chaseThrough_eq rng (hsizes size hsize)

theorem runSequentialVsRandom_eq (rng : Nat → Word) : runSequentialVsRandom rng = some ⟨⟩ := by
  have hn : 1 ≤ 64 * MB / 8 := by decide
  rw [runSequentialVsRandom, sequential_eq _ hn, random_eq _ hn]
  rfl

theorem run_spec (counting : Counting) (affinity : Finset CInt) (rng : Nat → Word) :
    Contract (Process.At mapped mmaps output) (run counting affinity rng)
      (fun _ => Process.At mapped mmaps (output ++ .header .cache :: counterLines counting)) E := by
  refine (Process.report_spec _).bind fun _ => (runFalseSharing_spec counting affinity).bind
    fun _ => ?_
  refine Process.require_bind (runCacheHierarchy_eq rng)
    (Process.require_bind (runSequentialVsRandom_eq rng) (Contract.pure fun p hp => ?_))
  simpa using hp

end CacheLineBenchmark

/-! ### Branches -/

namespace BranchBenchmark

open Branchless SortedBranches

def N : Nat := 32768
def iterations : Nat := 1000

/-- `for (auto& v : data) v = dist(rng);` -/
def draw (values : Nat → {v : CInt // Drawn v}) : List CInt :=
  (List.range N).map fun i => (values i).val

/-- `run_sorted_vs_unsorted` on its data. -/
def runSortedData (data : List CInt) : Option Unit := do
  let _ ← runSortedVsUnsorted data iterations
  some ⟨⟩

def runBranchyVsBranchless (data : List CInt) : Option Unit := do
  let _ ← branchy data iterations 0
  let _ ← branchless data iterations 0
  some ⟨⟩

/-- `BranchBenchmark::run`; both tests draw their data from a generator of the same seed. -/
def run (values : Nat → {v : CInt // Drawn v}) : Suite Unit := do
  Process.report (.header .branch)
  let _ ← Process.require (runSortedData (draw values))
  let _ ← Process.require (runBranchyVsBranchless (draw values))
  pure ⟨⟩

theorem drawn_of_mem_draw {values : Nat → {v : CInt // Drawn v}} :
    ∀ v ∈ draw values, Drawn v := by
  intro v hv
  obtain ⟨i, _, rfl⟩ := List.mem_map.mp hv
  exact (values i).property

theorem runSortedData_eq {data : List CInt} (hdata : ∀ v ∈ data, Drawn v) :
    runSortedData data = some ⟨⟩ := by
  have hproduct : ∀ v ∈ data, 3 * v.toInt < 2 ^ 31 := fun v hv => by
    have hdrawn := (hdata v hv).2
    omega
  obtain ⟨_, _, hrun⟩ := exists_runSortedVsUnsorted hproduct iterations
  rw [runSortedData, hrun]
  rfl

theorem runBranchyVsBranchless_eq {data : List CInt} (hdata : ∀ v ∈ data, Drawn v) :
    runBranchyVsBranchless data = some ⟨⟩ := by
  rw [runBranchyVsBranchless, branchy_eq hdata, branchless_eq hdata]
  rfl

theorem run_spec (values : Nat → {v : CInt // Drawn v}) :
    Contract (Process.At mapped mmaps output) (run values)
      (fun _ => Process.At mapped mmaps (output ++ [.header .branch])) E := by
  refine (Process.report_spec _).bind fun _ => ?_
  refine Process.require_bind (runSortedData_eq drawn_of_mem_draw) ?_
  exact Process.require_bind (runBranchyVsBranchless_eq drawn_of_mem_draw)
    (Contract.pure fun _ hp => hp)

end BranchBenchmark

/-! ### Access patterns -/

namespace AccessPatternBenchmark

open Layouts

def counts : List Nat := [10, 100, 1000, 10000, 100000, 1000000]
def iterations : Nat := 100

/-- `for (iter < ITERATIONS) total = pass();` -/
def repeatPass {α : Type} (pass : Option α) : Option Unit :=
  (List.range iterations).forM fun _ => do
    let _ ← pass
    some ⟨⟩

/-- The body of the loop over the counts in the subset test. -/
def subsetCount (n : Nat) : Option Unit := do
  let aos ← fill subsetEntry n
  let soa := SoABook.empty.resize n
  repeatPass (accumulate (fun i => do let e ← aos[i]?; mid e.bidPrice e.askPrice) n)
  repeatPass (accumulate (fun i => do
    let bidPrice ← soa.bidPrices[i]?
    let askPrice ← soa.askPrices[i]?
    mid bidPrice askPrice) n)

/-- The body of the loop over the counts in the full access test. -/
def fullCount (n : Nat) : Option Unit := do
  let aos ← fill fullEntry n
  let soa := SoABook.empty.resize n
  repeatPass (accumulate (fun i => do let e ← aos[i]?; allFields e) n)
  repeatPass (accumulate (fun i => do let e ← soa.entry? i; allFields e) n)

def runSubsetAccess : Option Unit := counts.forM subsetCount

def runFullAccess : Option Unit := counts.forM fullCount

/-- `AccessPatternBenchmark::run` -/
def run : Suite Unit := do
  Process.report (.header .access)
  let _ ← Process.require runSubsetAccess
  let _ ← Process.require runFullAccess
  pure ⟨⟩

theorem repeatPass_eq {α : Type} {pass : Option α} {total : α} (h : pass = some total) :
    repeatPass pass = some ⟨⟩ :=
  forM_eq_some fun _ _ => by rw [h]; rfl

/-- A pass that has a total on the filled array has it in every repetition. -/
theorem bothPasses_eq {α : Type} {filled : Option (List AoSEntry)}
    {passAoS : List AoSEntry → Option α} {passSoA : Option α} {totalAoS totalSoA : α}
    (haos : filled.bind passAoS = some totalAoS) (hsoa : passSoA = some totalSoA) :
    (filled.bind fun aos => (repeatPass (passAoS aos)).bind fun _ => repeatPass passSoA) =
      some ⟨⟩ := by
  obtain ⟨aos, rfl, hpass⟩ := Option.bind_eq_some_iff.mp haos
  rw [Option.bind_some, repeatPass_eq hpass, Option.bind_some, repeatPass_eq hsoa]

theorem subsetCount_eq {n : Nat} (hn : n ≤ 2 ^ 58) : subsetCount n = some ⟨⟩ := by
  have haos := subsetTotalAoS_eq hn
  have hsoa := subsetTotalSoA_eq (.ofNat 64 n)
  rw [subsetTotalAoS, toNat_count hn] at haos
  rw [subsetTotalSoA, toNat_count hn] at hsoa
  exact bothPasses_eq haos hsoa

theorem fullCount_eq {n : Nat} (hn : n ≤ 2 ^ 58) : fullCount n = some ⟨⟩ := by
  have haos := fullTotalAoS_eq hn
  have hsoa := fullTotalSoA_eq (.ofNat 64 n)
  rw [fullTotalAoS, toNat_count hn] at haos
  rw [fullTotalSoA, toNat_count hn] at hsoa
  exact bothPasses_eq haos hsoa

theorem run_spec :
    Contract (Process.At mapped mmaps output) run
      (fun _ => Process.At mapped mmaps (output ++ [.header .access])) E := by
  have hcounts : ∀ n ∈ counts, n ≤ 2 ^ 58 := by decide
  refine (Process.report_spec _).bind fun _ => ?_
  refine Process.require_bind (forM_eq_some fun n hn => subsetCount_eq (hcounts n hn)) ?_
  exact Process.require_bind (forM_eq_some fun n hn => fullCount_eq (hcounts n hn))
    (Contract.pure fun _ hp => hp)

end AccessPatternBenchmark

/-! ### Prefetching -/

namespace PrefetchBenchmark

open LinkedList StridedAccess

def numNodes : Nat := 1000000
def listWarmup : Nat := 100000
def traversals : Nat := 2000000

/-- The list and its three traversals. -/
def traverseThrice {N : Nat} (shuffled : ShuffledOrder N) (nodes : Vector Node N)
    (warmup steps : Nat) : Option Unit := do
  let nodes ← buildList shuffled.order nodes
  let _ ← traverse noAhead shuffled.order nodes warmup steps
  let _ ← traverse oneAhead shuffled.order nodes warmup steps
  let _ ← traverse twoAhead shuffled.order nodes warmup steps
  some ⟨⟩

/-- `run_linked_list_traversal`, on what `std::shuffle` leaves in `order`. -/
def runLinkedListTraversal (shuffled : ShuffledOrder numNodes) : Option Unit :=
  traverseThrice shuffled (Vector.replicate _ ⟨none, Vector.replicate 7 0⟩) listWarmup traversals

/-- `SIZE / sizeof(uint64_t)` -/
def n : Word := BitVec.ofNat 64 (64 * MB / 8)

def strides : List Word := [1, 8, 16, 64, 256, 1024, 4096]
def accesses : Nat := 2000000

/-- The two walks with a stride, over `std::vector<uint64_t> data(n, 1);` -/
def walkBoth (stride : Word) : Option Unit := do
  let data : Vector Word n.toNat := Vector.replicate _ 1
  let _ ← runPlain data stride accesses
  let _ ← runPrefetch data stride accesses
  some ⟨⟩

def runStridedAccess : Option Unit := strides.forM walkBoth

/-- `PrefetchBenchmark::run` -/
def run (shuffled : ShuffledOrder numNodes) : Suite Unit := do
  Process.report (.header .prefetch)
  let _ ← Process.require (runLinkedListTraversal shuffled)
  let _ ← Process.require runStridedAccess
  pure ⟨⟩

theorem traverseThrice_eq {N : Nat} (hN : 1 ≤ N) (shuffled : ShuffledOrder N)
    (nodes : Vector Node N) (warmup steps : Nat) :
    traverseThrice shuffled nodes warmup steps = some ⟨⟩ := by
  obtain ⟨linked, hbuild, hlinked⟩ := shuffled.buildList_linked hN nodes
  have hplain : ∃ r, traverse noAhead shuffled.order linked warmup steps = some r :=
    ⟨_, shuffled.traverse_eq hN hlinked (fun _ => rfl) warmup steps⟩
  have hone : ∃ r, traverse oneAhead shuffled.order linked warmup steps = some r :=
    ⟨_, shuffled.traverse_eq hN hlinked (fun _ => rfl) warmup steps⟩
  obtain ⟨_, hplain⟩ := hplain
  obtain ⟨_, hone⟩ := hone
  have htwo := shuffled.traverse_eq hN hlinked (shuffled.twoAhead_withSuccessor hN hlinked) warmup
    steps
  simp only [traverseThrice, hbuild, hplain, hone, htwo, Option.bind_eq_bind, Option.bind_some]

theorem runLinkedListTraversal_eq (shuffled : ShuffledOrder numNodes) :
    runLinkedListTraversal shuffled = some ⟨⟩ :=
  traverseThrice_eq (by decide) shuffled _ _ _

theorem runStridedAccess_eq : runStridedAccess = some ⟨⟩ := by
  have hn : 1 ≤ n.toNat ∧ n.toNat ≤ 2 ^ 23 := by decide
  have hstrides : ∀ stride ∈ strides, stride.toNat ≤ 4096 := by simp [strides]
  refine forM_eq_some fun stride hmem => ?_
  have hstride : n.toNat - 1 + stride.toNat < 2 ^ 64 := by have := hstrides stride hmem; omega
  simp only [walkBoth, runPlain_eq _ hn.1 hstride, runPrefetch_eq _ hn.1 hstride,
    Option.bind_eq_bind, Option.bind_some]

theorem run_spec (shuffled : ShuffledOrder numNodes) :
    Contract (Process.At mapped mmaps output) (run shuffled)
      (fun _ => Process.At mapped mmaps (output ++ [.header .prefetch])) E := by
  refine (Process.report_spec _).bind fun _ => ?_
  exact Process.require_bind (runLinkedListTraversal_eq shuffled)
    (Process.require_bind runStridedAccess_eq (Contract.pure fun _ hp => hp))

end PrefetchBenchmark

/-! ### Allocators -/

namespace AllocatorBenchmark

def objectSize : Word := 64
def numAllocs : Nat := 1000000
def batchSize : Nat := 100
def numBatches : Nat := 10000

/-- Both pools have room for a million objects, `NUM_ALLOCS` and `TOTAL_ALLOCS`. -/
def poolShape : PoolShape := ⟨objectSize, 1000000, by decide, by decide, by decide⟩

/-- What `malloc` answers in a test: for its objects, for the pool and for the arena. Only
the block of the pool has to be there. -/
structure Mallocs (shape : PoolShape) where
  objects : Nat → Nat
  pool : Heap shape.bytes
  arena : Nat

/-- The times that the clock gives for the batches of the jitter test, and the operations of
`double` on them. -/
structure Clock where
  arithmetic : Arithmetic ℚ
  mallocTimes : Nat → ℚ
  poolTimes : Nat → ℚ
  arenaTimes : Nat → ℚ

/-- Each allocator fills the vector `ptrs` once, the arena with its room for `ptrs`. -/
def fillOnce {shape : PoolShape} (mallocs : Mallocs shape) (count : Nat) : Option Unit := do
  let ptrs : Vector Nat count := Vector.replicate _ 0
  let (_, ptrs) ← MallocBatches.batch mallocs.objects ⟨ptrs, [], 0⟩
  let (pool, heap) ← PoolAllocator.new shape.objectSize shape.count mallocs.pool
  let (_, ptrs) ← PoolBatches.batch ⟨ptrs, pool, heap⟩
  let arena := ArenaAllocator.new (shape.objectSize * BitVec.ofNat 64 count) mallocs.arena
  let _ ← ArenaBatches.batch shape.objectSize ⟨ptrs, arena⟩
  some ⟨⟩

/-- Each allocator fills the vector `ptrs` once for each batch. -/
def fillBatches {shape : PoolShape} (mallocs : Mallocs shape) (count batches : Nat) :
    Option Unit := do
  let ptrs : Vector Nat count := Vector.replicate _ 0
  let (s, _) ← countedLoop (MallocBatches.batch mallocs.objects) batches ⟨ptrs, [], 0⟩
  let (pool, heap) ← PoolAllocator.new shape.objectSize shape.count mallocs.pool
  let (s, _) ← countedLoop PoolBatches.batch batches ⟨s.ptrs, pool, heap⟩
  let arena := ArenaAllocator.new (shape.objectSize * BitVec.ofNat 64 count) mallocs.arena
  let _ ← countedLoop (ArenaBatches.batch shape.objectSize) batches ⟨s.ptrs, arena⟩
  some ⟨⟩

/-- The three calls of `compute_stats`. -/
def summarize (clock : Clock) (batches : Nat) : Option Unit := do
  let _ ← computeStats clock.arithmetic ((List.range batches).map clock.mallocTimes)
  let _ ← computeStats clock.arithmetic ((List.range batches).map clock.poolTimes)
  let _ ← computeStats clock.arithmetic ((List.range batches).map clock.arenaTimes)
  some ⟨⟩

def runAllocationSpeed (mallocs : Mallocs poolShape) : Option Unit := fillOnce mallocs numAllocs

def runAllocationJitter (mallocs : Mallocs poolShape) (clock : Clock) : Option Unit := do
  fillBatches mallocs batchSize numBatches
  summarize clock numBatches

/-- `AllocatorBenchmark::run` -/
def run (speed jitter : Mallocs poolShape) (clock : Clock) : Suite Unit := do
  Process.report (.header .alloc)
  let _ ← Process.require (runAllocationSpeed speed)
  let _ ← Process.require (runAllocationJitter jitter clock)
  pure ⟨⟩

section

variable {shape : PoolShape} (mallocs : Mallocs shape) {count : Nat}
  (hcount : count ≤ shape.count.toNat)
  (hcapacity : (shape.objectSize * BitVec.ofNat 64 count).toNat ≤ 2 ^ 63 - 1)
  (hsize : alignUp 8 shape.objectSize.toNat ≤ 2 ^ 63)

include hcount hcapacity hsize

theorem fillOnce_eq : fillOnce mallocs count = some ⟨⟩ := by
  obtain ⟨_, ptrs, hmalloc, _⟩ := MallocBatches.batch_spec mallocs.objects
    (MallocBatches.between_new (Vector.replicate count 0))
  obtain ⟨pool, heap, hnew, hstart⟩ := PoolBatches.atBatch_new mallocs.pool hcount ptrs
  obtain ⟨_, ptrs', hpool, _⟩ := hstart.step
  obtain ⟨_, _, harena, _⟩ :=
    (ArenaBatches.fresh_new _ mallocs.arena ptrs').batch hcapacity hsize
  simp only [fillOnce, hmalloc, hnew, hpool, harena, Option.bind_eq_bind, Option.bind_some]

theorem fillBatches_eq (batches : Nat) : fillBatches mallocs count batches = some ⟨⟩ := by
  obtain ⟨s, _, hmalloc, _⟩ := MallocBatches.batches_spec mallocs.objects batches
    (MallocBatches.between_new (Vector.replicate count 0))
  obtain ⟨pool, heap, hnew, hstart⟩ := PoolBatches.atBatch_new mallocs.pool hcount s.ptrs
  obtain ⟨s', _, hpool, _⟩ := hstart.batches batches
  obtain ⟨_, _, harena, _⟩ :=
    (ArenaBatches.fresh_new _ mallocs.arena s'.ptrs).batches hcapacity hsize batches
  simp only [fillBatches, hmalloc, hnew, hpool, harena, Option.bind_eq_bind, Option.bind_some]

end

/-- The statistics are defined if there is a batch. -/
theorem summarize_eq (clock : Clock) {batches : Nat} (hpos : 0 < batches)
    (hbatches : batches < 2 ^ 40) : summarize clock batches = some ⟨⟩ := by
  have hstats : ∀ times : Nat → ℚ, ∃ r,
      computeStats clock.arithmetic ((List.range batches).map times) = some r := by
    intro times
    have hlength : ((List.range batches).map times).length = batches := by
      rw [List.length_map, List.length_range]
    have hne : (List.range batches).map times ≠ [] :=
      List.ne_nil_of_length_pos (by rw [hlength]; exact hpos)
    obtain ⟨s, hrun, _⟩ :=
      exists_computeStats clock.arithmetic hne (by rw [hlength]; exact hbatches)
    exact ⟨_, hrun⟩
  obtain ⟨_, hmalloc⟩ := hstats clock.mallocTimes
  obtain ⟨_, hpool⟩ := hstats clock.poolTimes
  obtain ⟨_, harena⟩ := hstats clock.arenaTimes
  simp only [summarize, hmalloc, hpool, harena, Option.bind_eq_bind, Option.bind_some]

theorem runAllocationSpeed_eq (mallocs : Mallocs poolShape) :
    runAllocationSpeed mallocs = some ⟨⟩ :=
  fillOnce_eq mallocs (by decide) (by decide) (by decide)

theorem runAllocationJitter_eq (mallocs : Mallocs poolShape) (clock : Clock) :
    runAllocationJitter mallocs clock = some ⟨⟩ := by
  rw [runAllocationJitter, fillBatches_eq mallocs (by decide) (by decide) (by decide)]
  exact summarize_eq clock (by decide) (by decide)

theorem run_spec (speed jitter : Mallocs poolShape) (clock : Clock) :
    Contract (Process.At mapped mmaps output) (run speed jitter clock)
      (fun _ => Process.At mapped mmaps (output ++ [.header .alloc])) E := by
  refine (Process.report_spec _).bind fun _ => ?_
  exact Process.require_bind (runAllocationSpeed_eq speed)
    (Process.require_bind (runAllocationJitter_eq jitter clock) (Contract.pure fun _ hp => hp))

end AllocatorBenchmark

end

end HwBench
