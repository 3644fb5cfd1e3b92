import HwBench.Machine.Granule
import HwBench.Suite.RandomReads

/-!
# The TLB test

The same random reads are made of a buffer of regular pages and of one of huge pages.
The buffer of regular pages is given back before the other one is mapped. The two
measurements read the same offsets, so a huge page stands for at most 512 of the
regular pages, and for no fewer than one.
-/

namespace HwBench.TlbBenchmark

open Machine Effect Granule

def bufferSize : Nat := 256 * MB
def numAccesses : Nat := 10000000
def warmup : Nat := 100000

/-- `TlbBenchmark::run` -/
def run (os : Os) (rng : Nat → Word) : Suite Unit := do
  Process.report (.header .tlb)
  let indices := randomIndices rng numAccesses (bufferSize / 8)
  let regular ← allocPages os .regular bufferSize
  if regular = 0 then
    Process.report (.allocationFailed .regular)
  else
    measureAndFree (.pages .regular) regular bufferSize indices warmup numAccesses
    let huge ← allocPages os .huge bufferSize
    if huge = 0 then
      Process.report (.allocationFailed .huge)
    else
      measureAndFree (.pages .huge) huge bufferSize indices warmup numAccesses

/-- The measurement of a buffer: all its words are zero. -/
def measured (rng : Nat → Word) (pages : Pages) (data : Nat) : Report :=
  .measured (.pages pages) 0 (readAddrs rng numAccesses data bufferSize)

/-- What the test prints after its header, given the answers to its two allocations. -/
def results (rng : Nat → Word) : Option Nat → Option Nat → List Report
  | none, _ => [.allocationFailed .regular]
  | some regular, none => [measured rng .regular regular, .allocationFailed .huge]
  | some regular, some huge => [measured rng .regular regular, measured rng .huge huge]

section

variable {mapped : List Span} {mmaps : Nat} {output : List Report}
  {E : Stop NumaBenchmark.Fault → Process Report → Prop}

theorem measurePages_spec (rng : Nat → Word) (pages : Pages) (data : Nat) :
    Contract (Process.At (⟨data, bufferSize⟩ :: mapped) mmaps output)
      (measureAndFree (.pages pages) data bufferSize
        (randomIndices rng numAccesses (bufferSize / 8)) warmup numAccesses)
      (fun _ => Process.At mapped mmaps (output ++ [measured rng pages data])) E := by
  have hwarmup : warmup ≤ numAccesses := by unfold warmup numAccesses; omega
  exact measureAndFree_spec (.pages pages) (by decide) hwarmup

/-- The test gives back what it maps on every path, and prints its results. -/
theorem run_spec (os : Os) (rng : Nat → Word) :
    Contract (Process.At mapped mmaps output) (run os rng)
      (fun _ p => ∃ calls, Process.At mapped (mmaps + calls) (output ++ .header .tlb ::
        results rng (os.mmap .regular mmaps) (os.mmap .huge (mmaps + 1))) p) E := by
  refine (Process.report_spec _).bind fun _ => allocPages_bind ?_ ?_
  · intro hregular
    rw [if_pos rfl, hregular]
    refine (Process.report_spec _).weaken (fun p hp => hp) fun _ p hp => ⟨1, ?_⟩
    simpa [results] using hp
  · intro regular hne hregular
    rw [if_neg hne, hregular]
    refine (measurePages_spec rng .regular regular).bind fun _ => allocPages_bind ?_ ?_
    · intro hhuge
      rw [if_pos rfl, hhuge]
      refine (Process.report_spec _).weaken (fun p hp => hp) fun _ p hp => ⟨2, ?_⟩
      simpa [results] using hp
    · intro huge hne' hhuge
      rw [if_neg hne', hhuge]
      refine (measurePages_spec rng .huge huge).weaken (fun p hp => hp) fun _ p hp => ⟨2, ?_⟩
      simpa [results] using hp

end

/-! ### Pages -/

/-- The reads of a buffer as accesses, given by their offsets. -/
def readSpans (rng : Nat → Word) : List Span :=
  (randomIndices rng numAccesses (bufferSize / 8)).map fun idx => ⟨8 * idx, 8⟩

/-- The pages of a given size that words at the addresses lie in. -/
def pagesOf (pageSize : Nat) (reads : List Nat) : Finset Nat :=
  touched pageSize (reads.map fun a => ⟨a, 8⟩)

theorem card_pagesOf_readAddrs {pageSize : Nat} (hpage : 0 < pageSize) {data : Nat}
    (hdata : pageSize ∣ data) (rng : Nat → Word) :
    (pagesOf pageSize (readAddrs rng numAccesses data bufferSize)).card =
      (touched pageSize (readSpans rng)).card := by
  obtain ⟨base, rfl⟩ := hdata
  rw [← card_touched_shift hpage base, pagesOf, readAddrs, readSpans, List.map_map, List.map_map,
    Nat.mul_comm]
  rfl

theorem mem_readSpans {rng : Nat → Word} {s : Span} (h : s ∈ readSpans rng) :
    ∃ idx, idx < bufferSize / 8 ∧ s = ⟨8 * idx, 8⟩ := by
  obtain ⟨idx, hidx, rfl⟩ := List.mem_map.mp h
  exact ⟨idx, lt_of_mem_randomIndices (by decide) hidx, rfl⟩

theorem end_le_of_mem_readSpans {rng : Nat → Word} {s : Span} (h : s ∈ readSpans rng) :
    s.start + s.size ≤ bufferSize := by
  obtain ⟨idx, hidx, rfl⟩ := mem_readSpans h
  change 8 * idx + 8 ≤ bufferSize
  omega

theorem length_readSpans (rng : Nat → Word) : (readSpans rng).length = numAccesses := by
  rw [readSpans, List.length_map, length_randomIndices]

/-- The pages that the two measurements read, on aligned buffers. -/
theorem card_pages_bounds (rng : Nat → Word) {regular huge : Nat} (hregular : pageSize4K ∣ regular)
    (hhuge : pageSize2M ∣ huge) :
    let pages4K := (pagesOf pageSize4K (readAddrs rng numAccesses regular bufferSize)).card
    let pages2M := (pagesOf pageSize2M (readAddrs rng numAccesses huge bufferSize)).card
    pages2M ≤ pages4K ∧ pages4K ≤ 512 * pages2M ∧ pages4K ≤ min numAccesses 65536 ∧
      pages2M ≤ 128 := by
  intro pages4K pages2M
  have h4K : pages4K = (touched pageSize4K (readSpans rng)).card :=
    card_pagesOf_readAddrs (by decide) hregular rng
  have h2M : pages2M = (touched pageSize2M (readSpans rng)).card :=
    card_pagesOf_readAddrs (by decide) hhuge rng
  rw [h4K, h2M]
  obtain ⟨hle, hge⟩ := card_touched_mul (g := pageSize4K) (k := 512) (by decide) (readSpans rng)
  refine ⟨hle, hge, le_min ?_ ?_, ?_⟩
  · refine (card_touched_le_length fun s hs => ?_).trans (length_readSpans rng).le
    obtain ⟨idx, _, rfl⟩ := mem_readSpans hs
    exact ⟨_, granules_aligned (Nat.succ_pos 7) (Nat.dvd_mul_right 8 idx) (by decide) (by decide)⟩
  · exact card_touched_le (by decide) fun s hs => end_le_of_mem_readSpans hs
  · exact card_touched_le (by decide) fun s hs => end_le_of_mem_readSpans hs

/-- The test keeps no memory, its sums are zero, and its reads are those of the random
indices. On aligned buffers its two measurements touch pages in the ratio that their sizes
allow, and at most 65536 regular and 128 huge ones. -/
theorem run_pages (os : Os) (rng : Nat → Word) (p : Process Report) :
    (∃ p', exec (run os rng) p = (.ok ⟨⟩, p') ∧ p'.mapped = p.mapped ∧
      p'.output = p.output ++ .header .tlb ::
        match os.mmap .regular p.mmaps, os.mmap .huge (p.mmaps + 1) with
        | none, _ => [.allocationFailed .regular]
        | some regular, none =>
            [.measured (.pages .regular) 0 (readAddrs rng numAccesses regular bufferSize),
              .allocationFailed .huge]
        | some regular, some huge =>
            [.measured (.pages .regular) 0 (readAddrs rng numAccesses regular bufferSize),
              .measured (.pages .huge) 0 (readAddrs rng numAccesses huge bufferSize)]) ∧
    ∀ regular huge, pageSize4K ∣ regular → pageSize2M ∣ huge →
      let pages4K := (pagesOf pageSize4K (readAddrs rng numAccesses regular bufferSize)).card
      let pages2M := (pagesOf pageSize2M (readAddrs rng numAccesses huge bufferSize)).card
      pages2M ≤ pages4K ∧ pages4K ≤ 512 * pages2M ∧ pages4K ≤ min numAccesses 65536 ∧
        pages2M ≤ 128 := by
  refine ⟨?_, fun regular huge hregular hhuge => card_pages_bounds rng hregular hhuge⟩
  obtain ⟨_, p', hrun, _, hp'⟩ :=
    (run_spec os rng (E := fun _ _ => False)).exists_exec (⟨rfl, rfl, rfl⟩ : Process.At _ _ _ p)
  refine ⟨p', hrun, hp'.mapped_eq, hp'.output_eq.trans ?_⟩
  cases os.mmap .regular p.mmaps with
  | none => rfl
  | some regular => cases os.mmap .huge (p.mmaps + 1) <;> rfl

/-- Both buffers at an address of 4 MB, read at the same places. -/
theorem run_pages_aligned :
    let os := Os.fixed 4194304 4194304 (by decide) (by decide) fun _ _ _ => true
    let rng := fun k => BitVec.ofNat 64 k
    let reads := readAddrs rng numAccesses 4194304 bufferSize
    (∃ p', exec (run os rng) ⟨fun _ => 0, [], 0, []⟩ = (.ok ⟨⟩, p') ∧ p'.mapped = [] ∧
      p'.output = [.header .tlb, .measured (.pages .regular) 0 reads,
        .measured (.pages .huge) 0 reads]) ∧
      (pagesOf pageSize2M reads).card ≤ (pagesOf pageSize4K reads).card ∧
      (pagesOf pageSize4K reads).card ≤ 512 * (pagesOf pageSize2M reads).card := by
  intro os rng reads
  obtain ⟨hrun, hpages⟩ := run_pages os rng ⟨fun _ => 0, [], 0, []⟩
  obtain ⟨hle, hge, _⟩ := hpages 4194304 4194304 (by decide) (by decide)
  exact ⟨hrun, hle, hge⟩

end HwBench.TlbBenchmark
