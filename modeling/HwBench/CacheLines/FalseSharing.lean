import HwBench.CacheLines.CounterTest
import HwBench.Constants
import HwBench.Machine.Granule

/-!
# The cache lines of the counter test

The two layouts do the same work, in every schedule. They differ in the cache lines that
the threads write.
-/

namespace HwBench

open Machine

namespace FalseSharing

/-! ### Cache lines -/

/-- The thread of counter `m` has written into this cache line. -/
def WritesLine {size : Nat} (s : TestState size) (m : Member) (line : Nat) : Prop :=
  ∃ span, (m, span) ∈ s.writes ∧ line ∈ span.granules cacheLineSize

/-- Both threads have written into one cache line. -/
def SharedLine {size : Nat} (s : TestState size) : Prop :=
  ∃ line, ∀ m, WritesLine s m line

section Lines

variable {c : Counters} {iterations : CInt} {place : Placement} {h : Heap c.size}

theorem sharedLine_iff {schedule : List Thread} {s : TestState c.size}
    (hrun : runCounterTest c iterations place h schedule = some s) :
    SharedLine s ↔ (∀ m, 0 < (s.workers m).increments iterations) ∧
      ∃ line, ∀ m, line ∈ (c.cellAt h.base m).granules cacheLineSize := by
  obtain ⟨h₀, _, hbase, hs, _⟩ := consistent_of_run hrun
  have hwritten := hs.written
  rw [hbase] at hwritten
  constructor
  · rintro ⟨line, hline⟩
    refine ⟨fun m => ?_, line, fun m => ?_⟩
    · obtain ⟨span, hspan, _⟩ := hline m
      exact ((hwritten m span).mp hspan).2
    · obtain ⟨span, hspan, hmem⟩ := hline m
      rwa [((hwritten m span).mp hspan).1] at hmem
  · rintro ⟨hpos, line, hline⟩
    exact ⟨line, fun m => ⟨_, (hwritten m _).mpr ⟨rfl, hpos m⟩, hline m⟩⟩

end Lines

/-- A word that is aligned lies in one cache line. -/
theorem granules_word {start : Nat} (halign : 8 ∣ start) :
    Span.granules cacheLineSize ⟨start, ptrBytes⟩ = {start / 64} :=
  Granule.granules_aligned (Nat.succ_pos 7) halign (by decide) (by decide)

/-- The cores that `run_counter_test` asks for. -/
def coresOf (hardwareConcurrency : BitVec 32) : Member → CInt
  | .a => 0
  | .b => getSecondCore hardwareConcurrency

theorem coresOf_ne_iff (hardwareConcurrency : BitVec 32) :
    coresOf hardwareConcurrency .a ≠ coresOf hardwareConcurrency .b ↔
      2 ≤ hardwareConcurrency.toInt := by
  have htwo : (0 : CInt) ≠ 2 := by decide
  have hone : (0 : CInt) ≠ 1 := by decide
  simp only [coresOf, getSecondCore]
  split
  · next hmany => exact ⟨fun _ => by omega, fun _ => htwo⟩
  · split
    · next hpair => exact ⟨fun _ => hpair, fun _ => hone⟩
    · next hsingle => exact ⟨fun hne => absurd rfl hne, fun hpair => absurd hpair hsingle⟩

/-- The workers of `run_counter_test`, by the answers to their calls of `pin_to_core`. -/
def placement (inherited : Finset CInt) (hardwareConcurrency : BitVec 32)
    (pinned : Member → Bool) : Placement where
  inherited
  cores := coresOf hardwareConcurrency
  pinned

theorem mask_placement (inherited : Finset CInt) (hardwareConcurrency : BitVec 32)
    (pinned : Member → Bool) (m : Member) :
    (placement inherited hardwareConcurrency pinned).mask m =
      if pinned m then {coresOf hardwareConcurrency m} else inherited :=
  Placement.mask_eq _ m

/-- The workers are kept apart by the second call if the first one has succeeded, or if
the calling thread runs on the core that the first one asks for. -/
theorem disjoint_mask_iff {inherited : Finset CInt} {hardwareConcurrency : BitVec 32}
    {pinned : Member → Bool} (h : (pinned .a ∧ pinned .b) ∨ inherited = {0}) :
    Disjoint ((placement inherited hardwareConcurrency pinned).mask .a)
        ((placement inherited hardwareConcurrency pinned).mask .b) ↔
      pinned .b ∧ 2 ≤ hardwareConcurrency.toInt := by
  have ha : (if pinned .a then {coresOf hardwareConcurrency .a} else inherited) = {0} := by
    obtain ⟨ha, _⟩ | hmain := h
    · exact if_pos ha
    · split
      · rfl
      · exact hmain
  rw [mask_placement, mask_placement, ha, Finset.disjoint_singleton_left]
  cases hb : pinned .b with
  | true =>
      rw [if_pos rfl, Finset.mem_singleton, ← coresOf_ne_iff]
      exact ⟨fun hne => ⟨rfl, hne⟩, fun hne => hne.2⟩
  | false =>
      have hmain := h.resolve_left fun hboth => by simp [hb] at hboth
      simp [hmain]

/-- The padded counters never share a cache line, in whatever order the threads move.
The packed ones share one as soon as both have been incremented, unless a line ends
between them. A thread whose call of `pin_to_core` fails stays on the cores of the calling
thread. If both calls succeed, or the calling thread runs on core 0 only, the threads have
no core in common exactly if the second call succeeds and there are two cores. -/
theorem false_sharing (iterations : CInt) (hardwareConcurrency : BitVec 32)
    (inherited : Finset CInt) (pinned : Member → Bool) (schedule : List Thread) :
    let place := placement inherited hardwareConcurrency pinned
    (∀ (h : Heap countersPadded.size) (s : TestState countersPadded.size), 64 ∣ h.base →
      runCounterTest countersPadded iterations place h schedule = some s → ¬SharedLine s) ∧
    (∀ (h : Heap countersPacked.size) (s : TestState countersPacked.size), 8 ∣ h.base →
      runCounterTest countersPacked iterations place h schedule = some s →
        (SharedLine s ↔
          (∀ m, 0 < (s.workers m).increments iterations) ∧ h.base % 64 ≠ 56)) ∧
    ∀ (c : Counters) (h : Heap c.size) (s : TestState c.size),
      runCounterTest c iterations place h schedule = some s → s.main = .done →
        (∀ m, s.affinity m =
          if pinned m then {coresOf hardwareConcurrency m} else inherited) ∧
        ((pinned .a ∧ pinned .b) ∨ inherited = {0} →
          (Disjoint (s.affinity .a) (s.affinity .b) ↔
            pinned .b ∧ 2 ≤ hardwareConcurrency.toInt)) := by
  intro place
  refine ⟨fun h s halign hrun hshared => ?_, fun h s halign hrun => ?_, fun c h s hrun hmain => ?_⟩
  · obtain ⟨_, line, hline⟩ := (sharedLine_iff hrun).mp hshared
    have ha := hline .a
    have hb := hline .b
    have hword : ∀ m, countersPadded.cellAt h.base m =
        ⟨h.base + (countersPadded.cell m).start, ptrBytes⟩ := fun m => by cases m <;> rfl
    rw [hword, granules_word (Nat.dvd_add ((Nat.dvd_trans (by decide) halign)) (by decide)),
      Finset.mem_singleton] at ha hb
    simp only [Counters.cell, countersPadded] at ha hb
    omega
  · rw [sharedLine_iff hrun]
    refine and_congr_right fun _ => ?_
    have hword : ∀ m, countersPacked.cellAt h.base m =
        ⟨h.base + (countersPacked.cell m).start, ptrBytes⟩ := fun m => by cases m <;> rfl
    have hdvd : ∀ m, 8 ∣ h.base + (countersPacked.cell m).start :=
      fun m => Nat.dvd_add halign (by cases m <;> decide)
    simp only [hword, granules_word (hdvd _), Finset.mem_singleton]
    constructor
    · rintro ⟨line, hline⟩
      have ha := hline .a
      have hb := hline .b
      simp only [Counters.cell, countersPacked] at ha hb
      omega
    · intro hfits
      refine ⟨h.base / 64, fun m => ?_⟩
      cases m <;> simp only [Counters.cell, countersPacked] <;> omega
  · have haffinity := fun m => (done_spec hrun hmain m).1
    refine ⟨fun m => (haffinity m).trans (mask_placement _ _ _ m), fun hmask => ?_⟩
    rw [haffinity, haffinity]
    exact disjoint_mask_iff hmask

/-- Two packed words at the start of a line, on eight cores. The first call fails, but the
thread stays on core 0, where the calling thread runs. -/
theorem false_sharing_packed : ∃ s,
    runCounterTest countersPacked 1 (placement {0} 8 fun m => m = .b) packedObject alternation =
        some s ∧
      SharedLine s ∧ s.affinity .a = {0} ∧ s.affinity .b = {2} ∧
      Disjoint (s.affinity .a) (s.affinity .b) := by
  have hworkers : (runCounterTest countersPacked 1 (placement {0} 8 fun m => m = .b) packedObject
      alternation).map (fun s => (s.main, s.workers .a, s.workers .b)) =
        some (.done, .returned, .returned) := by decide +kernel
  obtain ⟨s, hrun, hs⟩ := Option.map_eq_some_iff.mp hworkers
  obtain ⟨hmain, hs⟩ := Prod.mk.inj hs
  obtain ⟨ha, hb⟩ := Prod.mk.inj hs
  obtain ⟨_, hpacked, hplaced⟩ := false_sharing 1 8 {0} (fun m => m = .b) alternation
  obtain ⟨haffinity, hdisjoint⟩ := hplaced countersPacked packedObject s hrun hmain
  have hshared := (hpacked packedObject s (by decide) hrun).mpr
  refine ⟨s, hrun, hshared ⟨fun m => ?_, by decide⟩, haffinity .a, haffinity .b,
    (hdisjoint (.inr rfl)).mpr (by decide)⟩
  cases m
  · rw [ha]
    decide
  · rw [hb]
    decide

end FalseSharing
end HwBench
