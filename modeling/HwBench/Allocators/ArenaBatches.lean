import HwBench.Allocators.Arena
import HwBench.Machine.Loop

/-!
# Batches on an arena

The jitter test calls `allocate` for every entry of a vector of pointers and then
`reset`, over and over. Every batch gets the same pointers: multiples of the rounded
size from the buffer on, as long as they fit, and null from there on.

The test gives the arena the capacity of a batch of unrounded objects. That is enough
for the batch exactly when the size of an object needs no rounding.
-/

namespace HwBench

open Machine

/-- The vector `ptrs` and the arena between two calls of the test. -/
structure ArenaBatches (batchSize : Nat) where
  ptrs : Vector Nat batchSize
  arena : ArenaAllocator

namespace ArenaBatches

variable {batchSize : Nat}

/-- `ptrs[i] = arena.allocate(OBJECT_SIZE);` -/
def allocateEntry (objectSize : Word) (s : ArenaBatches batchSize) (i : Nat) :
    Option (ArenaBatches batchSize) :=
  let (ptr, arena) := s.arena.allocate objectSize
  some { ptrs := s.ptrs.setIfInBounds i ptr, arena }

/-- The body of the loop over the batches, with the pointers that were handed out. -/
def batch (objectSize : Word) (s : ArenaBatches batchSize) :
    Option (ArenaBatches batchSize × Vector Nat batchSize) := do
  let full ← (List.range batchSize).foldlM (allocateEntry objectSize) s
  some ({ full with arena := full.arena.reset }, full.ptrs)

/-- The result of the `i`-th call of a batch. -/
def entry (capacity objectSize buffer i : Nat) : Nat :=
  if (i + 1) * alignUp 8 objectSize ≤ capacity then buffer + i * alignUp 8 objectSize else 0

/-- The arena between two batches. -/
structure Fresh (capacity : Word) (buffer : Nat) (s : ArenaBatches batchSize) : Prop where
  buffer_eq : s.arena.buffer = buffer
  capacity_eq : s.arena.capacity = capacity
  offset_eq : s.arena.offset = 0

theorem fresh_new (capacity : Word) (buffer : Nat) (ptrs : Vector Nat batchSize) :
    Fresh capacity buffer ⟨ptrs, .new capacity buffer⟩ :=
  ⟨rfl, rfl, rfl⟩

/-- The first `n` calls of a batch are done, and `granted` of them succeeded: all of them,
or as many as fit. -/
structure Filling (capacity objectSize : Word) (buffer granted n : Nat)
    (s : ArenaBatches batchSize) : Prop where
  buffer_eq : s.arena.buffer = buffer
  capacity_eq : s.arena.capacity = capacity
  offset_eq : s.arena.offset.toNat = granted * alignUp 8 objectSize.toNat
  granted_le : granted ≤ n
  fits : granted * alignUp 8 objectSize.toNat ≤ capacity.toNat
  full : granted = n ∨ capacity.toNat < (granted + 1) * alignUp 8 objectSize.toNat
  holds : ∀ i, i < n → i < batchSize →
    s.ptrs[i]? = some (entry capacity.toNat objectSize.toNat buffer i)

variable {capacity objectSize : Word} {buffer : Nat}

theorem entry_of_full {granted i : Nat} (hi : granted ≤ i)
    (hfull : capacity.toNat < (granted + 1) * alignUp 8 objectSize.toNat) :
    entry capacity.toNat objectSize.toNat buffer i = 0 := by
  have hle := Nat.mul_le_mul_right (alignUp 8 objectSize.toNat) (Nat.add_le_add_right hi 1)
  exact if_neg (by omega)

theorem Filling.step {granted n : Nat} {s : ArenaBatches batchSize}
    (hcapacity : capacity.toNat ≤ 2 ^ 63 - 1) (hsize : alignUp 8 objectSize.toNat ≤ 2 ^ 63)
    (h : Filling capacity objectSize buffer granted n s) :
    ∃ s', s.allocateEntry objectSize n = some s' ∧
      ∃ granted, Filling capacity objectSize buffer granted (n + 1) s' := by
  obtain ⟨offset, hoffset, hcase⟩ := s.arena.allocate_cases objectSize
  have hexact : s.arena.exactEnd objectSize = (granted + 1) * alignUp 8 objectSize.toNat := by
    rw [ArenaAllocator.exactEnd, h.offset_eq, Nat.succ_mul]
  have hnowrap : (granted + 1) * alignUp 8 objectSize.toNat < 2 ^ 64 := by
    have hfits := h.fits
    rw [Nat.succ_mul]
    omega
  rw [hexact, Nat.mod_eq_of_lt hnowrap] at hoffset
  have hnext : ∀ {ptr : Nat}, ptr = entry capacity.toNat objectSize.toNat buffer n →
      ∀ i, i < n + 1 → i < batchSize →
        (s.ptrs.setIfInBounds n ptr)[i]? =
          some (entry capacity.toNat objectSize.toNat buffer i) := by
    rintro ptr rfl i hi hbatch
    rw [Vector.getElem?_setIfInBounds]
    obtain hprev | rfl := Nat.lt_succ_iff_lt_or_eq.mp hi
    · rw [if_neg (Nat.ne_of_gt hprev)]
      exact h.holds i hprev hbatch
    · rw [if_pos rfl, if_pos hbatch]
  obtain ⟨hfull, hrun⟩ | ⟨hle, hrun⟩ := hcase
  · rw [hoffset, h.capacity_eq] at hfull
    refine ⟨⟨s.ptrs.setIfInBounds n 0, s.arena⟩, by rw [allocateEntry, hrun], granted, ?_⟩
    exact
      { buffer_eq := h.buffer_eq
        capacity_eq := h.capacity_eq
        offset_eq := h.offset_eq
        granted_le := Nat.le_succ_of_le h.granted_le
        fits := h.fits
        full := .inr hfull
        holds := hnext (entry_of_full h.granted_le hfull).symm }
  · rw [hoffset, h.capacity_eq] at hle
    obtain rfl : granted = n := h.full.resolve_right (Nat.not_lt.mpr hle)
    have hptr : s.arena.buffer + s.arena.offset.toNat =
        entry capacity.toNat objectSize.toNat buffer granted := by
      rw [entry, if_pos hle, h.buffer_eq, h.offset_eq]
    refine ⟨⟨s.ptrs.setIfInBounds granted (s.arena.buffer + s.arena.offset.toNat),
      { s.arena with offset }⟩, by rw [allocateEntry, hrun], granted + 1, ?_⟩
    exact
      { buffer_eq := h.buffer_eq
        capacity_eq := h.capacity_eq
        offset_eq := hoffset
        granted_le := Nat.le_refl _
        fits := hle
        full := .inl rfl
        holds := hnext hptr }

/-- A batch on a fresh arena hands out the entries and leaves it fresh. -/
theorem Fresh.batch {s : ArenaBatches batchSize} (hcapacity : capacity.toNat ≤ 2 ^ 63 - 1)
    (hsize : alignUp 8 objectSize.toNat ≤ 2 ^ 63) (h : Fresh capacity buffer s) :
    ∃ s' handedOut, s.batch objectSize = some (s', handedOut) ∧
      (∀ i, i < batchSize →
        handedOut[i]? = some (entry capacity.toNat objectSize.toNat buffer i)) ∧
      Fresh capacity buffer s' := by
  have hstart : ∃ granted, Filling capacity objectSize buffer granted 0 s :=
    ⟨0,
      { buffer_eq := h.buffer_eq
        capacity_eq := h.capacity_eq
        offset_eq := by rw [h.offset_eq, Nat.zero_mul]; rfl
        granted_le := Nat.le_refl 0
        fits := by rw [Nat.zero_mul]; exact Nat.zero_le _
        full := .inl rfl
        holds := fun i hi => absurd hi (Nat.not_lt_zero i) }⟩
  obtain ⟨full, hloop, granted, hfull⟩ :=
    foldlM_range_invariant (n := batchSize) (f := allocateEntry objectSize)
      (P := fun n s => ∃ granted, Filling capacity objectSize buffer granted n s)
      (fun _ _ _ ⟨_, hs⟩ => hs.step hcapacity hsize) hstart
  refine ⟨{ full with arena := full.arena.reset }, full.ptrs, ?_,
    fun i hi => hfull.holds i hi hi, hfull.buffer_eq, hfull.capacity_eq, rfl⟩
  simp only [ArenaBatches.batch, hloop, Option.bind_eq_bind, Option.bind_some]

/-- The batches one after the other. -/
theorem Fresh.batches {s : ArenaBatches batchSize} (hcapacity : capacity.toNat ≤ 2 ^ 63 - 1)
    (hsize : alignUp 8 objectSize.toNat ≤ 2 ^ 63) (h : Fresh capacity buffer s)
    (numBatches : Nat) :
    ∃ s' batches, countedLoop (ArenaBatches.batch objectSize) numBatches s = some (s', batches) ∧
      Fresh capacity buffer s' ∧ batches.length = numBatches ∧
      ∀ (k : Nat) handedOut, batches[k]? = some handedOut → ∀ i, i < batchSize →
        handedOut[i]? = some (entry capacity.toNat objectSize.toNat buffer i) := by
  have hstep : ∀ (_ : Nat) (s : ArenaBatches batchSize), Fresh capacity buffer s →
      ∃ s' handedOut, s.batch objectSize = some (s', handedOut) ∧
        (∀ i, i < batchSize →
          handedOut[i]? = some (entry capacity.toNat objectSize.toNat buffer i)) ∧
        Fresh capacity buffer s' := fun _ _ hs => hs.batch hcapacity hsize
  exact @countedLoop_invariant _ _ _ _ _ hstep numBatches 0 _ h

theorem entry_ne_zero_iff {capacity objectSize i : Nat} (hbuffer : buffer ≠ 0) :
    entry capacity objectSize buffer i ≠ 0 ↔ (i + 1) * alignUp 8 objectSize ≤ capacity := by
  rw [entry]
  split
  · next hfits => exact ⟨fun _ => hfits, fun _ => by omega⟩
  · next hfull => exact ⟨fun h => absurd rfl h, fun hfits => absurd hfits hfull⟩

/-- A batch of unrounded objects has room for all of them exactly if they need no
rounding. -/
theorem forall_entry_ne_zero_iff {objectSize : Nat} (hbuffer : buffer ≠ 0) (hpos : 0 < batchSize) :
    (∀ i < batchSize, entry (objectSize * batchSize) objectSize buffer i ≠ 0) ↔ 8 ∣ objectSize := by
  simp only [entry_ne_zero_iff hbuffer]
  have hle := le_alignUp objectSize (by decide : 0 < 8)
  constructor
  · intro hall
    have hlast := hall (batchSize - 1) (by omega)
    rw [Nat.sub_add_cancel hpos, Nat.mul_comm] at hlast
    have hge := Nat.le_of_mul_le_mul_right hlast hpos
    rw [Nat.le_antisymm hle hge]
    exact dvd_alignUp 8 objectSize
  · intro hdvd i hi
    have hlt := alignUp_lt_add objectSize (by decide : 0 < 8)
    have hround := dvd_alignUp 8 objectSize
    have hsame : alignUp 8 objectSize = objectSize := by omega
    rw [hsame, Nat.mul_comm]
    exact Nat.mul_le_mul_left objectSize hi

/-- Every batch gets the same pointers, and with the capacity of the test all of them are
non-null exactly if the size of an object is a multiple of eight. -/
theorem batches_equal (capacity objectSize : Word) (buffer : Nat) (hbuffer : buffer ≠ 0)
    (hcapacity : capacity.toNat ≤ 2 ^ 63 - 1) (hsize : alignUp 8 objectSize.toNat ≤ 2 ^ 63)
    (batchSize : Nat) (hpos : 0 < batchSize) (ptrs : Vector Nat batchSize) (numBatches : Nat) :
    ∃ s batches, countedLoop (batch objectSize) numBatches ⟨ptrs, .new capacity buffer⟩ =
        some (s, batches) ∧ batches.length = numBatches ∧ s.arena = .new capacity buffer ∧
      (∀ handedOut ∈ batches, ∀ i, (hi : i < batchSize) → handedOut[i] =
        if (i + 1) * alignUp 8 objectSize.toNat ≤ capacity.toNat then
          buffer + i * alignUp 8 objectSize.toNat
        else 0) ∧
      (capacity.toNat = objectSize.toNat * batchSize → 0 < numBatches →
        ((∀ handedOut ∈ batches, ∀ i, (hi : i < batchSize) → handedOut[i] ≠ 0) ↔
          8 ∣ objectSize.toNat)) := by
  obtain ⟨s, batches, hrun, hend, hlength, hbatches⟩ :=
    (fresh_new capacity buffer ptrs).batches hcapacity hsize numBatches
  have hentry : ∀ handedOut ∈ batches, ∀ i, (hi : i < batchSize) →
      handedOut[i] = entry capacity.toNat objectSize.toNat buffer i := by
    intro handedOut hmem i hi
    obtain ⟨k, hk⟩ := List.getElem?_of_mem hmem
    have hvalue := hbatches k handedOut hk i hi
    rwa [Vector.getElem?_eq_getElem hi, Option.some.injEq] at hvalue
  refine ⟨s, batches, hrun, hlength, ?_, hentry, fun hproduct hrounds => ?_⟩
  · obtain ⟨hb, hc, ho⟩ := hend
    cases harena : s.arena
    simp only [harena] at hb hc ho
    rw [ArenaAllocator.new, hb, hc, ho]
  · rw [← forall_entry_ne_zero_iff hbuffer hpos, ← hproduct]
    obtain ⟨first, hfirst⟩ : ∃ first, first ∈ batches :=
      List.exists_mem_of_length_pos (hlength ▸ hrounds)
    constructor
    · intro hall i hi
      rw [← hentry first hfirst i hi]
      exact hall first hfirst i hi
    · intro hall handedOut hmem i hi
      rw [hentry handedOut hmem i hi]
      exact hall i hi

/-- Objects of twelve bytes: the second one of a batch of two does not fit. -/
theorem batches_equal_two : ∃ s batches,
    countedLoop (batch 12) 2 ⟨#v[0, 0], .new 24 4096⟩ = some (s, batches) ∧
      ∀ handedOut ∈ batches, handedOut = #v[4096, 0] := by
  obtain ⟨s, batches, hrun, _, _, hentry, _⟩ := batches_equal 24 12 4096 (by decide)
    (by decide) (by decide) 2 (by decide) #v[0, 0] 2
  refine ⟨s, batches, hrun, fun handedOut hmem => Vector.ext fun i hi => ?_⟩
  rw [hentry handedOut hmem i hi]
  obtain rfl | rfl : i = 0 ∨ i = 1 := by omega
  all_goals rfl

end ArenaBatches

end HwBench
