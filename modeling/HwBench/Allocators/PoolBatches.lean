import HwBench.Allocators.PoolRun

/-!
# Batches on a pool

The jitter test calls `allocate` for every entry of a vector of pointers, then
`deallocate` for every entry in the same order, over and over. A batch pops a
prefix of the free list and pushes it back reversed, so two batches restore the
order and the slots behind the prefix are never touched.
-/

namespace HwBench

open Machine

/-- The vector `ptrs`, the pool and its memory between two calls of the test. -/
structure PoolBatches (size batchSize : Nat) where
  ptrs : Vector Nat batchSize
  pool : PoolAllocator
  heap : Heap size

namespace PoolBatches

section Calls

variable {size batchSize : Nat}

/-- `ptrs[i] = pool.allocate();` -/
def allocateEntry (s : PoolBatches size batchSize) (i : Nat) :
    Option (PoolBatches size batchSize) := do
  let (ptr, pool, heap) ← s.pool.allocate s.heap
  some { ptrs := s.ptrs.setIfInBounds i ptr, pool, heap }

/-- `pool.deallocate(ptrs[i]);` -/
def deallocateEntry (s : PoolBatches size batchSize) (i : Nat) :
    Option (PoolBatches size batchSize) := do
  let ptr ← s.ptrs[i]?
  let (pool, heap) ← s.pool.deallocate ptr s.heap
  some { s with pool, heap }

/-- The body of the loop over the batches, with the pointers that were handed out. -/
def batch (s : PoolBatches size batchSize) :
    Option (PoolBatches size batchSize × Vector Nat batchSize) := do
  let full ← (List.range batchSize).foldlM allocateEntry s
  let empty ← (List.range batchSize).foldlM deallocateEntry full
  some (empty, full.ptrs)

end Calls

variable {shape : PoolShape} {batchSize : Nat}

/-- The pool works on the block at `base`, and its free slots are `free`, the next
one first. -/
def Serves (base : Nat) (free : List Nat) (s : PoolBatches shape.bytes batchSize) : Prop :=
  s.heap.base = base ∧ ∃ live, ∃ stack : FreeStack (List.range shape.count.toNat),
    PoolRun.Represents ⟨s.heap, s.pool, live⟩ stack ∧ stack.free = free

section Entries

variable {base : Nat} {free : List Nat} {s : PoolBatches shape.bytes batchSize}

theorem Serves.chain (h : Serves base free s) :
    Chain s.heap.load 0 s.pool.freeList (free.map (shape.slot base)) := by
  obtain ⟨rfl, _, _, hrep, rfl⟩ := h
  exact hrep.chain

/-- A free slot is a slot of the pool. -/
theorem Serves.lt (h : Serves base free s) {k : Nat} (hk : k ∈ free) : k < shape.count.toNat := by
  obtain ⟨_, _, _, hrep, rfl⟩ := h
  exact hrep.lt_of_free hk

theorem Serves.nodup (h : Serves base free s) : free.Nodup := by
  obtain ⟨_, _, stack, _, rfl⟩ := h
  have howns : (stack.free ++ stack.live).Nodup := stack.owns.nodup_iff.mpr List.nodup_range
  exact howns.of_append_left

/-- A call of `allocate` stores the first free slot. -/
theorem Serves.allocateEntry {k : Nat} {rest : List Nat} (h : Serves base (k :: rest) s) (i : Nat) :
    ∃ s', s.allocateEntry i = some s' ∧ s'.ptrs = s.ptrs.setIfInBounds i (shape.slot base k) ∧
      Serves base rest s' := by
  obtain ⟨rfl, live, stack, hrep, hfree⟩ := h
  obtain ⟨hnil, _⟩ | ⟨k', rest', hfree', pool, hrun, hrep'⟩ := hrep.allocate_spec
  · rw [hfree] at hnil
    exact absurd hnil (List.cons_ne_nil k rest)
  · obtain ⟨rfl, rfl⟩ := List.cons.inj (hfree.symm.trans hfree')
    refine ⟨⟨s.ptrs.setIfInBounds i (shape.slot s.heap.base k), pool, s.heap⟩, ?_, rfl, rfl,
      shape.slot s.heap.base k :: live, stack.pop hfree', hrep', rfl⟩
    simp only [PoolBatches.allocateEntry, hrun, Option.bind_eq_bind, Option.bind_some]

/-- A call of `deallocate` puts a slot that is not free before the free ones. -/
theorem Serves.deallocateEntry (h : Serves base free s) {i k : Nat}
    (hentry : s.ptrs[i]? = some (shape.slot base k)) (hk : k < shape.count.toNat)
    (hused : k ∉ free) :
    ∃ s', s.deallocateEntry i = some s' ∧ s'.ptrs = s.ptrs ∧ Serves base (k :: free) s' := by
  obtain ⟨rfl, live, stack, hrep, rfl⟩ := h
  have hlive : k ∈ stack.live := (stack.mem_iff.mp (List.mem_range.mpr hk)).resolve_left hused
  obtain ⟨heap, hstore, hrun, hrep'⟩ := hrep.deallocate_spec hlive
  refine ⟨⟨s.ptrs, { s.pool with freeList := shape.slot s.heap.base k }, heap⟩, ?_, rfl,
    Heap.store_base hstore, live.erase (shape.slot s.heap.base k), stack.push hlive, hrep', rfl⟩
  simp only [PoolBatches.deallocateEntry, hentry, hrun, Option.bind_eq_bind, Option.bind_some]

end Entries

section Batches

variable {base : Nat} {order tail : List Nat} {s : PoolBatches shape.bytes batchSize}

/-- The first `n` entries hold the first `n` slots of `order`. -/
def Holds (base : Nat) (order : List Nat) (n : Nat) (s : PoolBatches shape.bytes batchSize) :
    Prop :=
  ∀ i, i < n → s.ptrs[i]? = (order[i]?).map (shape.slot base)

/-- The slots before position `n` of `order` are in the entries, the others free. -/
def Filled (base : Nat) (order tail : List Nat) (n : Nat)
    (s : PoolBatches shape.bytes batchSize) : Prop :=
  Serves base (order.drop n ++ tail) s ∧ Holds base order n s

/-- All slots of `order` are in the entries, and those before position `n` free again. -/
def Emptied (base : Nat) (order tail : List Nat) (n : Nat)
    (s : PoolBatches shape.bytes batchSize) : Prop :=
  Serves base ((order.take n).reverse ++ tail) s ∧ Holds base order batchSize s

theorem Filled.step {n : Nat} (h : Filled base order tail n s) (hn : n < batchSize)
    (hlt : n < order.length) :
    ∃ s', s.allocateEntry n = some s' ∧ Filled base order tail (n + 1) s' := by
  obtain ⟨hserves, hholds⟩ := h
  rw [List.drop_eq_getElem_cons hlt, List.cons_append] at hserves
  obtain ⟨s', hcall, hptrs, hserves'⟩ := hserves.allocateEntry n
  refine ⟨s', hcall, hserves', fun i hi => ?_⟩
  rw [hptrs, Vector.getElem?_setIfInBounds]
  obtain hprev | rfl := Nat.lt_succ_iff_lt_or_eq.mp hi
  · rw [if_neg (Nat.ne_of_gt hprev)]
    exact hholds i hprev
  · rw [if_pos rfl, if_pos hn, List.getElem?_eq_getElem hlt, Option.map_some]

/-- A slot that is given back is not among the free ones: the slots before it have
other positions in `order`. -/
theorem getElem_not_mem_freed {n : Nat} (hlt : n < order.length) (hnodup : (order ++ tail).Nodup) :
    order[n] ∉ (order.take n).reverse ++ tail := by
  have hsplit : order.take n ++ order[n] :: (order.drop (n + 1) ++ tail) = order ++ tail := by
    rw [← List.cons_append, ← List.drop_eq_getElem_cons hlt, ← List.append_assoc,
      List.take_append_drop]
  rw [← hsplit, List.nodup_middle, List.nodup_cons] at hnodup
  intro hmem
  apply hnodup.1
  simp only [List.mem_append, List.mem_reverse] at hmem ⊢
  exact hmem.imp_right Or.inr

theorem Emptied.step {n : Nat} (h : Emptied base order tail n s) (hn : n < batchSize)
    (hlt : n < order.length) (hnodup : (order ++ tail).Nodup)
    (hslots : ∀ k ∈ order, k < shape.count.toNat) :
    ∃ s', s.deallocateEntry n = some s' ∧ Emptied base order tail (n + 1) s' := by
  obtain ⟨hserves, hholds⟩ := h
  have hentry : s.ptrs[n]? = some (shape.slot base order[n]) := by
    rw [hholds n hn, List.getElem?_eq_getElem hlt, Option.map_some]
  obtain ⟨s', hcall, hptrs, hserves'⟩ := hserves.deallocateEntry hentry
    (hslots _ (List.getElem_mem hlt)) (getElem_not_mem_freed hlt hnodup)
  refine ⟨s', hcall, ?_, by rwa [Holds, hptrs]⟩
  rwa [List.take_succ_eq_append_getElem hlt, List.reverse_append, List.reverse_singleton,
    List.singleton_append, List.cons_append]

/-- A batch hands out the first `batchSize` free slots, and reverses them. -/
theorem Serves.batch (h : Serves base (order ++ tail) s) (hlength : order.length = batchSize) :
    ∃ s' handedOut, s.batch = some (s', handedOut) ∧
      (∀ i, i < batchSize → handedOut[i]? = (order[i]?).map (shape.slot base)) ∧
      Serves base (order.reverse ++ tail) s' := by
  have hnodup := h.nodup
  have hslots : ∀ k ∈ order, k < shape.count.toNat := fun k hk => h.lt (List.mem_append_left tail hk)
  have hlt : ∀ {n : Nat}, n < batchSize → n < order.length := fun hn => hlength ▸ hn
  have hfilled : Filled base order tail 0 s := ⟨h, fun i hi => absurd hi (Nat.not_lt_zero i)⟩
  obtain ⟨full, hfirst, hserves, hholds⟩ :=
    foldlM_range_invariant (fun n s hn hs => Filled.step hs hn (hlt hn)) hfilled
  rw [List.drop_eq_nil_of_le hlength.le, List.nil_append] at hserves
  have hemptied : Emptied base order tail 0 full := ⟨hserves, hholds⟩
  obtain ⟨empty, hsecond, hserves', _⟩ :=
    foldlM_range_invariant (fun n s hn hs => Emptied.step hs hn (hlt hn) hnodup hslots) hemptied
  rw [List.take_of_length_le hlength.le] at hserves'
  refine ⟨empty, full.ptrs, ?_, hholds, hserves'⟩
  simp only [PoolBatches.batch, hfirst, hsecond, Option.bind_eq_bind, Option.bind_some]

end Batches

/-! ### Runs of batches -/

/-- The slot in entry `i` during batch `k`. -/
def batchSlot (batchSize k i : Nat) : Nat := if k % 2 = 0 then i else batchSize - 1 - i

/-- The first `batchSize` slots as they lie on the free list before batch `k`. -/
def batchOrder (batchSize k : Nat) : List Nat :=
  if k % 2 = 0 then List.range batchSize else (List.range batchSize).reverse

theorem batchSlot_lt {k i : Nat} (hi : i < batchSize) : batchSlot batchSize k i < batchSize := by
  rw [batchSlot]
  split <;> omega

@[simp] theorem length_batchOrder (k : Nat) : (batchOrder batchSize k).length = batchSize := by
  rw [batchOrder]
  split <;> simp

theorem getElem?_batchOrder {k i : Nat} (hi : i < batchSize) :
    (batchOrder batchSize k)[i]? = some (batchSlot batchSize k i) := by
  rw [batchOrder, batchSlot]
  split
  · exact List.getElem?_range hi
  · rw [List.getElem?_reverse (by simpa using hi), List.length_range, List.getElem?_range (by omega)]

theorem batchOrder_succ (k : Nat) : batchOrder batchSize (k + 1) = (batchOrder batchSize k).reverse := by
  obtain heven | hodd := Nat.mod_two_eq_zero_or_one k
  · rw [batchOrder, batchOrder, if_neg (by omega), if_pos heven]
  · rw [batchOrder, batchOrder, if_pos (by omega), if_neg (by omega), List.reverse_reverse]

/-- The slots of the batches lie before the other ones on the free list. -/
def AtBatch (base k : Nat) (s : PoolBatches shape.bytes batchSize) : Prop :=
  Serves base
    (batchOrder batchSize k ++ List.range' batchSize (shape.count.toNat - batchSize)) s

theorem AtBatch.step {base k : Nat} {s : PoolBatches shape.bytes batchSize}
    (h : AtBatch base k s) :
    ∃ s' handedOut, s.batch = some (s', handedOut) ∧
      (∀ i, i < batchSize →
        handedOut[i]? = some (shape.slot base (batchSlot batchSize k i))) ∧
      AtBatch base (k + 1) s' := by
  obtain ⟨s', handedOut, hbatch, hentries, hserves⟩ := Serves.batch h (length_batchOrder k)
  rw [← batchOrder_succ] at hserves
  refine ⟨s', handedOut, hbatch, fun i hi => ?_, hserves⟩
  rw [hentries i hi, getElem?_batchOrder hi, Option.map_some]

/-- The slots of a fresh pool lie on the free list as before an even batch. -/
theorem atBatch_new (h : Heap shape.bytes) (hfits : batchSize ≤ shape.count.toNat)
    (ptrs : Vector Nat batchSize) :
    ∃ pool heap, PoolAllocator.new shape.objectSize shape.count h = some (pool, heap) ∧
      AtBatch h.base 0 ⟨ptrs, pool, heap⟩ := by
  obtain ⟨pool, heap, hnew, hbase, hrep⟩ := PoolRun.represents_new h
  have hsplit : List.range shape.count.toNat =
      List.range batchSize ++ List.range' batchSize (shape.count.toNat - batchSize) := by
    have happend := @List.range'_append_1 0 batchSize (shape.count.toNat - batchSize)
    rw [Nat.zero_add, Nat.add_sub_cancel' hfits] at happend
    rw [List.range_eq_range', List.range_eq_range', happend]
  exact ⟨pool, heap, hnew, hbase, [], FreeStack.full _, hrep, hsplit⟩

/-- The batches one after the other. -/
theorem AtBatch.batches {base : Nat} {s : PoolBatches shape.bytes batchSize}
    (h : AtBatch base 0 s) (numBatches : Nat) :
    ∃ s' batches, countedLoop batch numBatches s = some (s', batches) ∧
      AtBatch base numBatches s' ∧ batches.length = numBatches ∧
      ∀ k handedOut, batches[k]? = some handedOut → ∀ i, i < batchSize →
        handedOut[i]? = some (shape.slot base (batchSlot batchSize k i)) := by
  obtain ⟨s', batches, hrun, hend, hlength, hbatches⟩ :=
    countedLoop_invariant (fun _ _ hs => AtBatch.step hs) numBatches h
  rw [Nat.zero_add] at hend
  simp only [Nat.zero_add] at hbatches
  exact ⟨s', batches, hrun, hend, hlength, hbatches⟩

/-- Even batches take the first slots in ascending order, odd ones in descending
order, and the slots behind them stay where they are. -/
theorem batches_alternate (shape : PoolShape) (h : Heap shape.bytes) (batchSize : Nat)
    (hfits : batchSize ≤ shape.count.toNat) (ptrs : Vector Nat batchSize) (numBatches : Nat) :
    ∃ pool heap, PoolAllocator.new shape.objectSize shape.count h = some (pool, heap) ∧
      ∃ s batches, countedLoop batch numBatches ⟨ptrs, pool, heap⟩ = some (s, batches) ∧
        batches.length = numBatches ∧
        (∀ k ptrs, batches[k]? = some ptrs → ∀ i, (hi : i < batchSize) → ptrs[i] ≠ 0 ∧
          batchSlot batchSize k i < batchSize ∧
          ptrs[i] = shape.slot h.base (batchSlot batchSize k i)) ∧
        Chain s.heap.load 0 s.pool.freeList ((batchOrder batchSize numBatches ++
          List.range' batchSize (shape.count.toNat - batchSize)).map (shape.slot h.base)) := by
  obtain ⟨pool, heap, hnew, hstart⟩ := atBatch_new h hfits ptrs
  obtain ⟨s, batches, hrun, hend, hlength, hbatches⟩ := hstart.batches numBatches
  refine ⟨pool, heap, hnew, s, batches, hrun, hlength, fun k ptrs hk i hi => ?_, hend.chain⟩
  have hentry := hbatches k ptrs hk i hi
  rw [Vector.getElem?_eq_getElem hi, Option.some.injEq] at hentry
  rw [hentry]
  exact ⟨PoolShape.slot_ne_zero h _, batchSlot_lt hi, rfl⟩

/-- Three slots of sixteen bytes. -/
def threeSlots : PoolShape := ⟨16, 3, by decide, by decide, by decide⟩

def threeSlotBlock : Heap threeSlots.bytes := ⟨8192, fun _ => 0, by decide, by decide⟩

/-- After a batch of two the second slot is free before the first one. -/
theorem batches_alternate_three : ∃ pool heap, PoolAllocator.new 16 3 threeSlotBlock =
      some (pool, heap) ∧
    ∃ s batches, countedLoop batch 1 ⟨#v[0, 0], pool, heap⟩ = some (s, batches) ∧
      Chain s.heap.load 0 s.pool.freeList [8208, 8192, 8224] := by
  obtain ⟨pool, heap, hnew, s, batches, hrun, _, _, hchain⟩ :=
    batches_alternate threeSlots threeSlotBlock 2 (by decide) #v[0, 0] 1
  exact ⟨pool, heap, hnew, s, batches, hrun, hchain⟩

end PoolBatches
end HwBench
