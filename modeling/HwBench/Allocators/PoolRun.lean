import HwBench.Allocators.Pool
import HwBench.Machine.FreeStack
import HwBench.Machine.Loop
import HwBench.Machine.Transition

/-!
# Pool allocator runs

A run starts from the constructed pool and interleaves `allocate`, `deallocate`
of a live block and arbitrary client writes to bytes of live blocks, in any
order. The client's ghost list records the blocks handed out and not yet given
back; the code does not see it.

The free list in raw memory refines a stack of slot numbers: a reachable state
represents some `FreeStack`, whose free part is the chain of links and whose
live part is the ghost list. Every property of the run is read off that stack.
-/

namespace HwBench

open Machine Relation

namespace PoolShape

variable {shape : PoolShape}

/-- The first `n` links are in place and the block has not moved. -/
structure LinkedUpTo (h : Heap shape.bytes) (n : Nat) (h' : Heap shape.bytes) : Prop where
  base_eq : h'.base = h.base
  links : ∀ i, i < n → h'.load (shape.slot h.base i) = some (shape.slot h.base (i + 1))

/-- One link store succeeds and keeps the earlier links. -/
theorem LinkedUpTo.store {h h' : Heap shape.bytes} {n : Nat} (hlinked : LinkedUpTo h n h')
    (hn : n + 1 < shape.count.toNat) :
    ∃ h'', h'.store (shape.slot h.base n) (shape.slot h.base (n + 1)) = some h'' ∧
      LinkedUpTo h (n + 1) h'' := by
  have hcov : h'.Covers (shape.slot h.base n) ptrBytes :=
    (Heap.covers_congr hlinked.base_eq).mpr (covers_slot h (Nat.lt_of_succ_lt hn))
  obtain ⟨h'', hstore⟩ := Heap.exists_store hcov (shape.slot h.base (n + 1))
  refine ⟨h'', hstore, (Heap.store_base hstore).trans hlinked.base_eq, fun i hi => ?_⟩
  obtain hlt | rfl := Nat.lt_succ_iff_lt_or_eq.mp hi
  · -- an earlier link is at least one slot away from the new one
    rw [Heap.load_store_ne hstore (shape.link_apart h.base (Nat.ne_of_gt hlt))]
    exact hlinked.links i hlt
  · exact Heap.load_store hstore (slot_lt h hn)

theorem linkSlots_spec (h : Heap shape.bytes) {n : Nat} (hn : n < shape.count.toNat) :
    ∃ h', PoolAllocator.linkSlots h.base shape.objectSize (BitVec.ofNat 64 n) h = some h' ∧
      LinkedUpTo h n h' := by
  have hnw : n < 2 ^ 64 := hn.trans shape.count.isLt
  rw [PoolAllocator.linkSlots, BitVec.toNat_ofNat, Nat.mod_eq_of_lt hnw]
  refine foldlM_range_invariant (fun i h' hi hlinked => ?_)
    ⟨rfl, fun i hi => absurd hi (Nat.not_lt_zero i)⟩
  have hnext : BitVec.ofNat 64 i + 1 = BitVec.ofNat 64 (i + 1) := (BitVec.ofNat_add i 1).symm
  rw [hnext, slotAddr_eq h.base (hi.trans hn), slotAddr_eq h.base (by omega)]
  exact hlinked.store (by omega)

/-- The constructor never faults on a pool shape, and threads all the slots in
ascending order from the free list. -/
theorem new_spec (h : Heap shape.bytes) :
    ∃ h', PoolAllocator.new shape.objectSize shape.count h =
        some ({ pool := h.base, freeList := h.base, objectSize := shape.objectSize }, h') ∧
      h'.base = h.base ∧
      Chain h'.load 0 h.base ((List.range shape.count.toNat).map (shape.slot h.base)) := by
  have hpos := shape.count_pos
  have hlast : shape.count - 1 = BitVec.ofNat 64 (shape.count.toNat - 1) := by
    apply BitVec.eq_of_toNat_eq
    have hlt := shape.count.isLt
    have hone : (1 : Word).toNat = 1 := rfl
    rw [BitVec.toNat_sub, BitVec.toNat_ofNat, hone]
    omega
  have hn : shape.count.toNat - 1 < shape.count.toNat := by omega
  obtain ⟨middle, hloop, hbase, hlinks⟩ := linkSlots_spec h hn
  have hcov : middle.Covers (shape.slot h.base (shape.count.toNat - 1)) ptrBytes :=
    (Heap.covers_congr hbase).mpr (covers_slot h hn)
  obtain ⟨h', hstore⟩ := Heap.exists_store hcov 0
  refine ⟨h', ?_, (Heap.store_base hstore).trans hbase, ?_⟩
  · simp only [PoolAllocator.new, hlast, Option.bind_eq_bind, slotAddr_eq h.base hn, hloop,
      Option.bind_some, hstore]
    rfl
  · have hchain : Chain h'.load 0 (shape.slot h.base 0)
        ((List.range' 0 (shape.count.toNat - 0)).map (shape.slot h.base)) := by
      refine Chain.of_slots (by omega) (fun i _ => slot_ne_zero h i) ?_ ?_
      · intro i hi
        have hne : shape.count.toNat - 1 ≠ i := by omega
        rw [Heap.load_store_ne hstore (shape.link_apart h.base hne)]
        exact hlinks i (by omega)
      · exact Heap.load_store hstore (by decide)
    have hfirst : shape.slot h.base 0 = h.base := by rw [slot, Nat.zero_mul, Nat.add_zero]
    rwa [hfirst, Nat.sub_zero, ← List.range_eq_range'] at hchain

end PoolShape

/-- A pool in use: its memory, its data members, and the client's ghost list of
live blocks. -/
structure PoolRun (size : Nat) where
  heap : Heap size
  pool : PoolAllocator
  live : List Nat

namespace PoolRun

/-- One event of a run. A call that faults has no step, so the absence of faults
is a separate statement about reachable states. -/
inductive Step {size : Nat} : PoolRun size → PoolRun size → Prop
  | allocate {r : PoolRun size} {ptr : Nat} {pool : PoolAllocator} {heap : Heap size} :
      r.pool.allocate r.heap = some (ptr, pool, heap) → ptr ≠ 0 →
      Step r { heap, pool, live := ptr :: r.live }
  | exhausted {r : PoolRun size} {pool : PoolAllocator} {heap : Heap size} :
      r.pool.allocate r.heap = some (0, pool, heap) → Step r { heap, pool, live := r.live }
  | deallocate {r : PoolRun size} {ptr : Nat} {pool : PoolAllocator} {heap : Heap size} :
      ptr ∈ r.live → r.pool.deallocate ptr r.heap = some (pool, heap) →
      Step r { heap, pool, live := r.live.erase ptr }
  | write {r : PoolRun size} {ptr i : Nat} (value : Byte) :
      ptr ∈ r.live → i < r.pool.objectSize.toNat →
      Step r { r with heap := r.heap.setByte (ptr + i) value }

/-- The states of runs that start from the constructor's result. -/
def Reachable (shape : PoolShape) (h : Heap shape.bytes) (r : PoolRun shape.bytes) : Prop :=
  ∃ pool heap, PoolAllocator.new shape.objectSize shape.count h = some (pool, heap) ∧
    ReflTransGen Step { heap, pool, live := [] } r

variable {shape : PoolShape}

/-- The raw free list and the client's live blocks are those of a stack of slot
numbers. -/
structure Represents (r : PoolRun shape.bytes) (s : FreeStack (List.range shape.count.toNat)) :
    Prop where
  pool_eq : r.pool.pool = r.heap.base
  size_eq : r.pool.objectSize = shape.objectSize
  chain : Chain r.heap.load 0 r.pool.freeList (s.free.map (shape.slot r.heap.base))
  live_eq : r.live = s.live.map (shape.slot r.heap.base)

namespace Represents

variable {r : PoolRun shape.bytes} {s : FreeStack (List.range shape.count.toNat)}

theorem lt_of_free (_ : Represents r s) {k : Nat} (hk : k ∈ s.free) : k < shape.count.toNat :=
  List.mem_range.mp (s.mem_iff.mpr (Or.inl hk))

theorem lt_of_live (_ : Represents r s) {k : Nat} (hk : k ∈ s.live) : k < shape.count.toNat :=
  List.mem_range.mp (s.mem_iff.mpr (Or.inr hk))

theorem exists_slot_of_live (h : Represents r s) {ptr : Nat} (hptr : ptr ∈ r.live) :
    ∃ k ∈ s.live, ptr = shape.slot r.heap.base k := by
  rw [h.live_eq, List.mem_map] at hptr
  obtain ⟨k, hk, heq⟩ := hptr
  exact ⟨k, hk, heq.symm⟩

theorem slot_mem_live (h : Represents r s) {k : Nat} :
    shape.slot r.heap.base k ∈ r.live ↔ k ∈ s.live := by
  rw [h.live_eq, List.mem_map_of_injective (shape.slot_injective _)]

/-- The head of the list is null exactly when no slot is free. -/
theorem freeList_eq_zero_iff (h : Represents r s) : r.pool.freeList = 0 ↔ s.free = [] := by
  rw [← h.chain.eq_nil_iff, List.map_eq_nil_iff]

/-- The stored head is a 64-bit address. -/
theorem freeList_lt (h : Represents r s) : r.pool.freeList < 2 ^ 64 := by
  by_cases hzero : r.pool.freeList = 0
  · rw [hzero]
    decide
  · obtain ⟨_, _, hcells, _, _⟩ := h.chain.pop hzero
    cases hfree : s.free with
    | nil => exact absurd (h.freeList_eq_zero_iff.mpr hfree) hzero
    | cons k rest =>
        rw [hfree, List.map_cons] at hcells
        rw [← (List.cons.inj hcells).1]
        exact PoolShape.slot_lt r.heap (h.lt_of_free (hfree ▸ List.mem_cons_self))

/-- A free slot and a live one are disjoint. -/
theorem free_disjoint_live (_ : Represents r s) {j k : Nat} (hj : j ∈ s.free) (hk : k ∈ s.live) :
    Span.Disjoint ⟨shape.slot r.heap.base j, shape.objectSize.toNat⟩
      ⟨shape.slot r.heap.base k, shape.objectSize.toNat⟩ := by
  apply shape.slot_disjoint
  rintro rfl
  exact ((s.mem_free_iff List.nodup_range).mp hj).2 hk

/-- The address of a free slot's link is not among the bytes of a live slot. -/
theorem load_free_congr (h : Represents r s) {heap : Heap shape.bytes} {k : Nat}
    (hk : k ∈ s.live) (hbase : heap.base = r.heap.base)
    (hframe : ∀ x, x < shape.slot r.heap.base k ∨
      shape.slot r.heap.base k + shape.objectSize.toNat ≤ x → heap.bytes x = r.heap.bytes x) :
    ∀ y ∈ s.free.map (shape.slot r.heap.base), heap.load y = r.heap.load y := by
  intro y hy
  obtain ⟨j, hj, rfl⟩ := List.mem_map.mp hy
  have hdisj : shape.slot r.heap.base j + shape.objectSize.toNat ≤ shape.slot r.heap.base k ∨
      shape.slot r.heap.base k + shape.objectSize.toNat ≤ shape.slot r.heap.base j :=
    h.free_disjoint_live hj hk
  have hlink := shape.ptrBytes_le
  exact Heap.load_congr hbase fun x hlo hhi => hframe x (by omega)

/-- Popping: `allocate` returns the top free slot, or null from the empty stack. -/
theorem allocate_spec (h : Represents r s) :
    (s.free = [] ∧ r.pool.allocate r.heap = some (0, r.pool, r.heap)) ∨
      ∃ k rest, ∃ hfree : s.free = k :: rest, ∃ pool,
        r.pool.allocate r.heap = some (shape.slot r.heap.base k, pool, r.heap) ∧
        Represents ⟨r.heap, pool, shape.slot r.heap.base k :: r.live⟩ (s.pop hfree) := by
  by_cases hnil : s.free = []
  · refine Or.inl ⟨hnil, ?_⟩
    rw [PoolAllocator.allocate, if_pos (h.freeList_eq_zero_iff.mpr hnil)]
  · obtain ⟨k, rest, hfree⟩ := List.exists_cons_of_ne_nil hnil
    refine Or.inr ⟨k, rest, hfree, ?_⟩
    have hchain := h.chain
    rw [hfree, List.map_cons] at hchain
    obtain ⟨hhead, hne, next, hload, htail⟩ := hchain.uncons
    refine ⟨{ r.pool with freeList := next }, ?_, ?_⟩
    · rw [PoolAllocator.allocate, hhead, if_neg hne, hload]
      rfl
    · exact ⟨h.pool_eq, h.size_eq, htail, by rw [h.live_eq]; rfl⟩

/-- Pushing: `deallocate` of a live slot succeeds and writes only into it. -/
theorem deallocate_spec (h : Represents r s) {k : Nat} (hk : k ∈ s.live) :
    ∃ heap, r.heap.store (shape.slot r.heap.base k) r.pool.freeList = some heap ∧
      r.pool.deallocate (shape.slot r.heap.base k) r.heap =
        some ({ r.pool with freeList := shape.slot r.heap.base k }, heap) ∧
      Represents ⟨heap, { r.pool with freeList := shape.slot r.heap.base k },
        r.live.erase (shape.slot r.heap.base k)⟩ (s.push hk) := by
  obtain ⟨heap, hstore⟩ :=
    Heap.exists_store (PoolShape.covers_slot r.heap (h.lt_of_live hk)) r.pool.freeList
  have hbase := Heap.store_base hstore
  have hlink := shape.ptrBytes_le
  have hframe : ∀ x, x < shape.slot r.heap.base k ∨
      shape.slot r.heap.base k + shape.objectSize.toNat ≤ x →
        heap.bytes x = r.heap.bytes x := by
    intro x hout
    exact Heap.store_frame hstore (by omega)
  refine ⟨heap, hstore, by rw [PoolAllocator.deallocate, hstore]; rfl, ?_⟩
  refine ⟨h.pool_eq.trans hbase.symm, h.size_eq, ?_, ?_⟩
  · simp only [hbase]
    exact h.chain.push (PoolShape.slot_ne_zero r.heap k) (Heap.load_store hstore h.freeList_lt)
      (h.load_free_congr hk hbase hframe)
  · simp only [hbase, h.live_eq]
    exact (List.map_erase (shape.slot_injective _) s.live).symm

/-- A client write to a live slot leaves the free list alone. -/
theorem write_spec (h : Represents r s) {k i : Nat} (hk : k ∈ s.live)
    (hi : i < shape.objectSize.toNat) (value : Byte) :
    Represents { r with heap := r.heap.setByte (shape.slot r.heap.base k + i) value } s := by
  refine ⟨h.pool_eq, h.size_eq, ?_, h.live_eq⟩
  refine h.chain.congr (h.load_free_congr hk rfl fun x hout => if_neg ?_)
  omega

end Represents

/-- Every event of the concrete run is at most one operation of the stack. -/
theorem simulates : Simulates (@Represents shape) Step FreeStack.Step := by
  intro r r' s hrep hstep
  cases hstep with
  | @allocate ptr pool heap hrun hptr =>
      obtain ⟨_, hnull⟩ | ⟨k, rest, hfree, pool', hsome, hrep'⟩ := hrep.allocate_spec
      · rw [hrun] at hnull
        cases hnull
        exact absurd rfl hptr
      · rw [hrun] at hsome
        cases hsome
        exact ⟨s.pop hfree, .single (.pop hfree), hrep'⟩
  | exhausted hrun =>
      obtain ⟨_, hnull⟩ | ⟨k, rest, hfree, pool', hsome, _⟩ := hrep.allocate_spec
      · rw [hrun] at hnull
        cases hnull
        exact ⟨s, .refl, hrep⟩
      · rw [hrun] at hsome
        have heq := congrArg Prod.fst (Option.some.inj hsome)
        exact absurd heq.symm (PoolShape.slot_ne_zero r.heap k)
  | deallocate hptr hrun =>
      obtain ⟨k, hk, rfl⟩ := hrep.exists_slot_of_live hptr
      obtain ⟨heap', _, hsome, hrep'⟩ := hrep.deallocate_spec hk
      rw [hrun] at hsome
      cases hsome
      exact ⟨s.push hk, .single (.push hk), hrep'⟩
  | write value hptr hi =>
      obtain ⟨k, hk, rfl⟩ := hrep.exists_slot_of_live hptr
      rw [hrep.size_eq] at hi
      exact ⟨s, .refl, hrep.write_spec hk hi value⟩

/-- The constructor leaves all slots free, in ascending order. -/
theorem represents_new (h : Heap shape.bytes) :
    ∃ pool heap, PoolAllocator.new shape.objectSize shape.count h = some (pool, heap) ∧
      heap.base = h.base ∧
      Represents ⟨heap, pool, []⟩ (FreeStack.full (List.range shape.count.toNat)) := by
  obtain ⟨heap, hnew, hbase, hchain⟩ := PoolShape.new_spec h
  refine ⟨_, heap, hnew, hbase, hbase.symm, rfl, ?_, rfl⟩
  rw [hbase]
  exact hchain

/-- Every reachable state represents a stack of slots reached by pops and pushes
from the full one. -/
theorem Reachable.represents {h : Heap shape.bytes} {r : PoolRun shape.bytes}
    (hr : Reachable shape h r) :
    ∃ s, ReflTransGen FreeStack.Step (FreeStack.full (List.range shape.count.toNat)) s ∧
      Represents r s := by
  obtain ⟨pool, heap, hnew, hrun⟩ := hr
  obtain ⟨pool', heap', hnew', _, hstart⟩ := represents_new h
  rw [hnew'] at hnew
  cases hnew
  exact simulates.run hstart hrun

/-- The block never moves. -/
theorem Step.base_eq {size : Nat} {r r' : PoolRun size} (h : Step r r') :
    r'.heap.base = r.heap.base := by
  cases h with
  | allocate hrun _ => rw [(PoolAllocator.allocate_cases hrun).1]
  | exhausted hrun => rw [(PoolAllocator.allocate_cases hrun).1]
  | deallocate _ hrun => exact Heap.store_base (PoolAllocator.deallocate_cases hrun).1
  | write value _ _ => rfl

theorem Reachable.base_eq {h : Heap shape.bytes} {r : PoolRun shape.bytes}
    (hr : Reachable shape h r) : r.heap.base = h.base := by
  obtain ⟨pool, heap, hnew, hrun⟩ := hr
  obtain ⟨heap', hnew', hbase, _⟩ := PoolShape.new_spec h
  rw [hnew'] at hnew
  cases hnew
  exact invariant_of_step (P := fun r => r.heap.base = h.base) hrun hbase
    fun _ _ hb hstep => hstep.base_eq.trans hb

/-- What a client may rely on in a state of a run on the block `h`. -/
structure Sound (shape : PoolShape) (h : Heap shape.bytes) (r : PoolRun shape.bytes) : Prop where
  pool_eq : r.pool.pool = h.base
  /-- The links from `free_list_` end in null and visit the non-live slots, once each. -/
  links : ∃ cells, Chain r.heap.load 0 r.pool.freeList cells ∧ cells.Nodup ∧
    (∀ a, a ∈ cells ↔ (∃ k, k < shape.count.toNat ∧ a = shape.slot h.base k) ∧ a ∉ r.live) ∧
    cells.length + r.live.length = shape.count.toNat
  live_slot : ∀ a ∈ r.live, ∃ k, k < shape.count.toNat ∧ a = shape.slot h.base k
  live_disjoint : r.live.Pairwise fun a b =>
    Span.Disjoint ⟨a, shape.objectSize.toNat⟩ ⟨b, shape.objectSize.toNat⟩
  /-- `allocate` does not fault, is null exactly for a fully used pool, and
  otherwise hands out a slot that is not live; it writes no memory. -/
  allocate : ∃ ptr pool heap, r.pool.allocate r.heap = some (ptr, pool, heap) ∧
    (ptr = 0 ↔ ∀ k, k < shape.count.toNat → shape.slot h.base k ∈ r.live) ∧
    (ptr ≠ 0 → (∃ k, k < shape.count.toNat ∧ ptr = shape.slot h.base k) ∧ ptr ∉ r.live) ∧
    heap.bytes = r.heap.bytes
  /-- `deallocate` of a live block does not fault and leaves every byte of the
  other live blocks as it was. -/
  deallocate : ∀ ptr ∈ r.live, ∃ pool heap, r.pool.deallocate ptr r.heap = some (pool, heap) ∧
    ∀ other ∈ r.live, other ≠ ptr → ∀ i, i < shape.objectSize.toNat →
      heap.bytes (other + i) = r.heap.bytes (other + i)

namespace Represents

variable {r : PoolRun shape.bytes} {s : FreeStack (List.range shape.count.toNat)}

theorem mem_cells_iff (h : Represents r s) (a : Nat) :
    a ∈ s.free.map (shape.slot r.heap.base) ↔
      (∃ k, k < shape.count.toNat ∧ a = shape.slot r.heap.base k) ∧ a ∉ r.live := by
  constructor
  · intro ha
    obtain ⟨k, hk, rfl⟩ := List.mem_map.mp ha
    refine ⟨⟨k, h.lt_of_free hk, rfl⟩, fun hlive => ?_⟩
    exact ((s.mem_free_iff List.nodup_range).mp hk).2 (h.slot_mem_live.mp hlive)
  · rintro ⟨⟨k, hk, rfl⟩, hnot⟩
    have hslot : k ∈ List.range shape.count.toNat := List.mem_range.mpr hk
    exact List.mem_map_of_mem ((s.mem_free_iff List.nodup_range).mpr
      ⟨hslot, fun hlive => hnot (h.slot_mem_live.mpr hlive)⟩)

theorem free_eq_nil_iff (h : Represents r s) :
    s.free = [] ↔ ∀ k, k < shape.count.toNat → shape.slot r.heap.base k ∈ r.live := by
  rw [s.free_eq_nil_iff List.nodup_range]
  simp only [List.mem_range, h.slot_mem_live]

theorem live_disjoint (h : Represents r s) : r.live.Pairwise fun a b =>
    Span.Disjoint ⟨a, shape.objectSize.toNat⟩ ⟨b, shape.objectSize.toNat⟩ := by
  rw [h.live_eq, List.pairwise_map]
  exact (s.nodup_live List.nodup_range).imp fun hne => shape.slot_disjoint _ hne

theorem sound_allocate (h : Represents r s) :
    ∃ ptr pool heap, r.pool.allocate r.heap = some (ptr, pool, heap) ∧
      (ptr = 0 ↔ ∀ k, k < shape.count.toNat → shape.slot r.heap.base k ∈ r.live) ∧
      (ptr ≠ 0 → (∃ k, k < shape.count.toNat ∧ ptr = shape.slot r.heap.base k) ∧
        ptr ∉ r.live) ∧
      heap.bytes = r.heap.bytes := by
  obtain ⟨hnil, hnull⟩ | ⟨k, rest, hfree, pool, hsome, _⟩ := h.allocate_spec
  · exact ⟨0, r.pool, r.heap, hnull, ⟨fun _ => h.free_eq_nil_iff.mp hnil, fun _ => rfl⟩,
      fun hne => absurd rfl hne, rfl⟩
  · have hk : k ∈ s.free := hfree ▸ List.mem_cons_self
    have hne := PoolShape.slot_ne_zero r.heap k
    have hcell := (h.mem_cells_iff (shape.slot r.heap.base k)).mp (List.mem_map_of_mem hk)
    refine ⟨_, pool, r.heap, hsome, ⟨fun hzero => absurd hzero hne, fun hall => ?_⟩,
      fun _ => hcell, rfl⟩
    rw [h.free_eq_nil_iff.mpr hall] at hk
    exact absurd hk List.not_mem_nil

theorem sound_deallocate (h : Represents r s) {ptr : Nat} (hptr : ptr ∈ r.live) :
    ∃ pool heap, r.pool.deallocate ptr r.heap = some (pool, heap) ∧
      ∀ other ∈ r.live, other ≠ ptr → ∀ i, i < shape.objectSize.toNat →
        heap.bytes (other + i) = r.heap.bytes (other + i) := by
  obtain ⟨k, hk, rfl⟩ := h.exists_slot_of_live hptr
  obtain ⟨heap, hstore, hrun, _⟩ := h.deallocate_spec hk
  refine ⟨_, heap, hrun, fun other hother hne i hi => Heap.store_frame hstore ?_⟩
  obtain ⟨j, _, rfl⟩ := h.exists_slot_of_live hother
  have hjk : j ≠ k := fun heq => hne (heq ▸ rfl)
  have hapart := shape.slot_apart r.heap.base hjk
  have hlink := shape.ptrBytes_le
  omega

end Represents

theorem sound_of_reachable {h : Heap shape.bytes} {r : PoolRun shape.bytes}
    (hr : Reachable shape h r) : Sound shape h r := by
  obtain ⟨s, _, hrep⟩ := hr.represents
  have hbase := hr.base_eq
  have hcount : (s.free.map (shape.slot r.heap.base)).length + r.live.length =
      shape.count.toNat := by
    rw [hrep.live_eq, List.length_map, List.length_map, s.length_add, List.length_range]
  exact
    { pool_eq := hrep.pool_eq.trans hbase
      links := by
        rw [← hbase]
        exact ⟨_, hrep.chain, hrep.chain.nodup, hrep.mem_cells_iff, hcount⟩
      live_slot := by
        intro a ha
        obtain ⟨k, hk, rfl⟩ := hrep.exists_slot_of_live ha
        exact ⟨k, hrep.lt_of_live hk, by rw [hbase]⟩
      live_disjoint := hrep.live_disjoint
      allocate := by
        rw [← hbase]
        exact hrep.sound_allocate
      deallocate := fun ptr hptr => hrep.sound_deallocate hptr }

/-- The constructor returns, and every state of every run from its result is sound: the
raw free list is exactly the slots that are not live, whatever the order of the
operations and whatever the client writes into its blocks. -/
theorem reachable_sound (shape : PoolShape) (h : Heap shape.bytes) :
    ∃ pool heap, PoolAllocator.new shape.objectSize shape.count h = some (pool, heap) ∧
      Reachable shape h { heap, pool, live := [] } ∧
      ∀ r, Reachable shape h r → Sound shape h r := by
  obtain ⟨pool, heap, hnew, _⟩ := represents_new h
  exact ⟨pool, heap, hnew, ⟨pool, heap, hnew, .refl⟩, fun r hr => sound_of_reachable hr⟩

/-- Two eight-byte slots. -/
def twoSlots : PoolShape := ⟨8, 2, by decide, by decide, by decide⟩

def twoSlotBlock : Heap twoSlots.bytes := ⟨4096, fun _ => 0, by decide, by decide⟩

/-- Both slots handed out, the first one overwritten and given back. -/
theorem twoSlots_reachable : ∃ r, Reachable twoSlots twoSlotBlock r ∧ r.live = [4104] :=
  ⟨_, ⟨_, _, rfl, .tail (.tail (.tail (.tail .refl
    (.allocate rfl (by decide))) (.allocate rfl (by decide)))
    (.write 255 (List.mem_cons_of_mem _ List.mem_cons_self) (i := 3) (by decide)))
    (.deallocate (List.mem_cons_of_mem _ List.mem_cons_self) rfl)⟩, rfl⟩

theorem reachable_sound_twoSlots : ∃ r, Reachable twoSlots twoSlotBlock r ∧ r.live = [4104] ∧
    Sound twoSlots twoSlotBlock r := by
  obtain ⟨r, hr, hlive⟩ := twoSlots_reachable
  obtain ⟨_, _, _, _, hsound⟩ := reachable_sound twoSlots twoSlotBlock
  exact ⟨r, hr, hlive, hsound r hr⟩

end PoolRun
end HwBench
