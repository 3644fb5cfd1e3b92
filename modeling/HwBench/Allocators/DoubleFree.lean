import HwBench.Allocators.PoolRun
import HwBench.Math.ExactPeriod

/-!
# Giving a block back twice

`deallocate` does not check that its argument is in use. When a block is given back that
is free already, its link is overwritten by the head of the free list. The blocks before
it then form a ring with it, and those behind it are lost: as long as nothing but
`allocate` is called from there on, it never fails and hands out the blocks of the ring
over and over.
-/

namespace HwBench

open Machine

namespace PoolRun

/-- One call of `allocate`, with the pointer as its event. -/
def allocateCall {size : Nat} (s : PoolAllocator × Heap size) :
    Option ((PoolAllocator × Heap size) × Nat) := do
  let (ptr, pool, heap) ← s.1.allocate s.2
  some ((pool, heap), ptr)

/-- The `j`-th block of the ring that the free block at position `p` closes, beginning
with that block. -/
def ringBlock (cells : List Nat) (p j : Nat) : Nat := cells.getD ((j + p) % (p + 1)) 0

section Ring

variable {cells : List Nat} {p : Nat}

theorem ringBlock_eq (hp : p < cells.length) (j : Nat) :
    ∃ hlt : (j + p) % (p + 1) < cells.length, ringBlock cells p j = cells[(j + p) % (p + 1)] := by
  have hmod : (j + p) % (p + 1) < p + 1 := Nat.mod_lt _ p.succ_pos
  have hlt : (j + p) % (p + 1) < cells.length := by omega
  exact ⟨hlt, by rw [ringBlock, List.getD_eq_getElem _ _ hlt]⟩

/-- The block itself is followed by the first of the list, any other one by the next. -/
theorem ring_index_succ (p j : Nat) :
    ((j + p) % (p + 1) = p ∧ (j + 1 + p) % (p + 1) = 0) ∨
      ((j + p) % (p + 1) < p ∧ (j + 1 + p) % (p + 1) = (j + p) % (p + 1) + 1) := by
  have hmod : (j + p) % (p + 1) < p + 1 := Nat.mod_lt _ p.succ_pos
  have hsucc : (j + 1 + p) % (p + 1) = ((j + p) % (p + 1) + 1) % (p + 1) := by
    rw [Nat.add_right_comm, Nat.mod_add_mod]
  obtain heq | hlt := Nat.eq_or_lt_of_le (Nat.le_of_lt_succ hmod)
  · exact .inl ⟨heq, by rw [hsucc, heq, Nat.mod_self]⟩
  · exact .inr ⟨hlt, by rw [hsucc, Nat.mod_eq_of_lt (by omega)]⟩

theorem exactPeriod_ringBlock (hnodup : cells.Nodup) (hp : p < cells.length) :
    ExactPeriod (ringBlock cells p) (p + 1) := by
  intro i j
  obtain ⟨hi, hieq⟩ := ringBlock_eq hp i
  obtain ⟨hj, hjeq⟩ := ringBlock_eq hp j
  rw [hieq, hjeq, hnodup.getElem_inj_iff]
  exact ⟨fun h => Nat.ModEq.add_right_cancel' p h, fun h => h.add_right p⟩

theorem ringBlock_mem_take (hp : p < cells.length) (j : Nat) :
    ringBlock cells p j ∈ cells.take (p + 1) := by
  obtain ⟨hlt, heq⟩ := ringBlock_eq hp j
  have hmod : (j + p) % (p + 1) < p + 1 := Nat.mod_lt _ p.succ_pos
  rw [heq]
  exact List.mem_take_iff_getElem.mpr ⟨_, by omega, rfl⟩

end Ring

variable {shape : PoolShape}

/-- The cells of the free list are slots. -/
theorem exists_slot_of_cell {r : PoolRun shape.bytes}
    {s : FreeStack (List.range shape.count.toNat)} (hrep : Represents r s) {cells : List Nat}
    (hcells : Chain r.heap.load 0 r.pool.freeList cells) {a : Nat} (ha : a ∈ cells) :
    ∃ k, k < shape.count.toNat ∧ a = shape.slot r.heap.base k := by
  rw [hcells.unique hrep.chain] at ha
  obtain ⟨k, hk, rfl⟩ := List.mem_map.mp ha
  exact ⟨k, hrep.lt_of_free hk, rfl⟩

/-- After the store of the second `deallocate` the links run around the ring. -/
theorem load_ringBlock {r : PoolRun shape.bytes} {s : FreeStack (List.range shape.count.toNat)}
    (hrep : Represents r s) {cells : List Nat} (hcells : Chain r.heap.load 0 r.pool.freeList cells)
    {p : Nat} (hp : p < cells.length) {heap : Heap shape.bytes}
    (hstore : r.heap.store cells[p] r.pool.freeList = some heap) (j : Nat) :
    heap.load (ringBlock cells p j) = some (ringBlock cells p (j + 1)) := by
  obtain ⟨hj, hjeq⟩ := ringBlock_eq hp j
  obtain ⟨hj', hjeq'⟩ := ringBlock_eq hp (j + 1)
  rw [hjeq, hjeq']
  obtain ⟨hlast, hfirst⟩ | ⟨hlt, hnext⟩ := ring_index_succ p j
  · have hhead := hcells.getElem_zero (by omega)
    simp only [hlast, hfirst, hhead]
    exact Heap.load_store hstore hrep.freeList_lt
  · -- another block of the ring keeps its link, which is at least one slot away
    have hne : cells[(j + p) % (p + 1)] ≠ cells[p] := fun heq =>
      hlt.ne (hcells.nodup.getElem_inj_iff.mp heq)
    have hapart : cells[p] + ptrBytes ≤ cells[(j + p) % (p + 1)] ∨
        cells[(j + p) % (p + 1)] + ptrBytes ≤ cells[p] := by
      obtain ⟨k, _, hk⟩ := exists_slot_of_cell hrep hcells (List.getElem_mem hp)
      obtain ⟨k', _, hk'⟩ := exists_slot_of_cell hrep hcells (List.getElem_mem hj)
      rw [hk, hk'] at hne ⊢
      exact shape.link_apart r.heap.base fun heq => hne (heq ▸ rfl)
    rw [Heap.load_store_ne hstore hapart]
    simp only [hnext]
    exact hcells.next_getElem (by omega)

/-- A call on the ring hands out one of its blocks and goes on to the next one. -/
theorem allocateCall_ring {heap : Heap shape.bytes} {pool : PoolAllocator} {a b : Nat}
    (hne : a ≠ 0) (hload : heap.load a = some b) :
    allocateCall ({ pool with freeList := a }, heap) =
      some (({ pool with freeList := b }, heap), a) := by
  simp only [allocateCall, PoolAllocator.allocate, if_neg hne, hload, Option.bind_eq_bind,
    Option.bind_some, Option.pure_def]

/-- Giving back the free block at position `p` of the list succeeds. With no write, read
or `deallocate` in between, every call of `allocate` from there on hands out one of the
first `p + 1` blocks, in a fixed order and with period `p + 1`. -/
theorem deallocate_twice (shape : PoolShape) (h : Heap shape.bytes) (r : PoolRun shape.bytes)
    (hr : Reachable shape h r) (cells : List Nat)
    (hcells : Chain r.heap.load 0 r.pool.freeList cells) (p : Nat) (hp : p < cells.length) :
    ∃ pool heap, r.pool.deallocate cells[p] r.heap = some (pool, heap) ∧
      (∀ n, ∃ pool', countedLoop allocateCall n (pool, heap) =
        some ((pool', heap), (List.range n).map (ringBlock cells p))) ∧
      ringBlock cells p 0 = cells[p] ∧ ExactPeriod (ringBlock cells p) (p + 1) ∧
      ∀ j, ringBlock cells p j ≠ 0 ∧ ringBlock cells p j ∈ cells.take (p + 1) := by
  obtain ⟨s, _, hrep⟩ := hr.represents
  have hslot : ∀ a ∈ cells, ∃ k, k < shape.count.toNat ∧ a = shape.slot r.heap.base k :=
    fun a ha => exists_slot_of_cell hrep hcells ha
  have hne : ∀ j, ringBlock cells p j ≠ 0 := fun j => by
    obtain ⟨k, _, heq⟩ := hslot _ (List.mem_of_mem_take (ringBlock_mem_take hp j))
    rw [heq]
    exact PoolShape.slot_ne_zero r.heap k
  have hcovers : r.heap.Covers cells[p] ptrBytes := by
    obtain ⟨k, hk, heq⟩ := hslot _ (List.getElem_mem hp)
    rw [heq]
    exact PoolShape.covers_slot r.heap hk
  obtain ⟨heap, hstore⟩ := Heap.exists_store hcovers r.pool.freeList
  have hstart : ringBlock cells p 0 = cells[p] := by
    obtain ⟨_, heq⟩ := ringBlock_eq hp 0
    simpa [Nat.mod_eq_of_lt (Nat.lt_succ_self p)] using heq
  refine ⟨{ r.pool with freeList := cells[p] }, heap, ?_, fun n => ?_, hstart,
    exactPeriod_ringBlock hcells.nodup hp, fun j => ⟨hne j, ringBlock_mem_take hp j⟩⟩
  · rw [PoolAllocator.deallocate, hstore]
    rfl
  · have hbody : ∀ j, allocateCall ({ r.pool with freeList := ringBlock cells p j }, heap) =
        some (({ r.pool with freeList := ringBlock cells p (j + 1) }, heap), ringBlock cells p j) :=
      fun j => allocateCall_ring (hne j) (load_ringBlock hrep hcells hp hstore j)
    have hloop := countedLoop_eq hbody n
    rw [hstart] at hloop
    exact ⟨_, hloop⟩

/-- The first block of a new pool given back before it was handed out. -/
theorem deallocate_twice_two : ∃ pool heap, ∃ pool' heap',
    PoolAllocator.new 8 2 twoSlotBlock = some (pool, heap) ∧
      pool.deallocate 4096 heap = some (pool', heap') ∧
      ∀ n, ∃ pool'', countedLoop allocateCall n (pool', heap') =
        some ((pool'', heap'), (List.range n).map (ringBlock [4096, 4104] 0)) := by
  obtain ⟨pool, heap, hnew, hbase, hrep⟩ := represents_new twoSlotBlock
  have hcells : Chain heap.load 0 pool.freeList [4096, 4104] := by
    have hchain := hrep.chain
    simp only [hbase] at hchain
    exact hchain
  obtain ⟨pool', heap', hrun, hloop, _⟩ := deallocate_twice twoSlots twoSlotBlock ⟨heap, pool, []⟩
    ⟨pool, heap, hnew, .refl⟩ [4096, 4104] hcells 0 (by decide)
  exact ⟨pool, heap, pool', heap', hnew, hrun, hloop⟩

end PoolRun

end HwBench
