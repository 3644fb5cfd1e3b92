import HwBench.Machine.Chain
import HwBench.Machine.Heap
import HwBench.Machine.Span

/-!
# The pool allocator

`PoolAllocator` keeps its free list inside the free slots themselves: the first
eight bytes of a free slot hold the address of the next one. The constructor
writes these links into the block that `malloc` returned, `allocate` reads one
and `deallocate` writes one. All three act on a bounds-checked heap block, so a
link outside the block is a fault rather than silent corruption.

`size_t` products wrap, as in the source; pointer additions are exact. A
`PoolShape` is a pair of constructor arguments for which nothing wraps and a
link fits into a slot.
-/

namespace HwBench

open Machine

/-- The data members of `class PoolAllocator`. -/
structure PoolAllocator where
  pool : Nat
  freeList : Nat
  objectSize : Word

namespace PoolAllocator

variable {size : Nat}

/-- `pool_ + i * object_size`, with the product in `size_t`. -/
def slotAddr (pool : Nat) (objectSize i : Word) : Nat :=
  pool + (i * objectSize).toNat

/-- `for (size_t i = 0; i < n; ++i) *(void**)(pool_ + i * object_size) =
pool_ + (i + 1) * object_size;` -/
def linkSlots (pool : Nat) (objectSize n : Word) (h : Heap size) : Option (Heap size) :=
  (List.range n.toNat).foldlM
    (fun h i => h.store (slotAddr pool objectSize (BitVec.ofNat 64 i))
      (slotAddr pool objectSize (BitVec.ofNat 64 i + 1))) h

/-- The constructor. Its heap argument is the block `malloc(object_size * count)`
returned; `count - 1` wraps for an empty pool. -/
def new (objectSize count : Word) (h : Heap (objectSize * count).toNat) :
    Option (PoolAllocator × Heap (objectSize * count).toNat) := do
  let pool := h.base
  let h ← linkSlots pool objectSize (count - 1) h
  let h ← h.store (slotAddr pool objectSize (count - 1)) 0
  return ({ pool, freeList := pool, objectSize }, h)

def allocate (p : PoolAllocator) (h : Heap size) : Option (Nat × PoolAllocator × Heap size) :=
  if p.freeList = 0 then
    some (0, p, h)
  else do
    let ptr := p.freeList
    let next ← h.load p.freeList
    return (ptr, { p with freeList := next }, h)

def deallocate (p : PoolAllocator) (ptr : Nat) (h : Heap size) :
    Option (PoolAllocator × Heap size) := do
  let h ← h.store ptr p.freeList
  return ({ p with freeList := ptr }, h)

/-- The two outcomes of `allocate`: an empty list gives the null pointer, and
otherwise the head cell is returned and its link becomes the new head. -/
theorem allocate_cases {p p' : PoolAllocator} {h h' : Heap size} {ptr : Nat}
    (hrun : p.allocate h = some (ptr, p', h')) :
    h' = h ∧ ((p.freeList = 0 ∧ ptr = 0 ∧ p' = p) ∨
      (p.freeList ≠ 0 ∧ ptr = p.freeList ∧
        ∃ next, h.load p.freeList = some next ∧ p' = { p with freeList := next })) := by
  rw [allocate] at hrun
  split at hrun
  · next hnull =>
      cases hrun
      exact ⟨rfl, Or.inl ⟨hnull, rfl, rfl⟩⟩
  · next hnull =>
      obtain ⟨next, hload, hrest⟩ := Option.bind_eq_some_iff.mp hrun
      cases hrest
      exact ⟨rfl, Or.inr ⟨hnull, rfl, next, hload, rfl⟩⟩

theorem deallocate_cases {p p' : PoolAllocator} {h h' : Heap size} {ptr : Nat}
    (hrun : p.deallocate ptr h = some (p', h')) :
    h.store ptr p.freeList = some h' ∧ p' = { p with freeList := ptr } := by
  obtain ⟨_, hstore, hrest⟩ := Option.bind_eq_some_iff.mp hrun
  cases hrest
  exact ⟨hstore, rfl⟩

end PoolAllocator

/-- Constructor arguments for which a link fits into a slot, there is a slot,
and the size of the block is the exact product. -/
structure PoolShape where
  objectSize : Word
  count : Word
  link_fits : 8 ≤ objectSize.toNat
  count_pos : 1 ≤ count.toNat
  bytes_fit : objectSize.toNat * count.toNat < 2 ^ 64

namespace PoolShape

variable (shape : PoolShape)

/-- Size of the `malloc` block. -/
abbrev bytes : Nat := (shape.objectSize * shape.count).toNat

/-- The address of slot `k` in exact arithmetic. -/
def slot (base k : Nat) : Nat := base + k * shape.objectSize.toNat

theorem bytes_eq : shape.bytes = shape.count.toNat * shape.objectSize.toNat := by
  rw [bytes, BitVec.toNat_mul, Nat.mod_eq_of_lt shape.bytes_fit, Nat.mul_comm]

variable {shape}

theorem slot_succ (base k : Nat) :
    shape.slot base (k + 1) = shape.slot base k + shape.objectSize.toNat := by
  simp only [slot, Nat.succ_mul, Nat.add_assoc]

/-- A slot ends before the block does. -/
theorem slot_end_le (base : Nat) {k : Nat} (hk : k < shape.count.toNat) :
    shape.slot base k + shape.objectSize.toNat ≤ base + shape.bytes := by
  rw [← slot_succ, slot, bytes_eq]
  exact Nat.add_le_add_left (Nat.mul_le_mul_right _ hk) base

/-- No product or sum wraps while addressing a slot. -/
theorem slotAddr_eq (base : Nat) {k : Nat} (hk : k < shape.count.toNat) :
    PoolAllocator.slotAddr base shape.objectSize (BitVec.ofNat 64 k) = shape.slot base k := by
  have hkw : k < 2 ^ 64 := hk.trans shape.count.isLt
  have hprod : k * shape.objectSize.toNat < 2 ^ 64 := by
    calc k * shape.objectSize.toNat ≤ shape.count.toNat * shape.objectSize.toNat :=
          Nat.mul_le_mul_right _ (Nat.le_of_lt hk)
      _ = shape.objectSize.toNat * shape.count.toNat := Nat.mul_comm _ _
      _ < 2 ^ 64 := shape.bytes_fit
  rw [PoolAllocator.slotAddr, BitVec.toNat_mul, BitVec.toNat_ofNat, Nat.mod_eq_of_lt hkw,
    Nat.mod_eq_of_lt hprod, slot]

/-- A link is no larger than a slot. -/
theorem ptrBytes_le (shape : PoolShape) : ptrBytes ≤ shape.objectSize.toNat := shape.link_fits

/-- Different slots are at least one slot apart. -/
theorem slot_apart (base : Nat) {j k : Nat} (hjk : j ≠ k) :
    shape.slot base j + shape.objectSize.toNat ≤ shape.slot base k ∨
      shape.slot base k + shape.objectSize.toNat ≤ shape.slot base j := by
  have hstep : ∀ {a b : Nat}, a < b →
      shape.slot base a + shape.objectSize.toNat ≤ shape.slot base b := by
    intro a b hab
    rw [← slot_succ]
    exact Nat.add_le_add_left (Nat.mul_le_mul_right _ hab) base
  obtain hlt | hlt := Nat.lt_or_gt_of_ne hjk
  · exact Or.inl (hstep hlt)
  · exact Or.inr (hstep hlt)

/-- Different slots occupy disjoint address ranges. -/
theorem slot_disjoint (base : Nat) {j k : Nat} (hjk : j ≠ k) :
    Span.Disjoint ⟨shape.slot base j, shape.objectSize.toNat⟩
      ⟨shape.slot base k, shape.objectSize.toNat⟩ :=
  shape.slot_apart base hjk

/-- The links of different slots do not overlap. -/
theorem link_apart (base : Nat) {j k : Nat} (hjk : j ≠ k) :
    shape.slot base j + ptrBytes ≤ shape.slot base k ∨
      shape.slot base k + ptrBytes ≤ shape.slot base j := by
  have hapart := shape.slot_apart base hjk
  have hlink := shape.ptrBytes_le
  omega

theorem slot_injective (base : Nat) : Function.Injective (shape.slot base) := by
  intro j k heq
  by_contra hne
  have hpos := shape.link_fits
  have hapart := shape.slot_apart base hne
  simp only [heq] at hapart
  omega

section Block

variable (h : Heap shape.bytes)

/-- The link of a slot lies inside the block. -/
theorem covers_slot {k : Nat} (hk : k < shape.count.toNat) :
    h.Covers (shape.slot h.base k) ptrBytes := by
  have hend := slot_end_le h.base hk
  have hlink := shape.ptrBytes_le
  exact ⟨Nat.le_add_right _ _, by omega⟩

theorem slot_ne_zero (k : Nat) : shape.slot h.base k ≠ 0 := by
  have hpos := h.base_pos
  have hle : h.base ≤ shape.slot h.base k := Nat.le_add_right _ _
  omega

theorem slot_lt {k : Nat} (hk : k < shape.count.toNat) : shape.slot h.base k < 2 ^ 64 := by
  have hend := slot_end_le h.base hk
  have hlink := shape.link_fits
  have hfits := h.fits
  omega

end Block

end PoolShape

end HwBench
