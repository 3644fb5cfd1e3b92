import HwBench.Allocators.PoolRun
import Mathlib.Data.BitVec
import Mathlib.Tactic.Ring

/-!
# The exact domain of the pool constructor

The constructor checks none of its arguments. It is sound when every link store
lies inside the block and the links thread `count` disjoint slots that lie
inside it. This happens exactly for the arguments of a `PoolShape`: an empty
pool and a slot smaller than a link fault at the last store, and a wrapped
product leaves a block too small for `count` disjoint slots, however the wrapped
offsets fall.
-/

namespace HwBench

open Machine

namespace PoolAllocator

variable {size : Nat}

theorem linkSlots_base {pool : Nat} {objectSize n : Word} {h h' : Heap size}
    (hrun : linkSlots pool objectSize n h = some h') : h'.base = h.base := by
  rw [linkSlots] at hrun
  generalize List.range n.toNat = is at hrun
  induction is generalizing h with
  | nil =>
      cases hrun
      rfl
  | cons i is ih =>
      obtain ⟨middle, hstore, hrest⟩ := Option.bind_eq_some_iff.mp hrun
      exact (ih hrest).trans (Heap.store_base hstore)

/-- A constructor run that does not fault has its last store inside the block. -/
theorem new_last_covered {objectSize count : Word} {h h' : Heap (objectSize * count).toNat}
    {p : PoolAllocator} (hrun : new objectSize count h = some (p, h')) :
    ((count - 1) * objectSize).toNat + ptrBytes ≤ (objectSize * count).toNat := by
  obtain ⟨middle, hloop, hrest⟩ := Option.bind_eq_some_iff.mp hrun
  obtain ⟨_, hstore, _⟩ := Option.bind_eq_some_iff.mp hrest
  have hcov := (Heap.covers_congr (linkSlots_base hloop)).mp (Heap.covers_of_store hstore)
  have hend : h.base + ((count - 1) * objectSize).toNat + ptrBytes ≤
      h.base + (objectSize * count).toNat := hcov.2
  omega

/-- The last store of an empty pool, and of one whose slots are smaller than a
link, ends outside the block. -/
theorem link_fits_of_last_covered {objectSize count : Word}
    (hlast : ((count - 1) * objectSize).toNat + ptrBytes ≤ (objectSize * count).toNat) :
    8 ≤ objectSize.toNat ∧ 1 ≤ count.toNat := by
  have hsplit : (count - 1) * objectSize + objectSize = objectSize * count := by ring
  have hwrap := congrArg BitVec.toNat hsplit
  rw [BitVec.toNat_add] at hwrap
  have hblock := (objectSize * count).isLt
  have hptr : ptrBytes = 8 := rfl
  constructor
  · by_contra hsmall
    rw [Nat.mod_eq_of_lt (by omega)] at hwrap
    omega
  · by_contra hzero
    have hempty : (objectSize * count).toNat = 0 := by
      rw [BitVec.toNat_mul, show count.toNat = 0 by omega, Nat.mul_zero, Nat.zero_mod]
    omega

/-- The constructor builds a usable pool in the block that `malloc` returned. -/
def ConstructsSoundly (objectSize count : Word) (h : Heap (objectSize * count).toNat) : Prop :=
  ∃ p h', new objectSize count h = some (p, h') ∧
    ∃ cells, Chain h'.load 0 p.freeList cells ∧ cells.length = count.toNat ∧
      cells.Pairwise (fun a b => Span.Disjoint ⟨a, objectSize.toNat⟩ ⟨b, objectSize.toNat⟩) ∧
      ∀ a ∈ cells, Span.Within ⟨a, objectSize.toNat⟩ h.base
        (h.base + (objectSize * count).toNat)

/-- Disjoint slots inside the block bound the exact product by its size. -/
theorem mul_lt_of_slots {objectSize count : Word} {base : Nat} {cells : List Nat}
    (hlen : cells.length = count.toNat)
    (hdisj : cells.Pairwise fun a b =>
      Span.Disjoint ⟨a, objectSize.toNat⟩ ⟨b, objectSize.toNat⟩)
    (hin : ∀ a ∈ cells, Span.Within ⟨a, objectSize.toNat⟩ base
      (base + (objectSize * count).toNat)) :
    objectSize.toNat * count.toNat < 2 ^ 64 := by
  have hsum : ((cells.map fun a => (⟨a, objectSize.toNat⟩ : Span)).map Span.size).sum ≤
      base + (objectSize * count).toNat - base := by
    refine Span.sum_size_le (List.pairwise_map.mpr hdisj) fun s hs => ?_
    obtain ⟨a, ha, rfl⟩ := List.mem_map.mp hs
    exact hin a ha
  have hsizes : (cells.map fun a => (⟨a, objectSize.toNat⟩ : Span)).map Span.size =
      List.replicate count.toNat objectSize.toNat := by
    rw [List.map_map, ← hlen]
    exact List.map_const'
  rw [hsizes, List.sum_replicate_nat, Nat.add_sub_cancel_left] at hsum
  rw [Nat.mul_comm]
  exact Nat.lt_of_le_of_lt hsum (objectSize * count).isLt

/-- The constructor succeeds and leaves the pool a free list of `count` separate
objects inside the block exactly when an object holds a link, there is at least one
object and the product of the two sizes does not wrap. -/
theorem new_sound_iff (objectSize count : Word) (h : Heap (objectSize * count).toNat) :
    ConstructsSoundly objectSize count h ↔
      8 ≤ objectSize.toNat ∧ 1 ≤ count.toNat ∧ objectSize.toNat * count.toNat < 2 ^ 64 := by
  constructor
  · rintro ⟨p, h', hrun, cells, _, hlen, hdisj, hin⟩
    obtain ⟨hlink, hpos⟩ := link_fits_of_last_covered (new_last_covered hrun)
    exact ⟨hlink, hpos, mul_lt_of_slots hlen hdisj hin⟩
  · rintro ⟨hlink, hpos, hfit⟩
    let shape : PoolShape := ⟨objectSize, count, hlink, hpos, hfit⟩
    obtain ⟨h', hrun, _, hchain⟩ := shape.new_spec h
    refine ⟨_, h', hrun, _, hchain, by rw [List.length_map, List.length_range], ?_, ?_⟩
    · rw [List.pairwise_map]
      exact List.nodup_range.imp fun hne => shape.slot_disjoint h.base hne
    · intro a ha
      obtain ⟨k, hk, rfl⟩ := List.mem_map.mp ha
      exact ⟨Nat.le_add_right _ _, PoolShape.slot_end_le h.base (List.mem_range.mp hk)⟩

end PoolAllocator
end HwBench
