import HwBench.Machine.Span
import HwBench.Machine.Word

/-!
# The ledger of an exact bump allocator

A bump allocator hands out ranges of a region from its start, each rounded up to
a multiple of the alignment, until the region is used up. The ledger lists the
ranges handed out since the last reset. That they are aligned, disjoint, and
below the offset are fields, so every ledger that can be built is well formed.
-/

namespace Machine

/-- Ranges handed out of `[0, capacity)` since the last reset. -/
structure Ledger (align capacity : Nat) where
  offset : Nat
  blocks : List Span
  offset_aligned : align ∣ offset
  offset_le : offset ≤ capacity
  block_aligned : ∀ b ∈ blocks, align ∣ b.start
  block_le : ∀ b ∈ blocks, b.start + b.size ≤ offset
  disjoint : blocks.Pairwise Span.Disjoint

namespace Ledger

variable {align capacity : Nat}

/-- Nothing is handed out. -/
def empty (align capacity : Nat) : Ledger align capacity where
  offset := 0
  blocks := []
  offset_aligned := Nat.dvd_zero align
  offset_le := Nat.zero_le capacity
  block_aligned := fun _ hb => absurd hb List.not_mem_nil
  block_le := fun _ hb => absurd hb List.not_mem_nil
  disjoint := .nil

/-- Hand out `size` bytes at the offset, provided the rounded size still fits. -/
def bump (l : Ledger align capacity) (size : Nat) (ha : 0 < align)
    (hfit : l.offset + alignUp align size ≤ capacity) : Ledger align capacity where
  offset := l.offset + alignUp align size
  blocks := ⟨l.offset, size⟩ :: l.blocks
  offset_aligned := Nat.dvd_add l.offset_aligned (dvd_alignUp align size)
  offset_le := hfit
  block_aligned := List.forall_mem_cons.mpr ⟨l.offset_aligned, l.block_aligned⟩
  block_le := List.forall_mem_cons.mpr ⟨Nat.add_le_add_left (le_alignUp size ha) _,
    fun b hb => Nat.le_add_right_of_le (l.block_le b hb)⟩
  disjoint := List.pairwise_cons.mpr ⟨fun b hb => Or.inr (l.block_le b hb), l.disjoint⟩

theorem block_within (l : Ledger align capacity) {b : Span} (hb : b ∈ l.blocks) :
    b.Within 0 capacity :=
  ⟨Nat.zero_le _, (l.block_le b hb).trans l.offset_le⟩

end Ledger
end Machine
