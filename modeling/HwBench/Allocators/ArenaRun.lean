import HwBench.Allocators.Arena
import HwBench.Machine.Bump

/-!
# Blocks handed out by an arena

A run is a list of calls on a new arena. The ghost list records, for every
non-null result since the last reset, the block it starts: its offset from the
buffer and the size that was requested, both in exact arithmetic.

As long as no request wraps the blocks form the ledger of an exact bump
allocator, so they are aligned, inside the buffer and disjoint. A request that
wraps is granted although its block cannot fit, so the condition is exact.
-/

namespace HwBench

open Machine

/-- An arena in use, with the blocks handed out since the last reset. -/
structure ArenaRun where
  arena : ArenaAllocator
  blocks : List Span

namespace ArenaRun

def start (capacity : Word) (buffer : Nat) : ArenaRun :=
  { arena := .new capacity buffer, blocks := [] }

/-- A non-null result is recorded under the requested size, not the rounded one. -/
def step (r : ArenaRun) : ArenaOp → ArenaRun
  | .allocate size =>
      let (ptr, arena) := r.arena.allocate size
      { arena
        blocks := if ptr = 0 then r.blocks else ⟨ptr - r.arena.buffer, size.toNat⟩ :: r.blocks }
  | .reset => { arena := r.arena.reset, blocks := [] }

def exec (r : ArenaRun) (ops : List ArenaOp) : ArenaRun := ops.foldl step r

/-- Every block lies inside the first `capacity` bytes of the buffer and starts at
a multiple of eight, and no two blocks overlap. -/
def BlocksSafe (capacity : Nat) (r : ArenaRun) : Prop :=
  (∀ b ∈ r.blocks, b.Within 0 capacity ∧ 8 ∣ b.start) ∧
    r.blocks.Pairwise Span.Disjoint

instance (capacity : Nat) (r : ArenaRun) : Decidable (r.BlocksSafe capacity) :=
  inferInstanceAs (Decidable (_ ∧ _))

/-- Recording blocks does not change what the arena does. -/
theorem step_arena (r : ArenaRun) (op : ArenaOp) : (r.step op).arena = r.arena.step op := by
  cases op <;> rfl

theorem exec_arena (r : ArenaRun) (ops : List ArenaOp) :
    (r.exec ops).arena = r.arena.exec ops :=
  foldl_simulation step ArenaAllocator.step (fun r a => r.arena = a) (fun _ _ => True)
    (fun r _ op heq _ => heq ▸ step_arena r op) rfl (fun _ _ _ => trivial) ops List.prefix_rfl

/-- A granted request records the block at the old offset. -/
theorem step_granted {r : ArenaRun} {size offset : Word} (hbuffer : r.arena.buffer ≠ 0)
    (hrun : r.arena.allocate size =
      (r.arena.buffer + r.arena.offset.toNat, { r.arena with offset })) :
    r.step (.allocate size) =
      { arena := { r.arena with offset },
        blocks := ⟨r.arena.offset.toNat, size.toNat⟩ :: r.blocks } := by
  have hne : r.arena.buffer + r.arena.offset.toNat ≠ 0 :=
    fun hzero => hbuffer (Nat.add_eq_zero_iff.mp hzero).1
  simp only [step, hrun, if_neg hne, Nat.add_sub_cancel_left]

/-- The arena's offset and blocks are those of a well-formed ledger. -/
def Ledgered (capacity : Nat) (r : ArenaRun) : Prop :=
  r.arena.buffer ≠ 0 ∧ r.arena.capacity.toNat = capacity ∧
    ∃ l : Ledger 8 capacity, l.offset = r.arena.offset.toNat ∧ l.blocks = r.blocks

theorem Ledgered.blocksSafe {capacity : Nat} {r : ArenaRun} (h : Ledgered capacity r) :
    r.BlocksSafe capacity := by
  obtain ⟨_, _, l, _, hblocks⟩ := h
  rw [BlocksSafe, ← hblocks]
  exact ⟨fun b hb => ⟨l.block_within hb, l.block_aligned b hb⟩, l.disjoint⟩

theorem ledgered_start (capacity : Word) {buffer : Nat} (hbuffer : buffer ≠ 0) :
    Ledgered capacity.toNat (start capacity buffer) :=
  ⟨hbuffer, rfl, .empty 8 capacity.toNat, rfl, rfl⟩

/-- A call whose request does not wrap keeps the ledger. -/
theorem Ledgered.step {capacity : Nat} {r : ArenaRun} (h : Ledgered capacity r) {op : ArenaOp}
    (hfit : r.arena.Fits op) : Ledgered capacity (r.step op) := by
  obtain ⟨hbuffer, hcap, l, hoff, hblocks⟩ := h
  cases op with
  | reset => exact ⟨hbuffer, hcap, .empty 8 capacity, rfl, rfl⟩
  | allocate size =>
      obtain ⟨offset, hoffset, hcase⟩ := r.arena.allocate_cases size
      rw [Nat.mod_eq_of_lt hfit] at hoffset
      obtain ⟨_, hrun⟩ | ⟨hle, hrun⟩ := hcase
      · have hstep : r.step (.allocate size) = r := by
          simp only [ArenaRun.step, hrun, if_true]
        rw [hstep]
        exact ⟨hbuffer, hcap, l, hoff, hblocks⟩
      · rw [step_granted hbuffer hrun]
        rw [hoffset, hcap, ArenaAllocator.exactEnd, ← hoff] at hle
        refine ⟨hbuffer, hcap, l.bump size.toNat (by decide) hle, ?_, ?_⟩
        · rw [hoffset, ArenaAllocator.exactEnd, ← hoff]
          rfl
        · rw [← hoff, ← hblocks]
          rfl

/-- A granted request that wraps leaves a block outside the capacity. -/
theorem not_blocksSafe_of_wrap {capacity : Nat} {r : ArenaRun} {size : Word}
    (hbounded : r.arena.Bounded) (hbuffer : r.arena.buffer ≠ 0) (hcap : capacity ≤ 2 ^ 63 - 1)
    (hwrap : 2 ^ 64 ≤ r.arena.exactEnd size) :
    ¬(r.step (.allocate size)).BlocksSafe capacity := by
  obtain ⟨offset, hrun, _⟩ := ArenaAllocator.allocate_of_wrap hbounded hwrap
  rw [step_granted hbuffer hrun]
  rintro ⟨hall, _⟩
  have hwithin := (hall _ List.mem_cons_self).1.2
  have hround : alignUp 8 size.toNat < size.toNat + 8 := alignUp_lt_add size.toNat (by decide)
  simp only [ArenaAllocator.exactEnd] at hwrap
  simp only at hwithin
  omega

/-- In every run on a successful `malloc`, the blocks of all states reached are
safe if and only if no request wraps where it is made. -/
theorem blocksSafe_iff (capacity : Word) (buffer : Nat) (hbuffer : buffer ≠ 0)
    (hcap : capacity.toNat ≤ 2 ^ 63 - 1) (ops : List ArenaOp) :
    (∀ front, front <+: ops →
        ((start capacity buffer).exec front).BlocksSafe capacity.toNat) ↔
      ∀ front size, front ++ [.allocate size] <+: ops →
        ((start capacity buffer).exec front).arena.offset.toNat + alignUp 8 size.toNat
          < 2 ^ 64 := by
  constructor
  · intro hsafe front size hfront
    by_contra hwrap
    have harena := exec_arena (start capacity buffer) front
    obtain ⟨hbounded, hbuf, _⟩ := ArenaAllocator.exec_new capacity buffer front
    have hbuf' := (congrArg ArenaAllocator.buffer harena).trans hbuf
    have hstep := hsafe _ hfront
    rw [exec, List.foldl_append] at hstep
    refine not_blocksSafe_of_wrap ?_ ?_ hcap (Nat.le_of_not_lt hwrap) hstep
    · exact harena ▸ hbounded
    · exact fun hzero => hbuffer (hbuf'.symm.trans hzero)
  · intro hfits front hfront
    refine Ledgered.blocksSafe (foldl_invariant step (Ledgered capacity.toNat)
      (fun r op => r.arena.Fits op) (fun r op h hfit => Ledgered.step h hfit)
      (ledgered_start capacity hbuffer) ?_ front hfront)
    rintro front (size | _) hop
    · exact hfits front size hop
    · trivial

theorem blocksSafe_iff_wrapped :
    ¬∀ front, front <+: [ArenaOp.allocate 16, .allocate 0xFFFFFFFFFFFFFFF8] →
      ((start 64 4096).exec front).BlocksSafe (64 : Word).toNat := by
  rw [blocksSafe_iff 64 4096 (by decide) (by decide)]
  intro hfits
  exact absurd (hfits [.allocate 16] _ List.prefix_rfl) (by decide)

/-- A wrapped request in between moves the offset back, and the third block then
overlaps the first. -/
theorem not_blocksSafe_overlap :
    ¬∀ (capacity : Word) (buffer : Nat), buffer ≠ 0 → capacity.toNat ≤ 2 ^ 63 - 1 →
      ∀ ops, ((start capacity buffer).exec ops).BlocksSafe capacity.toNat := by
  intro hsafe
  have hrun := hsafe 64 4096 (by decide) (by decide)
    [.allocate 16, .allocate 0xFFFFFFFFFFFFFFF8, .allocate 8]
  exact absurd hrun (by decide)

end ArenaRun
end HwBench
