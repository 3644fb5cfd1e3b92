import HwBench.Allocators.Arena

/-!
# An arena without a buffer

The constructor does not look at what `malloc` returned. On a null buffer the
first block of a stretch between resets starts at address zero, so it reads as a
failed call, but it moves the offset, and the blocks after it start at small
non-null addresses.

A run shows only null pointers exactly when, in every stretch, the requests after
the first one that fits do not fit behind it.
-/

namespace HwBench

open Machine

namespace ArenaAllocator

/-- The request that the code compares with the capacity, after both roundings. -/
def rounded (size : Word) : Nat := alignUp 8 size.toNat % 2 ^ 64

/-- Every call of `allocate` in a run on a null buffer returns the null pointer. -/
def AllNull (capacity : Word) (ops : List ArenaOp) : Prop :=
  ∀ front size, front ++ [.allocate size] <+: ops →
    (((new capacity 0).exec front).allocate size).1 = 0

/-- The first request since the last reset that is neither empty nor above the
capacity. -/
def firstFit (capacity : Word) : Option Nat → ArenaOp → Option Nat
  | _, .reset => none
  | some first, .allocate _ => some first
  | none, .allocate size =>
      if 0 < rounded size ∧ rounded size ≤ capacity.toNat then some (rounded size) else none

/-- The requests after the first one of a stretch do not fit behind it. -/
def Crowded (capacity : Word) (first : Option Nat) : ArenaOp → Prop
  | .reset => True
  | .allocate size => ∀ r, first = some r → capacity.toNat < (r + rounded size) % 2 ^ 64

/-- A block is refused or starts at the beginning of the buffer. -/
def Hidden (a : ArenaAllocator) : ArenaOp → Prop
  | .reset => True
  | .allocate size =>
      a.offset.toNat = 0 ∨ a.capacity.toNat < (a.offset.toNat + rounded size) % 2 ^ 64

theorem exactEnd_mod (a : ArenaAllocator) (size : Word) :
    a.exactEnd size % 2 ^ 64 = (a.offset.toNat + rounded size) % 2 ^ 64 := by
  rw [exactEnd, rounded, Nat.add_mod_mod]

theorem allocate_eq_zero_iff {a : ArenaAllocator} (hnull : a.buffer = 0) (size : Word) :
    (a.allocate size).1 = 0 ↔ a.Hidden (.allocate size) := by
  obtain ⟨offset, hoffset, ⟨hfull, hrun⟩ | ⟨hle, hrun⟩⟩ := a.allocate_cases size
  · rw [hoffset, exactEnd_mod] at hfull
    rw [hrun]
    exact ⟨fun _ => .inr hfull, fun _ => rfl⟩
  · rw [hoffset, exactEnd_mod] at hle
    rw [hrun, hnull, Nat.zero_add]
    exact ⟨.inl, fun h => h.resolve_right (Nat.not_lt.mpr hle)⟩

/-- The offset is that of the first fitting request of the stretch, and zero
before it. -/
structure Tracks (capacity : Word) (first : Option Nat) (a : ArenaAllocator) : Prop where
  buffer_eq : a.buffer = 0
  capacity_eq : a.capacity = capacity
  offset_eq : a.offset.toNat = first.getD 0
  first_pos : ∀ r, first = some r → 0 < r

namespace Tracks

variable {capacity : Word} {first : Option Nat} {a : ArenaAllocator}

theorem crowded_iff (h : Tracks capacity first a) (op : ArenaOp) :
    Crowded capacity first op ↔ a.Hidden op := by
  cases op with
  | reset => exact Iff.rfl
  | allocate size =>
      rw [Crowded, Hidden, h.offset_eq, h.capacity_eq]
      cases first with
      | none => simp
      | some r =>
          have hpos := h.first_pos r rfl
          simp [hpos.ne']

/-- Before the first fitting request a call moves the offset to its rounded size,
or not at all. -/
theorem step_none (h : Tracks capacity none a) (size : Word) :
    Tracks capacity (firstFit capacity none (.allocate size)) (a.step (.allocate size)) := by
  obtain ⟨hbuffer, hcapacity⟩ := a.step_buffer_capacity (.allocate size)
  have hrounded : rounded size < 2 ^ 64 := Nat.mod_lt _ (by decide)
  obtain ⟨offset, hoffset, hcase⟩ := a.allocate_cases size
  rw [exactEnd_mod, h.offset_eq, Option.getD_none, Nat.zero_add, Nat.mod_eq_of_lt hrounded]
    at hoffset
  rw [hoffset, h.capacity_eq] at hcase
  refine ⟨hbuffer.trans h.buffer_eq, hcapacity.trans h.capacity_eq, ?_, fun r hr => ?_⟩
  · obtain ⟨hfull, hrun⟩ | ⟨hle, hrun⟩ := hcase
    · rw [ArenaAllocator.step, hrun, firstFit, if_neg (by omega)]
      exact h.offset_eq
    · rw [ArenaAllocator.step, hrun, firstFit, hoffset]
      split
      · rfl
      · simp only [Option.getD_none]
        omega
  · rw [firstFit] at hr
    split at hr
    · cases hr
      omega
    · cases hr

/-- A call that does not show a bogus block moves the offset at the first fitting
request only. -/
theorem step (h : Tracks capacity first a) {op : ArenaOp} (hop : a.Hidden op) :
    Tracks capacity (firstFit capacity first op) (a.step op) := by
  cases op with
  | reset => exact ⟨h.buffer_eq, h.capacity_eq, rfl, fun r hr => by cases hr⟩
  | allocate size =>
      cases first with
      | none => exact h.step_none size
      | some r =>
          have hpos := h.first_pos r rfl
          have hoff : a.offset.toNat = r := h.offset_eq
          have hrefused := hop.resolve_left (by omega)
          obtain ⟨offset, hoffset, ⟨_, hrun⟩ | ⟨hle, _⟩⟩ := a.allocate_cases size
          · rw [ArenaAllocator.step, hrun]
            exact h
          · rw [hoffset, exactEnd_mod] at hle
            exact absurd hrefused (Nat.not_lt.mpr hle)

theorem start (capacity : Word) : Tracks capacity none (new capacity 0) :=
  ⟨rfl, rfl, rfl, fun r hr => by cases hr⟩

end Tracks

/-- All pointers of a run are null exactly when, in every stretch between resets, no
request is granted behind the first one that fits. -/
theorem allNull_iff_crowded (capacity : Word) (ops : List ArenaOp) :
    AllNull capacity ops ↔ ∀ front op, front ++ [op] <+: ops →
      Crowded capacity (front.foldl (firstFit capacity) none) op := by
  constructor
  · intro hnull
    have hhidden : ∀ front op, front ++ [op] <+: ops → ((new capacity 0).exec front).Hidden op := by
      intro front op hfront
      cases op with
      | reset => trivial
      | allocate size =>
          exact (allocate_eq_zero_iff (exec_new capacity 0 front).2.1 size).mp
            (hnull front size hfront)
    have htracks := foldl_simulation ArenaAllocator.step (firstFit capacity)
      (fun a first => Tracks capacity first a) Hidden (fun a first op h hop => h.step hop)
      (Tracks.start capacity) hhidden
    intro front op hfront
    have hbefore := htracks front ((List.prefix_append front [op]).trans hfront)
    exact (hbefore.crowded_iff op).mpr (hhidden front op hfront)
  · intro hcrowded
    have htracks := foldl_simulation (firstFit capacity) ArenaAllocator.step
      (Tracks capacity) (Crowded capacity)
      (fun first a op h hop => h.step ((h.crowded_iff op).mp hop)) (Tracks.start capacity) hcrowded
    intro front size hfront
    have hbefore := htracks front ((List.prefix_append front [.allocate size]).trans hfront)
    exact (allocate_eq_zero_iff hbefore.buffer_eq size).mpr
      ((hbefore.crowded_iff _).mp (hcrowded front _ hfront))

theorem eight_dvd_rounded (size : Word) : 8 ∣ rounded size :=
  (Nat.dvd_mod_iff (by decide)).mpr (dvd_alignUp 8 size.toNat)

/-- No request fits below eight bytes. -/
theorem foldl_firstFit_of_lt {capacity : Word} (hsmall : capacity.toNat < 8)
    (front : List ArenaOp) : front.foldl (firstFit capacity) none = none := by
  refine foldl_invariant (firstFit capacity) (fun first => first = none) (fun _ _ => True) ?_ rfl
    (fun _ _ _ => trivial) front List.prefix_rfl
  rintro _ (size | _) rfl _
  · have hdvd := eight_dvd_rounded size
    exact if_neg fun ⟨hpos, hle⟩ => by omega
  · rfl

/-- A run on a null buffer shows only null pointers exactly when no stretch of it
has a request that is granted behind the first fitting one; all runs do exactly
when the capacity is below eight bytes. -/
theorem allNull_iff (capacity : Word) :
    (∀ ops, AllNull capacity ops ↔ ∀ front op, front ++ [op] <+: ops →
      Crowded capacity (front.foldl (firstFit capacity) none) op) ∧
    ((∀ ops, AllNull capacity ops) ↔ capacity.toNat < 8) := by
  refine ⟨allNull_iff_crowded capacity, fun hall => ?_, fun hsmall ops => ?_⟩
  · by_contra hlarge
    have height : rounded 8 = 8 := rfl
    have hfirst : [ArenaOp.allocate 8].foldl (firstFit capacity) none = some 8 := by
      rw [List.foldl_cons, List.foldl_nil, firstFit, height, if_pos (by omega)]
    have hcrowded := (allNull_iff_crowded capacity [.allocate 8, .allocate 0]).mp (hall _)
      [.allocate 8] (.allocate 0) List.prefix_rfl
    rw [hfirst] at hcrowded
    exact hlarge (hcrowded 8 rfl)
  · rw [allNull_iff_crowded]
    intro front op _
    rw [foldl_firstFit_of_lt hsmall]
    cases op with
    | reset => trivial
    | allocate size => exact fun r hr => by cases hr

/-- The second block of eight bytes starts at address eight. -/
theorem not_allNull : ¬ ∀ capacity ops, AllNull capacity ops := by
  intro h
  exact absurd (h 64 [.allocate 8, .allocate 8] [.allocate 8] 8 List.prefix_rfl) (by decide)

end ArenaAllocator
end HwBench
