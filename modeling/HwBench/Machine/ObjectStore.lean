import HwBench.Machine.Heap
import HwBench.Machine.Trace
import Mathlib.Data.List.Basic
import Mathlib.Logic.Function.Basic

/-!
# Objects with contents of their own

The abstract purpose of an allocator of objects of one size: it hands out names that are
not in use, and keeps the contents of each object apart from those of all others. There
are no addresses, so no two objects can overlap.
-/

namespace Machine

/-- What a client of the store sees. -/
inductive ObjectEvent (κ : Type) where
  | allocated (k : κ)
  | exhausted
  | freed (k : κ)
  | wrote (k : κ) (i : Nat) (value : Byte)
  | read (k : κ) (i : Nat) (value : Byte)
  deriving DecidableEq, Repr

/-- The objects in use and their bytes. -/
structure ObjectStore (κ : Type) where
  live : List κ
  contents : κ → Nat → Byte

namespace ObjectStore

variable {κ : Type} [DecidableEq κ]

/-- The contents of one object are replaced. -/
def put (s : ObjectStore κ) (k : κ) (bytes : Nat → Byte) : ObjectStore κ :=
  { s with contents := Function.update s.contents k bytes }

/-- A new object has arbitrary contents. -/
inductive Step (names : κ → Prop) (size : Nat) :
    ObjectStore κ → ObjectEvent κ → ObjectStore κ → Prop
  | allocated {s : ObjectStore κ} {k : κ} (bytes : Nat → Byte) : names k → k ∉ s.live →
      Step names size s (.allocated k) { s.put k bytes with live := k :: s.live }
  | exhausted {s : ObjectStore κ} : (∀ k, names k → k ∈ s.live) →
      Step names size s .exhausted s
  | freed {s : ObjectStore κ} {k : κ} : k ∈ s.live →
      Step names size s (.freed k) { s with live := s.live.erase k }
  | wrote {s : ObjectStore κ} {k : κ} {i : Nat} (value : Byte) : k ∈ s.live → i < size →
      Step names size s (.wrote k i value) (s.put k (Function.update (s.contents k) i value))
  | read {s : ObjectStore κ} {k : κ} {i : Nat} : k ∈ s.live → i < size →
      Step names size s (.read k i (s.contents k i)) s

/-- The event does not change byte `i` of object `k`. -/
def Leaves (k : κ) (i : Nat) (e : ObjectEvent κ) : Prop :=
  e ≠ .freed k ∧ ∀ value, e ≠ .wrote k i value

variable {names : κ → Prop} {size : Nat} {k : κ} {i : Nat} {v w : Byte}

/-- A byte of an object in use keeps its value. -/
theorem Step.leaves {s t : ObjectStore κ} {e : ObjectEvent κ} (h : Step names size s e t)
    (he : Leaves k i e) (hs : k ∈ s.live ∧ s.contents k i = v) :
    k ∈ t.live ∧ t.contents k i = v := by
  obtain ⟨hlive, hvalue⟩ := hs
  cases h with
  | @allocated k' bytes _ hnew =>
      have hne : k ≠ k' := fun heq => hnew (heq ▸ hlive)
      exact ⟨List.mem_cons_of_mem _ hlive, by simpa [put, Function.update_of_ne hne] using hvalue⟩
  | exhausted _ => exact ⟨hlive, hvalue⟩
  | @freed k' _ =>
      have hne : k ≠ k' := fun heq => he.1 (heq ▸ rfl)
      exact ⟨(List.mem_erase_of_ne hne).mpr hlive, hvalue⟩
  | @wrote k' i' value _ _ =>
      refine ⟨hlive, ?_⟩
      by_cases hk : k = k'
      · subst hk
        have hi : i ≠ i' := fun heq => he.2 value (heq ▸ rfl)
        simpa [put, Function.update_of_ne hi] using hvalue
      · simpa [put, Function.update_of_ne hk] using hvalue
  | read _ _ => exact ⟨hlive, hvalue⟩

/-- A read gives the value of the last write to the same byte. -/
theorem read_of_wrote {s t : ObjectStore κ} {front between : List (ObjectEvent κ)}
    (h : Trace (Step names size) s (front ++ .wrote k i v :: (between ++ [.read k i w])) t)
    (hbetween : ∀ e ∈ between, Leaves k i e) : w = v := by
  obtain ⟨s₁, _, hrest⟩ := Trace.append_iff.mp h
  cases hrest with
  | cons hwrote hrest =>
      obtain ⟨s₂, hmiddle, hlast⟩ := Trace.append_iff.mp hrest
      have hwritten : k ∈ s₂.live ∧ s₂.contents k i = v := by
        refine hmiddle.invariant (P := fun s => k ∈ s.live ∧ s.contents k i = v) ?_ hbetween
          fun _ _ _ hs he hstep => hstep.leaves he hs
        cases hwrote with
        | wrote value hlive _ => exact ⟨hlive, by simp [put]⟩
      cases hlast with
      | cons hread _ =>
          cases hread with
          | read _ _ => exact hwritten.2

end ObjectStore

end Machine
