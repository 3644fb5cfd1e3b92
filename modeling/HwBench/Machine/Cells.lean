import HwBench.Machine.Heap
import HwBench.Machine.Recording
import HwBench.Machine.Span

/-!
# Variables in memory

Variables that lie at disjoint places of one memory do not disturb each other: a list
of assignments, executed byte by byte, leaves in every assigned variable the value that
was written there. A computation that reads variables records their places.
-/

namespace Machine

/-- Variables at disjoint places of one memory. -/
structure Cells (ι : Type) where
  place : ι → Span
  apart : ∀ i j, i ≠ j → (place i).Disjoint (place j)

namespace Cells

variable {ι : Type} (c : Cells ι)

/-- The bytes of a variable, as a little-endian number. -/
def get (mem : Nat → Byte) (i : ι) : Nat := readLE mem (c.place i).start (c.place i).size

def set (mem : Nat → Byte) (i : ι) (value : Nat) : Nat → Byte :=
  writeLE mem (c.place i).start (c.place i).size value

/-- The assignments in program order. -/
def setAll (mem : Nat → Byte) (writes : List (ι × Nat)) : Nat → Byte :=
  writes.foldl (fun mem w => c.set mem w.1 w.2) mem

theorem get_set_self (mem : Nat → Byte) (i : ι) (value : Nat) :
    c.get (c.set mem i value) i = value % 256 ^ (c.place i).size :=
  readLE_writeLE mem _ _ value

/-- An assignment leaves the other variables alone. -/
theorem get_set_ne (mem : Nat → Byte) {i j : ι} (hne : j ≠ i) (value : Nat) :
    c.get (c.set mem i value) j = c.get mem j := by
  refine readLE_congr fun x hlo hhi => writeLE_outside mem value ?_
  obtain hbefore | hbehind := c.apart j i hne <;> omega

/-- A variable that is not assigned keeps its value. -/
theorem get_setAll_of_not_mem {writes : List (ι × Nat)} {i : ι}
    (hi : ∀ w ∈ writes, w.1 ≠ i) (mem : Nat → Byte) :
    c.get (c.setAll mem writes) i = c.get mem i := by
  induction writes generalizing mem with
  | nil => rfl
  | cons w writes ih =>
      have hlater : ∀ w' ∈ writes, w'.1 ≠ i := fun w' hw' => hi w' (List.mem_cons_of_mem w hw')
      exact (ih hlater _).trans (c.get_set_ne mem (hi w List.mem_cons_self).symm w.2)

/-- If every assignment to a variable gives it the same value, it has this value once
it was assigned. -/
theorem get_setAll {writes : List (ι × Nat)} {i : ι} {value : Nat}
    (hsize : value < 256 ^ (c.place i).size) (hvalue : ∀ w ∈ writes, w.1 = i → w.2 = value)
    (hi : ∃ w ∈ writes, w.1 = i) (mem : Nat → Byte) :
    c.get (c.setAll mem writes) i = value := by
  induction writes generalizing mem with
  | nil =>
      obtain ⟨w, hw, _⟩ := hi
      exact absurd hw List.not_mem_nil
  | cons w writes ih =>
      have hlater : ∀ w' ∈ writes, w'.1 = i → w'.2 = value :=
        fun w' hw' => hvalue w' (List.mem_cons_of_mem w hw')
      by_cases hagain : ∃ w' ∈ writes, w'.1 = i
      · exact ih hlater hagain _
      · -- `w` is the last assignment to the variable
        have hrest : ∀ w' ∈ writes, w'.1 ≠ i := fun w' hw' heq => hagain ⟨w', hw', heq⟩
        have hw : w.1 = i := by
          obtain ⟨w', hw', heq⟩ := hi
          obtain rfl | hmem := List.mem_cons.mp hw'
          · exact heq
          · exact absurd heq (hrest w' hmem)
        calc c.get (c.setAll mem (w :: writes)) i
            = c.get (c.set mem w.1 w.2) i := c.get_setAll_of_not_mem hrest _
          _ = value % 256 ^ (c.place i).size := by
            rw [hw, c.get_set_self, hvalue w List.mem_cons_self hw]
          _ = value := Nat.mod_eq_of_lt hsize

/-- Different variables lie apart. -/
theorem pairwise_place {is : List ι} (hnodup : is.Nodup) :
    (is.map c.place).Pairwise Span.Disjoint :=
  List.pairwise_map.mpr (hnodup.imp fun hne => c.apart _ _ hne)

end Cells

/-- A computation that reads memory, with the places it has read so far. -/
abbrev Reading (ε α : Type) : Type := Recording Span ε α

namespace Cells

variable {ι ε : Type} (c : Cells ι) (mem : Nat → Byte)

/-- The value of a variable, which is read. -/
def read (i : ι) : Reading ε Nat := do
  Recording.record (c.place i)
  pure (c.get mem i)

theorem gives_read (i : ι) : (c.read mem i : Reading ε Nat).Gives (c.get mem i) [c.place i] :=
  (Recording.Gives.record (c.place i)).bind (.pure _)

end Cells

end Machine
