import HwBench.Machine.Span
import HwBench.Machine.Word

/-!
# The layout of a struct in memory

The members of a struct are placed in the order of their declaration, each at the
next multiple of its alignment. The size of the struct is its end rounded up to
its own alignment, so the elements of an array keep all members aligned.
-/

namespace Machine

/-- A data member, with the alignment that its type or an `alignas` gives it. -/
structure Field where
  size : Nat
  align : Nat
  deriving DecidableEq, Repr

namespace Field

/-- The places of the members from offset `pos` on. -/
def place : (pos : Nat) → List Field → List Span
  | _, [] => []
  | pos, f :: fs => ⟨alignUp f.align pos, f.size⟩ :: place (alignUp f.align pos + f.size) fs

/-- The offset behind the last member. -/
def endOf : (pos : Nat) → List Field → Nat
  | pos, [] => pos
  | pos, f :: fs => endOf (alignUp f.align pos + f.size) fs

section Place

variable {fs : List Field} (halign : ∀ f ∈ fs, 0 < f.align)

include halign

theorem le_endOf (pos : Nat) : pos ≤ endOf pos fs := by
  induction fs generalizing pos with
  | nil => exact Nat.le_refl pos
  | cons f fs ih =>
      have hup := le_alignUp pos (halign f List.mem_cons_self)
      have hrest := ih (fun g hg => halign g (List.mem_cons_of_mem f hg))
        (alignUp f.align pos + f.size)
      simp only [endOf]
      omega

/-- Every member lies between the offset it is placed from and the end. -/
theorem within_place {pos : Nat} {s : Span} (hs : s ∈ place pos fs) :
    s.Within pos (endOf pos fs) := by
  induction fs generalizing pos with
  | nil => exact absurd hs List.not_mem_nil
  | cons f fs ih =>
      have hup := le_alignUp pos (halign f List.mem_cons_self)
      have hlater : ∀ g ∈ fs, 0 < g.align := fun g hg => halign g (List.mem_cons_of_mem f hg)
      obtain rfl | hmem := List.mem_cons.mp hs
      · exact ⟨hup, le_endOf hlater _⟩
      · obtain ⟨hlo, hhi⟩ := ih hlater hmem
        exact ⟨by omega, hhi⟩

/-- The members lie one behind the other. -/
theorem pairwise_place (pos : Nat) :
    (place pos fs).Pairwise fun s t => s.start + s.size ≤ t.start := by
  induction fs generalizing pos with
  | nil => exact List.Pairwise.nil
  | cons f fs ih =>
      have hlater : ∀ g ∈ fs, 0 < g.align := fun g hg => halign g (List.mem_cons_of_mem f hg)
      exact List.pairwise_cons.mpr ⟨fun t ht => (within_place hlater ht).1, ih hlater _⟩

end Place

/-- Every member has its size and is aligned. -/
theorem forall₂_place (pos : Nat) (fs : List Field) :
    List.Forall₂ (fun f s => s.size = f.size ∧ f.align ∣ s.start) fs (place pos fs) := by
  induction fs generalizing pos with
  | nil => exact .nil
  | cons f fs ih => exact .cons ⟨rfl, dvd_alignUp f.align pos⟩ (ih _)

end Field

/-- A struct, with its own alignment. -/
structure StructLayout where
  fields : List Field
  align : Nat
  align_pos : 0 < align
  fields_align : ∀ f ∈ fields, 0 < f.align ∧ f.align ∣ align

namespace StructLayout

variable (l : StructLayout)

/-- The places of the members in the struct. -/
def members : List Span := Field.place 0 l.fields

/-- `sizeof` -/
def size : Nat := alignUp l.align (Field.endOf 0 l.fields)

theorem align_dvd_size : l.align ∣ l.size := dvd_alignUp _ _

/-- A member lies inside the struct. -/
theorem within_size {s : Span} (hs : s ∈ l.members) : s.start + s.size ≤ l.size := by
  have hend := (Field.within_place (fun f hf => (l.fields_align f hf).1) hs).2
  exact hend.trans (le_alignUp _ l.align_pos)

/-- No two members overlap. -/
theorem pairwise_members : l.members.Pairwise fun s t => s.start + s.size ≤ t.start :=
  Field.pairwise_place (fun f hf => (l.fields_align f hf).1) 0

/-- A member of an array element is as aligned as its type asks, if the array is as
aligned as the struct. -/
theorem align_dvd_address {base : Nat} (hbase : l.align ∣ base) (k : Nat) :
    List.Forall₂ (fun f s => f.align ∣ base + k * l.size + s.start) l.fields l.members := by
  refine (List.forall₂_iff_get.mpr ?_)
  obtain ⟨hlength, hplace⟩ := List.forall₂_iff_get.mp (Field.forall₂_place 0 l.fields)
  refine ⟨hlength, fun i hi hi' => ?_⟩
  have hfield := (l.fields_align _ (List.get_mem l.fields ⟨i, hi⟩)).2
  have helement : l.align ∣ base + k * l.size :=
    Nat.dvd_add hbase (l.align_dvd_size.mul_left k)
  exact Nat.dvd_add (hfield.trans helement) (hplace i hi hi').2

/-- Different members of the elements of an array do not overlap. -/
theorem disjoint_elements (base : Nat) {k k' : Nat} {i j : Fin l.members.length}
    (hne : i ≠ j ∨ k ≠ k') :
    (Span.mk (base + k * l.size + (l.members.get i).start) (l.members.get i).size).Disjoint
      ⟨base + k' * l.size + (l.members.get j).start, (l.members.get j).size⟩ := by
  have hi := l.within_size (List.get_mem l.members i)
  have hj := l.within_size (List.get_mem l.members j)
  have hpairwise := List.pairwise_iff_getElem.mp l.pairwise_members
  obtain hlt | rfl | hgt := Nat.lt_trichotomy k k'
  · have hnext : (k + 1) * l.size ≤ k' * l.size := Nat.mul_le_mul_right _ hlt
    rw [Nat.succ_mul] at hnext
    left
    dsimp only
    omega
  · have hij : i.val ≠ j.val := fun heq => hne.elim (fun h => h (Fin.ext heq)) fun h => h rfl
    obtain hbefore | hbehind := Nat.lt_or_gt_of_ne hij
    · have horder : (l.members.get i).start + (l.members.get i).size ≤ (l.members.get j).start :=
        hpairwise i j i.isLt j.isLt hbefore
      left
      dsimp only
      omega
    · have horder : (l.members.get j).start + (l.members.get j).size ≤ (l.members.get i).start :=
        hpairwise j i j.isLt i.isLt hbehind
      right
      dsimp only
      omega
  · have hnext : (k' + 1) * l.size ≤ k * l.size := Nat.mul_le_mul_right _ hgt
    rw [Nat.succ_mul] at hnext
    right
    dsimp only
    omega

end StructLayout

end Machine
