import Mathlib.Algebra.Ring.Nat
import Mathlib.Data.List.Perm.Subperm
import Mathlib.Data.List.Nodup

/-!
# Address ranges, disjointness and counting

A `Span` is a half-open range of addresses, given by its start and its size in
exact arithmetic. Pairwise disjoint spans inside a region use up at most the
size of the region, which is the counting argument behind every capacity bound.
-/

namespace Machine

/-- The half-open address range `[start, start + size)`. -/
structure Span where
  start : Nat
  size : Nat
  deriving DecidableEq, Repr

namespace Span

/-- The spans have no address in common. -/
def Disjoint (s t : Span) : Prop :=
  s.start + s.size ≤ t.start ∨ t.start + t.size ≤ s.start

instance (s t : Span) : Decidable (s.Disjoint t) := inferInstanceAs (Decidable (_ ∨ _))

/-- The span lies inside `[lo, hi)`. -/
def Within (s : Span) (lo hi : Nat) : Prop :=
  lo ≤ s.start ∧ s.start + s.size ≤ hi

instance (s : Span) (lo hi : Nat) : Decidable (s.Within lo hi) :=
  inferInstanceAs (Decidable (_ ∧ _))

/-- The addresses of a span, in ascending order. -/
def addrs (s : Span) : List Nat := List.range' s.start s.size

theorem mem_addrs {s : Span} {x : Nat} : x ∈ s.addrs ↔ s.start ≤ x ∧ x < s.start + s.size :=
  List.mem_range'_1

theorem nodup_flatMap_addrs {spans : List Span} (h : spans.Pairwise Disjoint) :
    (spans.flatMap addrs).Nodup := by
  refine List.nodup_flatMap.mpr ⟨fun s _ => List.nodup_range', h.imp ?_⟩
  intro s t hst
  refine List.disjoint_left.mpr fun x hs ht => ?_
  rw [mem_addrs] at hs ht
  obtain hlt | hlt := hst <;> omega

/-- Pairwise disjoint spans inside a region are no larger than the region. -/
theorem sum_size_le {spans : List Span} {lo hi : Nat} (h : spans.Pairwise Disjoint)
    (hin : ∀ s ∈ spans, s.Within lo hi) : (spans.map size).sum ≤ hi - lo := by
  have hsub : spans.flatMap addrs ⊆ List.range' lo (hi - lo) := by
    intro x hx
    obtain ⟨s, hs, hxs⟩ := List.mem_flatMap.mp hx
    obtain ⟨hlo, hhi⟩ := hin s hs
    rw [mem_addrs] at hxs
    rw [List.mem_range'_1]
    omega
  have hlen := ((nodup_flatMap_addrs h).subperm hsub).length_le
  have haddrs : (fun s : Span => s.addrs.length) = size := by
    funext s
    exact List.length_range'
  rwa [List.length_flatMap, haddrs, List.length_range'] at hlen

/-- Parts of disjoint regions are disjoint. -/
theorem Disjoint.mono {s t u v : Span} (h : s.Disjoint t)
    (hu : u.Within s.start (s.start + s.size)) (hv : v.Within t.start (t.start + t.size)) :
    u.Disjoint v := by
  obtain ⟨hu, hu'⟩ := hu
  obtain ⟨hv, hv'⟩ := hv
  obtain hbefore | hbehind := h
  · exact .inl (by omega)
  · exact .inr (by omega)

/-- Element `k` of an array of elements of one size. -/
def nth (start width k : Nat) : Span := ⟨start + k * width, width⟩

theorem nth_within (start width : Nat) {k n : Nat} (hk : k < n) :
    (nth start width k).Within start (start + n * width) := by
  have hnext : (k + 1) * width ≤ n * width := Nat.mul_le_mul_right width hk
  rw [Nat.succ_mul] at hnext
  exact ⟨Nat.le_add_right _ _, by dsimp only [nth]; omega⟩

theorem nth_disjoint (start width : Nat) {k k' : Nat} (hne : k ≠ k') :
    (nth start width k).Disjoint (nth start width k') := by
  obtain hlt | hgt := Nat.lt_or_gt_of_ne hne
  · exact .inl (Nat.le_trans (nth_within start width hlt).2 (Nat.le_refl _))
  · exact .inr (Nat.le_trans (nth_within start width hgt).2 (Nat.le_refl _))

end Span
end Machine
