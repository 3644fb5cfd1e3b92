import Mathlib.Algebra.Order.BigOperators.Group.List
import Mathlib.Algebra.Order.Field.Basic
import Mathlib.Data.List.Sort

/-!
# Ranks in a sorted list

The entry of a sorted list at an index bounds how many entries lie below, at and
above it. Equal entries make the bounds inequalities: an index says where an entry
may stand, not how many entries share its value.

Two sorted lists compare entry by entry as the counts of their entries do, so an entry
moves by at most `k` ranks when `k` entries are replaced.

The average of a list lies between bounds of its entries.
-/

namespace Ranks

variable {α : Type*} [LinearOrder α] {l : List α}

/-- A list has one sorted order. -/
theorem sorted_unique {l m : List α} (hperm : l.Perm m) (hl : l.Pairwise (· ≤ ·))
    (hm : m.Pairwise (· ≤ ·)) : l = m :=
  hperm.eq_of_pairwise (fun _ _ _ _ => le_antisymm) hl hm

section Sorted

variable (h : l.Pairwise (· ≤ ·))

include h

theorem getElem_le_getElem {i j : Nat} (hij : i ≤ j) (hj : j < l.length) : l[i] ≤ l[j] := by
  obtain rfl | hlt := Nat.eq_or_lt_of_le hij
  · exact le_refl _
  · exact List.pairwise_iff_getElem.mp h i j (hlt.trans hj) hj hlt

/-- The entries up to an index are not above the one at it. -/
theorem lt_countP_le {i : Nat} (hi : i < l.length) : i < l.countP (· ≤ l[i]) := by
  have hfront : (l.take (i + 1)).countP (· ≤ l[i]) = (l.take (i + 1)).length := by
    refine List.countP_eq_length.mpr fun x hx => ?_
    obtain ⟨j, hj, rfl⟩ := List.mem_take_iff_getElem.mp hx
    exact decide_eq_true (getElem_le_getElem h (by omega) hi)
  have hsub := (List.take_sublist (i + 1) l).countP_le (p := fun x => decide (x ≤ l[i]))
  rw [hfront, List.length_take] at hsub
  omega

/-- Only entries before an index can be below the one at it. -/
theorem countP_lt_le {i : Nat} (hi : i < l.length) : l.countP (· < l[i]) ≤ i := by
  have hback : (l.drop i).countP (· < l[i]) = 0 := by
    refine List.countP_eq_zero.mpr fun x hx => ?_
    obtain ⟨j, hj, rfl⟩ := List.mem_drop_iff_getElem.mp hx
    simpa using getElem_le_getElem h (Nat.le_add_right i j) (by omega)
  have hfront := List.countP_le_length (p := fun x => decide (x < l[i])) (l := l.take i)
  have hsplit := congrArg (List.countP (· < l[i])) (List.take_append_drop i l)
  rw [List.countP_append, hback] at hsplit
  rw [List.length_take] at hfront
  omega

/-- The entries from an index on are not below the one at it. -/
theorem length_le_add_countP_ge {i : Nat} (hi : i < l.length) :
    l.length ≤ i + l.countP (l[i] ≤ ·) := by
  have hlow := countP_lt_le h hi
  have hsplit := List.length_eq_countP_add_countP (fun x => decide (x < l[i])) (l := l)
  simp only [decide_eq_true_eq, not_lt] at hsplit
  omega

/-- Only entries behind an index can be above the one at it. -/
theorem add_countP_gt_lt {i : Nat} (hi : i < l.length) : i + l.countP (l[i] < ·) < l.length := by
  have hlow := lt_countP_le h hi
  have hsplit := List.length_eq_countP_add_countP (fun x => decide (x ≤ l[i])) (l := l)
  simp only [decide_eq_true_eq, not_le] at hsplit
  omega

/-- At most `i` entries are not above a value below the one at index `i`. -/
theorem countP_le_of_lt {i : Nat} (hi : i < l.length) {x : α} (hx : x < l[i]) :
    l.countP (· ≤ x) ≤ i := by
  refine le_trans (List.countP_mono_left fun y _ hy => ?_) (countP_lt_le h hi)
  exact decide_eq_true ((of_decide_eq_true hy).trans_lt hx)

/-- The entry at an index is at most `x` when more entries than the index are. -/
theorem getElem_le_iff {i : Nat} (hi : i < l.length) {x : α} :
    l[i] ≤ x ↔ i < l.countP (· ≤ x) := by
  constructor
  · intro hle
    refine (lt_countP_le h hi).trans_le (List.countP_mono_left fun y _ hy => ?_)
    exact decide_eq_true ((of_decide_eq_true hy).trans hle)
  · intro hcount
    by_contra hlt
    exact absurd (countP_le_of_lt h hi (not_le.mp hlt)) (not_le.mpr hcount)

/-- Entries of two sorted lists compare as the counts of the lists do, up to `k` ranks. -/
theorem getElem_le_getElem_of_countP {m : List α} (hm : m.Pairwise (· ≤ ·)) {k i j : Nat}
    (hcount : ∀ x, m.countP (· ≤ x) ≤ l.countP (· ≤ x) + k) (hi : i < l.length)
    (hj : j < m.length) (hij : i + k ≤ j) : l[i] ≤ m[j] := by
  have hrank := lt_countP_le hm hj
  have hle := hcount m[j]
  exact (getElem_le_iff h hi).mpr (by omega)

end Sorted

/-- Smaller entries are counted earlier. -/
theorem countP_le_of_forall₂ {l m : List α} (h : List.Forall₂ (· ≤ ·) l m) (x : α) :
    m.countP (· ≤ x) ≤ l.countP (· ≤ x) := by
  induction h with
  | nil => exact Nat.le_refl 0
  | @cons a b l m hab _ ih =>
      rw [List.countP_cons, List.countP_cons]
      have hhead : (if decide (b ≤ x) then 1 else 0) ≤ if decide (a ≤ x) then 1 else 0 := by
        by_cases hb : b ≤ x
        · simp [hb, hab.trans hb]
        · simp [hb]
      omega

section Replaced

variable {β : Type*} {k : Nat} {l m : List β}

/-- At most `k` entries are replaced, in any order. -/
def Replaced (k : Nat) (l m : List β) : Prop :=
  ∃ kept old new, l.Perm (kept ++ old) ∧ m.Perm (kept ++ new) ∧ old.length = new.length ∧
    new.length ≤ k

theorem Replaced.symm (h : Replaced k l m) : Replaced k m l := by
  obtain ⟨kept, old, new, hl, hm, hlength, hk⟩ := h
  exact ⟨kept, new, old, hm, hl, hlength.symm, hlength ▸ hk⟩

theorem Replaced.length_eq (h : Replaced k l m) :
    m.length = l.length := by
  obtain ⟨kept, old, new, hl, hm, hlength, _⟩ := h
  rw [hl.length_eq, hm.length_eq, List.length_append, List.length_append, hlength]

/-- A replacement changes a count by at most the number of entries replaced. -/
theorem Replaced.countP_le (h : Replaced k l m) (p : β → Bool) :
    m.countP p ≤ l.countP p + k := by
  obtain ⟨kept, old, new, hl, hm, _, hk⟩ := h
  have hnew := List.countP_le_length (p := p) (l := new)
  rw [hl.countP_eq, hm.countP_eq, List.countP_append, List.countP_append]
  omega

end Replaced

section Mean

variable {K : Type*} [Field K] [LinearOrder K] [IsStrictOrderedRing K] {xs : List K} {a : K}

theorem le_mean (hne : xs ≠ []) (h : ∀ x ∈ xs, a ≤ x) : a ≤ xs.sum / xs.length := by
  have hpos : (0 : K) < xs.length := Nat.cast_pos.mpr (List.length_pos_of_ne_nil hne)
  rw [le_div_iff₀ hpos, mul_comm, ← nsmul_eq_mul]
  exact List.card_nsmul_le_sum xs a h

theorem mean_le (hne : xs ≠ []) (h : ∀ x ∈ xs, x ≤ a) : xs.sum / xs.length ≤ a := by
  have hpos : (0 : K) < xs.length := Nat.cast_pos.mpr (List.length_pos_of_ne_nil hne)
  rw [div_le_iff₀ hpos, mul_comm, ← nsmul_eq_mul]
  exact List.sum_le_card_nsmul xs a h

end Mean

end Ranks
