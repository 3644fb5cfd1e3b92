import Mathlib.Data.List.Basic
import Mathlib.Tactic.Ring

/-!
# Changes between neighbouring entries

How often a sequence changes its value from one entry to the next. In a list that
is repeated, the changes at the seams between the copies count as well, and a
list with two different entries changes at least twice when it is closed to a
circle. So its repetitions have at least as many changes as those of a list that
has a single one.
-/

namespace Changes

variable {α : Type*} [DecidableEq α]

/-- One if the values differ. -/
def change (a b : α) : Nat := if a = b then 0 else 1

/-- The number of positions whose entry differs from the previous one. -/
def changes : List α → Nat
  | [] => 0
  | [_] => 0
  | a :: b :: l => change a b + changes (b :: l)

/-- The change between the last entry of one list and the first of another. -/
def seam (l m : List α) : Nat :=
  match l.getLast?, m.head? with
  | some a, some b => change a b
  | _, _ => 0

@[simp] theorem change_self (a : α) : change a a = 0 := if_pos rfl

theorem change_of_ne {a b : α} (h : a ≠ b) : change a b = 1 := if_neg h

@[simp] theorem changes_nil : changes ([] : List α) = 0 := rfl

@[simp] theorem changes_singleton (a : α) : changes [a] = 0 := rfl

@[simp] theorem changes_cons_cons (a b : α) (l : List α) :
    changes (a :: b :: l) = change a b + changes (b :: l) := rfl

@[simp] theorem seam_nil_left (m : List α) : seam [] m = 0 := rfl

@[simp] theorem seam_singleton (a b : α) (m : List α) : seam [a] (b :: m) = change a b := rfl

@[simp] theorem seam_cons_cons (a b : α) (l m : List α) : seam (a :: b :: l) m = seam (b :: l) m := by
  rw [seam, seam, List.getLast?_cons_cons]

theorem changes_append (l m : List α) : changes (l ++ m) = changes l + seam l m + changes m := by
  induction l with
  | nil => simp
  | cons a l ih =>
      cases l with
      | nil =>
          cases m with
          | nil => rfl
          | cons b m => simp
      | cons b l =>
          simp only [List.cons_append, changes_cons_cons, seam_cons_cons] at ih ⊢
          omega

@[simp] theorem changes_replicate (n : Nat) (a : α) : changes (List.replicate n a) = 0 := by
  induction n with
  | zero => rfl
  | succ n ih =>
      cases n with
      | zero => rfl
      | succ n => simpa [List.replicate_succ] using ih

/-- The seam to a repeated list is the seam to the list. -/
theorem seam_flatten_replicate (l : List α) (n : Nat) :
    seam l (List.replicate (n + 1) l).flatten = seam l l := by
  cases l with
  | nil => rfl
  | cons a l => rw [seam, seam, List.replicate_succ, List.flatten_cons, List.cons_append,
      List.head?_cons, List.head?_cons]

/-- Repeating a list repeats its changes, with a seam between any two copies. -/
theorem changes_flatten_replicate (l : List α) (n : Nat) :
    changes (List.replicate (n + 1) l).flatten = (n + 1) * changes l + n * seam l l := by
  induction n with
  | zero => simp
  | succ n ih =>
      rw [List.replicate_succ, List.flatten_cons, changes_append, seam_flatten_replicate, ih]
      ring

/-- Without a change all entries are the first one. -/
theorem eq_head_of_changes_eq_zero {a : α} {l : List α} (h : changes (a :: l) = 0) :
    ∀ b ∈ a :: l, b = a := by
  induction l generalizing a with
  | nil => simp
  | cons c l ih =>
      rw [changes_cons_cons, Nat.add_eq_zero_iff] at h
      have hac : a = c := by
        by_contra hne
        rw [change_of_ne hne] at h
        exact Nat.one_ne_zero h.1
      subst hac
      intro b hb
      exact (List.mem_cons.mp hb).elim id (ih h.2 b)

/-- A single change leaves the last entry different from the first. -/
theorem getLast?_ne_of_changes_eq_one {a : α} {l : List α} (h : changes (a :: l) = 1) :
    (a :: l).getLast? ≠ some a := by
  induction l generalizing a with
  | nil => cases h
  | cons c l ih =>
      rw [changes_cons_cons] at h
      rw [List.getLast?_cons_cons]
      by_cases hac : a = c
      · subst hac
        rw [change_self, Nat.zero_add] at h
        exact ih h
      · rw [change_of_ne hac] at h
        intro hlast
        have hsame := eq_head_of_changes_eq_zero (by omega : changes (c :: l) = 0) a
          (List.mem_of_getLast? hlast)
        exact hac hsame

section Bounds

variable {l : List α} {a b : α} (ha : a ∈ l) (hb : b ∈ l) (hne : a ≠ b)

include ha hb hne

theorem one_le_changes : 1 ≤ changes l := by
  cases l with
  | nil => exact absurd ha List.not_mem_nil
  | cons c l =>
      by_contra hzero
      have hsame := eq_head_of_changes_eq_zero (by omega : changes (c :: l) = 0)
      exact hne ((hsame a ha).trans (hsame b hb).symm)

/-- Around a circle there is no single change. -/
theorem two_le_changes_add_seam : 2 ≤ changes l + seam l l := by
  have hone := one_le_changes ha hb hne
  by_cases hexact : changes l = 1
  · cases l with
    | nil => exact absurd ha List.not_mem_nil
    | cons c l =>
        have hlast := getLast?_ne_of_changes_eq_one hexact
        have hseam : seam (c :: l) (c :: l) = 1 := by
          rw [seam, List.head?_cons, List.getLast?_eq_some_getLast (List.cons_ne_nil c l)] at *
          exact change_of_ne fun heq => hlast (congrArg some heq)
        omega
  · omega

/-- The fewest changes that repetitions of the list can have. -/
theorem le_changes_flatten_replicate (n : Nat) :
    2 * n + 1 ≤ changes (List.replicate (n + 1) l).flatten := by
  have hone := one_le_changes ha hb hne
  have htwo := Nat.mul_le_mul_left n (two_le_changes_add_seam ha hb hne)
  rw [changes_flatten_replicate]
  calc 2 * n + 1 ≤ n * (changes l + seam l l) + changes l := by omega
    _ = (n + 1) * changes l + n * seam l l := by ring

end Bounds

/-- Two blocks of different values attain it. -/
theorem changes_flatten_replicate_blocks {a b : α} (hne : a ≠ b) (m n k : Nat) :
    changes (List.replicate (k + 1)
      (List.replicate (m + 1) a ++ List.replicate (n + 1) b)).flatten = 2 * k + 1 := by
  have hinner : seam (List.replicate (m + 1) a) (List.replicate (n + 1) b) = 1 := by
    rw [seam, List.getLast?_replicate, List.head?_replicate]
    exact change_of_ne hne
  have houter : seam (List.replicate (m + 1) a ++ List.replicate (n + 1) b)
      (List.replicate (m + 1) a ++ List.replicate (n + 1) b) = 1 := by
    rw [seam, List.getLast?_append, List.head?_append, List.getLast?_replicate,
      List.head?_replicate]
    exact change_of_ne hne.symm
  rw [changes_flatten_replicate, changes_append, hinner, houter, changes_replicate,
    changes_replicate]
  omega

end Changes
