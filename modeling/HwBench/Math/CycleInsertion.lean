import Mathlib.Data.Finset.Range
import Mathlib.GroupTheory.Perm.Cycle.Basic

/-!
# Building a cycle one element at a time

Composing a cycle on `s` with the transposition of a new point `a` and a point
`b` of `s` inserts `a` into the cycle, in front of `b`. Conversely a point can be
taken out of a cycle in the same way. So a permutation that is one cycle on
`{0, ..., m}` is the product of transpositions `(i + 1, c i)` with `c i ≤ i`, in
exactly one way.
-/

namespace CycleInsertion

open Equiv Equiv.Perm

section Insert

variable {α : Type*} [DecidableEq α] {f : Perm α} {s : Finset α} {a b : α}

/-- A pair of points of a set can be exchanged without leaving it. -/
theorem swap_apply_mem_iff {t : Finset α} (ha : a ∈ t) (hb : b ∈ t) (x : α) :
    swap a b x ∈ t ↔ x ∈ t := by
  rw [swap_apply_def]
  split_ifs with hxa hxb
  · simp only [hxa, ha, hb]
  · simp only [hxb, ha, hb]
  · rfl

/-- One step of `f` is one step of the longer cycle, or two through `a`. -/
theorem sameCycle_insert_apply (hfix : f a = a) {x : α} (hx : x ≠ a) :
    (swap a b * f).SameCycle x (f x) := by
  have hne : f x ≠ a := fun h => hx (f.injective (h.trans hfix.symm))
  by_cases hfx : f x = b
  · refine ⟨2, ?_⟩
    change swap a b (f (swap a b (f x))) = f x
    rw [hfx, swap_apply_right, hfix, swap_apply_left]
  · refine ⟨1, ?_⟩
    rw [zpow_one, Perm.mul_apply, swap_apply_of_ne_of_ne hne hfx]

theorem sameCycle_insert_pow (hfix : f a = a) {x : α} (hx : x ≠ a) (n : ℕ) :
    (f ^ n) x ≠ a ∧ (swap a b * f).SameCycle x ((f ^ n) x) := by
  induction n with
  | zero => exact ⟨hx, SameCycle.refl _ _⟩
  | succ n ih =>
      obtain ⟨hne, hcycle⟩ := ih
      rw [pow_succ', Perm.mul_apply]
      exact ⟨fun h => hne (f.injective (h.trans hfix.symm)),
        hcycle.trans (sameCycle_insert_apply hfix hne)⟩

/-- Insert the fixed point `a` into a cycle, in front of `b`. -/
theorem isCycleOn_insert (hf : f.IsCycleOn s) (ha : a ∉ s) (hfix : f a = a) (hb : b ∈ s) :
    (swap a b * f).IsCycleOn (insert a s : Finset α) := by
  have hmem : ∀ x, (swap a b * f) x ∈ insert a s ↔ x ∈ insert a s := by
    intro x
    rw [Perm.mul_apply, swap_apply_mem_iff (Finset.mem_insert_self a s)
      (Finset.mem_insert_of_mem hb), Finset.mem_insert, Finset.mem_insert]
    exact or_congr ⟨fun h => f.injective (h.trans hfix.symm), fun h => h ▸ hfix⟩ hf.apply_mem_iff
  have hold : ∀ x ∈ s, ∀ y ∈ s, (swap a b * f).SameCycle x y := by
    intro x hx y hy
    obtain ⟨n, -, rfl⟩ := hf.exists_pow_eq hx hy
    exact (sameCycle_insert_pow hfix (fun h => ha (h ▸ hx)) n).2
  have hfirst : (swap a b * f).SameCycle a b :=
    ⟨1, by rw [zpow_one, Perm.mul_apply, hfix, swap_apply_left]⟩
  refine ⟨Equiv.bijOn _ hmem, ?_⟩
  intro x hx y hy
  obtain rfl | hxs := Finset.mem_insert.mp hx
  · obtain rfl | hys := Finset.mem_insert.mp hy
    · exact SameCycle.refl _ _
    · exact hfirst.trans (hold b hb y hys)
  · obtain rfl | hys := Finset.mem_insert.mp hy
    · exact (hold x hxs b hb).trans hfirst.symm
    · exact hold x hxs y hys

/-- Without `a`, its predecessor goes on to its successor. -/
theorem erase_apply_of_eq {x : α} (hx : f x = a) : (swap a (f a) * f) x = f a := by
  rw [Perm.mul_apply, hx, swap_apply_left]

theorem erase_apply_of_ne {x : α} (hx : x ≠ a) (hfx : f x ≠ a) :
    (swap a (f a) * f) x = f x :=
  swap_apply_of_ne_of_ne hfx fun h => hx (f.injective h)

/-- Along a walk of `f`, a visit to `a` stands for the point after it. -/
theorem sameCycle_erase_pow (hne : f a ≠ a) {x : α} (hx : x ≠ a) (n : ℕ) :
    ((f ^ n) x ≠ a → (swap a (f a) * f).SameCycle x ((f ^ n) x)) ∧
      ((f ^ n) x = a → (swap a (f a) * f).SameCycle x (f a)) := by
  induction n with
  | zero => exact ⟨fun _ => SameCycle.refl _ _, fun h => absurd h hx⟩
  | succ n ih =>
      rw [pow_succ', Perm.mul_apply]
      by_cases hn : (f ^ n) x = a
      · rw [hn]
        exact ⟨fun _ => ih.2 hn, fun h => absurd h hne⟩
      · have hnext := (sameCycle_apply_right (f := swap a (f a) * f)).mpr (ih.1 hn)
        refine ⟨fun h => ?_, fun h => ?_⟩
        · rwa [erase_apply_of_ne hn h] at hnext
        · rwa [erase_apply_of_eq h] at hnext

/-- Take the point `a` out of a cycle. -/
theorem isCycleOn_erase (hf : f.IsCycleOn (insert a s : Finset α)) (ha : a ∉ s)
    (hs : s.Nonempty) :
    f a ∈ s ∧ (swap a (f a) * f) a = a ∧ (swap a (f a) * f).IsCycleOn s := by
  have hself := Finset.mem_insert_self a s
  obtain ⟨c, hc⟩ := hs
  have hnontrivial : (insert a s : Finset α).Nontrivial :=
    ⟨a, hself, c, Finset.mem_insert_of_mem hc, fun h => ha (h ▸ hc)⟩
  have hne : f a ≠ a := hf.apply_ne hnontrivial hself
  have hfa : f a ∈ s :=
    Finset.mem_of_mem_insert_of_ne (hf.apply_mem_iff.mpr hself) hne
  have hfixed : (swap a (f a) * f) a = a := by rw [Perm.mul_apply, swap_apply_right]
  refine ⟨hfa, hfixed, Equiv.bijOn _ fun x => ?_, fun x hx y hy => ?_⟩
  · change (swap a (f a) * f) x ∈ s ↔ x ∈ s
    by_cases hxa : x = a
    · rw [hxa, hfixed]
    · have hinsert : (swap a (f a) * f) x ∈ insert a s ↔ x ∈ insert a s := by
        rw [Perm.mul_apply, swap_apply_mem_iff hself (Finset.mem_insert_of_mem hfa),
          ← Finset.mem_coe, hf.apply_mem_iff, Finset.mem_coe]
      have himage : (swap a (f a) * f) x ≠ a :=
        fun h => hxa ((swap a (f a) * f).injective (h.trans hfixed.symm))
      simpa only [Finset.mem_insert, hxa, himage, false_or] using hinsert
  · obtain ⟨n, _, rfl⟩ := hf.exists_pow_eq (Finset.mem_insert_of_mem hx)
      (Finset.mem_insert_of_mem hy)
    exact (sameCycle_erase_pow hne (fun h => ha (h ▸ hx)) n).1 fun h => ha (h ▸ hy)

end Insert

/-- `swap m (c (m - 1)) * ... * swap 2 (c 1) * swap 1 (c 0)`. -/
def insertions (c : ℕ → ℕ) : ℕ → Perm ℕ
  | 0 => 1
  | i + 1 => swap (i + 1) (c i) * insertions c i

/-- Only the choices made so far matter. -/
theorem insertions_congr {c c' : ℕ → ℕ} {m : ℕ} (h : ∀ i, i < m → c i = c' i) :
    insertions c m = insertions c' m := by
  induction m with
  | zero => rfl
  | succ m ih =>
      rw [insertions, insertions, h m (Nat.lt_succ_self m),
        ih fun i hi => h i (Nat.lt_succ_of_lt hi)]

/-- Points above the inserted ones are fixed. -/
theorem insertions_apply_of_lt {c : ℕ → ℕ} {m : ℕ} (hc : ∀ i, i < m → c i ≤ i) {x : ℕ}
    (hx : m < x) : insertions c m x = x := by
  induction m with
  | zero => rfl
  | succ m ih =>
      have hcm := hc m (Nat.lt_succ_self m)
      rw [insertions, Perm.mul_apply, ih (fun i hi => hc i (Nat.lt_succ_of_lt hi)) (by omega),
        swap_apply_of_ne_of_ne (by omega) (by omega)]

/-- Inserting the points `1, ..., m` in turn gives one cycle on `{0, ..., m}`. -/
theorem isCycleOn_insertions {c : ℕ → ℕ} {m : ℕ} (hc : ∀ i, i < m → c i ≤ i) :
    (insertions c m).IsCycleOn (Finset.range (m + 1)) := by
  induction m with
  | zero =>
      rw [Finset.range_one, Finset.coe_singleton]
      exact isCycleOn_singleton.mpr rfl
  | succ m ih =>
      have hprev : ∀ i, i < m → c i ≤ i := fun i hi => hc i (Nat.lt_succ_of_lt hi)
      rw [insertions, Finset.range_add_one]
      apply isCycleOn_insert (ih hprev) Finset.notMem_range_self
      · exact insertions_apply_of_lt hprev (Nat.lt_succ_self m)
      · exact Finset.mem_range.mpr (Nat.lt_succ_of_le (hc m (Nat.lt_succ_self m)))

/-- The product determines each choice: the last one is the image of `m`. -/
theorem insertions_injective {c c' : ℕ → ℕ} {m : ℕ} (hc : ∀ i, i < m → c i ≤ i)
    (hc' : ∀ i, i < m → c' i ≤ i) (heq : insertions c m = insertions c' m) :
    ∀ i, i < m → c i = c' i := by
  induction m with
  | zero => exact fun i hi => absurd hi (Nat.not_lt_zero i)
  | succ m ih =>
      have hprev : ∀ i, i < m → c i ≤ i := fun i hi => hc i (Nat.lt_succ_of_lt hi)
      have hprev' : ∀ i, i < m → c' i ≤ i := fun i hi => hc' i (Nat.lt_succ_of_lt hi)
      have hlast : c m = c' m := by
        have happly := congrArg (fun f : Perm ℕ => f (m + 1)) heq
        simpa only [insertions, Perm.mul_apply, insertions_apply_of_lt hprev (Nat.lt_succ_self m),
          insertions_apply_of_lt hprev' (Nat.lt_succ_self m), swap_apply_left] using happly
      have hrest : insertions c m = insertions c' m := by
        rw [insertions, insertions, hlast] at heq
        exact mul_left_cancel heq
      intro i hi
      obtain hlt | rfl := Nat.lt_succ_iff_lt_or_eq.mp hi
      · exact ih hprev hprev' hrest i hlt
      · exact hlast

/-- Every cycle on `{0, ..., m}` is obtained by insertions. -/
theorem exists_insertions {m : ℕ} {σ : Perm ℕ} (hσ : σ.IsCycleOn (Finset.range (m + 1)))
    (hfix : ∀ x, m < x → σ x = x) : ∃ c : ℕ → ℕ, (∀ i, i < m → c i ≤ i) ∧ insertions c m = σ := by
  induction m generalizing σ with
  | zero =>
      refine ⟨id, fun i hi => absurd hi (Nat.not_lt_zero i), ?_⟩
      rw [Finset.range_one, Finset.coe_singleton] at hσ
      ext x
      obtain rfl | hx := Nat.eq_zero_or_pos x
      · exact (isCycleOn_singleton.mp hσ).symm
      · exact (hfix x hx).symm
  | succ m ih =>
      rw [Finset.range_add_one] at hσ
      obtain ⟨himage, hlast, hcycle⟩ := isCycleOn_erase hσ Finset.notMem_range_self
        ⟨0, Finset.mem_range.mpr (Nat.succ_pos m)⟩
      rw [Finset.mem_range] at himage
      have hfix' : ∀ x, m < x → (swap (m + 1) (σ (m + 1)) * σ) x = x := by
        intro x hx
        obtain rfl | hlt := Nat.eq_or_lt_of_le (Nat.succ_le_of_lt hx)
        · exact hlast
        · rw [Perm.mul_apply, hfix x hlt, swap_apply_of_ne_of_ne (by omega) (by omega)]
      obtain ⟨c, hc, hprod⟩ := ih hcycle hfix'
      have hagree : insertions (Function.update c m (σ (m + 1))) m = insertions c m :=
        insertions_congr fun i hi => Function.update_of_ne (Nat.ne_of_lt hi) _ _
      refine ⟨Function.update c m (σ (m + 1)), ?_, ?_⟩
      · intro i hi
        obtain hlt | rfl := Nat.lt_succ_iff_lt_or_eq.mp hi
        · rw [Function.update_of_ne (Nat.ne_of_lt hlt)]
          exact hc i hlt
        · rw [Function.update_self]
          exact Nat.le_of_lt_succ himage
      · rw [insertions, Function.update_self, hagree, hprod, ← mul_assoc,
          swap_mul_self, one_mul]

end CycleInsertion
