import HwBench.Machine.Word
import Mathlib.Algebra.BigOperators.Intervals

/-!
# Counted loops that may fault and record what they touch

The body of a counted loop takes the loop variables to their next values and
emits an event; it gives `none` when it leaves the modelled memory. A run is
known once the value of the loop variables before every iteration is known, and
that is an equation about the body alone.

A loop without events is a fold over a range. One rule shows that it does not
fault, another reads off what it did when it has not; an accumulation is the
case of a body that only adds.
-/

namespace Machine

variable {σ ε : Type*}

/-- `for (i = 0; i < count; ++i) body`, with the events in program order. -/
def countedLoop (body : σ → Option (σ × ε)) : (count : Nat) → σ → Option (σ × List ε)
  | 0, s => some (s, [])
  | count + 1, s => do
      let (s, event) ← body s
      let (s, events) ← countedLoop body count s
      some (s, event :: events)

/-- A loop whose variables follow `state` from iteration `first` on never faults,
and its events are those of the iterations it runs. -/
theorem countedLoop_from {body : σ → Option (σ × ε)} {state : Nat → σ} {event : Nat → ε}
    (h : ∀ t, body (state t) = some (state (t + 1), event t)) (count first : Nat) :
    countedLoop body count (state first) =
      some (state (first + count), (List.range' first count).map event) := by
  induction count generalizing first with
  | zero => rfl
  | succ count ih =>
      have hlast : first + 1 + count = first + (count + 1) := by omega
      simp only [countedLoop, h first, ih (first + 1), hlast, Option.bind_eq_bind,
        Option.bind_some, List.range'_succ, List.map_cons]

theorem countedLoop_eq {body : σ → Option (σ × ε)} {state : Nat → σ} {event : Nat → ε}
    (h : ∀ t, body (state t) = some (state (t + 1), event t)) (count : Nat) :
    countedLoop body count (state 0) = some (state count, (List.range count).map event) := by
  simpa only [Nat.zero_add, List.range_eq_range'] using countedLoop_from h count 0

/-- The event of an iteration. -/
theorem eq_of_getElem?_map_range {α : Type*} {f : Nat → α} {count t : Nat} {x : α}
    (h : ((List.range count).map f)[t]? = some x) : x = f t := by
  obtain ⟨i, hi, rfl⟩ := Option.map_eq_some_iff.mp (List.getElem?_map.symm.trans h)
  obtain ⟨_, rfl⟩ := List.getElem?_eq_some_iff.mp hi
  rw [List.getElem_range]

/-- A loop whose body establishes `Q` of its event from an assertion about the
number of iterations done, and restores the assertion, never faults. -/
theorem countedLoop_invariant {body : σ → Option (σ × ε)} {P : Nat → σ → Prop}
    {Q : Nat → ε → Prop}
    (hstep : ∀ t s, P t s → ∃ s' event, body s = some (s', event) ∧ Q t event ∧ P (t + 1) s')
    (count : Nat) {first : Nat} {s : σ} (hs : P first s) :
    ∃ s' events, countedLoop body count s = some (s', events) ∧ P (first + count) s' ∧
      events.length = count ∧ ∀ k event, events[k]? = some event → Q (first + k) event := by
  induction count generalizing first s with
  | zero => exact ⟨s, [], rfl, hs, rfl, fun k event hk => by simp at hk⟩
  | succ count ih =>
      obtain ⟨s₁, event₁, hbody, hevent₁, hs₁⟩ := hstep first s hs
      obtain ⟨s₂, events, hloop, hs₂, hlength, hevents⟩ := ih hs₁
      have hlast : first + 1 + count = first + (count + 1) := by omega
      refine ⟨s₂, event₁ :: events, ?_, hlast ▸ hs₂, by simp [hlength], ?_⟩
      · simp only [countedLoop, hbody, hloop, Option.bind_eq_bind, Option.bind_some]
      · intro k event hk
        cases k with
        | zero =>
            simp only [List.getElem?_cons_zero, Option.some.injEq] at hk
            exact hk ▸ hevent₁
        | succ k =>
            have hlater := hevents k event (by simpa using hk)
            rwa [Nat.add_right_comm] at hlater

/-- A loop over `0, ..., n - 1` whose body preserves an assertion about the number
of iterations done never faults, and ends with all of them done. -/
theorem foldlM_range_invariant {f : σ → Nat → Option σ} {P : Nat → σ → Prop} {n : Nat}
    (hstep : ∀ i s, i < n → P i s → ∃ s', f s i = some s' ∧ P (i + 1) s') {s : σ}
    (hs : P 0 s) : ∃ s', (List.range n).foldlM f s = some s' ∧ P n s' := by
  induction n with
  | zero => exact ⟨s, rfl, hs⟩
  | succ n ih =>
      obtain ⟨s₁, hloop, hs₁⟩ := ih fun i s hi => hstep i s (Nat.lt_succ_of_lt hi)
      obtain ⟨s₂, hlast, hs₂⟩ := hstep n s₁ (Nat.lt_succ_self n) hs₁
      refine ⟨s₂, ?_, hs₂⟩
      rw [List.range_succ, List.foldlM_append, hloop]
      simpa only [List.foldlM_cons, List.foldlM_nil, Option.bind_eq_bind, Option.bind_some,
        Option.pure_def, Option.bind_fun_some] using hlast

/-- What is preserved by every iteration that does not fault holds of the result. -/
theorem foldlM_range_elim {f : σ → Nat → Option σ} {P : Nat → σ → Prop} {n : Nat}
    (hstep : ∀ i s s', i < n → P i s → f s i = some s' → P (i + 1) s') {s s' : σ}
    (hs : P 0 s) (hrun : (List.range n).foldlM f s = some s') : P n s' := by
  induction n generalizing s' with
  | zero =>
      cases hrun
      exact hs
  | succ n ih =>
      rw [List.range_succ, List.foldlM_append] at hrun
      obtain ⟨s₁, hloop, hlast⟩ := Option.bind_eq_some_iff.mp hrun
      have hlast' : f s₁ n = some s' := by
        simpa only [List.foldlM_cons, List.foldlM_nil, Option.bind_eq_bind, Option.pure_def,
          Option.bind_fun_some] using hlast
      exact hstep n s₁ s' (Nat.lt_succ_self n)
        (ih (fun i s s' hi => hstep i s s' (Nat.lt_succ_of_lt hi)) hloop) hlast'

/-- A loop whose bodies have no result but do not fault. -/
theorem forM_eq_some {ι : Type*} {f : ι → Option Unit} {xs : List ι}
    (h : ∀ x ∈ xs, f x = some ⟨⟩) : xs.forM f = some ⟨⟩ := by
  induction xs with
  | nil => rfl
  | cons x xs ih =>
      rw [List.forM_eq_forM, List.forM_cons, h x List.mem_cons_self]
      exact ih fun y hy => h y (List.mem_cons_of_mem x hy)

/-- `for (i = 0; i < n; ++i) total += term(i);` from zero. -/
def accumulate {M : Type*} [AddMonoid M] (term : Nat → Option M) (n : Nat) : Option M :=
  (List.range n).foldlM (fun total i => do let x ← term i; some (total + x)) 0

section Accumulate

variable {M : Type*} [AddCommMonoid M] {term : Nat → Option M} {n : Nat}

/-- An accumulation of defined terms ends at their sum. -/
theorem accumulate_eq {value : Nat → M} (h : ∀ i, i < n → term i = some (value i)) :
    accumulate term n = some (∑ i ∈ Finset.range n, value i) := by
  have hstep : ∀ i total, i < n → total = ∑ k ∈ Finset.range i, value k →
      ∃ total', (do let x ← term i; some (total + x)) = some total' ∧
        total' = ∑ k ∈ Finset.range (i + 1), value k := by
    intro i total hi htotal
    refine ⟨total + value i, ?_, by rw [Finset.sum_range_succ, htotal]⟩
    rw [h i hi]
    rfl
  obtain ⟨total, hrun, rfl⟩ := foldlM_range_invariant hstep (Finset.sum_range_zero value).symm
  exact hrun

/-- An accumulation that does not fault is one of defined terms. -/
theorem accumulate_elim {total : M} (hrun : accumulate term n = some total) :
    ∃ value : Nat → M, (∀ i, i < n → term i = some (value i)) ∧
      total = ∑ i ∈ Finset.range n, value i := by
  have hterm : ∀ i, i < n → term i = some ((term i).getD 0) := by
    refine foldlM_range_elim (P := fun k _ => ∀ i, i < k → term i = some ((term i).getD 0))
      (fun k s s' _ hs hbody i hi => ?_) (fun i hi => absurd hi (Nat.not_lt_zero i)) hrun
    obtain ⟨x, hx, _⟩ := Option.bind_eq_some_iff.mp hbody
    obtain hlt | rfl := Nat.lt_succ_iff_lt_or_eq.mp hi
    · exact hs i hlt
    · rw [hx, Option.getD_some]
  refine ⟨_, hterm, ?_⟩
  rw [accumulate_eq hterm, Option.some.injEq] at hrun
  exact hrun.symm

end Accumulate

/-- A loop whose body never faults on the elements it runs over is a plain fold. -/
theorem foldlM_eq_foldl {ι : Type*} {f : σ → ι → Option σ} {g : σ → ι → σ} {xs : List ι}
    (h : ∀ s, ∀ x ∈ xs, f s x = some (g s x)) (s : σ) :
    xs.foldlM f s = some (xs.foldl g s) := by
  induction xs generalizing s with
  | nil => rfl
  | cons x xs ih =>
      have hrest := ih (fun s x hx => h s x (List.mem_cons_of_mem _ hx)) (g s x)
      rw [List.foldlM_cons, h s x List.mem_cons_self]
      exact hrest

/-- A loop with an element on which its body faults in every state faults. -/
theorem foldlM_eq_none {ι : Type*} {f : σ → ι → Option σ} {xs : List ι} {x : ι} (hx : x ∈ xs)
    (hf : ∀ s, f s x = none) (s : σ) : xs.foldlM f s = none := by
  induction xs generalizing s with
  | nil => exact absurd hx List.not_mem_nil
  | cons y ys ih =>
      rw [List.foldlM_cons]
      obtain rfl | hmem := List.mem_cons.mp hx
      · rw [hf s, Option.bind_eq_bind, Option.bind_none]
      · exact Option.bind_eq_none_iff.mpr fun s' _ => ih hmem s'

/-- What one iteration touches: the cell it reads, and the operand of the prefetch
instruction it executes, if it executes one. -/
structure Touch (α β : Type*) where
  read : α
  prefetched : Option β
deriving DecidableEq

/-- An accumulator started at zero after it was given the first `count` summands. -/
def wrappingSum (summand : Nat → Word) (count : Nat) : Word :=
  BitVec.ofNat 64 (∑ t ∈ Finset.range count, (summand t).toNat)

@[simp] theorem wrappingSum_zero (summand : Nat → Word) : wrappingSum summand 0 = 0 := rfl

theorem wrappingSum_succ (summand : Nat → Word) (count : Nat) :
    wrappingSum summand (count + 1) = wrappingSum summand count + summand count := by
  rw [wrappingSum, Finset.sum_range_succ, BitVec.ofNat_add, BitVec.ofNat_toNat,
    BitVec.setWidth_eq, wrappingSum]

end Machine
