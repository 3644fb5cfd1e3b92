import Mathlib.Data.List.Basic

/-!
# Contracts of stateful computations that may stop

A computation changes a state and gives a value, or it stops with an error in some
state. A contract has a postcondition for either outcome, so it says what holds on
every path. Loops over a list are verified by an assertion about the elements that
are still to come.
-/

namespace Machine

/-- A computation on a state `σ` that may stop with an error `ε`. -/
abbrev Effect (σ ε α : Type) : Type := ExceptT ε (StateM σ) α

namespace Effect

variable {σ ε α β : Type}

/-- The outcome and the state in which it is reached. -/
def exec (m : Effect σ ε α) (s : σ) : Except ε α × σ := StateT.run (ExceptT.run m) s

@[simp] theorem exec_pure (a : α) (s : σ) : exec (pure a : Effect σ ε α) s = (.ok a, s) := rfl

@[simp] theorem exec_get (s : σ) : exec (get : Effect σ ε σ) s = (.ok s, s) := rfl

theorem exec_bind_ok {m : Effect σ ε α} {f : α → Effect σ ε β} {s s' : σ} {a : α}
    (h : exec m s = (.ok a, s')) : exec (m >>= f) s = exec (f a) s' := by
  have hunfold : exec (m >>= f) s =
      (ExceptT.bindCont f (exec m s).1 : StateM σ (Except ε β)) (exec m s).2 := rfl
  rw [hunfold, h]
  rfl

theorem exec_bind_error {m : Effect σ ε α} {f : α → Effect σ ε β} {s s' : σ} {e : ε}
    (h : exec m s = (.error e, s')) : exec (m >>= f) s = (.error e, s') := by
  have hunfold : exec (m >>= f) s =
      (ExceptT.bindCont f (exec m s).1 : StateM σ (Except ε β)) (exec m s).2 := rfl
  rw [hunfold, h]
  rfl

/-- From `P` the computation ends in `Q`, or stops in `E`. -/
def Contract (P : σ → Prop) (m : Effect σ ε α) (Q : α → σ → Prop) (E : ε → σ → Prop) : Prop :=
  ∀ s, P s → match exec m s with
    | (.ok a, s') => Q a s'
    | (.error e, s') => E e s'

namespace Contract

variable {P P' : σ → Prop} {m : Effect σ ε α} {Q Q' : α → σ → Prop} {E E' : ε → σ → Prop}

theorem pure {a : α} (h : ∀ s, P s → Q a s) : Contract P (pure a) Q E := h

theorem throw {e : ε} (h : ∀ s, P s → E e s) : Contract P (throw e) Q E := h

theorem modify {f : σ → σ} {Q : Unit → σ → Prop} (h : ∀ s, P s → Q ⟨⟩ (f s)) :
    Contract P (modify f) Q E := h

/-- A computation that cannot stop before its end. -/
theorem exists_exec (h : Contract P m Q fun _ _ => False) {s : σ} (hs : P s) :
    ∃ a s', exec m s = (.ok a, s') ∧ Q a s' := by
  have hrun := h s hs
  revert hrun
  split
  · next a s' heq => exact fun hQ => ⟨a, s', heq, hQ⟩
  · exact False.elim

/-- Strengthen the precondition and weaken the postconditions. -/
theorem mono (h : Contract P m Q E) (hP : ∀ s, P' s → P s) (hQ : ∀ a s, Q a s → Q' a s)
    (hE : ∀ e s, E e s → E' e s) : Contract P' m Q' E' := by
  intro s hs
  have hrun := h s (hP s hs)
  revert hrun
  split
  · exact hQ _ _
  · exact hE _ _

theorem weaken (h : Contract P m Q E) (hP : ∀ s, P' s → P s) (hQ : ∀ a s, Q a s → Q' a s) :
    Contract P' m Q' E := h.mono hP hQ fun _ _ h => h

/-- The second computation starts where the first one ends. -/
theorem bind {f : α → Effect σ ε β} {R : β → σ → Prop} (h : Contract P m Q E)
    (hf : ∀ a, Contract (Q a) (f a) R E) : Contract P (m >>= f) R E := by
  intro s hs
  have hrun := h s hs
  revert hrun
  split
  · next a s' heq =>
      intro hQ
      rw [exec_bind_ok heq]
      exact hf a s' hQ
  · next e s' heq =>
      intro hE
      rw [exec_bind_error heq]
      exact hE

/-- A value that the precondition determines. -/
theorem bind_get {f : σ → Effect σ ε β} {R : β → σ → Prop}
    (hf : ∀ s, P s → Contract (· = s) (f s) R E) : Contract P (get >>= f) R E := by
  intro s hs
  rw [exec_bind_ok (exec_get s)]
  exact hf s hs s rfl

theorem ite {c : Prop} [Decidable c] {m' : Effect σ ε α}
    (h : c → Contract P m Q E) (h' : ¬c → Contract P m' Q E) :
    Contract P (if c then m else m') Q E := by
  split
  · next hc => exact h hc
  · next hc => exact h' hc

/-- Facts of the precondition that do not depend on the state. -/
theorem assume {p : Prop} (hp : ∀ s, P s → p) (h : p → Contract P m Q E) : Contract P m Q E :=
  fun s hs => h (hp s hs) s hs

/-- A precondition that holds for some parameter. -/
theorem exists_pre {ι : Type} {P : ι → σ → Prop} (h : ∀ x, Contract (P x) m Q E) :
    Contract (fun s => ∃ x, P x s) m Q E := by
  rintro s ⟨x, hx⟩
  exact h x s hx

/-- The cases of a precondition. -/
theorem or (h : Contract P m Q E) (h' : Contract P' m Q E) :
    Contract (fun s => P s ∨ P' s) m Q E := by
  intro s hs
  exact hs.elim (h s) (h' s)

/-- A loop over a list, with an assertion about the elements to come. -/
theorem forM {f : α → Effect σ ε Unit} {I : List α → σ → Prop}
    (hf : ∀ x xs, Contract (I (x :: xs)) (f x) (fun _ => I xs) E) (xs : List α) :
    Contract (I xs) (xs.forM f) (fun _ => I []) E := by
  induction xs with
  | nil => exact pure fun _ h => h
  | cons x xs ih => exact (hf x xs).bind fun _ => ih

/-- `for (i = 0; i < n; ++i) body`, with an assertion about the iterations done. -/
theorem forM_range {f : Nat → Effect σ ε Unit} {I : Nat → σ → Prop} {n : Nat}
    (hf : ∀ i, i < n → Contract (I i) (f i) (fun _ => I (i + 1)) E) :
    Contract (I 0) ((List.range n).forM f) (fun _ => I n) E := by
  induction n with
  | zero => exact pure fun _ h => h
  | succ n ih =>
      rw [List.range_succ, List.forM_eq_forM, List.forM_append]
      refine (ih fun i hi => hf i (Nat.lt_succ_of_lt hi)).bind fun _ => ?_
      simpa using hf n (Nat.lt_succ_self n)

/-- The same loop, with a value that it carries. -/
theorem foldlM_range {f : β → Nat → Effect σ ε β} {I : Nat → β → σ → Prop} {n : Nat}
    (hf : ∀ i b, i < n → Contract (I i b) (f b i) (I (i + 1)) E) (b : β) :
    Contract (I 0 b) ((List.range n).foldlM f b) (I n) E := by
  induction n with
  | zero => exact pure fun _ h => h
  | succ n ih =>
      rw [List.range_succ, List.foldlM_append]
      refine (ih fun i b hi => hf i b (Nat.lt_succ_of_lt hi)).bind fun b' => ?_
      simpa using hf n b' (Nat.lt_succ_self n)

end Contract

end Effect

end Machine
