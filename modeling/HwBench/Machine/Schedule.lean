import Mathlib.Data.List.Basic

/-!
# Threads under an arbitrary scheduler

A system of threads is a partial step function: the state after a thread has
moved, or `none` if it cannot move. A schedule is the list of the threads in the
order in which they move, so the runs of the system are its schedules.

If every move uses up one unit of work and some thread can always move while work
is left, no schedule gets stuck: each one can be completed, and all complete
schedules are equally long. A scheduler that names a thread for every move drives
the system to its end, if a thread that cannot move is passed over.
-/

namespace Machine.Schedule

variable {σ τ : Type*} {step : σ → τ → Option σ}

/-- The state after the threads have moved in this order. -/
def exec (step : σ → τ → Option σ) (s : σ) (schedule : List τ) : Option σ :=
  schedule.foldlM step s

@[simp] theorem exec_cons (s : σ) (t : τ) (schedule : List τ) :
    exec step s (t :: schedule) = (step s t).bind fun s => exec step s schedule := rfl

/-- A move of the thread that the scheduler names or, if that one cannot move, of the
first one that can. -/
def pick (step : σ → τ → Option σ) (threads : List τ) (named : τ) (s : σ) : Option σ :=
  (named :: threads).findSome? (step s)

/-- The state after at most `moves` moves, with a scheduler that names a thread by the
number of moves left. -/
def drive (step : σ → τ → Option σ) (threads : List τ) (named : Nat → τ) :
    (moves : Nat) → σ → σ
  | 0, s => s
  | moves + 1, s =>
      match pick step threads (named moves) s with
      | none => s
      | some s => drive step threads named moves s

theorem exists_of_pick {threads : List τ} {named : τ} {s s' : σ}
    (h : pick step threads named s = some s') : ∃ t, step s t = some s' := by
  obtain ⟨t, _, hmove⟩ := List.exists_of_findSome?_eq_some h
  exact ⟨t, hmove⟩

theorem exists_pick {threads : List τ} {t : τ} {s s' : σ} (ht : t ∈ threads)
    (hmove : step s t = some s') (named : τ) : ∃ s', pick step threads named s = some s' := by
  refine Option.isSome_iff_exists.mp (List.findSome?_isSome_iff.mpr ⟨t, ?_, ?_⟩)
  · exact List.mem_cons_of_mem named ht
  · rw [hmove, Option.isSome_some]

theorem exec_append (s : σ) (front back : List τ) :
    exec step s (front ++ back) = (exec step s front).bind fun s => exec step s back :=
  List.foldlM_append

section Invariant

variable {P : σ → Prop} (hP : ∀ s t s', P s → step s t = some s' → P s')

include hP

/-- An assertion that every move preserves holds after every schedule. -/
theorem invariant {s s' : σ} {schedule : List τ} (hs : P s)
    (hrun : exec step s schedule = some s') : P s' := by
  induction schedule generalizing s with
  | nil =>
      cases hrun
      exact hs
  | cons t schedule ih =>
      obtain ⟨s₁, hmove, hrest⟩ := Option.bind_eq_some_iff.mp hrun
      exact ih (hP s t s₁ hs hmove) hrest

variable {work : σ → Nat} (hwork : ∀ s t s', P s → step s t = some s' → work s = work s' + 1)

include hwork

/-- A schedule has used up one unit of work for each of its moves. -/
theorem work_eq {s s' : σ} {schedule : List τ} (hs : P s)
    (hrun : exec step s schedule = some s') : work s = schedule.length + work s' := by
  induction schedule generalizing s with
  | nil =>
      cases hrun
      simp
  | cons t schedule ih =>
      obtain ⟨s₁, hmove, hrest⟩ := Option.bind_eq_some_iff.mp hrun
      have hfirst := hwork s t s₁ hs hmove
      have hlater := ih (hP s t s₁ hs hmove) hrest
      simp only [List.length_cons]
      omega

/-- Every schedule can be continued until no work is left. -/
theorem exists_completion (hprogress : ∀ s, P s → work s ≠ 0 → ∃ t s', step s t = some s')
    {s : σ} (hs : P s) : ∃ rest final, exec step s rest = some final ∧ work final = 0 := by
  obtain ⟨n, hn⟩ : ∃ n, work s = n := ⟨_, rfl⟩
  induction n generalizing s with
  | zero => exact ⟨[], s, rfl, hn⟩
  | succ n ih =>
      obtain ⟨t, s₁, hmove⟩ := hprogress s hs (by omega)
      have hless := hwork s t s₁ hs hmove
      obtain ⟨rest, final, hrest, hdone⟩ := ih (hP s t s₁ hs hmove) (by omega)
      exact ⟨t :: rest, final, by rw [exec_cons, hmove, Option.bind_some, hrest], hdone⟩

/-- A driven system runs by a schedule until no work is left. -/
theorem exec_drive {threads : List τ}
    (hprogress : ∀ s, P s → work s ≠ 0 → ∃ t ∈ threads, ∃ s', step s t = some s')
    (named : Nat → τ) {moves : Nat} {s : σ} (hs : P s) (hmoves : work s = moves) :
    ∃ schedule, exec step s schedule = some (drive step threads named moves s) ∧
      work (drive step threads named moves s) = 0 := by
  induction moves generalizing s with
  | zero => exact ⟨[], rfl, hmoves⟩
  | succ moves ih =>
      obtain ⟨t, ht, s', hmove⟩ := hprogress s hs (by omega)
      obtain ⟨s₁, hpick⟩ := exists_pick ht hmove (named moves)
      obtain ⟨t₁, hmove₁⟩ := exists_of_pick hpick
      have hless := hwork s t₁ s₁ hs hmove₁
      obtain ⟨schedule, hrest, hdone⟩ := ih (hP s t₁ s₁ hs hmove₁) (by omega)
      simp only [drive, hpick]
      exact ⟨t₁ :: schedule, by rw [exec_cons, hmove₁, Option.bind_some, hrest], hdone⟩

end Invariant

end Machine.Schedule
