import HwBench.Machine.Effect

/-!
# Computations that record what they do

A computation appends events to a record, in program order. It gives a value and a list
of events if this is its outcome after every earlier record, so the events of composed
computations are those of the parts.
-/

namespace Machine

/-- A computation with a record of events `κ`, which may stop with an error `ε`. -/
abbrev Recording (κ ε α : Type) : Type := Effect (List κ) ε α

namespace Recording

open Effect

variable {κ ε ι α β : Type}

def record (event : κ) : Recording κ ε Unit := modify (· ++ [event])

/-- The computation gives `a` and records `events`, whatever was recorded before. -/
def Gives (m : Recording κ ε α) (a : α) (events : List κ) : Prop :=
  ∀ before, exec m before = (.ok a, before ++ events)

theorem Gives.pure (a : α) : Gives (pure a : Recording κ ε α) a [] := fun before => by
  rw [exec_pure, List.append_nil]

theorem Gives.record (event : κ) : Gives (record event : Recording κ ε Unit) ⟨⟩ [event] :=
  fun _ => rfl

theorem Gives.bind {m : Recording κ ε α} {f : α → Recording κ ε β} {a : α} {b : β}
    {events events' : List κ} (hm : Gives m a events) (hf : Gives (f a) b events') :
    Gives (m >>= f) b (events ++ events') := fun before => by
  rw [exec_bind_ok (hm before), hf (before ++ events), List.append_assoc]

/-- A loop records what its iterations record. -/
theorem Gives.foldlM {f : β → ι → Recording κ ε β} {g : β → ι → β} {events : ι → List κ}
    (hf : ∀ b i, Gives (f b i) (g b i) (events i)) (xs : List ι) (b : β) :
    Gives (xs.foldlM f b) (xs.foldl g b) (xs.flatMap events) := by
  induction xs generalizing b with
  | nil => exact .pure b
  | cons i xs ih =>
      rw [List.foldlM_cons, List.foldl_cons, List.flatMap_cons]
      exact (hf b i).bind (ih (g b i))

/-- The outcome of a computation on its own, with what it has recorded. -/
def run (m : Recording κ ε α) : Option (α × List κ) :=
  match exec m [] with
  | (.ok a, events) => some (a, events)
  | (.error _, _) => none

theorem Gives.run_eq {m : Recording κ ε α} {a : α} {events : List κ} (h : Gives m a events) :
    run m = some (a, events) := by
  rw [run, h [], List.nil_append]

end Recording

end Machine
