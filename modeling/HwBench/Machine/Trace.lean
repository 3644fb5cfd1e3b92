import Mathlib.Data.List.Basic

/-!
# Traces of a labelled step relation

A trace is the list of the events of a run. A machine refines another one when every
step is matched by a step with the same event, so that every trace of the first one is
a trace of the second one.
-/

namespace Machine

variable {σ τ ε : Type*} {step : σ → ε → σ → Prop} {astep : τ → ε → τ → Prop}

/-- The events of a run from the first state to the last one. -/
inductive Trace (step : σ → ε → σ → Prop) : σ → List ε → σ → Prop
  | nil (s : σ) : Trace step s [] s
  | cons {s t u : σ} {e : ε} {es : List ε} : step s e t → Trace step t es u →
      Trace step s (e :: es) u

namespace Trace

variable {s u : σ} {e : ε} {es fs : List ε}

theorem append_iff : Trace step s (es ++ fs) u ↔ ∃ t, Trace step s es t ∧ Trace step t fs u := by
  constructor
  · intro h
    induction es generalizing s with
    | nil => exact ⟨s, .nil s, h⟩
    | cons e es ih =>
        cases h with
        | cons hstep hrest =>
            obtain ⟨t, hfirst, hlast⟩ := ih hrest
            exact ⟨t, .cons hstep hfirst, hlast⟩
  · rintro ⟨t, hfirst, hlast⟩
    induction hfirst with
    | nil => exact hlast
    | cons hstep _ ih => exact .cons hstep (ih hlast)

/-- An assertion that the events of a trace preserve. -/
theorem invariant {P : σ → Prop} {allowed : ε → Prop} (h : Trace step s es u) (hs : P s)
    (hallowed : ∀ e ∈ es, allowed e)
    (hstep : ∀ s e t, P s → allowed e → step s e t → P t) : P u := by
  induction h with
  | nil => exact hs
  | @cons s t u e es hfirst _ ih =>
      have ht := hstep s e t hs (hallowed e List.mem_cons_self) hfirst
      exact ih ht fun e he => hallowed e (List.mem_cons_of_mem _ he)

/-- Every step of the first machine is a step of the second one with the same event. -/
theorem simulation {rel : σ → τ → Prop} (h : Trace step s es u)
    (hstep : ∀ s a e t, rel s a → step s e t → ∃ b, astep a e b ∧ rel t b) {a : τ}
    (hrel : rel s a) : ∃ b, Trace astep a es b ∧ rel u b := by
  induction h generalizing a with
  | nil => exact ⟨a, .nil a, hrel⟩
  | cons hfirst _ ih =>
      obtain ⟨b, hab, hb⟩ := hstep _ _ _ _ hrel hfirst
      obtain ⟨c, hbc, hc⟩ := ih hb
      exact ⟨c, .cons hab hbc, hc⟩

end Trace

end Machine
