import Mathlib.Data.List.Infix
import Mathlib.Logic.Relation

/-!
# Runs of a step relation or of a list of operations

A run is the reflexive transitive closure of a step relation. A forward
simulation matches every concrete step by a finite abstract run, so every
concrete run is matched by an abstract one with related endpoints.

A deterministic machine is run by folding its step function over a list of
operations. Its invariants may need a side condition on each operation in the
state before it; the states reached are those after the prefixes of the list.
-/

namespace Machine

open Relation

variable {σ τ : Type*} {step : σ → σ → Prop} {astep : τ → τ → Prop}

/-- An assertion that every step preserves is preserved by every run. -/
theorem invariant_of_step {P : σ → Prop} {s t : σ} (hrun : ReflTransGen step s t) (hs : P s)
    (hstep : ∀ a b, P a → step a b → P b) : P t := by
  induction hrun with
  | refl => exact hs
  | tail _ hlast ih => exact hstep _ _ ih hlast

/-- Every concrete step is matched by abstract steps between related states. -/
def Simulates (rel : σ → τ → Prop) (step : σ → σ → Prop) (astep : τ → τ → Prop) : Prop :=
  ∀ ⦃s s' : σ⦄ ⦃a : τ⦄, rel s a → step s s' → ∃ a', ReflTransGen astep a a' ∧ rel s' a'

theorem Simulates.run {rel : σ → τ → Prop} (h : Simulates rel step astep) {s s' : σ} {a : τ}
    (hrel : rel s a) (hrun : ReflTransGen step s s') :
    ∃ a', ReflTransGen astep a a' ∧ rel s' a' := by
  refine invariant_of_step (P := fun s' => ∃ a', ReflTransGen astep a a' ∧ rel s' a') hrun
    ⟨a, .refl, hrel⟩ ?_
  rintro b c ⟨a', hrun', hrel'⟩ hbc
  obtain ⟨a'', hsteps, hrel''⟩ := h hrel' hbc
  exact ⟨a'', hrun'.trans hsteps, hrel''⟩

/-- Two machines that stay related over every allowed operation are related after
every prefix of a list whose operations are all allowed where the first machine
performs them. -/
theorem foldl_simulation {ι : Type*} (next : σ → ι → σ) (anext : τ → ι → τ) (rel : σ → τ → Prop)
    (allowed : σ → ι → Prop)
    (hstep : ∀ s a i, rel s a → allowed s i → rel (next s i) (anext a i))
    {s : σ} {a : τ} (hrel : rel s a) {ops : List ι}
    (hops : ∀ front i, front ++ [i] <+: ops → allowed (front.foldl next s) i) :
    ∀ front, front <+: ops → rel (front.foldl next s) (front.foldl anext a) := by
  intro front
  induction front using List.reverseRecOn with
  | nil => exact fun _ => hrel
  | append_singleton front i ih =>
      intro hfront
      rw [List.foldl_append, List.foldl_append]
      exact hstep _ _ i (ih ((List.prefix_append front [i]).trans hfront)) (hops front i hfront)

/-- An assertion that every allowed operation preserves holds after every prefix
of a list whose operations are all allowed where they are performed. -/
theorem foldl_invariant {ι : Type*} (next : σ → ι → σ) (P : σ → Prop) (allowed : σ → ι → Prop)
    (hstep : ∀ s i, P s → allowed s i → P (next s i)) {s : σ} (hs : P s) {ops : List ι}
    (hops : ∀ front i, front ++ [i] <+: ops → allowed (front.foldl next s) i)
    (front : List ι) (hfront : front <+: ops) : P (front.foldl next s) :=
  foldl_simulation next (fun (u : Unit) _ => u) (fun s _ => P s) allowed
    (fun s _ i => hstep s i) (a := ()) hs hops front hfront

end Machine
