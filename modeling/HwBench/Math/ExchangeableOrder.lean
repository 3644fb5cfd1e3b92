import Mathlib.Algebra.BigOperators.Group.Finset.Basic
import Mathlib.Data.Fintype.Card
import Mathlib.Data.Nat.Factorial.Basic
import Mathlib.Logic.Equiv.Basic

/-!
# Finitely many walks that do not tell their points apart

Each outcome of a finite experiment gives a walk through all the points of a finite set,
from a fixed start and without repetition until every point was met. If any two other
points can be exchanged in all walks by renaming the outcomes, then each beginning of a
walk goes on to every point it has left out in the same number of outcomes.
-/

open Finset Equiv
open scoped Nat

/-- The walks start alike and meet every point of `s` once. Any two points behind the
start can be exchanged by renaming the outcomes. -/
structure ExchangeableOrder {Ω α : Type*} [DecidableEq α] (walk : Ω → ℕ → α) (s : Finset α)
    (start : α) : Prop where
  zero : ∀ ω, walk ω 0 = start
  mem : ∀ ω k, walk ω k ∈ s
  injOn : ∀ ω, Set.InjOn (walk ω) (Set.Iio #s)
  exchange : ∀ a ∈ s, ∀ b ∈ s, a ≠ start → b ≠ start →
    ∃ rename : Ω → Ω, Function.Injective rename ∧ ∀ ω k, walk (rename ω) k = swap a b (walk ω k)

namespace ExchangeableOrder

variable {Ω α : Type*} [Fintype Ω] [DecidableEq α] {walk : Ω → ℕ → α} {s : Finset α} {start : α}

/-- The outcomes whose walk begins with the points of `path`. -/
def beginning (walk : Ω → ℕ → α) (path : List α) : Finset Ω :=
  {ω | (List.range path.length).map (walk ω) = path}

theorem mem_beginning {path : List α} {ω : Ω} :
    ω ∈ beginning walk path ↔ (List.range path.length).map (walk ω) = path := by
  rw [beginning, mem_filter_univ]

theorem mem_beginning_concat {path : List α} {a : α} {ω : Ω} :
    ω ∈ beginning walk (path ++ [a]) ↔ ω ∈ beginning walk path ∧ walk ω path.length = a := by
  rw [mem_beginning, mem_beginning, List.length_append, List.length_singleton, List.range_succ,
    List.map_append, List.map_singleton, List.append_singleton_inj]

/-- The exchange of two points that a beginning has left out leaves it as it is. -/
theorem card_beginning_concat_le (h : ExchangeableOrder walk s start) {path : List α}
    (hstart : start ∈ path) {a b : α} (ha : a ∈ s) (hb : b ∈ s) (hapath : a ∉ path)
    (hbpath : b ∉ path) :
    #(beginning walk (path ++ [a])) ≤ #(beginning walk (path ++ [b])) := by
  obtain ⟨rename, hinj, hwalk⟩ := h.exchange a ha b hb (fun heq => hapath (heq ▸ hstart))
    fun heq => hbpath (heq ▸ hstart)
  have hfix : path.map (swap a b) = path := by
    refine (List.map_congr_left fun x hx => ?_).trans (List.map_id path)
    exact swap_apply_of_ne_of_ne (fun heq => hapath (heq ▸ hx)) fun heq => hbpath (heq ▸ hx)
  refine card_le_card_of_injOn rename (fun ω hω => ?_) hinj.injOn
  obtain ⟨hbegin, hnext⟩ := mem_beginning_concat.mp hω
  refine mem_beginning_concat.mpr ⟨mem_beginning.mpr ?_, ?_⟩
  · have hmap : (List.range path.length).map (walk (rename ω)) =
        ((List.range path.length).map (walk ω)).map (swap a b) := by
      rw [List.map_map]
      exact List.map_congr_left fun k _ => hwalk ω k
    rw [hmap, mem_beginning.mp hbegin, hfix]
  · rw [hwalk, hnext, swap_apply_left]

/-- A walk that has not met all points goes on to one of the others. -/
theorem next_mem (h : ExchangeableOrder walk s start) {path : List α} {ω : Ω}
    (hω : ω ∈ beginning walk path) (hlen : path.length < #s) :
    walk ω path.length ∈ s \ path.toFinset := by
  refine mem_sdiff.mpr ⟨h.mem ω _, fun hmet => ?_⟩
  have hbegin := mem_beginning.mp hω
  have hmap : walk ω path.length ∈ (List.range path.length).map (walk ω) :=
    hbegin.symm ▸ List.mem_toFinset.mp hmet
  obtain ⟨k, hk, heq⟩ := List.mem_map.mp hmap
  have hk := List.mem_range.mp hk
  exact Nat.ne_of_lt hk (h.injOn ω (Set.mem_Iio.mpr (hk.trans hlen)) (Set.mem_Iio.mpr hlen) heq)

/-- All ways to go on are equally frequent. -/
theorem card_beginning_concat (h : ExchangeableOrder walk s start) {path : List α}
    (hstart : start ∈ path) (hnodup : path.Nodup) (hpath : ∀ x ∈ path, x ∈ s) {a : α} (ha : a ∈ s)
    (hapath : a ∉ path) :
    (#s - path.length) * #(beginning walk (path ++ [a])) = #(beginning walk path) := by
  have hsub : path.toFinset ⊆ s := fun x hx => hpath x (List.mem_toFinset.mp hx)
  have hlen : path.toFinset.card = path.length := List.toFinset_card_of_nodup hnodup
  have hlt : path.length < #s := by
    rw [← hlen]
    exact card_lt_card ((ssubset_iff_of_subset hsub).mpr
      ⟨a, ha, fun hx => hapath (List.mem_toFinset.mp hx)⟩)
  have hfiber : ∀ b ∈ s \ path.toFinset,
      #{ω ∈ beginning walk path | walk ω path.length = b} = #(beginning walk (path ++ [a])) := by
    intro b hb
    obtain ⟨hbs, hbpath⟩ := mem_sdiff.mp hb
    rw [List.mem_toFinset] at hbpath
    have hfilter : {ω ∈ beginning walk path | walk ω path.length = b} =
        beginning walk (path ++ [b]) := by
      ext ω
      rw [mem_filter, mem_beginning_concat]
    rw [hfilter]
    exact Nat.le_antisymm (h.card_beginning_concat_le hstart hbs ha hbpath hapath)
      (h.card_beginning_concat_le hstart ha hbs hapath hbpath)
  rw [card_eq_sum_card_fiberwise fun ω hω => h.next_mem hω hlt, sum_congr rfl hfiber, sum_const,
    card_sdiff_of_subset hsub, hlen, Nat.nsmul_eq_mul]

/-- The number of outcomes whose walk begins with given points depends on how many they are. -/
theorem card_beginning (h : ExchangeableOrder walk s start) {rest : List α}
    (hnodup : (start :: rest).Nodup) (hrest : ∀ x ∈ start :: rest, x ∈ s) :
    #(beginning walk (start :: rest)) * (#s - 1)! = Fintype.card Ω * (#s - 1 - rest.length)! := by
  induction rest using List.reverseRecOn with
  | nil =>
      have hall : beginning walk [start] = univ := by
        ext ω
        simp [mem_beginning, h.zero ω]
      rw [hall, card_univ, List.length_nil, Nat.sub_zero]
  | append_singleton rest a ih =>
      rw [← List.cons_append] at hnodup hrest ⊢
      have hnew : a ∉ start :: rest := fun hmem =>
        (List.nodup_append.mp hnodup).2.2 a hmem a (List.mem_singleton_self a) rfl
      have hprev := ih hnodup.of_append_left fun x hx => hrest x (List.mem_append_left _ hx)
      have hstep := h.card_beginning_concat List.mem_cons_self hnodup.of_append_left
        (fun x hx => hrest x (List.mem_append_left _ hx))
        (hrest a (List.mem_append_right _ (List.mem_singleton_self a))) hnew
      have hcard : (start :: rest ++ [a]).length ≤ #s := by
        rw [← List.toFinset_card_of_nodup hnodup]
        exact card_le_card fun x hx => hrest x (List.mem_toFinset.mp hx)
      simp only [List.length_append, List.length_cons, List.length_nil, Nat.zero_add]
        at hcard hstep ⊢
      obtain ⟨left, hleft⟩ : ∃ left, #s = rest.length + 2 + left :=
        ⟨_, (Nat.add_sub_of_le hcard).symm⟩
      rw [show #s - (rest.length + 1) = left + 1 by omega] at hstep
      rw [show #s - 1 - rest.length = left + 1 by omega, Nat.factorial_succ, ← hstep] at hprev
      rw [show #s - 1 - (rest.length + 1) = left by omega]
      refine Nat.eq_of_mul_eq_mul_left (Nat.succ_pos left) ?_
      calc (left + 1) * (#(beginning walk (start :: rest ++ [a])) * (#s - 1)!)
          = (left + 1) * #(beginning walk (start :: rest ++ [a])) * (#s - 1)! :=
            (Nat.mul_assoc _ _ _).symm
        _ = Fintype.card Ω * ((left + 1) * left !) := hprev
        _ = (left + 1) * (Fintype.card Ω * left !) := Nat.mul_left_comm _ _ _

end ExchangeableOrder
