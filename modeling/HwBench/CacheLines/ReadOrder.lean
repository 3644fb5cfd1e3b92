import HwBench.CacheLines.SattoloBias
import HwBench.CacheLines.Visits
import HwBench.Math.ExchangeableOrder

/-!
# The order of the reads cannot be predicted

Renaming two elements of a pointer-chase cycle gives a pointer-chase cycle, which has
choices of its own. So the choices do not tell the elements apart: whatever the chase has
read so far, each element that it has not read is the next one for the same number of
vectors of choices. This is what the source means by a random cycle that the prefetcher
cannot predict. With words of the generator in place of choices, it holds up to the
remainders of the reductions.
-/

namespace HwBench

open Equiv CycleInsertion Finset ModularDraws
open scoped Nat

namespace PointerChase

variable {n : Nat}

/-- The permutation of the indices that the finished chain holds. -/
def cycleOf (j : Choices n) : Perm ℕ := insertions (choiceFn j) (n - 1)

theorem cycleOf_apply_of_le (j : Choices n) (hn : 0 < n) {x : ℕ} (hx : n ≤ x) : cycleOf j x = x :=
  insertions_apply_of_lt (fun i _ => choiceFn_le j i) (by omega)

theorem cycleOf_injective (hn : 0 < n) : Function.Injective (cycleOf : Choices n → Perm ℕ) := by
  intro j j' heq
  have hholds : Holds (chainOf j hn) (cycleOf j') := heq ▸ holds_chainOf j hn
  exact chainOf_injective hn (hholds.ext (holds_chainOf j' hn))

/-- Every cycle on the indices has its choices. -/
theorem exists_cycleOf (hn : 0 < n) {σ : Perm ℕ} (hσ : σ.IsCycleOn (range n))
    (hfix : ∀ x, n ≤ x → σ x = x) : ∃ j : Choices n, cycleOf j = σ := by
  have hholds : Holds (Vector.ofFn fun x : Fin n => σ x) σ := fun x hx => Vector.getElem_ofFn hx
  obtain ⟨j, hj⟩ := exists_choices hn (hholds.isHamiltonianCycle hσ)
  refine ⟨j, Equiv.ext fun x => ?_⟩
  obtain hx | hx := Nat.lt_or_ge x n
  · rw [cycleOf, ← holds_chainOf j hn x hx, ← hholds x hx]
    simp only [hj]
  · rw [cycleOf_apply_of_le j hn hx, hfix x hx]

/-- Renamed elements, renamed choices. -/
theorem exists_rename (hn : 0 < n) {τ : Perm ℕ} (hτ : ∀ x, n ≤ x → τ x = x) :
    ∃ rename : Choices n → Choices n, Function.Injective rename ∧
      ∀ j, cycleOf (rename j) = τ * cycleOf j * τ⁻¹ := by
  have hmem : ∀ x, τ x ∈ range n ↔ x ∈ range n := by
    intro x
    rw [mem_range, mem_range]
    obtain hx | hx := Nat.lt_or_ge x n
    · refine iff_of_true (Nat.lt_of_not_le fun hle => ?_) hx
      exact Nat.not_lt.mpr (τ.injective (hτ _ hle) ▸ hle) hx
    · rw [hτ x hx]
  have himage : Set.image τ (range n) = range n := (Equiv.bijOn τ hmem).image_eq
  have hconj : ∀ j : Choices n, ∃ j' : Choices n, cycleOf j' = τ * cycleOf j * τ⁻¹ := by
    intro j
    refine exists_cycleOf hn ?_ fun x hx => ?_
    · have hcycle := (isCycleOn_choices j hn).conj (g := τ)
      rwa [himage] at hcycle
    · have hinv : τ⁻¹ x = x := Perm.inv_eq_iff_eq.mpr (hτ x hx).symm
      rw [Perm.mul_apply, Perm.mul_apply, hinv, cycleOf_apply_of_le j hn hx, hτ x hx]
  choose rename hrename using hconj
  refine ⟨rename, fun j j' heq => cycleOf_injective hn ?_, hrename⟩
  have hequal : τ * cycleOf j * τ⁻¹ = τ * cycleOf j' * τ⁻¹ := by
    rw [← hrename j, ← hrename j', heq]
  exact mul_left_cancel (mul_right_cancel hequal)

/-- The chases of all choices from one start do not tell the other elements apart. -/
theorem exchangeableOrder_cycleOf (hn : 0 < n) {start : ℕ} (hs : start < n) :
    ExchangeableOrder (fun (j : Choices n) k => (cycleOf j ^ k) start) (range n) start where
  zero _ := rfl
  mem j k := mem_range.mpr
    (chase_eq (holds_chainOf j hn) (isCycleOn_choices j hn).1.mapsTo hs k).1
  injOn j k hk k' hk' heq := by
    have hmod := ((isCycleOn_choices j hn).pow_apply_eq_pow_apply (mem_range.mpr hs)).mp heq
    rw [card_range] at hmod
    rw [card_range, Set.mem_Iio] at hk hk'
    exact hmod.eq_of_lt_of_lt hk hk'
  exchange a ha b hb hastart hbstart := by
    rw [mem_range] at ha hb
    have houtside : ∀ x, n ≤ x → Equiv.swap a b x = x :=
      fun x hx => swap_apply_of_ne_of_ne (by omega) (by omega)
    obtain ⟨rename, hinj, hcycle⟩ := exists_rename hn houtside
    refine ⟨rename, hinj, fun j k => ?_⟩
    have hfix : (Equiv.swap a b)⁻¹ start = start :=
      swap_apply_of_ne_of_ne hastart.symm hbstart.symm
    rw [hcycle, conj_pow, Perm.mul_apply, Perm.mul_apply, hfix]

theorem reads_eq_iff (hn : 0 < n) (j : Choices n) {start : ℕ} (hs : start < n) (path : List ℕ) :
    reads (chainOf j hn) start path.length = path.map some ↔
      j ∈ ExchangeableOrder.beginning (fun (j : Choices n) k => (cycleOf j ^ k) start) path := by
  have hreads : reads (chainOf j hn) start path.length =
      ((List.range path.length).map fun k => (cycleOf j ^ k) start).map some := by
    rw [reads, List.map_map]
    exact List.map_congr_left fun k _ =>
      (chase_eq (holds_chainOf j hn) (isCycleOn_choices j hn).1.mapsTo hs k).2
  rw [hreads, ExchangeableOrder.mem_beginning,
    (List.map_injective_iff.mpr (Option.some_injective _)).eq_iff]

/-- How many vectors of choices let the chase begin with given elements. -/
theorem card_reads (hn : 0 < n) {start : ℕ} {rest : List ℕ} (hnodup : (start :: rest).Nodup)
    (hlt : ∀ x ∈ start :: rest, x < n) :
    #{j : Choices n | reads (chainOf j hn) start (rest.length + 1) = (start :: rest).map some} =
      (n - 1 - rest.length)! := by
  have hs := hlt start List.mem_cons_self
  have hcard := (exchangeableOrder_cycleOf hn hs).card_beginning hnodup
    fun x hx => mem_range.mpr (hlt x hx)
  have hfilter : ({j : Choices n |
      reads (chainOf j hn) start (rest.length + 1) = (start :: rest).map some} : Finset _) =
        ExchangeableOrder.beginning (fun j k => (cycleOf j ^ k) start) (start :: rest) := by
    ext j
    rw [mem_filter_univ]
    exact reads_eq_iff hn j hs (start :: rest)
  rw [card_range, card_choices, Nat.mul_comm] at hcard
  rw [hfilter]
  exact Nat.eq_of_mul_eq_mul_left (Nat.factorial_pos _) hcard

/-- The elements that the chase has read so far say nothing about the next one: every
element that is not among them is next for the same number of vectors of choices. -/
theorem card_reads_concat (n : Nat) (hn : 1 ≤ n) (start : ℕ) (rest : List ℕ)
    (hnodup : (start :: rest).Nodup) (hlt : ∀ x ∈ start :: rest, x < n) :
    #{j : Choices n | reads (chainOf j hn) start (rest.length + 1) = (start :: rest).map some} =
        (n - 1 - rest.length)! ∧
      ∀ next, next < n → next ∉ start :: rest →
        (n - 1 - rest.length) * #{j : Choices n | reads (chainOf j hn) start (rest.length + 2) =
            (start :: rest ++ [next]).map some} =
          #{j : Choices n |
            reads (chainOf j hn) start (rest.length + 1) = (start :: rest).map some} := by
  refine ⟨card_reads hn hnodup hlt, fun next hnext hnew => ?_⟩
  have hnodup' : (start :: (rest ++ [next])).Nodup := by
    rw [← List.cons_append]
    exact List.nodup_append.mpr ⟨hnodup, List.nodup_singleton next, fun x hx y hy =>
      List.mem_singleton.mp hy ▸ fun heq => hnew (heq ▸ hx)⟩
  have hlt' : ∀ x ∈ start :: (rest ++ [next]), x < n := by
    intro x hx
    rw [← List.cons_append, List.mem_append, List.mem_singleton] at hx
    obtain hx | rfl := hx
    · exact hlt x hx
    · exact hnext
  have hroom : (start :: (rest ++ [next])).length ≤ (List.range n).length :=
    (hnodup'.subperm fun x hx => List.mem_range.mpr (hlt' x hx)).length_le
  have hcard := card_reads hn hnodup' hlt'
  simp only [List.length_cons, List.length_append, List.length_nil, List.length_range,
    Nat.zero_add] at hcard hroom
  rw [card_reads hn hnodup hlt, List.cons_append, hcard, ← Nat.sub_sub (n - 1)]
  exact Nat.mul_factorial_pred (by omega)

/-- Of the six chases through four elements, two begin with `0, 2`, and one of these
goes on to `1`. -/
theorem card_reads_concat_four :
    #{j : Choices 4 | reads (chainOf j (by decide)) 0 2 = [some 0, some 2]} = 2 ∧
      2 * #{j : Choices 4 | reads (chainOf j (by decide)) 0 3 = [some 0, some 2, some 1]} = 2 := by
  have hfour := card_reads_concat 4 (by decide) 0 [2] (by decide) (by decide)
  exact ⟨hfour.1, (hfour.2 1 (by decide) (by decide)).trans hfour.1⟩

/-! ### Words instead of choices -/

/-- The words that let the chase begin in some way, by the choices that they make. -/
theorem card_words_reads (hn : 0 < n) (start steps : ℕ) (path : List (Option ℕ)) :
    #{d : Words n | reads (buildChain (rngOf d) hn) start steps = path} =
      ∑ j : Choices n with reads (chainOf j hn) start steps = path,
        ∏ i : Fin (n - 1), weight (2 ^ 64) (i.val + 1) (j i).val := by
  have hmaps : Set.MapsTo (fun d : Words n => drawn (rngOf d) n)
      ({d | reads (buildChain (rngOf d) hn) start steps = path} : Finset (Words n))
      ({j | reads (chainOf j hn) start steps = path} : Finset (Choices n)) := by
    intro d hd
    rw [mem_coe, mem_filter_univ] at hd ⊢
    exact hd
  rw [card_eq_sum_card_fiberwise hmaps]
  refine sum_congr rfl fun j hj => ?_
  rw [mem_filter_univ] at hj
  rw [← wordsOf_chainOf hn j, wordsOf, filter_filter]
  refine congrArg card (filter_congr fun d _ => ?_)
  rw [buildChain, (chainOf_injective hn).eq_iff]
  exact ⟨fun h => h.2, fun h => ⟨h ▸ hj, h⟩⟩

/-- With equally likely words, the beginnings of one length are equally likely up to the
remainders of `2 ^ 64` in the reductions. -/
theorem card_words_reads_bounds (n : Nat) (hn : 1 ≤ n) (start : ℕ) (rest : List ℕ)
    (hnodup : (start :: rest).Nodup) (hlt : ∀ x ∈ start :: rest, x < n) :
    (n - 1 - rest.length)! * ∏ i : Fin (n - 1), 2 ^ 64 / (i.val + 1) ≤
        #{d : Words n | reads (buildChain (rngOf d) hn) start (rest.length + 1) =
          (start :: rest).map some} ∧
      #{d : Words n | reads (buildChain (rngOf d) hn) start (rest.length + 1) =
          (start :: rest).map some} ≤
        (n - 1 - rest.length)! * ∏ i : Fin (n - 1), 2 ^ 64 ⌈/⌉ (i.val + 1) := by
  rw [card_words_reads, ← card_reads hn hnodup hlt]
  constructor
  · refine card_nsmul_le_sum _ _ _ fun j _ => ?_
    exact prod_le_prod' fun i _ => div_le_weight _ _ _
  · refine sum_le_card_nsmul _ _ _ fun j _ => ?_
    exact prod_le_prod' fun i _ => weight_le_ceilDiv _ _ (Nat.succ_pos _)

/-- Words for which the chase through four elements begins with `0, 2`: a third of them,
up to the remainder of the one reduction modulo `3`. -/
theorem card_words_reads_bounds_four :
    2 * ∏ i : Fin (4 - 1), 2 ^ 64 / (i.val + 1) ≤
        #{d : Words 4 | reads (buildChain (n := 4) (rngOf d) (by decide)) 0 2 = [some 0, some 2]} ∧
      #{d : Words 4 | reads (buildChain (n := 4) (rngOf d) (by decide)) 0 2 = [some 0, some 2]} ≤
        2 * ∏ i : Fin (4 - 1), 2 ^ 64 ⌈/⌉ (i.val + 1) :=
  card_words_reads_bounds 4 (by decide) 0 [2] (by decide) (by decide)

end PointerChase
end HwBench
