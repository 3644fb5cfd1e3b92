import HwBench.BranchPrediction.Branchless
import HwBench.Math.Changes

/-!
# Branch outcomes over sorted and unsorted data

`run_sorted_vs_unsorted` makes the same passes twice, first over the data as drawn
and then over the sorted data. What the branch predictor sees is the sequence of
calls, `hot_path` for values from 128 on and `cold_path` for the others.

In sorted data the cold calls of a pass come before the hot ones, so the sequence
changes once within a pass and once between two passes. No order of the data has
fewer changes.
-/

namespace HwBench

open Machine Changes

namespace SortedBranches

open Branchless

/-- The function that the branch calls. -/
inductive Call where
  | cold
  | hot
  deriving DecidableEq, Repr

/-- The sum and the calls made so far. -/
structure Vars where
  sum : Word
  calls : List Call
  deriving DecidableEq

/-- `if (data[i] >= 128) sum = hot_path(data[i], sum); else sum = cold_path(data[i], sum);` -/
def body (s : Vars) (v : CInt) : Option Vars :=
  if 128 ≤ v.toInt then do
    let sum ← hotPath v s.sum
    some { sum, calls := s.calls ++ [.hot] }
  else
    some { sum := coldPath v s.sum, calls := s.calls ++ [.cold] }

/-- `for (iter < ITERATIONS) for (i < N) body` -/
def passes (data : List CInt) : (iterations : Nat) → Vars → Option Vars
  | 0, s => some s
  | iterations + 1, s => do
      let s ← data.foldlM body s
      passes data iterations s

/-- `std::sort(data.begin(), data.end());` -/
def sortData (data : List CInt) : List CInt := data.mergeSort fun a b => a.toInt ≤ b.toInt

/-- The passes over the data as drawn, then those over the sorted data. -/
def runSortedVsUnsorted (data : List CInt) (iterations : Nat) : Option (Vars × Vars) := do
  let unsorted ← passes data iterations { sum := 0, calls := [] }
  let sorted ← passes (sortData data) iterations { sum := 0, calls := [] }
  some (unsorted, sorted)

/-! ### The sequence of calls -/

/-- The call for one value. -/
def call (v : CInt) : Call := if 128 ≤ v.toInt then .hot else .cold

/-- The calls of all passes. -/
def calls (data : List CInt) (iterations : Nat) : List Call := (visited data iterations).map call

theorem call_eq_hot_iff {v : CInt} : call v = .hot ↔ 128 ≤ v.toInt := by
  rw [call]
  split <;> simp_all

theorem call_eq_cold_iff {v : CInt} : call v = .cold ↔ v.toInt < 128 := by
  rw [call]
  split <;> simp_all

/-- The body makes its call and otherwise does what the branchy loop does. -/
theorem body_eq (s : Vars) (v : CInt) :
    body s v = (branchyBody s.sum v).map fun sum => { sum, calls := s.calls ++ [call v] } := by
  rw [body, branchyBody, call]
  split
  · cases hotPath v s.sum <;> rfl
  · rfl

theorem foldlM_body_eq (data : List CInt) (s : Vars) :
    data.foldlM body s = (data.foldlM branchyBody s.sum).map fun sum =>
      { sum, calls := s.calls ++ data.map call } := by
  induction data generalizing s with
  | nil => simp
  | cons v data ih =>
      simp only [List.foldlM_cons, body_eq]
      cases branchyBody s.sum v with
      | none => rfl
      | some sum =>
          simpa only [Option.map_some, Option.bind_eq_bind, Option.bind_some, List.map_cons,
            List.append_assoc, List.singleton_append] using ih ⟨sum, s.calls ++ [call v]⟩

/-- The passes are those of the branchy loop. -/
theorem passes_eq (data : List CInt) (iterations : Nat) (s : Vars) :
    passes data iterations s = (branchy data iterations s.sum).map fun sum =>
      { sum, calls := s.calls ++ calls data iterations } := by
  rw [branchy, loop_eq, calls, ← foldlM_body_eq]
  induction iterations generalizing s with
  | zero => rfl
  | succ iterations ih =>
      rw [passes, visited_succ, List.foldlM_append]
      exact congrArg _ (funext ih)

theorem runSortedVsUnsorted_eq (data : List CInt) (iterations : Nat) :
    runSortedVsUnsorted data iterations = (do
      let unsorted ← branchy data iterations 0
      let sorted ← branchy (sortData data) iterations 0
      some (⟨unsorted, calls data iterations⟩, ⟨sorted, calls (sortData data) iterations⟩)) := by
  rw [runSortedVsUnsorted, passes_eq, passes_eq]
  cases branchy data iterations 0 with
  | none => rfl
  | some unsorted => cases branchy (sortData data) iterations 0 <;> rfl

theorem perm_sortData (data : List CInt) : (sortData data).Perm data := List.mergeSort_perm _ _

/-- The branchy loop returns when no product of a hot value overflows. -/
theorem exists_branchy {data : List CInt} (hdata : ∀ v ∈ data, 3 * v.toInt < 2 ^ 31)
    (iterations : Nat) (sum : Word) : ∃ total, branchy data iterations sum = some total := by
  have hbody : ∀ s, ∀ v ∈ visited data iterations, branchyBody s v =
      some (if 128 ≤ v.toInt then s + BitVec.ofInt 64 (3 * v.toInt + 1) else coldPath v s) := by
    intro s v hv
    have hhi := hdata v (mem_visited_iff.mp hv).2
    rw [branchyBody]
    split
    · exact hotPath_eq (by omega) hhi s
    · rfl
  exact ⟨_, (loop_eq branchyBody data iterations sum).trans (foldlM_eq_foldl hbody sum)⟩

theorem exists_runSortedVsUnsorted {data : List CInt} (hdata : ∀ v ∈ data, 3 * v.toInt < 2 ^ 31)
    (iterations : Nat) : ∃ unsorted sorted, runSortedVsUnsorted data iterations =
      some (⟨unsorted, calls data iterations⟩, ⟨sorted, calls (sortData data) iterations⟩) := by
  have hsorted : ∀ v ∈ sortData data, 3 * v.toInt < 2 ^ 31 :=
    fun v hv => hdata v ((perm_sortData data).mem_iff.mp hv)
  obtain ⟨unsorted, hunsorted⟩ := exists_branchy hdata iterations 0
  obtain ⟨sorted, hsorted⟩ := exists_branchy hsorted iterations 0
  refine ⟨unsorted, sorted, ?_⟩
  rw [runSortedVsUnsorted_eq, hunsorted, hsorted]
  rfl

theorem calls_eq (data : List CInt) (iterations : Nat) :
    calls data iterations = (List.replicate iterations (data.map call)).flatten := by
  rw [calls, visited, List.map_flatten, List.map_replicate]

/-! ### Sorted data -/

theorem pairwise_sortData (data : List CInt) :
    (sortData data).Pairwise fun a b => a.toInt ≤ b.toInt := by
  have htrans : ∀ a b c : CInt, decide (a.toInt ≤ b.toInt) = true →
      decide (b.toInt ≤ c.toInt) = true → decide (a.toInt ≤ c.toInt) = true := by
    intro a b c hab hbc
    exact decide_eq_true ((of_decide_eq_true hab).trans (of_decide_eq_true hbc))
  have htotal : ∀ a b : CInt, (decide (a.toInt ≤ b.toInt) || decide (b.toInt ≤ a.toInt)) = true := by
    intro a b
    simpa using le_total a.toInt b.toInt
  have hsorted := List.pairwise_mergeSort htrans htotal data
  exact hsorted.imp fun h => of_decide_eq_true h

/-- A sequence in which no cold call follows a hot one is a block of cold calls
before a block of hot ones. -/
theorem eq_blocks {cs : List Call} (h : cs.Pairwise fun a b => a = .hot → b = .hot) :
    cs = List.replicate (cs.count .cold) .cold ++ List.replicate (cs.count .hot) .hot := by
  induction cs with
  | nil => rfl
  | cons c cs ih =>
      obtain ⟨hfirst, hrest⟩ := List.pairwise_cons.mp h
      cases c with
      | cold => simpa [List.replicate_succ] using ih hrest
      | hot =>
          have hall : ∀ b ∈ cs, b = Call.hot := fun b hb => hfirst b hb rfl
          have hcs : cs = List.replicate cs.length .hot := List.eq_replicate_iff.mpr ⟨rfl, hall⟩
          rw [hcs]
          simp [List.count_replicate, List.replicate_succ]

/-- The calls of one pass over the sorted data, counted in the data as drawn. -/
theorem map_call_sortData (data : List CInt) :
    (sortData data).map call = List.replicate ((data.map call).count .cold) .cold ++
      List.replicate ((data.map call).count .hot) .hot := by
  have hperm := (perm_sortData data).map call
  have hordered : ((sortData data).map call).Pairwise fun a b => a = .hot → b = .hot := by
    rw [List.pairwise_map]
    refine (pairwise_sortData data).imp fun hab => ?_
    rw [call_eq_hot_iff, call_eq_hot_iff]
    exact fun ha => ha.trans hab
  rw [eq_blocks hordered, hperm.count_eq, hperm.count_eq]

/-- Both kinds of values occur. -/
def Mixed (data : List CInt) : Prop :=
  (∃ v ∈ data, v.toInt < 128) ∧ ∃ v ∈ data, 128 ≤ v.toInt

instance (data : List CInt) : Decidable (Mixed data) := inferInstanceAs (Decidable (_ ∧ _))

theorem cold_mem_iff {data : List CInt} :
    Call.cold ∈ data.map call ↔ ∃ v ∈ data, v.toInt < 128 := by
  simp only [List.mem_map, call_eq_cold_iff]

theorem hot_mem_iff {data : List CInt} :
    Call.hot ∈ data.map call ↔ ∃ v ∈ data, 128 ≤ v.toInt := by
  simp only [List.mem_map, call_eq_hot_iff]

/-- One change within each pass and one between two passes. -/
theorem changes_sorted (data : List CInt) (iterations : Nat) :
    changes (calls (sortData data) iterations) =
      if Mixed data then 2 * iterations - 1 else 0 := by
  rw [calls_eq, map_call_sortData]
  split
  · next hmixed =>
      obtain ⟨m, hm⟩ := Nat.exists_eq_succ_of_ne_zero
        (List.count_pos_iff.mpr (cold_mem_iff.mpr hmixed.1)).ne'
      obtain ⟨n, hn⟩ := Nat.exists_eq_succ_of_ne_zero
        (List.count_pos_iff.mpr (hot_mem_iff.mpr hmixed.2)).ne'
      rw [hm, hn]
      cases iterations with
      | zero => rfl
      | succ k => exact changes_flatten_replicate_blocks (by decide) m n k
  · next hmixed =>
      obtain hcold | hhot := not_and_or.mp hmixed
      · rw [List.count_eq_zero_of_not_mem (mt cold_mem_iff.mp hcold), List.replicate_zero,
          List.nil_append, List.flatten_replicate_replicate, changes_replicate]
      · rw [List.count_eq_zero_of_not_mem (mt hot_mem_iff.mp hhot), List.replicate_zero,
          List.append_nil, List.flatten_replicate_replicate, changes_replicate]

/-- Mixed data in any order has a change within each pass and one between two
passes at least. -/
theorem le_changes_of_mixed {data : List CInt} (hmixed : Mixed data) (iterations : Nat) :
    2 * iterations - 1 ≤ changes (calls data iterations) := by
  cases iterations with
  | zero => exact Nat.zero_le _
  | succ k =>
      rw [calls_eq]
      exact le_changes_flatten_replicate (cold_mem_iff.mpr hmixed.1) (hot_mem_iff.mpr hmixed.2)
        (by decide) k

theorem mixed_perm {data order : List CInt} (h : order.Perm data) (hmixed : Mixed data) :
    Mixed order := by
  obtain ⟨⟨v, hv, hcold⟩, ⟨w, hw, hhot⟩⟩ := hmixed
  exact ⟨⟨v, h.mem_iff.mpr hv, hcold⟩, ⟨w, h.mem_iff.mpr hw, hhot⟩⟩

/-- The run over values whose product with three is an `int` returns with the calls
of both loops. Sorting the data gives each pass its cold calls first, as many of
each kind as before, and the fewest outcome changes that any order of the data can
have. -/
theorem sorted_best_case (data : List CInt) (iterations : Nat) :
    runSortedVsUnsorted data iterations = (do
      let unsorted ← branchy data iterations 0
      let sorted ← branchy (sortData data) iterations 0
      some (⟨unsorted, calls data iterations⟩, ⟨sorted, calls (sortData data) iterations⟩)) ∧
    ((∀ v ∈ data, 3 * v.toInt < 2 ^ 31) →
      ∃ unsorted sorted, runSortedVsUnsorted data iterations =
        some (⟨unsorted, calls data iterations⟩, ⟨sorted, calls (sortData data) iterations⟩)) ∧
    calls data iterations = (List.replicate iterations (data.map call)).flatten ∧
    calls (sortData data) iterations = (List.replicate iterations
      (List.replicate ((data.map call).count .cold) .cold ++
        List.replicate ((data.map call).count .hot) .hot)).flatten ∧
    changes (calls (sortData data) iterations) =
      (if Mixed data then 2 * iterations - 1 else 0) ∧
    ∀ order, order.Perm data →
      changes (calls (sortData data) iterations) ≤ changes (calls order iterations) := by
  refine ⟨runSortedVsUnsorted_eq data iterations,
    fun hdata => exists_runSortedVsUnsorted hdata iterations, calls_eq data iterations, ?_,
    changes_sorted data iterations, fun order hperm => ?_⟩
  · rw [calls_eq, map_call_sortData]
  · rw [changes_sorted]
    split
    · next hmixed => exact le_changes_of_mixed (mixed_perm hperm hmixed) iterations
    · exact Nat.zero_le _

/-- Two passes over a cold value between two hot ones. -/
theorem sorted_best_case_mixed :
    ∃ unsorted sorted, runSortedVsUnsorted [200, 5, 130] 2 =
      some (⟨unsorted, [.hot, .cold, .hot, .hot, .cold, .hot]⟩,
        ⟨sorted, [.cold, .hot, .hot, .cold, .hot, .hot]⟩) := by
  obtain ⟨_, hruns, hcalls, hsorted, _⟩ := sorted_best_case [200, 5, 130] 2
  obtain ⟨unsorted, sorted, hrun⟩ := hruns (by simp)
  rw [hcalls, hsorted] at hrun
  exact ⟨unsorted, sorted, hrun⟩

end SortedBranches
end HwBench
