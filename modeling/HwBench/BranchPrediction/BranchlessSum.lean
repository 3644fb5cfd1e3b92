import HwBench.BranchPrediction.Branchless

/-!
# The sum of the branchless loop

The masks are sign-extended, so each element adds `3 * v + 1` or `v` as a signed
number, also when it is negative, and the passes add up to a multiple of one
sum. The order of the elements does not matter.

The product `v * 3` is evaluated first. It overflows at one value whose
`v * 3 + 1` would be in range again; there the loop has no defined result.
-/

namespace HwBench

open Machine

namespace Branchless

/-- The exact value of `v * 3 + 1` is an `int`. -/
def ResultInRange (v : CInt) : Prop :=
  -2 ^ 31 ≤ 3 * v.toInt + 1 ∧ 3 * v.toInt + 1 < 2 ^ 31

instance : DecidablePred ResultInRange := fun v =>
  inferInstanceAs (Decidable (-2 ^ 31 ≤ 3 * v.toInt + 1 ∧ 3 * v.toInt + 1 < 2 ^ 31))

/-- The exact value of `v * 3` is not below the `int` range. -/
def ProductInRange (v : CInt) : Prop := -2 ^ 31 ≤ 3 * v.toInt

instance : DecidablePred ProductInRange := fun v =>
  inferInstanceAs (Decidable (-2 ^ 31 ≤ 3 * v.toInt))

/-- What one pass over the data adds to the sum. -/
def passSum (data : List CInt) : Int := (data.map contribution).sum

theorem passSum_perm {data data' : List CInt} (h : data'.Perm data) : passSum data' = passSum data :=
  (h.map contribution).sum_eq

/-- One value of the range of results has its product outside the range. -/
theorem not_productInRange_iff {v : CInt} (hv : ResultInRange v) :
    ¬ProductInRange v ↔ v.toInt = -715827883 := by
  obtain ⟨hlo, _⟩ := hv
  rw [ProductInRange]
  omega

@[simp] theorem passSum_nil : passSum [] = 0 := rfl

@[simp] theorem passSum_cons (v : CInt) (data : List CInt) :
    passSum (v :: data) = contribution v + passSum data := by
  simp [passSum]

theorem foldl_add_contribution (vs : List CInt) (sum : Word) :
    vs.foldl (fun sum v => sum + BitVec.ofInt 64 (contribution v)) sum =
      sum + BitVec.ofInt 64 (passSum vs) := by
  induction vs generalizing sum with
  | nil => simp
  | cons v vs ih => simp [ih, BitVec.ofInt_add, BitVec.add_assoc]

theorem passSum_visited (data : List CInt) (iterations : Nat) :
    passSum (visited data iterations) = iterations * passSum data := by
  rw [passSum, visited, List.map_flatten, List.map_replicate, List.sum_flatten, List.map_replicate,
    List.sum_replicate, nsmul_eq_mul, passSum]

/-- The body faults where the product overflows. -/
theorem branchlessBody_eq_none {v : CInt} (hv : ¬ProductInRange v) (sum : Word) :
    branchlessBody sum v = none := by
  have hproduct : Signed.mul? v 3 = none := by
    refine Option.eq_none_iff_forall_ne_some.mpr fun product hsome => hv ?_
    have hvalue : product.toInt = v.toInt * 3 := (Signed.ofInt?_eq_some hsome).2
    have hmin : -2 ^ 31 ≤ product.toInt := BitVec.le_toInt product
    rw [ProductInRange]
    omega
  rw [branchlessBody, hproduct]
  rfl

theorem branchless_eq_some {data : List CInt} (hresult : ∀ v ∈ data, ResultInRange v)
    (hproduct : ∀ v ∈ data, ProductInRange v) (iterations : Nat) (sum : Word) :
    branchless data iterations sum =
      some (sum + BitVec.ofInt 64 (iterations * passSum data)) := by
  rw [branchless, loop_eq, ← passSum_visited, ← foldl_add_contribution]
  refine foldlM_eq_foldl (fun s v hv => ?_) sum
  have hmem := (mem_visited_iff.mp hv).2
  exact branchlessBody_eq (hproduct v hmem) (hresult v hmem).2 s

theorem branchless_eq_none {data : List CInt} {v : CInt} (hv : v ∈ data)
    (hproduct : ¬ProductInRange v) {iterations : Nat} (hpos : iterations ≠ 0) (sum : Word) :
    branchless data iterations sum = none := by
  rw [branchless, loop_eq]
  exact foldlM_eq_none (mem_visited_iff.mpr ⟨hpos, hv⟩) (branchlessBody_eq_none hproduct) sum

/-- Over values whose `v * 3 + 1` is an `int` the loop ends with the sum of all
contributions, in whatever order the values come, as long as no product overflows
on the way; when one does, no pass has a result. -/
theorem branchless_sum (data : List CInt) (hdata : ∀ v ∈ data, ResultInRange v)
    (iterations : Nat) (sum : Word) :
    ((∀ v ∈ data, ProductInRange v) →
      branchless data iterations sum =
          some (sum + BitVec.ofInt 64 (iterations * passSum data)) ∧
        ∀ data', data'.Perm data →
          branchless data' iterations sum = branchless data iterations sum) ∧
    (∀ v ∈ data, (¬ProductInRange v ↔ v.toInt = -715827883) ∧
      (¬ProductInRange v → iterations ≠ 0 → branchless data iterations sum = none)) := by
  constructor
  · intro hproduct
    refine ⟨branchless_eq_some hdata hproduct iterations sum, fun data' hperm => ?_⟩
    rw [branchless_eq_some hdata hproduct, branchless_eq_some
      (fun v hv => hdata v (hperm.mem_iff.mp hv)) (fun v hv => hproduct v (hperm.mem_iff.mp hv)),
      passSum_perm hperm]
  · intro v hv
    exact ⟨not_productInRange_iff (hdata v hv),
      fun hproduct hpos => branchless_eq_none hv hproduct hpos sum⟩

/-- A negative value, one below and one above the threshold. -/
theorem branchless_sum_three :
    branchless [-5, 127, 128] 2 7 = some 1021 ∧
      branchless [128, -5, 127] 2 7 = branchless [-5, 127, 128] 2 7 := by
  obtain ⟨hsum, hperm⟩ := (branchless_sum [-5, 127, 128] (by simp [ResultInRange]) 2 7).1
    (by simp [ProductInRange])
  exact ⟨hsum.trans (by decide +kernel), hperm _ (by decide +kernel)⟩

/-- The product of the least value overflows before one is added. -/
theorem not_branchless_sum :
    ¬ ∀ data : List CInt, (∀ v ∈ data, ResultInRange v) → ∀ iterations sum,
      branchless data iterations sum =
        some (sum + BitVec.ofInt 64 (iterations * passSum data)) := by
  intro h
  have hsum := h [BitVec.ofInt 32 (-715827883)] (by simp [ResultInRange]) 1 0
  have hfault : branchless [BitVec.ofInt 32 (-715827883)] 1 0 = none := by decide +kernel
  rw [hfault] at hsum
  cases hsum

end Branchless
end HwBench
