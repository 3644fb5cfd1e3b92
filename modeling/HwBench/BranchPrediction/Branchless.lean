import HwBench.Machine.Loop
import HwBench.Machine.Signed
import HwBench.Math.Carryless

/-!
# The branchy and the branchless loop

`run_branchy_vs_branchless` folds the same data into a 64-bit sum twice. The
branchy loop calls `hot_path` for values from 128 on, which adds `3 * v + 1`, and
`cold_path` for the others, which combines by exclusive or. The branchless loop
selects `3 * v + 1` or `v` with masks and adds it.

The masks select what the branch would, but the cold branch does not add. So the
loops agree exactly when the carries that the exclusive ors drop cancel out.
-/

namespace HwBench

open Machine Carryless

namespace Branchless

/-- `return sum + val * 3 + 1;` -/
def hotPath (val : CInt) (sum : Word) : Option Word := do
  let product ← Signed.mul? val 3
  some (sum + Signed.toWord product + 1)

/-- `return sum ^ static_cast<uint64_t>(val);` -/
def coldPath (val : CInt) (sum : Word) : Word := sum ^^^ Signed.toWord val

/-- `if (v >= 128) sum = hot_path(v, sum); else sum = cold_path(v, sum);` -/
def branchyBody (sum : Word) (v : CInt) : Option Word :=
  if 128 ≤ v.toInt then hotPath v sum else some (coldPath v sum)

/-- The mask arithmetic, with the `int` masks converted to `uint64_t`. -/
def branchlessBody (sum : Word) (v : CInt) : Option Word := do
  let above : CInt := -(if 128 ≤ v.toInt then 1 else 0)
  let below : CInt := ~~~above
  let product ← Signed.mul? v 3
  let hot ← Signed.add? product 1
  let hotVal := Signed.toWord hot
  let coldVal := Signed.toWord v
  some (sum + ((hotVal &&& Signed.toWord above) ||| (coldVal &&& Signed.toWord below)))

/-- `for (iter < iterations) for (i < N) sum = body(data[i], sum);` -/
def loop (body : Word → CInt → Option Word) (data : List CInt) :
    (iterations : Nat) → Word → Option Word
  | 0, sum => some sum
  | iterations + 1, sum => do
      let sum ← data.foldlM body sum
      loop body data iterations sum

def branchy : List CInt → (iterations : Nat) → Word → Option Word := loop branchyBody

def branchless : List CInt → (iterations : Nat) → Word → Option Word := loop branchlessBody

/-! ### One element -/

/-- What the branchless loop adds to the sum, as an integer. -/
def contribution (v : CInt) : Int := if 128 ≤ v.toInt then 3 * v.toInt + 1 else v.toInt

/-- The product with three exists and is exact when it is in range. -/
theorem exists_triple {v : CInt} (hlo : -2 ^ 31 ≤ 3 * v.toInt) (hhi : 3 * v.toInt < 2 ^ 31) :
    ∃ product : CInt, Signed.mul? v 3 = some product ∧ product.toInt = 3 * v.toInt := by
  have hcomm : v.toInt * (3 : CInt).toInt = 3 * v.toInt := Int.mul_comm v.toInt 3
  rw [← hcomm] at hlo hhi ⊢
  exact Signed.exists_mul? (by decide) hlo hhi

theorem hotPath_eq {v : CInt} (hlo : -2 ^ 31 ≤ 3 * v.toInt) (hhi : 3 * v.toInt < 2 ^ 31)
    (sum : Word) : hotPath v sum = some (sum + BitVec.ofInt 64 (3 * v.toInt + 1)) := by
  obtain ⟨product, hproduct, hvalue⟩ := exists_triple hlo hhi
  rw [hotPath, hproduct, Option.bind_eq_bind, Option.bind_some, Signed.toWord_eq, hvalue,
    BitVec.ofInt_add, ← BitVec.add_assoc]
  rfl

/-- The sign-extended masks select one of the two values. -/
theorem branchlessBody_eq {v : CInt} (hlo : -2 ^ 31 ≤ 3 * v.toInt)
    (hhi : 3 * v.toInt + 1 < 2 ^ 31) (sum : Word) :
    branchlessBody sum v = some (sum + BitVec.ofInt 64 (contribution v)) := by
  obtain ⟨product, hproduct, hproductValue⟩ := exists_triple hlo (by omega)
  have hone : product.toInt + (1 : CInt).toInt = 3 * v.toInt + 1 :=
    congrArg (· + 1) hproductValue
  obtain ⟨hot, hhot, hhotValue⟩ := Signed.exists_add? (a := product) (b := 1) (by decide)
    (by omega) (by omega)
  simp only [branchlessBody, hproduct, hhot, Option.bind_eq_bind, Option.bind_some]
  congr 2
  by_cases hv : 128 ≤ v.toInt
  · have hall : Signed.toWord (-1 : CInt) = BitVec.allOnes 64 := by decide
    have hnone : Signed.toWord (~~~(-1 : CInt)) = 0#64 := by decide
    rw [if_pos hv, hall, hnone, BitVec.and_allOnes, BitVec.and_zero, BitVec.or_zero,
      contribution, if_pos hv, Signed.toWord_eq, hhotValue, hone]
  · have hnone : Signed.toWord (-0 : CInt) = 0#64 := by decide
    have hall : Signed.toWord (~~~(-0 : CInt)) = BitVec.allOnes 64 := by decide
    rw [if_neg hv, hnone, hall, BitVec.and_zero, BitVec.and_allOnes, BitVec.zero_or,
      contribution, if_neg hv, Signed.toWord_eq]

/-! ### All elements -/

/-- The values in the order in which the loops visit them. -/
def visited (data : List CInt) (iterations : Nat) : List CInt :=
  (List.replicate iterations data).flatten

theorem visited_succ (data : List CInt) (iterations : Nat) :
    visited data (iterations + 1) = data ++ visited data iterations := by
  rw [visited, List.replicate_succ, List.flatten_cons, visited]

theorem mem_visited_iff {data : List CInt} {iterations : Nat} {v : CInt} :
    v ∈ visited data iterations ↔ iterations ≠ 0 ∧ v ∈ data := by
  rw [visited, List.mem_flatten]
  constructor
  · rintro ⟨pass, hpass, hv⟩
    obtain ⟨hpos, rfl⟩ := List.mem_replicate.mp hpass
    exact ⟨hpos, hv⟩
  · exact fun ⟨hpos, hv⟩ => ⟨data, List.mem_replicate.mpr ⟨hpos, rfl⟩, hv⟩

theorem loop_eq (body : Word → CInt → Option Word) (data : List CInt) (iterations : Nat)
    (sum : Word) : loop body data iterations sum = (visited data iterations).foldlM body sum := by
  induction iterations generalizing sum with
  | zero => rfl
  | succ iterations ih =>
      rw [loop, visited_succ, List.foldlM_append]
      congr 1
      exact funext ih

theorem length_visited (data : List CInt) (iterations : Nat) :
    (visited data iterations).length = iterations * data.length := by
  rw [visited, List.length_flatten, List.map_replicate, List.sum_replicate_nat]

/-! ### Drawn values -/

/-- A value of `std::uniform_int_distribution<int>(0, 255)`. -/
def Drawn (v : CInt) : Prop := 0 ≤ v.toInt ∧ v.toInt ≤ 255

instance : DecidablePred Drawn := fun v => inferInstanceAs (Decidable (0 ≤ v.toInt ∧ v.toInt ≤ 255))

/-- What the branch does to the sum: a hot value adds `3 * v + 1`, a cold one is
combined by exclusive or. -/
def update (v : CInt) : Update := if 128 ≤ v.toInt then .add (3 * v.toNat + 1) else .xor v.toNat

theorem low_update {v : CInt} (hv : Drawn v) : (update v).Low 7 := by
  have hnat := Signed.toInt_eq_toNat hv.1
  rw [update]
  split
  · trivial
  · change v.toNat < 2 ^ 7
    omega

theorem update_eq_xor_iff {v : CInt} {a : Nat} :
    update v = .xor a ↔ v.toInt < 128 ∧ v.toNat = a := by
  rw [update]
  split
  · next hhot =>
      constructor
      · intro h
        cases h
      · rintro ⟨hcold, _⟩
        exact absurd hcold (Int.not_lt.mpr hhot)
  · next hcold =>
      rw [Update.xor.injEq]
      exact ⟨fun h => ⟨Int.not_le.mp hcold, h⟩, And.right⟩

theorem branchyBody_drawn {v : CInt} (hv : Drawn v) (sum : Word) :
    branchyBody sum v = some ((update v).apply sum) := by
  have hnat := Signed.toInt_eq_toNat hv.1
  obtain ⟨hlo, hhi⟩ := hv
  rw [branchyBody, update]
  split
  · rw [hotPath_eq (by omega) (by omega), hnat]
    rfl
  · rw [coldPath, Signed.toWord_eq_ofNat hlo]
    rfl

theorem branchlessBody_drawn {v : CInt} (hv : Drawn v) (sum : Word) :
    branchlessBody sum v = some (sum + BitVec.ofNat 64 (update v).operand) := by
  have hnat := Signed.toInt_eq_toNat hv.1
  obtain ⟨hlo, hhi⟩ := hv
  rw [branchlessBody_eq (by omega) (by omega), contribution, update, hnat]
  split <;> rfl

section Runs

variable {data : List CInt} (hdata : ∀ v ∈ data, Drawn v) (iterations : Nat)

include hdata

theorem low_updates :
    ∀ v ∈ visited data iterations, (update v).Low 7 :=
  fun v hv => low_update (hdata v (mem_visited_iff.mp hv).2)

theorem branchy_eq (sum : Word) : branchy data iterations sum =
    some (((visited data iterations).map update).foldl Update.apply sum) := by
  rw [branchy, loop_eq, List.foldl_map]
  exact foldlM_eq_foldl (fun s v hv => branchyBody_drawn (hdata v (mem_visited_iff.mp hv).2) s) sum

theorem branchless_eq (sum : Word) : branchless data iterations sum =
    some (sum + BitVec.ofNat 64 (total ((visited data iterations).map update))) := by
  rw [branchless, loop_eq, ← foldl_add_operand, List.foldl_map]
  exact foldlM_eq_foldl
    (fun s v hv => branchlessBody_drawn (hdata v (mem_visited_iff.mp hv).2) s) sum

theorem dropped_visited_le :
    dropped 7 0 ((visited data iterations).map update) ≤ 127 * (iterations * data.length) := by
  have hle := dropped_le (List.forall_mem_map.mpr (low_updates hdata iterations)) 0
  rwa [List.length_map, length_visited] at hle

end Runs

/-- The loops agree exactly when the dropped carries are a multiple of `2 ^ 63`. A
run of fewer than `2 ^ 56` elements cannot drop as many, so there the loops agree
exactly when each cold value has no bit in common with the sum of the
contributions before it. -/
theorem branchy_eq_branchless_iff (data : List CInt) (hdata : ∀ v ∈ data, Drawn v)
    (iterations : Nat) :
    ∃ a b, branchy data iterations 0 = some a ∧ branchless data iterations 0 = some b ∧
      (a = b ↔ 2 ^ 63 ∣ dropped 7 0 ((visited data iterations).map update)) ∧
      (iterations * data.length < 2 ^ 56 → (a = b ↔
        ∀ front v, front ++ [v] <+: visited data iterations → v.toInt < 128 →
          total (front.map update) &&& v.toNat = 0)) := by
  have hlow := low_updates hdata iterations
  have hiff := foldl_apply_eq_iff (w := 64) (k := 7) (by decide) (by decide)
    (List.forall_mem_map.mpr hlow) 0
  refine ⟨_, _, branchy_eq hdata iterations 0, branchless_eq hdata iterations 0, hiff, ?_⟩
  intro hshort
  have hle := dropped_visited_le hdata iterations
  have hmeet := dropped_eq_zero_iff update hlow 0
  rw [Nat.zero_mod] at hmeet
  have hzero : 2 ^ 63 ∣ dropped 7 0 ((visited data iterations).map update) ↔
      dropped 7 0 ((visited data iterations).map update) = 0 :=
    ⟨fun h => Nat.eq_zero_of_dvd_of_lt h (by omega), fun h => by rw [h]; exact Nat.dvd_zero _⟩
  refine hiff.trans (hzero.trans (hmeet.trans ?_))
  simp only [update_eq_xor_iff, Nat.zero_add]
  constructor
  · intro h front v hfront hcold
    exact h front v hfront v.toNat ⟨hcold, rfl⟩
  · rintro h front v hfront a ⟨hcold, rfl⟩
    exact h front v hfront hcold

/-- The exclusive or cancels two ones, where the branchless sum is two. -/
theorem not_branchy_eq_branchless :
    ¬ ∀ data : List CInt, (∀ v ∈ data, Drawn v) → ∀ iterations,
      branchy data iterations 0 = branchless data iterations 0 := by
  intro h
  exact absurd (h [1, 1] (by simp [Drawn]) 1) (by decide +kernel)

/-- A hot `128` makes the sum `385`, which has no bit in common with a cold `2`. -/
theorem branchy_eq_branchless_iff_pair :
    ∃ a b, branchy [128, 2] 1 0 = some a ∧ branchless [128, 2] 1 0 = some b ∧ a = b ∧
      ∀ front v, front ++ [v] <+: visited [128, 2] 1 → v.toInt < 128 →
        total (front.map update) &&& v.toNat = 0 := by
  obtain ⟨a, b, hbranchy, hbranchless, hiff, hshort⟩ :=
    branchy_eq_branchless_iff [128, 2] (by simp [Drawn]) 1
  have heq : a = b := hiff.mpr (by decide +kernel)
  exact ⟨a, b, hbranchy, hbranchless, heq, (hshort (by decide)).mp heq⟩

end Branchless
end HwBench
