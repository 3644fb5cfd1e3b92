import HwBench.Machine.Loop
import HwBench.Machine.Signed
import Mathlib.Algebra.BigOperators.Ring.Finset
import Mathlib.Algebra.Order.BigOperators.Group.Finset
import Mathlib.Data.BitVec
import Mathlib.Data.Nat.Prime.Basic
import Mathlib.Data.Rat.Cast.Order

/-!
# Array of structs and struct of arrays

Both access tests fill an array of structs and a struct of arrays with `n`
elements and accumulate the same expression over them: the mid price of two
fields, or the sum of all eight.

The array of structs is filled element by element with prices that grow with the
index, the struct of arrays by `resize` with one value for all elements. So the
two layouts hold the same data only as long as there is no second element.
-/

namespace HwBench

open Machine

namespace Layouts

/-- `uint32_t` -/
abbrev HalfWord : Type := BitVec 32

structure AoSEntry where
  bidPrice : CInt64
  bidSize : HalfWord
  askPrice : CInt64
  askSize : HalfWord
  lastPrice : CInt64
  lastSize : HalfWord
  timestamp : Word
  flags : HalfWord

/-- The value-initialized elements of a new `std::vector<AoSEntry>`. -/
def AoSEntry.zero : AoSEntry := ⟨0, 0, 0, 0, 0, 0, 0, 0⟩

structure SoABook where
  bidPrices : List CInt64
  bidSizes : List HalfWord
  askPrices : List CInt64
  askSizes : List HalfWord
  lastPrices : List CInt64
  lastSizes : List HalfWord
  timestamps : List Word
  flags : List HalfWord

/-- `std::vector::resize(n, value)` -/
def resizeVector {α : Type*} (xs : List α) (n : Nat) (value : α) : List α :=
  xs.take n ++ List.replicate (n - xs.length) value

namespace SoABook

def empty : SoABook := ⟨[], [], [], [], [], [], [], []⟩

def resize (book : SoABook) (n : Nat) : SoABook where
  bidPrices := resizeVector book.bidPrices n 100000000000
  bidSizes := resizeVector book.bidSizes n 100
  askPrices := resizeVector book.askPrices n 101000000000
  askSizes := resizeVector book.askSizes n 200
  lastPrices := resizeVector book.lastPrices n 100500000000
  lastSizes := resizeVector book.lastSizes n 50
  timestamps := resizeVector book.timestamps n 1000000
  flags := resizeVector book.flags n 1

/-- The eight fields at index `i`. -/
def entry? (book : SoABook) (i : Nat) : Option AoSEntry := do
  let bidPrice ← book.bidPrices[i]?
  let bidSize ← book.bidSizes[i]?
  let askPrice ← book.askPrices[i]?
  let askSize ← book.askSizes[i]?
  let lastPrice ← book.lastPrices[i]?
  let lastSize ← book.lastSizes[i]?
  let timestamp ← book.timestamps[i]?
  let flags ← book.flags[i]?
  some { bidPrice, bidSize, askPrice, askSize, lastPrice, lastSize, timestamp, flags }

end SoABook

/-! ### Filling the array of structs -/

/-- `std::vector<AoSEntry> aos(n); for (i < n) aos[i] = entry(i, aos[i]);` -/
def fill (entry : Nat → AoSEntry → Option AoSEntry) (n : Nat) : Option (List AoSEntry) :=
  (List.range n).foldlM
    (fun aos i => do
      let old ← aos[i]?
      let new ← entry i old
      some (aos.set i new))
    (List.replicate n AoSEntry.zero)

/-- The two assignments of the subset test. A `size_t` operand makes the sums
unsigned, and they wrap. -/
def subsetEntry (i : Nat) (old : AoSEntry) : Option AoSEntry :=
  some { old with
    bidPrice := 100000000000 + BitVec.ofNat 64 i
    askPrice := 101000000000 + BitVec.ofNat 64 i }

/-- The assignment of the full access test, with signed sums for the prices. -/
def fullEntry (i : Nat) (_old : AoSEntry) : Option AoSEntry := do
  let bidPrice ← Signed.add? 100000000000 (BitVec.ofNat 64 i)
  let askPrice ← Signed.add? 101000000000 (BitVec.ofNat 64 i)
  some ⟨bidPrice, 100, askPrice, 200, 100500000000, 50, 1000000 + BitVec.ofNat 64 i, 1⟩

/-! ### The accumulated expressions -/

/-- `static_cast<double>(bid_price + ask_price) / 2.0`, without rounding. -/
def mid (bidPrice askPrice : CInt64) : Option ℚ := do
  let sum ← Signed.add? bidPrice askPrice
  some (sum.toInt / 2)

/-- The sum of the eight fields from left to right: signed up to `last_size`,
unsigned from `timestamp` on. -/
def allFields (e : AoSEntry) : Option Word := do
  let sum ← Signed.add? e.bidPrice e.askPrice
  let sum ← Signed.add? sum (e.bidSize.setWidth 64)
  let sum ← Signed.add? sum (e.askSize.setWidth 64)
  let sum ← Signed.add? sum e.lastPrice
  let sum ← Signed.add? sum (e.lastSize.setWidth 64)
  some (sum + e.timestamp + e.flags.setWidth 64)

/-! ### The four passes -/

def subsetTotalAoS (n : Word) : Option ℚ := do
  let aos ← fill subsetEntry n.toNat
  accumulate (fun i => do let e ← aos[i]?; mid e.bidPrice e.askPrice) n.toNat

def subsetTotalSoA (n : Word) : Option ℚ :=
  let soa := SoABook.empty.resize n.toNat
  accumulate (fun i => do
    let bidPrice ← soa.bidPrices[i]?
    let askPrice ← soa.askPrices[i]?
    mid bidPrice askPrice) n.toNat

def fullTotalAoS (n : Word) : Option Word := do
  let aos ← fill fullEntry n.toNat
  accumulate (fun i => do let e ← aos[i]?; allFields e) n.toNat

def fullTotalSoA (n : Word) : Option Word :=
  let soa := SoABook.empty.resize n.toNat
  accumulate (fun i => do let e ← soa.entry? i; allFields e) n.toNat

/-- Both passes of the subset test end with one total. -/
def SameSubsetTotal (n : Word) : Prop :=
  ∃ total, subsetTotalAoS n = some total ∧ subsetTotalSoA n = some total

/-- Both passes of the full access test end with one total. -/
def SameFullTotal (n : Word) : Prop :=
  ∃ total, fullTotalAoS n = some total ∧ fullTotalSoA n = some total

/-! ### Contents of the filled layouts -/

/-- The first `done` elements have their entries, the others are still zero. -/
structure FilledUpTo (entry : Nat → AoSEntry → Option AoSEntry) (n done : Nat)
    (aos : List AoSEntry) : Prop where
  filled : ∀ i, i < done → ∃ e, entry i AoSEntry.zero = some e ∧ aos[i]? = some e
  zero : ∀ i, done ≤ i → i < n → aos[i]? = some AoSEntry.zero

/-- Storing one entry leaves the earlier entries and the later zeros. -/
theorem FilledUpTo.set {entry : Nat → AoSEntry → Option AoSEntry} {n k : Nat}
    {aos : List AoSEntry} (h : FilledUpTo entry n k aos) (hk : k < n) {old new : AoSEntry}
    (hold : aos[k]? = some old) (hnew : entry k old = some new) :
    FilledUpTo entry n (k + 1) (aos.set k new) := by
  obtain ⟨hlength, _⟩ := List.getElem?_eq_some_iff.mp hold
  rw [h.zero k (Nat.le_refl k) hk] at hold
  cases hold
  refine ⟨fun i hi => ?_, fun i hki hi => ?_⟩
  · obtain hlt | rfl := Nat.lt_succ_iff_lt_or_eq.mp hi
    · rw [List.getElem?_set_ne (by omega)]
      exact h.filled i hlt
    · exact ⟨new, hnew, List.getElem?_set_self hlength⟩
  · rw [List.getElem?_set_ne (by omega)]
    exact h.zero i (by omega) hi

/-- A fill that does not fault has stored every entry. -/
theorem fill_elim {entry : Nat → AoSEntry → Option AoSEntry} {n : Nat} {aos : List AoSEntry}
    (hrun : fill entry n = some aos) {i : Nat} (hi : i < n) :
    ∃ e, entry i AoSEntry.zero = some e ∧ aos[i]? = some e := by
  have hstart : FilledUpTo entry n 0 (List.replicate n AoSEntry.zero) :=
    ⟨fun i hi => absurd hi (Nat.not_lt_zero i), fun i _ hi => List.getElem?_replicate_of_lt hi⟩
  have hfilled : FilledUpTo entry n n aos := by
    refine foldlM_range_elim (fun k aos aos' hk h hbody => ?_) hstart hrun
    obtain ⟨old, hold, hrest⟩ := Option.bind_eq_some_iff.mp hbody
    obtain ⟨new, hnew, hset⟩ := Option.bind_eq_some_iff.mp hrest
    cases hset
    exact h.set hk hold hnew
  exact hfilled.filled i hi

theorem getElem?_resizeVector {α : Type*} {n i : Nat} (hi : i < n) (value : α) :
    (resizeVector [] n value)[i]? = some value := by
  rw [resizeVector, List.take_nil, List.nil_append, List.length_nil, Nat.sub_zero]
  exact List.getElem?_replicate_of_lt hi

/-! ### Totals of the subset test -/

/-- Half of the bid and the ask price that `resize` gives every element. -/
def baseMid : ℚ := 100500000000

theorem subsetTotalSoA_eq (n : Word) :
    subsetTotalSoA n = some (∑ _i ∈ Finset.range n.toNat, baseMid) := by
  refine accumulate_eq fun i hi => ?_
  have hmid : mid 100000000000 101000000000 = some baseMid := by decide +kernel
  simp only [SoABook.resize, SoABook.empty, getElem?_resizeVector hi, Option.bind_eq_bind,
    Option.bind_some, hmid]

/-- The value of a price that has not reached the sign bit. -/
theorem toInt_price (base : Nat) {i : Nat} (hbase : base < 2 ^ 62) (hi : i ≤ 2 ^ 62) :
    (BitVec.ofNat 64 base + BitVec.ofNat 64 i).toInt = base + i := by
  have hvalue : (BitVec.ofNat 64 (base + i)).toNat = base + i := by
    rw [BitVec.toNat_ofNat, Nat.mod_eq_of_lt (by omega)]
  rw [← BitVec.ofNat_add, BitVec.toInt_eq_toNat_of_lt (by omega), hvalue, Nat.cast_add]

/-- The sum of the prices at index `2 ^ 62` overflows; before, the mid price grows
with the index. -/
theorem mid_elim {i : Nat} (hi : i ≤ 2 ^ 62) {m : ℚ}
    (h : mid (100000000000 + BitVec.ofNat 64 i) (101000000000 + BitVec.ofNat 64 i) = some m) :
    i < 2 ^ 62 ∧ m = baseMid + i := by
  obtain ⟨sum, hsum, hm⟩ := Option.bind_eq_some_iff.mp h
  have hvalue : sum.toInt = (100000000000 + i) + (101000000000 + i) := by
    rw [(Signed.add?_eq_some hsum).2]
    exact congrArg₂ (· + ·) (toInt_price 100000000000 (by decide) hi)
      (toInt_price 101000000000 (by decide) hi)
  have hmax : sum.toInt < 2 ^ 63 := sum.toInt_lt
  refine ⟨by omega, ?_⟩
  rw [← Option.some.inj hm, hvalue, baseMid]
  push_cast
  ring

/-- If the pass over the array of structs does not fault, it ends at the sum of
the growing mid prices. -/
theorem subsetTotalAoS_elim {n : Word} {total : ℚ} (hrun : subsetTotalAoS n = some total) :
    total = ∑ i ∈ Finset.range n.toNat, (baseMid + i) := by
  obtain ⟨aos, hfill, hpass⟩ := Option.bind_eq_some_iff.mp hrun
  obtain ⟨value, hvalue, rfl⟩ := accumulate_elim hpass
  have hmid : ∀ i, i < n.toNat → mid (100000000000 + BitVec.ofNat 64 i)
      (101000000000 + BitVec.ofNat 64 i) = some (value i) := by
    intro i hi
    obtain ⟨e, he, hread⟩ := fill_elim hfill hi
    have hterm := hvalue i hi
    rw [hread] at hterm
    cases he
    exact hterm
  have hshort : n.toNat ≤ 2 ^ 62 := by
    by_contra hlong
    exact absurd (mid_elim (Nat.le_refl _) (hmid (2 ^ 62) (by omega))).1 (Nat.lt_irrefl _)
  refine Finset.sum_congr rfl fun i hi => ?_
  have hlt : i < n.toNat := Finset.mem_range.mp hi
  exact (mid_elim (by omega) (hmid i hlt)).2

/-! ### Totals of the full access test -/

/-- The sum of the eight fields that `resize` gives every element. -/
def baseFields : Word := 301501000351

theorem allFields_elim {e : AoSEntry} {sum : Word} (h : allFields e = some sum) :
    sum = e.bidPrice + e.askPrice + e.bidSize.setWidth 64 + e.askSize.setWidth 64 + e.lastPrice +
      e.lastSize.setWidth 64 + e.timestamp + e.flags.setWidth 64 := by
  obtain ⟨s₁, h₁, h⟩ := Option.bind_eq_some_iff.mp h
  obtain ⟨s₂, h₂, h⟩ := Option.bind_eq_some_iff.mp h
  obtain ⟨s₃, h₃, h⟩ := Option.bind_eq_some_iff.mp h
  obtain ⟨s₄, h₄, h⟩ := Option.bind_eq_some_iff.mp h
  obtain ⟨s₅, h₅, h⟩ := Option.bind_eq_some_iff.mp h
  rw [← Option.some.inj h, (Signed.add?_eq_some h₅).1, (Signed.add?_eq_some h₄).1,
    (Signed.add?_eq_some h₃).1, (Signed.add?_eq_some h₂).1, (Signed.add?_eq_some h₁).1]

theorem fullTotalSoA_eq (n : Word) :
    fullTotalSoA n = some (∑ _i ∈ Finset.range n.toNat, baseFields) := by
  refine accumulate_eq fun i hi => ?_
  have hfields : allFields ⟨100000000000, 100, 101000000000, 200, 100500000000, 50, 1000000, 1⟩ =
      some baseFields := by decide +kernel
  simp only [SoABook.entry?, SoABook.resize, SoABook.empty, getElem?_resizeVector hi,
    Option.bind_eq_bind, Option.bind_some, hfields]

theorem fullEntry_elim {i : Nat} {old e : AoSEntry} (h : fullEntry i old = some e) {sum : Word}
    (hsum : allFields e = some sum) : sum = baseFields + 3 * BitVec.ofNat 64 i := by
  obtain ⟨bid, hbid, h⟩ := Option.bind_eq_some_iff.mp h
  obtain ⟨ask, hask, h⟩ := Option.bind_eq_some_iff.mp h
  cases h
  rw [allFields_elim hsum, (Signed.add?_eq_some hbid).1, (Signed.add?_eq_some hask).1, baseFields]
  grind

theorem fullTotalAoS_elim {n : Word} {total : Word} (hrun : fullTotalAoS n = some total) :
    total = ∑ i ∈ Finset.range n.toNat, (baseFields + 3 * BitVec.ofNat 64 i) := by
  obtain ⟨aos, hfill, hpass⟩ := Option.bind_eq_some_iff.mp hrun
  obtain ⟨value, hvalue, rfl⟩ := accumulate_elim hpass
  refine Finset.sum_congr rfl fun i hi => ?_
  obtain ⟨e, he, hread⟩ := fill_elim hfill (Finset.mem_range.mp hi)
  have hterm := hvalue i (Finset.mem_range.mp hi)
  rw [hread] at hterm
  exact fullEntry_elim he hterm

/-! ### Comparison -/

/-- A sum of indices is a multiple of `2 ^ 64` for no length of more than one that
is itself below `2 ^ 64`, and neither is its triple. -/
theorem le_one_of_dvd_sum {n : Nat} (hn : n < 2 ^ 64)
    (h : 2 ^ 64 ∣ 3 * ∑ i ∈ Finset.range n, i) : n ≤ 1 := by
  have hthree : Nat.Coprime (2 ^ 64) 3 := Nat.Coprime.pow_left 64 (by decide)
  have hsum : 2 ^ 64 ∣ ∑ i ∈ Finset.range n, i := hthree.dvd_of_dvd_mul_left h
  have hprod : 2 ^ 65 ∣ n * (n - 1) := by
    rw [← Finset.sum_range_id_mul_two n, Nat.pow_succ]
    exact Nat.mul_dvd_mul_right hsum 2
  have hshort : n < 2 ^ 65 := hn.trans (Nat.pow_lt_pow_right Nat.one_lt_two (Nat.lt_succ_self 64))
  -- the odd one of two neighbours takes no factor, so all of them are in the other
  obtain heven | hodd := Nat.even_or_odd n
  · obtain rfl | hpos := Nat.eq_zero_or_pos n
    · exact Nat.zero_le 1
    · have hpred : Odd (n - 1) := Nat.Even.sub_odd hpos heven odd_one
      have hdvd : 2 ^ 65 ∣ n := (hpred.coprime_two_left.pow_left 65).dvd_of_dvd_mul_right hprod
      exact (Nat.eq_zero_of_dvd_of_lt hdvd hshort).le.trans (Nat.zero_le 1)
  · have hdvd : 2 ^ 65 ∣ n - 1 := (hodd.coprime_two_left.pow_left 65).dvd_of_dvd_mul_left hprod
    exact Nat.sub_eq_zero_iff_le.mp
      (Nat.eq_zero_of_dvd_of_lt hdvd ((Nat.sub_le n 1).trans_lt hshort))

theorem le_one_cases {n : Word} (hn : n.toNat ≤ 1) : n = 0 ∨ n = 1 := by
  obtain hzero | hone := Nat.le_one_iff_eq_zero_or_eq_one.mp hn
  · exact .inl (BitVec.eq_of_toNat_eq hzero)
  · exact .inr (BitVec.eq_of_toNat_eq hone)

theorem sameSubsetTotal_iff (n : Word) : SameSubsetTotal n ↔ n.toNat ≤ 1 := by
  constructor
  · rintro ⟨total, hAoS, hSoA⟩
    have hsum := subsetTotalAoS_elim hAoS
    rw [subsetTotalSoA_eq, Option.some.injEq] at hSoA
    rw [← hSoA, Finset.sum_add_distrib, left_eq_add] at hsum
    by_contra hlong
    have hone : (1 : ℚ) ≤ ∑ i ∈ Finset.range n.toNat, (i : ℚ) := by
      have hmem : 1 ∈ Finset.range n.toNat := Finset.mem_range.mpr (by omega)
      simpa only [Nat.cast_one] using
        Finset.single_le_sum (f := fun i : ℕ => (i : ℚ)) (fun i _ => Nat.cast_nonneg i) hmem
    rw [hsum] at hone
    exact absurd hone (by norm_num)
  · intro hn
    obtain rfl | rfl := le_one_cases hn
    · exact ⟨0, by decide +kernel, by decide +kernel⟩
    · exact ⟨baseMid, by decide +kernel, by decide +kernel⟩

theorem sameFullTotal_iff (n : Word) : SameFullTotal n ↔ n.toNat ≤ 1 := by
  constructor
  · rintro ⟨total, hAoS, hSoA⟩
    have hsum := fullTotalAoS_elim hAoS
    rw [fullTotalSoA_eq, Option.some.injEq] at hSoA
    rw [← hSoA, Finset.sum_add_distrib, left_eq_add, ← Finset.mul_sum] at hsum
    apply le_one_of_dvd_sum n.isLt
    have hcast : BitVec.ofNat 64 (3 * ∑ i ∈ Finset.range n.toNat, i) = 0 := by
      rw [← BitVec.natCast_eq_ofNat, Nat.cast_mul, Nat.cast_sum]
      exact hsum
    have hzero := congrArg BitVec.toNat hcast
    rw [BitVec.toNat_ofNat] at hzero
    exact Nat.dvd_of_mod_eq_zero hzero
  · intro hn
    obtain rfl | rfl := le_one_cases hn
    · exact ⟨0, by decide +kernel, by decide +kernel⟩
    · exact ⟨baseFields, by decide +kernel, by decide +kernel⟩

/-- The layouts give the same totals exactly when there is no second element,
in each of the two tests and so in both. -/
theorem same_totals_iff (n : Word) :
    (SameSubsetTotal n ∧ SameFullTotal n ↔ n.toNat ≤ 1) ∧
      (SameSubsetTotal n ↔ n.toNat ≤ 1) ∧ (SameFullTotal n ↔ n.toNat ≤ 1) := by
  rw [sameSubsetTotal_iff, sameFullTotal_iff, and_self_iff]
  exact ⟨Iff.rfl, Iff.rfl, Iff.rfl⟩

/-- Already the smallest element count of the tests has different totals. -/
theorem not_same_totals : ¬ ∀ n, SameSubsetTotal n ∧ SameFullTotal n := by
  intro h
  obtain ⟨⟨total, hAoS, hSoA⟩, _⟩ := h 10
  have heq : subsetTotalAoS 10 = subsetTotalSoA 10 := hAoS.trans hSoA.symm
  exact absurd heq (by decide +kernel)

end Layouts
end HwBench
