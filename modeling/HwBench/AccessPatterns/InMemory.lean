import HwBench.AccessPatterns.Layouts
import HwBench.Machine.Cells
import HwBench.Machine.StructLayout
import Mathlib.Algebra.BigOperators.Fin

/-!
# Both layouts in memory

The array of structs keeps the eight fields of an element side by side, the struct of
arrays keeps each field in a vector of its own. Filling either layout writes the fields
byte by byte, and the passes read them back from where the layout has put them. Since
no two fields overlap, the passes find the entries of the filled layouts, and they end
with the totals of these.
-/

namespace HwBench

open Machine

namespace Layouts

/-- The fields of an entry. -/
inductive Member where
  | bidPrice
  | bidSize
  | askPrice
  | askSize
  | lastPrice
  | lastSize
  | timestamp
  | flags
  deriving DecidableEq, Repr

namespace Member

/-- In the order of their declaration, in both structs. -/
def all : List Member :=
  [bidPrice, bidSize, askPrice, askSize, lastPrice, lastSize, timestamp, flags]

theorem mem_all (m : Member) : m ∈ all := by cases m <;> decide

def size : Member → Nat
  | bidPrice | askPrice | lastPrice | timestamp => 8
  | bidSize | askSize | lastSize | flags => 4

end Member

/-- `struct alignas(32) AoSEntry` -/
def aosEntry : StructLayout where
  fields := Member.all.map fun m => ⟨m.size, m.size⟩
  align := 32
  align_pos := by decide
  fields_align := by decide

example : aosEntry.size = 64 ∧
    aosEntry.members.map Span.start = [0, 8, 16, 24, 32, 40, 48, 56] := by decide

namespace Member

/-- The position in the declaration. -/
def index : Member → Fin aosEntry.members.length
  | bidPrice => ⟨0, by decide⟩
  | bidSize => ⟨1, by decide⟩
  | askPrice => ⟨2, by decide⟩
  | askSize => ⟨3, by decide⟩
  | lastPrice => ⟨4, by decide⟩
  | lastSize => ⟨5, by decide⟩
  | timestamp => ⟨6, by decide⟩
  | flags => ⟨7, by decide⟩

theorem index_injective : Function.Injective index := by
  intro m m' h
  cases m <;> cases m' <;> first | rfl | exact absurd h (by decide)

/-- `offsetof` -/
def offset (m : Member) : Nat := (aosEntry.members.get m.index).start

theorem size_get_index (m : Member) : (aosEntry.members.get m.index).size = m.size := by
  cases m <;> rfl

end Member

/-- A field of one of `n` elements. -/
abbrev Cell (n : Nat) : Type := Member × Fin n

/-- Where a `std::vector<AoSEntry>` with its data at `base` keeps the fields. -/
def aosCells (base n : Nat) : Cells (Cell n) where
  place := fun (m, i) => ⟨base + i * aosEntry.size + m.offset, m.size⟩
  apart := by
    rintro ⟨m, i⟩ ⟨m', i'⟩ hne
    have hdiffer : m.index ≠ m'.index ∨ i.val ≠ i'.val := by
      by_contra hsame
      obtain ⟨hm, hi⟩ := not_or.mp hsame
      exact hne (Prod.ext (Member.index_injective (not_not.mp hm)) (Fin.ext (not_not.mp hi)))
    have hdisjoint := aosEntry.disjoint_elements base hdiffer
    rwa [Member.size_get_index, Member.size_get_index] at hdisjoint

/-- The data of the eight vectors of a `SoABook` with `n` elements. -/
structure SoAData (n : Nat) where
  start : Member → Nat
  aligned : ∀ m, m.size ∣ start m
  apart : ∀ m m', m ≠ m' →
    (Span.mk (start m) (n * m.size)).Disjoint ⟨start m', n * m'.size⟩

/-- Vectors one behind the other, each with room for `n` words. -/
def SoAData.consecutive (n base : Nat) (hbase : 8 ∣ base) : SoAData n where
  start := fun m => base + m.index * (n * 8)
  aligned := fun m => by
    have hsize : m.size ∣ 8 := by cases m <;> decide
    exact hsize.trans (Nat.dvd_add hbase (Nat.dvd_mul_left_of_dvd (Nat.dvd_mul_left 8 n) _))
  apart := fun m m' hne => by
    have hroom : ∀ m : Member, n * m.size ≤ n * 8 := fun m =>
      Nat.mul_le_mul_left n (by cases m <;> decide)
    have hindex : m.index.val ≠ m'.index.val := fun heq =>
      hne (Member.index_injective (Fin.ext heq))
    refine (Span.nth_disjoint base (n * 8) hindex).mono ⟨Nat.le_refl _, ?_⟩ ⟨Nat.le_refl _, ?_⟩
    · exact Nat.add_le_add_left (hroom m) _
    · exact Nat.add_le_add_left (hroom m') _

/-- Where a `SoABook` keeps the fields. -/
def soaCells {n : Nat} (data : SoAData n) : Cells (Cell n) where
  place := fun (m, i) => .nth (data.start m) m.size i
  apart := by
    rintro ⟨m, i⟩ ⟨m', i'⟩ hne
    by_cases hm : m = m'
    · subst hm
      exact Span.nth_disjoint _ _ fun hi => hne (Prod.ext rfl (Fin.ext hi))
    · exact (data.apart m m' hm).mono (Span.nth_within _ _ i.isLt) (Span.nth_within _ _ i'.isLt)

/-! ### Filling -/

/-- The fields as numbers. -/
def AoSEntry.value (e : AoSEntry) : Member → Nat
  | .bidPrice => e.bidPrice.toNat
  | .bidSize => e.bidSize.toNat
  | .askPrice => e.askPrice.toNat
  | .askSize => e.askSize.toNat
  | .lastPrice => e.lastPrice.toNat
  | .lastSize => e.lastSize.toNat
  | .timestamp => e.timestamp.toNat
  | .flags => e.flags.toNat

theorem AoSEntry.value_lt (e : AoSEntry) (m : Member) : e.value m < 256 ^ m.size := by
  cases m <;> exact BitVec.isLt _

/-- Assignments to fields. -/
abbrev Writes (n : Nat) : Type := List (Cell n × Nat)

/-- The assignment of `e` to the fields `ms` of element `i`. -/
def assign {n : Nat} (ms : List Member) (i : Fin n) (e : AoSEntry) : Writes n :=
  ms.map fun m => ((m, i), e.value m)

/-- `std::vector<AoSEntry> aos(n);` -/
def zeroWrites (n : Nat) : Writes n :=
  (List.finRange n).flatMap fun i => assign Member.all i AoSEntry.zero

/-- `for (i < n)` with the assignments of one element. -/
def fillLoop {n : Nat} (c : Cells (Cell n)) (writes : Fin n → Option (Writes n))
    (mem : Nat → Byte) : Option (Nat → Byte) :=
  (List.finRange n).foldlM (fun mem i => do let ws ← writes i; some (c.setAll mem ws)) mem

/-- The array of structs of the subset test. -/
def subsetFill (base n : Nat) (mem : Nat → Byte) : Option (Nat → Byte) :=
  let c := aosCells base n
  fillLoop c (fun i => do
    let e ← subsetEntry i AoSEntry.zero
    some (assign [.bidPrice, .askPrice] i e)) (c.setAll mem (zeroWrites n))

/-- The array of structs of the full access test. -/
def fullFill (base n : Nat) (mem : Nat → Byte) : Option (Nat → Byte) :=
  let c := aosCells base n
  fillLoop c (fun i => do
    let e ← fullEntry i AoSEntry.zero
    some (assign Member.all i e)) (c.setAll mem (zeroWrites n))

/-- The elements that `SoABook::resize` appends. -/
def resizedEntry : AoSEntry := ⟨100000000000, 100, 101000000000, 200, 100500000000, 50, 1000000, 1⟩

/-- `soa.resize(n)` of an empty book, one vector after the other. -/
def resizeInMemory {n : Nat} (data : SoAData n) (mem : Nat → Byte) : Nat → Byte :=
  (soaCells data).setAll mem
    (Member.all.flatMap fun m => (List.finRange n).map fun i => ((m, i), resizedEntry.value m))

/-! ### Passes -/

/-- A value that a signed overflow may have prevented. -/
def checked {α : Type} : Option α → Reading Unit α
  | none => throw ⟨⟩
  | some a => pure a

/-- `for (i < n) total += term(i);` from zero. -/
def sumOver {M : Type} [AddMonoid M] {n : Nat} (term : Fin n → Reading Unit M) : Reading Unit M :=
  (List.finRange n).foldlM (fun total i => do let x ← term i; pure (total + x)) 0

/-- The mid price of an element. -/
def readMid {n : Nat} (c : Cells (Cell n)) (mem : Nat → Byte) (i : Fin n) : Reading Unit ℚ := do
  let bidPrice ← c.read mem (.bidPrice, i)
  let askPrice ← c.read mem (.askPrice, i)
  checked (mid (.ofNat 64 bidPrice) (.ofNat 64 askPrice))

/-- The sum of the eight fields, which are read in the order of the source. -/
def readAllFields {n : Nat} (c : Cells (Cell n)) (mem : Nat → Byte) (i : Fin n) :
    Reading Unit Word := do
  let bidPrice ← c.read mem (.bidPrice, i)
  let askPrice ← c.read mem (.askPrice, i)
  let bidSize ← c.read mem (.bidSize, i)
  let askSize ← c.read mem (.askSize, i)
  let lastPrice ← c.read mem (.lastPrice, i)
  let lastSize ← c.read mem (.lastSize, i)
  let timestamp ← c.read mem (.timestamp, i)
  let flags ← c.read mem (.flags, i)
  checked (allFields
    { bidPrice := .ofNat 64 bidPrice, bidSize := .ofNat 32 bidSize,
      askPrice := .ofNat 64 askPrice, askSize := .ofNat 32 askSize,
      lastPrice := .ofNat 64 lastPrice, lastSize := .ofNat 32 lastSize,
      timestamp := .ofNat 64 timestamp, flags := .ofNat 32 flags })

/-- The pass over the array of structs in the subset test. Its total is exact: the source
adds the mid prices in a `double`, and that sum is rounded. -/
def subsetPassAoS (base n : Nat) (mem : Nat → Byte) : Reading Unit ℚ := do
  let mem ← checked (subsetFill base n mem)
  sumOver (readMid (aosCells base n) mem)

/-- The pass over the struct of arrays, with an exact total as well. -/
def subsetPassSoA {n : Nat} (data : SoAData n) (mem : Nat → Byte) : Reading Unit ℚ :=
  sumOver (readMid (soaCells data) (resizeInMemory data mem))

def fullPassAoS (base n : Nat) (mem : Nat → Byte) : Reading Unit Word := do
  let mem ← checked (fullFill base n mem)
  sumOver (readAllFields (aosCells base n) mem)

def fullPassSoA {n : Nat} (data : SoAData n) (mem : Nat → Byte) : Reading Unit Word :=
  sumOver (readAllFields (soaCells data) (resizeInMemory data mem))

/-! ### What memory holds after filling -/

section Contents

variable {n : Nat} {c : Cells (Cell n)}

theorem fillLoop_eq {writes : Fin n → Option (Writes n)} {w : Fin n → Writes n}
    (hwrites : ∀ i, writes i = some (w i)) (mem : Nat → Byte) :
    fillLoop c writes mem = some (c.setAll mem ((List.finRange n).flatMap w)) := by
  rw [fillLoop, foldlM_eq_foldl fun mem i _ => by rw [hwrites i]; rfl, Cells.setAll,
    List.foldl_flatMap]
  rfl

/-- Assigned fields hold the values of the entries, in whatever order they were assigned. -/
theorem get_of_assigned (hsize : ∀ m i, (c.place (m, i)).size = m.size)
    (entry : Fin n → AoSEntry) {writes : Writes n}
    (hvalue : ∀ w ∈ writes, w.2 = (entry w.1.2).value w.1.1) {m : Member} {i : Fin n}
    (hmem : ∃ w ∈ writes, w.1 = (m, i)) (mem : Nat → Byte) :
    c.get (c.setAll mem writes) (m, i) = (entry i).value m := by
  refine c.get_setAll ?_ (fun w hw hcell => ?_) hmem mem
  · rw [hsize]
    exact (entry i).value_lt m
  · rw [hvalue w hw, hcell]

theorem get_fill (hsize : ∀ m i, (c.place (m, i)).size = m.size) (entry : Fin n → AoSEntry)
    {ms : List Member} {m : Member} (hm : m ∈ ms) (i : Fin n) (mem : Nat → Byte) :
    c.get (c.setAll mem ((List.finRange n).flatMap fun i => assign ms i (entry i))) (m, i) =
      (entry i).value m := by
  refine get_of_assigned hsize entry (fun w hw => ?_) ?_ mem
  · obtain ⟨j, _, hw⟩ := List.mem_flatMap.mp hw
    obtain ⟨m', _, rfl⟩ := List.mem_map.mp hw
    rfl
  · exact ⟨((m, i), (entry i).value m), List.mem_flatMap.mpr
      ⟨i, List.mem_finRange i, List.mem_map.mpr ⟨m, hm, rfl⟩⟩, rfl⟩

theorem get_resizeInMemory (data : SoAData n) (mem : Nat → Byte) (m : Member) (i : Fin n) :
    (soaCells data).get (resizeInMemory data mem) (m, i) = resizedEntry.value m := by
  refine get_of_assigned (fun _ _ => rfl) (fun _ => resizedEntry) (fun w hw => ?_) ?_ mem
  · obtain ⟨m', _, hw⟩ := List.mem_flatMap.mp hw
    obtain ⟨j, _, rfl⟩ := List.mem_map.mp hw
    rfl
  · exact ⟨((m, i), resizedEntry.value m), List.mem_flatMap.mpr
      ⟨m, m.mem_all, List.mem_map.mpr ⟨i, List.mem_finRange i, rfl⟩⟩, rfl⟩

end Contents

/-! ### What the passes read -/

section Passes

variable {n : Nat} {c : Cells (Cell n)} {mem : Nat → Byte}

theorem gives_checked {α : Type} {o : Option α} {a : α} (h : o = some a) :
    (checked o).Gives a [] := by
  rw [h]
  exact .pure a

theorem gives_sumOver {M : Type} [AddCommMonoid M] {term : Fin n → Reading Unit M}
    {value : Fin n → M} {spans : Fin n → List Span} (h : ∀ i, (term i).Gives (value i) (spans i)) :
    (sumOver term).Gives (∑ i, value i) ((List.finRange n).flatMap spans) := by
  have hstep : ∀ (total : M) (i : Fin n),
      (do let x ← term i; pure (total + x) : Reading Unit M).Gives (total + value i) (spans i) := by
    intro total i
    have hterm := (h i).bind (f := fun x => pure (total + x)) (.pure (total + value i))
    rwa [List.append_nil] at hterm
  have hloop := Recording.Gives.foldlM hstep (List.finRange n) 0
  rw [Fin.sum_univ_def, List.sum_eq_foldl, List.foldl_map]
  exact hloop

theorem gives_readMid {i : Fin n} {e : AoSEntry} {v : ℚ}
    (hbid : c.get mem (.bidPrice, i) = e.value .bidPrice)
    (hask : c.get mem (.askPrice, i) = e.value .askPrice)
    (hmid : mid e.bidPrice e.askPrice = some v) :
    (readMid c mem i).Gives v ([.bidPrice, .askPrice].map fun m => c.place (m, i)) := by
  have hvalue : mid (.ofNat 64 (c.get mem (.bidPrice, i))) (.ofNat 64 (c.get mem (.askPrice, i))) =
      some v := by
    rw [hbid, hask, AoSEntry.value, AoSEntry.value, BitVec.ofNat_toNat, BitVec.ofNat_toNat]
    simpa only [BitVec.setWidth_eq] using hmid
  exact (c.gives_read mem (.bidPrice, i)).bind
    ((c.gives_read mem (.askPrice, i)).bind (gives_checked hvalue))

/-- The fields in the order in which the source adds them. -/
def addedFields : List Member :=
  [.bidPrice, .askPrice, .bidSize, .askSize, .lastPrice, .lastSize, .timestamp, .flags]

theorem gives_readAllFields {i : Fin n} {e : AoSEntry} {v : Word}
    (hfields : ∀ m, c.get mem (m, i) = e.value m) (hsum : allFields e = some v) :
    (readAllFields c mem i).Gives v (addedFields.map fun m => c.place (m, i)) := by
  have hvalue : allFields
      { bidPrice := .ofNat 64 (c.get mem (.bidPrice, i)),
        bidSize := .ofNat 32 (c.get mem (.bidSize, i)),
        askPrice := .ofNat 64 (c.get mem (.askPrice, i)),
        askSize := .ofNat 32 (c.get mem (.askSize, i)),
        lastPrice := .ofNat 64 (c.get mem (.lastPrice, i)),
        lastSize := .ofNat 32 (c.get mem (.lastSize, i)),
        timestamp := .ofNat 64 (c.get mem (.timestamp, i)),
        flags := .ofNat 32 (c.get mem (.flags, i)) } = some v := by
    simp only [hfields, AoSEntry.value, BitVec.ofNat_toNat, BitVec.setWidth_eq]
    exact hsum
  have hread : ∀ m, (c.read mem (m, i) : Reading Unit Nat).Gives (c.get mem (m, i))
      [c.place (m, i)] := fun m => c.gives_read mem (m, i)
  exact (hread .bidPrice).bind ((hread .askPrice).bind ((hread .bidSize).bind
    ((hread .askSize).bind ((hread .lastPrice).bind ((hread .lastSize).bind
    ((hread .timestamp).bind ((hread .flags).bind (gives_checked hvalue))))))))

end Passes

/-! ### Values without overflow -/

section Values

variable {n i : Nat}

/-- An array of structs that fits into the address space has few enough elements for
every mid price to be defined. -/
theorem mid_eq (hi : i < 2 ^ 58) :
    mid (100000000000 + BitVec.ofNat 64 i) (101000000000 + BitVec.ofNat 64 i) =
      some (baseMid + i) := by
  have hbid := toInt_price 100000000000 (by decide) (i := i) (by omega)
  have hask := toInt_price 101000000000 (by decide) (i := i) (by omega)
  obtain ⟨sum, hsum, _⟩ := Signed.exists_add? (w := 64)
    (a := BitVec.ofNat 64 100000000000 + BitVec.ofNat 64 i)
    (b := BitVec.ofNat 64 101000000000 + BitVec.ofNat 64 i) (by decide)
    (by rw [hbid, hask]; omega) (by rw [hbid, hask]; omega)
  have hmid : mid (100000000000 + BitVec.ofNat 64 i) (101000000000 + BitVec.ofNat 64 i) =
      some (sum.toInt / 2 : ℚ) := Option.bind_eq_some_iff.mpr ⟨sum, hsum, rfl⟩
  rw [hmid, (mid_elim (by omega) hmid).2]

theorem exists_fields (hi : i < 2 ^ 58) : ∃ e, fullEntry i AoSEntry.zero = some e ∧
    ∃ v, allFields e = some v := by
  have hindex : (BitVec.ofNat 64 i).toInt = i := by
    rw [BitVec.toInt_eq_toNat_of_lt (by rw [BitVec.toNat_ofNat]; omega), BitVec.toNat_ofNat,
      Nat.mod_eq_of_lt (by omega)]
  have hadd : ∀ (a b : CInt64) (x y : Int), a.toInt = x → b.toInt = y → 0 ≤ x → x < 2 ^ 61 →
      0 ≤ y → y < 2 ^ 61 → ∃ c, Signed.add? a b = some c ∧ c.toInt = x + y := by
    rintro a b _ _ rfl rfl hx hx' hy hy'
    exact Signed.exists_add? (by decide) (by omega) (by omega)
  obtain ⟨bid, hbid, hbid'⟩ := hadd 100000000000 (.ofNat 64 i) 100000000000 i (by decide) hindex
    (by omega) (by omega) (by omega) (by omega)
  obtain ⟨ask, hask, hask'⟩ := hadd 101000000000 (.ofNat 64 i) 101000000000 i (by decide) hindex
    (by omega) (by omega) (by omega) (by omega)
  obtain ⟨s₁, h₁, h₁'⟩ := hadd bid ask _ _ hbid' hask'
    (by omega) (by omega) (by omega) (by omega)
  obtain ⟨s₂, h₂, h₂'⟩ := hadd s₁ ((100 : HalfWord).setWidth 64) _ 100 h₁' (by decide)
    (by omega) (by omega) (by omega) (by omega)
  obtain ⟨s₃, h₃, h₃'⟩ := hadd s₂ ((200 : HalfWord).setWidth 64) _ 200 h₂' (by decide)
    (by omega) (by omega) (by omega) (by omega)
  obtain ⟨s₄, h₄, h₄'⟩ := hadd s₃ 100500000000 _ 100500000000 h₃' (by decide)
    (by omega) (by omega) (by omega) (by omega)
  obtain ⟨s₅, h₅, h₅'⟩ := hadd s₄ ((50 : HalfWord).setWidth 64) _ 50 h₄' (by decide)
    (by omega) (by omega) (by omega) (by omega)
  refine ⟨⟨bid, 100, ask, 200, 100500000000, 50, 1000000 + BitVec.ofNat 64 i, 1⟩, ?_,
    s₅ + (1000000 + BitVec.ofNat 64 i) + (1 : HalfWord).setWidth 64, ?_⟩
  · simp only [fullEntry, hbid, hask, Option.bind_eq_bind, Option.bind_some]
  · simp only [allFields, h₁, h₂, h₃, h₄, h₅, Option.bind_eq_bind, Option.bind_some]

theorem toNat_count (hn : n ≤ 2 ^ 58) : (BitVec.ofNat 64 n).toNat = n := by
  rw [BitVec.toNat_ofNat]
  exact Nat.mod_eq_of_lt (by omega)

theorem exists_fill {entry : Nat → AoSEntry → Option AoSEntry}
    (hentry : ∀ i, i < n → ∃ e, entry i AoSEntry.zero = some e) : ∃ aos, fill entry n = some aos := by
  have hstart : FilledUpTo entry n 0 (List.replicate n AoSEntry.zero) :=
    ⟨fun i hi => absurd hi (Nat.not_lt_zero i), fun i _ hi => List.getElem?_replicate_of_lt hi⟩
  have hstep : ∀ k aos, k < n → FilledUpTo entry n k aos → ∃ aos',
      (do let old ← aos[k]?; let new ← entry k old; some (aos.set k new)) = some aos' ∧
        FilledUpTo entry n (k + 1) aos' := by
    intro k aos hk h
    obtain ⟨new, hnew⟩ := hentry k hk
    have hold := h.zero k (Nat.le_refl k) hk
    exact ⟨aos.set k new, by simp [hold, hnew], h.set hk hold hnew⟩
  obtain ⟨aos, hrun, _⟩ := foldlM_range_invariant hstep hstart
  exact ⟨aos, hrun⟩

theorem subsetTotalAoS_eq (hn : n ≤ 2 ^ 58) :
    subsetTotalAoS (.ofNat 64 n) = some (∑ i ∈ Finset.range n, (baseMid + i)) := by
  obtain ⟨aos, hfill⟩ := exists_fill (n := n) fun i _ => ⟨_, (rfl : subsetEntry i _ = some _)⟩
  rw [subsetTotalAoS, toNat_count hn, hfill]
  refine accumulate_eq fun i hi => ?_
  obtain ⟨e, he, hread⟩ := fill_elim hfill hi
  cases he
  rw [hread]
  exact mid_eq (by omega)

theorem fullTotalAoS_eq (hn : n ≤ 2 ^ 58) : fullTotalAoS (.ofNat 64 n) =
    some (∑ i ∈ Finset.range n, (baseFields + 3 * BitVec.ofNat 64 i)) := by
  obtain ⟨aos, hfill⟩ : ∃ aos, fill fullEntry n = some aos := exists_fill fun i hi =>
    (exists_fields (by omega)).imp fun e he => he.1
  rw [fullTotalAoS, toNat_count hn, hfill]
  refine accumulate_eq fun i hi => ?_
  obtain ⟨e, he, hread⟩ := fill_elim hfill hi
  obtain ⟨e', he', v, hv⟩ := exists_fields (i := i) (by omega)
  cases Option.some.inj (he.symm.trans he')
  rw [hread]
  exact hv.trans (congrArg some (fullEntry_elim he hv))

end Values

/-! ### The passes in memory -/

section Totals

variable {n : Nat}

/-- What a pass reads, if it reads the fields `ms` of each element. -/
def readsOf (c : Cells (Cell n)) (ms : List Member) : List Span :=
  (List.finRange n).flatMap fun i => ms.map fun m => c.place (m, i)

theorem subsetPassAoS_gives (base : Nat) (hn : n ≤ 2 ^ 58) (mem : Nat → Byte) :
    ∃ total, subsetTotalAoS (.ofNat 64 n) = some total ∧
      (subsetPassAoS base n mem).Gives total (readsOf (aosCells base n) [.bidPrice, .askPrice]) := by
  refine ⟨_, subsetTotalAoS_eq hn, ?_⟩
  have hfill : subsetFill base n mem = some _ := fillLoop_eq (fun _ => rfl) _
  refine (gives_checked hfill).bind ?_
  rw [Finset.sum_range]
  exact gives_sumOver fun i => gives_readMid
    (get_fill (fun _ _ => rfl) _ (by decide) i _) (get_fill (fun _ _ => rfl) _ (by decide) i _)
    (mid_eq (i.isLt.trans_le hn))

theorem subsetPassSoA_gives (data : SoAData n) (hn : n ≤ 2 ^ 58) (mem : Nat → Byte) :
    ∃ total, subsetTotalSoA (.ofNat 64 n) = some total ∧
      (subsetPassSoA data mem).Gives total (readsOf (soaCells data) [.bidPrice, .askPrice]) := by
  refine ⟨_, subsetTotalSoA_eq _, ?_⟩
  rw [toNat_count hn, Finset.sum_range]
  exact gives_sumOver fun i => gives_readMid (get_resizeInMemory data mem .bidPrice i)
    (get_resizeInMemory data mem .askPrice i) (by decide +kernel)

/-- The filled array holds the entries of the full access test, field by field. -/
theorem exists_fullFill (base : Nat) (hn : n ≤ 2 ^ 58) (mem : Nat → Byte) :
    ∃ filled, fullFill base n mem = some filled ∧
      ∀ i : Fin n, ∃ e, fullEntry i AoSEntry.zero = some e ∧
        (∃ sum, allFields e = some sum) ∧
        ∀ m, (aosCells base n).get filled (m, i) = e.value m := by
  choose entry hentry hsum using fun i : Fin n => exists_fields (i.isLt.trans_le hn)
  have hfill : fullFill base n mem = some _ :=
    fillLoop_eq (w := fun i => assign Member.all i (entry i)) (fun i => by rw [hentry i]; rfl) _
  exact ⟨_, hfill, fun i => ⟨entry i, hentry i, hsum i,
    fun m => get_fill (fun _ _ => rfl) _ m.mem_all i _⟩⟩

theorem fullPassAoS_gives (base : Nat) (hn : n ≤ 2 ^ 58) (mem : Nat → Byte) :
    ∃ total, fullTotalAoS (.ofNat 64 n) = some total ∧
      (fullPassAoS base n mem).Gives total (readsOf (aosCells base n) addedFields) := by
  obtain ⟨filled, hfill, hfilled⟩ := exists_fullFill (n := n) base hn mem
  choose entry hentry hsome hfields using hfilled
  choose value hvalue using hsome
  have hsum : ∀ i : Fin n, value i = baseFields + 3 * BitVec.ofNat 64 i :=
    fun i => fullEntry_elim (hentry i) (hvalue i)
  refine ⟨_, fullTotalAoS_eq hn, (gives_checked hfill).bind ?_⟩
  rw [Finset.sum_range]
  simp only [← hsum]
  exact gives_sumOver fun i => gives_readAllFields (hfields i) (hvalue i)

theorem fullPassSoA_gives (data : SoAData n) (hn : n ≤ 2 ^ 58) (mem : Nat → Byte) :
    ∃ total, fullTotalSoA (.ofNat 64 n) = some total ∧
      (fullPassSoA data mem).Gives total (readsOf (soaCells data) addedFields) := by
  refine ⟨_, fullTotalSoA_eq _, ?_⟩
  rw [toNat_count hn, Finset.sum_range]
  exact gives_sumOver fun i => gives_readAllFields (e := resizedEntry)
    (fun m => get_resizeInMemory data mem m i) (by decide +kernel)

end Totals

end Layouts

end HwBench
