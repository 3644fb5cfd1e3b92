import HwBench.Constants
import HwBench.Machine.Granule
import HwBench.Prefetching.StridedAccess

/-!
# The cache lines of the strided walk

The walk comes to the multiples of the greatest common divisor of the stride and the
length. If this is a line or more, every element that it reads is in a line of its own,
and a prefetch is for the line of the next read. So a larger stride touches fewer lines,
and after one period all of them are known. A smaller divisor leaves no line out.
-/

namespace HwBench

open Machine Granule

namespace StridedAccess

variable {n stride : Word}

/-- The place of `data[idx]`. -/
def element (base idx : Nat) : Span := ⟨base + 8 * idx, 8⟩

/-- The lines that are read. -/
def linesRead (base : Nat) (touches : List (Touch Nat Nat)) : Finset Nat :=
  touched cacheLineSize (touches.map fun touch => element base touch.read)

/-- The line of an element. -/
def lineOf (base idx : Nat) : Nat := (base + 8 * idx) / 64

theorem granules_element {base : Nat} (hbase : 8 ∣ base) (idx : Nat) :
    (element base idx).granules cacheLineSize = {lineOf base idx} :=
  granules_aligned (Nat.succ_pos 7) (Nat.dvd_add hbase (Nat.dvd_mul_right 8 idx)) (by decide)
    (by decide)

/-- The elements that the walk comes to are as far apart as the divisor. -/
theorem gcd_dvd_indexAt (n stride : Word) (t : Nat) :
    n.toNat.gcd stride.toNat ∣ indexAt n stride t :=
  (Nat.dvd_mod_iff (Nat.gcd_dvd_left _ _)).mpr ((Nat.gcd_dvd_right _ _).mul_left t)

theorem linesRead_eq {base : Nat} (hbase : 8 ∣ base) (accesses : Nat)
    (prefetched : Nat → Option Nat) :
    linesRead base ((List.range accesses).map fun t => ⟨indexAt n stride t, prefetched t⟩) =
      (Finset.range accesses).image fun t => lineOf base (indexAt n stride t) := by
  ext line
  simp only [linesRead, mem_touched, List.mem_map, exists_exists_and_eq_and, List.mem_range,
    Finset.mem_image, Finset.mem_range, granules_element hbase, Finset.mem_singleton,
    eq_comm (a := line)]

/-- Multiples of a line or more are in different lines. -/
theorem lineOf_inj (base : Nat) {g i j : Nat} (hg : 8 ≤ g) (hi : g ∣ i) (hj : g ∣ j)
    (h : lineOf base i = lineOf base j) : i = j := by
  have happart : ∀ x y, x < y → lineOf base (g * x) ≠ lineOf base (g * y) := by
    intro x y hxy
    have hstep : g * (x + 1) ≤ g * y := Nat.mul_le_mul_left g hxy
    rw [Nat.mul_succ] at hstep
    simp only [lineOf]
    omega
  obtain ⟨x, rfl⟩ := hi
  obtain ⟨y, rfl⟩ := hj
  obtain hlt | rfl | hgt := Nat.lt_trichotomy x y
  · exact absurd h (happart x y hlt)
  · rfl
  · exact absurd h.symm (happart y x hgt)

/-- With a divisor of a line or more, the walk returns to a line exactly when it returns
to the element. -/
theorem exactPeriod_lineOf (hn : 1 ≤ n.toNat) (base : Nat) (hg : 8 ≤ n.toNat.gcd stride.toNat) :
    ExactPeriod (fun t => lineOf base (indexAt n stride t))
      (n.toNat / n.toNat.gcd stride.toNat) := by
  intro i j
  rw [← exactPeriod_mul_mod hn stride.toNat i j]
  constructor
  · exact lineOf_inj base hg (gcd_dvd_indexAt n stride i) (gcd_dvd_indexAt n stride j)
  · exact fun h => congrArg (lineOf base) h

/-- The elements of a whole period are all multiples of the divisor. -/
theorem image_indexAt (hn : 1 ≤ n.toNat) {accesses : Nat}
    (haccesses : n.toNat / n.toNat.gcd stride.toNat ≤ accesses) :
    (Finset.range accesses).image (indexAt n stride) =
      (Finset.range (n.toNat / n.toNat.gcd stride.toNat)).image (n.toNat.gcd stride.toNat * ·) := by
  have hgcd : 0 < n.toNat.gcd stride.toNat := Nat.gcd_pos_of_pos_left _ hn
  have hperiod : 0 < n.toNat / n.toNat.gcd stride.toNat := Nat.div_pos (Nat.gcd_le_left _ hn) hgcd
  have hcard := (exactPeriod_mul_mod hn stride.toNat).card_image hperiod accesses
  refine Finset.eq_of_subset_of_card_le (fun x hx => ?_) ?_
  · obtain ⟨t, _, rfl⟩ := Finset.mem_image.mp hx
    obtain ⟨k, hk⟩ := gcd_dvd_indexAt n stride t
    have hlt := indexAt_lt hn stride t
    refine Finset.mem_image.mpr ⟨k, Finset.mem_range.mpr ?_, hk.symm⟩
    rw [Nat.lt_div_iff_mul_lt' (Nat.gcd_dvd_left _ _), ← hk]
    exact hlt
  · refine Finset.card_image_le.trans ?_
    rw [Finset.card_range]
    exact (Nat.min_eq_right haccesses).symm.le.trans hcard.symm.le

/-- The lines of a whole period. -/
theorem image_lineOf (hn : 1 ≤ n.toNat) (base : Nat) {accesses : Nat}
    (haccesses : n.toNat / n.toNat.gcd stride.toNat ≤ accesses) :
    (Finset.range accesses).image (fun t => lineOf base (indexAt n stride t)) =
      (Finset.range (n.toNat / n.toNat.gcd stride.toNat)).image
        (fun k => lineOf base (n.toNat.gcd stride.toNat * k)) := by
  have hlines : (Finset.range accesses).image (fun t => lineOf base (indexAt n stride t)) =
      ((Finset.range accesses).image (indexAt n stride)).image (lineOf base) := by
    rw [Finset.image_image]
    rfl
  rw [hlines, image_indexAt hn haccesses, Finset.image_image]
  rfl

/-- With a smaller divisor a whole period comes to every line from the first multiple of
the divisor to the last one. -/
theorem image_lineOf_of_gcd_lt (hn : 1 ≤ n.toNat) (base : Nat)
    (hg : n.toNat.gcd stride.toNat < 8) {accesses : Nat}
    (haccesses : n.toNat / n.toNat.gcd stride.toNat ≤ accesses) :
    (Finset.range accesses).image (fun t => lineOf base (indexAt n stride t)) =
      Finset.Icc (lineOf base 0) (lineOf base (n.toNat - n.toNat.gcd stride.toNat)) := by
  rw [image_lineOf hn base haccesses]
  obtain ⟨period, hperiod⟩ := Nat.gcd_dvd_left n.toNat stride.toNat
  revert hperiod hg
  generalize n.toNat.gcd stride.toNat = g
  intro hg hperiod
  have hg' : 0 < g := Nat.pos_of_ne_zero fun h => by
    rw [h, Nat.zero_mul] at hperiod
    omega
  obtain ⟨count, rfl⟩ : ∃ count, period = count + 1 := Nat.exists_eq_succ_of_ne_zero fun h => by
    rw [h, Nat.mul_zero] at hperiod
    omega
  have hfun : (fun k => lineOf base (g * k)) = fun k => (base + k * (8 * g)) / 64 := by
    funext k
    have hmul : 8 * (g * k) = k * (8 * g) := by ring
    rw [lineOf, hmul]
  have hlast : 8 * (g * (count + 1) - g) = count * (8 * g) := by
    rw [Nat.mul_succ, Nat.add_sub_cancel]
    ring
  rw [hfun, hperiod, Nat.mul_div_cancel_left _ hg', image_progression (by decide) base (by omega),
    lineOf, lineOf, hlast]
  rfl

/-- The lines that a walk of so many accesses reads are those of the indices
`t * stride % n`. A whole period reads the lines of all multiples of the divisor. These are
as many as elements if the divisor is a line or more, and otherwise all lines between the
first and the last one. -/
def ReadsLines (n stride : Word) (base accesses : Nat) (lines : Finset Nat) : Prop :=
  lines = (Finset.range accesses).image (fun t => lineOf base (indexAt n stride t)) ∧
  (8 ≤ n.toNat.gcd stride.toNat →
    lines.card = min accesses (n.toNat / n.toNat.gcd stride.toNat)) ∧
  (n.toNat / n.toNat.gcd stride.toNat ≤ accesses →
    lines = (Finset.range (n.toNat / n.toNat.gcd stride.toNat)).image
        (fun k => lineOf base (n.toNat.gcd stride.toNat * k)) ∧
      (n.toNat.gcd stride.toNat < 8 →
        lines = Finset.Icc (lineOf base 0) (lineOf base (n.toNat - n.toNat.gcd stride.toNat))))

theorem readsLines_linesRead (hn : 1 ≤ n.toNat) {base : Nat} (hbase : 8 ∣ base) (accesses : Nat)
    (prefetched : Nat → Option Nat) :
    ReadsLines n stride base accesses
      (linesRead base ((List.range accesses).map fun t => ⟨indexAt n stride t, prefetched t⟩)) := by
  have hgcd : 0 < n.toNat.gcd stride.toNat := Nat.gcd_pos_of_pos_left _ hn
  have hperiod : 0 < n.toNat / n.toNat.gcd stride.toNat := Nat.div_pos (Nat.gcd_le_left _ hn) hgcd
  rw [linesRead_eq hbase]
  refine ⟨rfl, fun hg => (exactPeriod_lineOf hn base hg).card_image hperiod accesses,
    fun haccesses => ⟨image_lineOf hn base haccesses, fun hg => ?_⟩⟩
  exact image_lineOf_of_gcd_lt hn base hg haccesses

/-- Both walks touch as many lines as elements if the divisor is a line or more, and
otherwise, over a whole period, all lines between the first and the last element. In the
first case the walk leaves a line with every step, for the line that it has prefetched,
unless it stays on one element. -/
theorem strided_lines (n stride : Word) (hn : 1 ≤ n.toNat)
    (hstride : n.toNat - 1 + stride.toNat < 2 ^ 64) (data : Vector Word n.toNat) (base : Nat)
    (hbase : 8 ∣ base) (accesses : Nat) :
    ∃ final plain prefetching,
      runPlain data stride accesses = some (final, plain) ∧
      runPrefetch data stride accesses = some (final, prefetching) ∧
      ReadsLines n stride base accesses (linesRead base plain) ∧
      ReadsLines n stride base accesses (linesRead base prefetching) ∧
      ∀ t now next, prefetching[t]? = some now → prefetching[t + 1]? = some next →
        now.prefetched = some next.read ∧
          (8 ≤ n.toNat.gcd stride.toNat → n.toNat.gcd stride.toNat < n.toNat →
            lineOf base next.read ≠ lineOf base now.read) := by
  have hgcd : 0 < n.toNat.gcd stride.toNat := Nat.gcd_pos_of_pos_left _ hn
  have hperiod : 0 < n.toNat / n.toNat.gcd stride.toNat := Nat.div_pos (Nat.gcd_le_left _ hn) hgcd
  refine ⟨_, _, _, runPlain_eq data hn hstride accesses, runPrefetch_eq data hn hstride accesses,
    readsLines_linesRead hn hbase accesses _, readsLines_linesRead hn hbase accesses _,
    fun t now next hnow hnext => ?_⟩
  obtain rfl := eq_of_getElem?_map_range hnow
  obtain rfl := eq_of_getElem?_map_range hnext
  refine ⟨rfl, fun hg hlt heq => ?_⟩
  -- one step is no whole period
  have hmod := (exactPeriod_lineOf hn base hg (t + 1) t).mp heq
  have hone : 1 ≡ 0 [MOD n.toNat / n.toNat.gcd stride.toNat] := Nat.ModEq.add_left_cancel' t hmod
  have htwo : 1 < n.toNat / n.toNat.gcd stride.toNat :=
    (Nat.lt_div_iff_mul_lt' (Nat.gcd_dvd_left _ _) 1).mpr (by rwa [Nat.mul_one])
  exact absurd (Nat.ModEq.eq_of_lt_of_lt hone htwo hperiod) Nat.one_ne_zero

/-- Eight lines in a circle, with a stride of three of them, and all elements of eight lines
with a stride of one. -/
theorem strided_lines_eight :
    (∃ final plain prefetching,
      runPlain (n := 64) (Vector.replicate _ 1) 24 20 = some (final, plain) ∧
      runPrefetch (n := 64) (Vector.replicate _ 1) 24 20 = some (final, prefetching) ∧
      (linesRead 4096 plain).card = 8) ∧
    ∃ final plain,
      runPlain (n := 64) (Vector.replicate _ 1) 1 64 = some (final, plain) ∧
      linesRead 4096 plain = Finset.Icc 64 71 := by
  obtain ⟨final, plain, prefetching, hplain, hprefetch, ⟨_, hcard, _⟩, _⟩ :=
    strided_lines 64 24 (by decide) (by decide) (Vector.replicate _ 1) 4096 (by decide) 20
  obtain ⟨final', plain', _, hplain', _, ⟨_, _, hperiod⟩, _⟩ :=
    strided_lines 64 1 (by decide) (by decide) (Vector.replicate _ 1) 4096 (by decide) 64
  exact ⟨⟨final, plain, prefetching, hplain, hprefetch, hcard (by decide)⟩,
    final', plain', hplain', (hperiod (by decide)).2 (by decide)⟩

end StridedAccess

end HwBench
