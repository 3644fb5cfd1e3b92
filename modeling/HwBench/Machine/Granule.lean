import HwBench.Machine.Span
import Mathlib.Algebra.Order.BigOperators.Group.Finset
import Mathlib.Order.Interval.Finset.Nat
import Mathlib.Tactic.Ring

/-!
# Cache lines and pages

The address space is divided into granules of one size: cache lines, pages, huge
pages. An access touches the granules of its bytes. A granule that is a multiple of
a smaller one collects the granules of the smaller size.
-/

namespace Machine

/-- The granules of size `g` that hold a byte of the span. -/
def Span.granules (g : Nat) (s : Span) : Finset Nat :=
  (Finset.Ico s.start (s.start + s.size)).image (· / g)

/-- The span `d` addresses further. -/
def Span.shift (d : Nat) (s : Span) : Span := ⟨d + s.start, s.size⟩

namespace Granule

variable {g : Nat}

theorem mem_granules {s : Span} {line : Nat} :
    line ∈ s.granules g ↔ ∃ a, s.start ≤ a ∧ a < s.start + s.size ∧ a / g = line := by
  simp only [Span.granules, Finset.mem_image, Finset.mem_Ico, and_assoc]

/-- A span that ends in the granule of its start has no other one. -/
theorem granules_eq_singleton {s : Span} (hpos : 0 < s.size) {line : Nat}
    (hlo : line * g ≤ s.start) (hhi : s.start + s.size ≤ (line + 1) * g) :
    s.granules g = {line} := by
  ext x
  rw [mem_granules, Finset.mem_singleton]
  constructor
  · rintro ⟨a, ha, ha', rfl⟩
    exact Nat.div_eq_of_lt_le (hlo.trans ha) (by omega)
  · rintro rfl
    exact ⟨s.start, Nat.le_refl _, by omega, Nat.div_eq_of_lt_le hlo (by omega)⟩

/-- An access that is aligned to its size lies in the granule of its start. -/
theorem granules_aligned {start width : Nat} (hpos : 0 < width) (hstart : width ∣ start)
    (hg : width ∣ g) (hgpos : 0 < g) : (Span.mk start width).granules g = {start / g} := by
  obtain ⟨q, rfl⟩ := hstart
  obtain ⟨m, rfl⟩ := hg
  have hm : 0 < m := Nat.pos_of_mul_pos_left hgpos
  have hdiv := Nat.div_add_mod q m
  have hmod := Nat.mod_lt q hm
  rw [Nat.mul_div_mul_left q m hpos]
  refine granules_eq_singleton hpos ?_ ?_
  · calc q / m * (width * m) = width * (m * (q / m)) := by ring
      _ ≤ width * q := Nat.mul_le_mul_left width (by omega)
  · calc width * q + width = width * (q + 1) := by ring
      _ ≤ width * (m * (q / m + 1)) := Nat.mul_le_mul_left width (by rw [Nat.mul_add]; omega)
      _ = (q / m + 1) * (width * m) := by ring

/-- A larger granule collects the granules of its parts. -/
theorem granules_mul (k : Nat) (s : Span) :
    s.granules (g * k) = (s.granules g).image (· / k) := by
  rw [Span.granules, Span.granules, Finset.image_image]
  refine Finset.image_congr fun a _ => ?_
  exact (Nat.div_div_eq_div_mul a g k).symm

/-- Moving a span by whole granules moves its granules. -/
theorem granules_shift (hg : 0 < g) (base : Nat) (s : Span) :
    (s.shift (base * g)).granules g = (s.granules g).image (base + ·) := by
  ext line
  simp only [Finset.mem_image, mem_granules, Span.shift]
  constructor
  · rintro ⟨x, hlo, hhi, rfl⟩
    refine ⟨(x - base * g) / g, ⟨x - base * g, by omega, by omega, rfl⟩, ?_⟩
    have hx : x = x - base * g + g * base := by rw [Nat.mul_comm g base]; omega
    rw [Nat.add_comm, ← Nat.add_mul_div_left _ _ hg, ← hx]
  · rintro ⟨_, ⟨x, hlo, hhi, rfl⟩, rfl⟩
    refine ⟨base * g + x, by omega, by omega, ?_⟩
    rw [Nat.add_comm (base * g), Nat.mul_comm base, Nat.add_mul_div_left _ _ hg, Nat.add_comm]

/-- The granules that a list of accesses touches. -/
def touched (g : Nat) (accesses : List Span) : Finset Nat :=
  accesses.toFinset.biUnion (Span.granules g)

theorem mem_touched {accesses : List Span} {line : Nat} :
    line ∈ touched g accesses ↔ ∃ s ∈ accesses, line ∈ s.granules g := by
  simp only [touched, Finset.mem_biUnion, List.mem_toFinset]

theorem touched_mul (k : Nat) (accesses : List Span) :
    touched (g * k) accesses = (touched g accesses).image (· / k) := by
  rw [touched, touched, Finset.biUnion_image]
  exact Finset.biUnion_congr rfl fun s _ => granules_mul k s

/-- A granule of the larger size has at most `k` parts, and at least one of them is
touched. -/
theorem card_touched_mul {k : Nat} (hk : 0 < k) (accesses : List Span) :
    (touched (g * k) accesses).card ≤ (touched g accesses).card ∧
      (touched g accesses).card ≤ k * (touched (g * k) accesses).card := by
  rw [touched_mul]
  refine ⟨Finset.card_image_le, Finset.card_le_mul_card_image _ _ fun line _ => ?_⟩
  have hsub : {x ∈ touched g accesses | x / k = line} ⊆
      Finset.Ico (k * line) (k * line + k) := by
    intro x hx
    obtain ⟨_, rfl⟩ := Finset.mem_filter.mp hx
    have hdiv := Nat.div_add_mod x k
    have hmod := Nat.mod_lt x hk
    rw [Finset.mem_Ico]
    omega
  simpa using Finset.card_le_card hsub

/-- The number of granules does not depend on the granule at which a buffer starts. -/
theorem card_touched_shift (hg : 0 < g) (base : Nat) (accesses : List Span) :
    (touched g (accesses.map (Span.shift (base * g)))).card = (touched g accesses).card := by
  have himage : touched g (accesses.map (Span.shift (base * g))) =
      (touched g accesses).image (base + ·) := by
    ext line
    simp only [mem_touched, List.mem_map, Finset.mem_image]
    constructor
    · rintro ⟨_, ⟨s, hs, rfl⟩, hline⟩
      rw [granules_shift hg, Finset.mem_image] at hline
      obtain ⟨part, hpart, rfl⟩ := hline
      exact ⟨part, ⟨s, hs, hpart⟩, rfl⟩
    · rintro ⟨part, ⟨s, hs, hpart⟩, rfl⟩
      refine ⟨s.shift (base * g), ⟨s, hs, rfl⟩, ?_⟩
      rw [granules_shift hg]
      exact Finset.mem_image_of_mem _ hpart
  rw [himage]
  exact Finset.card_image_of_injective _ fun _ _ h => Nat.add_left_cancel h

/-- Accesses inside a buffer touch no more granules than the buffer has. -/
theorem card_touched_le {accesses : List Span} {granules : Nat} (hg : 0 < g)
    (hin : ∀ s ∈ accesses, s.start + s.size ≤ granules * g) :
    (touched g accesses).card ≤ granules := by
  have hsub : touched g accesses ⊆ Finset.range granules := by
    intro line hline
    obtain ⟨s, hs, hmem⟩ := mem_touched.mp hline
    obtain ⟨a, _, ha, rfl⟩ := mem_granules.mp hmem
    have hend := hin s hs
    exact Finset.mem_range.mpr ((Nat.div_lt_iff_lt_mul hg).mpr (by omega))
  simpa using Finset.card_le_card hsub

/-- An access inside one granule adds at most this one. -/
theorem card_touched_le_length {accesses : List Span}
    (hone : ∀ s ∈ accesses, ∃ line, s.granules g = {line}) :
    (touched g accesses).card ≤ accesses.length := by
  have hle := Finset.card_biUnion_le_card_mul accesses.toFinset (Span.granules g) 1 fun s hs => by
    obtain ⟨line, hline⟩ := hone s (List.mem_toFinset.mp hs)
    rw [hline, Finset.card_singleton]
  exact hle.trans ((Nat.mul_one _).le.trans (List.toFinset_card_le accesses))

theorem granules_subset {s t : Span} (h : s.Within t.start (t.start + t.size)) :
    s.granules g ⊆ t.granules g :=
  Finset.image_subset_image (Finset.Ico_subset_Ico h.1 h.2)

/-- A region that starts inside a granule has the granules of its bytes and at most the
one of its start more. -/
theorem card_granules_le (hg : 0 < g) (s : Span) :
    (s.granules g).card ≤ (s.start % g + s.size + (g - 1)) / g := by
  have hstart := Nat.div_add_mod s.start g
  have hsub : s.granules g ⊆ (Finset.range ((s.start % g + s.size + (g - 1)) / g)).image
      (s.start / g + ·) := by
    intro line hline
    obtain ⟨a, hlo, hhi, rfl⟩ := mem_granules.mp hline
    have hle : s.start / g ≤ a / g := Nat.div_le_div_right hlo
    refine Finset.mem_image.mpr ⟨a / g - s.start / g, Finset.mem_range.mpr ?_, by omega⟩
    have hoffset : a / g - s.start / g = (a - g * (s.start / g)) / g :=
      (Nat.sub_mul_div a g (s.start / g)).symm
    rw [hoffset]
    refine Nat.lt_of_lt_of_le (Nat.lt_succ_self _) ((Nat.le_div_iff_mul_le hg).mpr ?_)
    have hround := Nat.div_mul_le_self (a - g * (s.start / g)) g
    rw [Nat.succ_mul]
    omega
  exact (Finset.card_le_card hsub).trans (Finset.card_image_le.trans (Finset.card_range _).le)

/-- Accesses inside some regions touch at most the granules of these. -/
theorem card_touched_le_sum {accesses regions : List Span}
    (hin : ∀ s ∈ accesses, ∃ r ∈ regions, s.Within r.start (r.start + r.size)) :
    (touched g accesses).card ≤ (regions.map fun r => (r.granules g).card).sum := by
  have hsub : touched g accesses ⊆ touched g regions := by
    intro line hline
    obtain ⟨s, hs, hmem⟩ := mem_touched.mp hline
    obtain ⟨r, hr, hwithin⟩ := hin s hs
    exact mem_touched.mpr ⟨r, hr, granules_subset hwithin hmem⟩
  refine (Finset.card_le_card hsub).trans ?_
  clear hsub hin
  induction regions with
  | nil => rfl
  | cons r rs ih =>
      have hunion : touched g (r :: rs) = r.granules g ∪ touched g rs := by
        ext line
        simp only [mem_touched, Finset.mem_union, List.exists_mem_cons_iff]
      rw [hunion, List.map_cons, List.sum_cons]
      exact (Finset.card_union_le _ _).trans (Nat.add_le_add_left ih _)

/-- Disjoint accesses need the granules for their bytes. -/
theorem sum_size_le_touched (hg : 0 < g) {accesses : List Span}
    (hdisjoint : accesses.Pairwise Span.Disjoint) :
    (accesses.map Span.size).sum ≤ g * (touched g accesses).card := by
  have himage : (accesses.flatMap Span.addrs).toFinset.image (· / g) ⊆ touched g accesses := by
    intro line hline
    obtain ⟨a, ha, rfl⟩ := Finset.mem_image.mp hline
    obtain ⟨s, hs, has⟩ := List.mem_flatMap.mp (List.mem_toFinset.mp ha)
    obtain ⟨hlo, hhi⟩ := Span.mem_addrs.mp has
    exact mem_touched.mpr ⟨s, hs, mem_granules.mpr ⟨a, hlo, hhi, rfl⟩⟩
  have hfiber : ∀ line ∈ touched g accesses,
      ((accesses.flatMap Span.addrs).toFinset.filter (· / g = line)).card ≤ g := by
    intro line _
    have hsub : (accesses.flatMap Span.addrs).toFinset.filter (· / g = line) ⊆
        Finset.Ico (g * line) (g * line + g) := by
      intro a ha
      obtain ⟨_, rfl⟩ := Finset.mem_filter.mp ha
      have hdiv := Nat.div_add_mod a g
      have hmod := Nat.mod_lt a hg
      rw [Finset.mem_Ico]
      omega
    simpa using Finset.card_le_card hsub
  have hbytes : (accesses.map Span.size).sum = (accesses.flatMap Span.addrs).toFinset.card := by
    rw [List.toFinset_card_of_nodup (Span.nodup_flatMap_addrs hdisjoint), List.length_flatMap]
    exact congrArg List.sum (List.map_congr_left fun s _ => List.length_range'.symm)
  rw [hbytes]
  exact Finset.card_le_mul_card_image_of_maps_to
    (fun a ha => himage (Finset.mem_image_of_mem _ ha)) g hfiber

/-- Steps that are not larger than a granule leave none out. -/
theorem image_progression (hg : 0 < g) (start : Nat) {step : Nat} (hstep : step ≤ g)
    (count : Nat) : (Finset.range (count + 1)).image (fun k => (start + k * step) / g) =
      Finset.Icc (start / g) ((start + count * step) / g) := by
  induction count with
  | zero => simp
  | succ count ih =>
      have hnext : start + (count + 1) * step = start + count * step + step := by
        rw [Nat.succ_mul, Nat.add_assoc]
      have hle : (start + count * step) / g ≤ (start + (count + 1) * step) / g :=
        Nat.div_le_div_right (by omega)
      have hone : (start + (count + 1) * step) / g ≤ (start + count * step) / g + 1 := by
        rw [hnext, ← Nat.add_div_right _ hg]
        exact Nat.div_le_div_right (Nat.add_le_add_left hstep _)
      have hstart : start / g ≤ (start + count * step) / g :=
        Nat.div_le_div_right (Nat.le_add_right _ _)
      rw [Finset.range_add_one, Finset.image_insert, ih]
      ext line
      rw [Finset.mem_insert, Finset.mem_Icc, Finset.mem_Icc]
      omega

end Granule

end Machine
