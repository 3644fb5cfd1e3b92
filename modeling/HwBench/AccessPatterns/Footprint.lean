import HwBench.AccessPatterns.InMemory
import HwBench.Constants
import HwBench.Machine.Granule

/-!
# The cache lines that the passes touch

An entry of the array of structs is as large as a cache line, so a pass over `n` entries
touches about `n` lines, whether it reads two fields or all of them. A pass over the
struct of arrays touches the lines of the bytes that it reads, and few more: less than
the other layout already for short vectors, even if it reads all fields.

The alignment of an entry is half a line. If the array starts in the middle of a line,
every entry lies in two.
-/

namespace HwBench

open Machine Granule

namespace Layouts

variable {n : Nat}

theorem Member.size_pos (m : Member) : 0 < m.size := by cases m <;> decide

theorem Member.size_dvd_line (m : Member) : m.size ∣ cacheLineSize := by cases m <;> decide

/-- If the fields are aligned, each read touches the line of its start. -/
theorem mem_touched_readsOf {c : Cells (Cell n)} (hsize : ∀ m i, (c.place (m, i)).size = m.size)
    (halign : ∀ m i, m.size ∣ (c.place (m, i)).start) {ms : List Member} {line : Nat} :
    line ∈ touched cacheLineSize (readsOf c ms) ↔
      ∃ i, ∃ m ∈ ms, (c.place (m, i)).start / cacheLineSize = line := by
  have hone : ∀ m i, (c.place (m, i)).granules cacheLineSize =
      {(c.place (m, i)).start / cacheLineSize} := by
    intro m i
    have hgranules := granules_aligned m.size_pos (halign m i) m.size_dvd_line (by decide)
    rwa [← hsize m i] at hgranules
  rw [mem_touched]
  constructor
  · rintro ⟨s, hs, hline⟩
    obtain ⟨i, _, hs⟩ := List.mem_flatMap.mp hs
    obtain ⟨m, hm, rfl⟩ := List.mem_map.mp hs
    rw [hone, Finset.mem_singleton] at hline
    exact ⟨i, m, hm, hline.symm⟩
  · rintro ⟨i, m, hm, rfl⟩
    refine ⟨c.place (m, i), List.mem_flatMap.mpr
      ⟨i, List.mem_finRange i, List.mem_map.mpr ⟨m, hm, rfl⟩⟩, ?_⟩
    rw [hone]
    exact Finset.mem_singleton_self _

/-! ### The array of structs -/

section AoS

theorem Member.offset_lt (m : Member) : m.offset < 64 := by cases m <;> decide

/-- The fields that the subset test reads lie in the first half of an entry. -/
theorem Member.offset_lt_of_subset {m : Member} (hm : m ∈ [bidPrice, askPrice]) :
    m.offset < 32 := by
  revert m
  decide

variable {base : Nat} (hbase : 32 ∣ base)

include hbase

theorem mem_touched_aos {ms : List Member} {line : Nat} :
    line ∈ touched cacheLineSize (readsOf (aosCells base n) ms) ↔
      ∃ i : Fin n, ∃ m ∈ ms, (base + i * 64 + m.offset) / 64 = line := by
  refine mem_touched_readsOf (fun _ _ => rfl) fun m i => ?_
  have haligned := (List.forall₂_iff_get.mp (aosEntry.align_dvd_address hbase i)).2
  cases m <;> exact haligned _ (by decide) (by decide)

/-- The subset test touches one line for each element, wherever the array starts. -/
theorem card_touched_subset_aos :
    (touched cacheLineSize (readsOf (aosCells base n) [.bidPrice, .askPrice])).card = n := by
  have hlines : touched cacheLineSize (readsOf (aosCells base n) [.bidPrice, .askPrice]) =
      Finset.Ico (base / 64) (base / 64 + n) := by
    ext line
    rw [mem_touched_aos hbase, Finset.mem_Ico]
    constructor
    · rintro ⟨i, m, hm, rfl⟩
      have hoffset := Member.offset_lt_of_subset hm
      have hi := i.isLt
      omega
    · rintro ⟨hlo, hhi⟩
      exact ⟨⟨line - base / 64, by omega⟩, .bidPrice, by decide, by
        have hoffset : Member.offset .bidPrice = 0 := rfl
        dsimp only
        omega⟩
  rw [hlines, Nat.card_Ico, Nat.add_sub_cancel_left]

/-- The full access test touches one line more if the array starts in the middle of one. -/
theorem card_touched_full_aos (hn : 1 ≤ n) :
    (touched cacheLineSize (readsOf (aosCells base n) addedFields)).card =
      if 64 ∣ base then n else n + 1 := by
  have hlines : touched cacheLineSize (readsOf (aosCells base n) addedFields) =
      Finset.Ico (base / 64) (base / 64 + if 64 ∣ base then n else n + 1) := by
    ext line
    rw [mem_touched_aos hbase, Finset.mem_Ico]
    constructor
    · rintro ⟨i, m, _, rfl⟩
      have hoffset := m.offset_lt
      have hi := i.isLt
      split <;> omega
    · rintro ⟨hlo, hhi⟩
      by_cases hlast : line < base / 64 + n
      · exact ⟨⟨line - base / 64, by omega⟩, .bidPrice, by decide, by
          have hoffset : Member.offset .bidPrice = 0 := rfl
          dsimp only
          omega⟩
      · -- the second half of the last element
        have hmiddle : ¬ 64 ∣ base := fun haligned => hlast (by rwa [if_pos haligned] at hhi)
        have hoffset : Member.offset .lastPrice = 32 := rfl
        rw [if_neg hmiddle] at hhi
        refine ⟨⟨n - 1, by omega⟩, .lastPrice, by decide, ?_⟩
        dsimp only
        omega
  rw [hlines, Nat.card_Ico, Nat.add_sub_cancel_left]

/-- An entry is in one line or, if the array starts in the middle of one, in two. -/
theorem card_touched_entry (i : Fin n) :
    (touched cacheLineSize (addedFields.map fun m => (aosCells base n).place (m, i))).card =
      if 64 ∣ base then 1 else 2 := by
  have haligned : 32 ∣ base + i * 64 := by omega
  have hentry := card_touched_full_aos haligned (Nat.le_refl 1)
  have hdvd : 64 ∣ base + i * 64 ↔ 64 ∣ base := Nat.dvd_add_left (Nat.dvd_mul_left 64 i)
  simp only [hdvd] at hentry
  exact hentry

end AoS

/-! ### The struct of arrays -/

section SoA

variable (data : SoAData n)

/-- A read of one of the vectors lies in its data. -/
theorem readsOf_soa_within {ms : List Member} {s : Span} (hs : s ∈ readsOf (soaCells data) ms) :
    ∃ r ∈ ms.map fun m => Span.mk (data.start m) (n * m.size),
      s.Within r.start (r.start + r.size) := by
  obtain ⟨i, _, hs⟩ := List.mem_flatMap.mp hs
  obtain ⟨m, hm, rfl⟩ := List.mem_map.mp hs
  exact ⟨_, List.mem_map.mpr ⟨m, hm, rfl⟩, Span.nth_within _ _ i.isLt⟩

/-- The lines of one vector. -/
theorem card_granules_vector (m : Member) :
    ((Span.mk (data.start m) (n * m.size)).granules cacheLineSize).card ≤
      (n * m.size + (127 - m.size)) / 64 := by
  refine (card_granules_le (by decide) _).trans (Nat.div_le_div_right ?_)
  have halign := data.aligned m
  have hsize : m.size = 8 ∨ m.size = 4 := by cases m <;> decide
  rw [cacheLineSize]
  obtain hsize | hsize := hsize <;> rw [hsize] at halign ⊢ <;> dsimp only <;> omega

/-- The lines hold the bytes that are read. -/
theorem sum_size_le_lines {ms : List Member} (hms : ms.Nodup) :
    n * (ms.map Member.size).sum ≤
      64 * (touched cacheLineSize (readsOf (soaCells data) ms)).card := by
  have hreads : readsOf (soaCells data) ms =
      ((List.finRange n).flatMap fun i => ms.map fun m => (m, i)).map (soaCells data).place := by
    simp only [readsOf, List.map_flatMap, List.map_map]
    rfl
  have hnodup : ((List.finRange n).flatMap fun i => ms.map fun m => (m, i)).Nodup := by
    refine List.nodup_flatMap.mpr ⟨fun i _ => hms.map fun m m' h => (Prod.ext_iff.mp h).1,
      (List.nodup_finRange n).imp fun hne => ?_⟩
    refine List.disjoint_left.mpr fun cell hcell hcell' => ?_
    obtain ⟨m, _, rfl⟩ := List.mem_map.mp hcell
    obtain ⟨m', _, heq⟩ := List.mem_map.mp hcell'
    exact hne (Prod.ext_iff.mp heq).2.symm
  have hle := sum_size_le_touched (g := cacheLineSize) (by decide)
    ((soaCells data).pairwise_place hnodup)
  rw [← hreads] at hle
  refine Nat.le_trans (Nat.le_of_eq ?_) hle
  have helement : (readsOf (soaCells data) ms).map Span.size =
      (List.finRange n).flatMap fun _ => ms.map Member.size := by
    simp only [readsOf, List.map_flatMap, List.map_map]
    rfl
  rw [helement]
  simp [List.flatMap, List.sum_flatten]

theorem card_touched_soa_le (ms : List Member) :
    (touched cacheLineSize (readsOf (soaCells data) ms)).card ≤
      (ms.map fun m => (n * m.size + (127 - m.size)) / 64).sum := by
  refine (card_touched_le_sum fun s hs => readsOf_soa_within data hs).trans ?_
  rw [List.map_map]
  exact List.sum_le_sum fun m _ => card_granules_vector data m

end SoA

/-! ### Comparison -/

/-- In memory the two passes of the subset test end with the exact totals of the layouts,
whatever was there before. One touches a line for each element, the other the lines of
16 bytes for each element and a few more, so fewer from five elements on. -/
theorem subset_access (n base : Nat) (hbase : 32 ∣ base) (hfits : base + n * 64 ≤ 2 ^ 64)
    (data : SoAData n) (mem : Nat → Byte) :
    ∃ totalAoS aos totalSoA soa,
      subsetTotalAoS (.ofNat 64 n) = some totalAoS ∧
      (subsetPassAoS base n mem).run = some (totalAoS, aos) ∧
      subsetTotalSoA (.ofNat 64 n) = some totalSoA ∧
      (subsetPassSoA data mem).run = some (totalSoA, soa) ∧
      (touched cacheLineSize aos).card = n ∧
      n ≤ 4 * (touched cacheLineSize soa).card ∧
      (touched cacheLineSize soa).card ≤ 2 * ((8 * n + 119) / 64) ∧
      (5 ≤ n → (touched cacheLineSize soa).card < (touched cacheLineSize aos).card) := by
  obtain ⟨totalAoS, htotalAoS, haos⟩ := subsetPassAoS_gives (n := n) base (by omega) mem
  obtain ⟨totalSoA, htotalSoA, hsoa⟩ := subsetPassSoA_gives data (by omega) mem
  have hlines := card_touched_subset_aos (n := n) hbase
  have hnodup : [Member.bidPrice, .askPrice].Nodup := by decide
  have hbytes := sum_size_le_lines data hnodup
  have hupper := card_touched_soa_le data [.bidPrice, .askPrice]
  simp only [List.map_cons, List.map_nil, List.sum_cons, List.sum_nil, Member.size] at hbytes hupper
  refine ⟨totalAoS, _, totalSoA, _, htotalAoS, haos.run_eq, htotalSoA, hsoa.run_eq, hlines, ?_, ?_,
    fun hlong => ?_⟩
  · omega
  · omega
  · rw [hlines]
    omega

theorem subset_access_five : ∃ totalAoS aos totalSoA soa,
    (subsetPassAoS 4096 5 fun _ => 7).run = some (totalAoS, aos) ∧
    (subsetPassSoA (.consecutive 5 8192 (by decide)) fun _ => 7).run = some (totalSoA, soa) ∧
    (touched cacheLineSize soa).card < (touched cacheLineSize aos).card := by
  obtain ⟨totalAoS, aos, totalSoA, soa, _, haos, _, hsoa, _, _, _, hfewer⟩ :=
    subset_access 5 4096 (by decide) (by decide) (.consecutive 5 8192 (by decide)) fun _ => 7
  exact ⟨totalAoS, aos, totalSoA, soa, haos, hsoa, hfewer (by decide)⟩

/-- Both layouts hold in every field what was assigned to it, and the passes over all
fields end with the totals of the layouts. An entry of the array of structs is in one line
exactly if the array starts with a line. The struct of arrays needs the lines of 48 bytes
for each element and a few more, so from 53 elements on it touches fewer lines also here. -/
theorem full_access (n base : Nat) (hn : 1 ≤ n) (hbase : 32 ∣ base)
    (hfits : base + n * 64 ≤ 2 ^ 64) (data : SoAData n) (mem : Nat → Byte) :
    ∃ totalAoS aos totalSoA soa,
      fullTotalAoS (.ofNat 64 n) = some totalAoS ∧
      (fullPassAoS base n mem).run = some (totalAoS, aos) ∧
      fullTotalSoA (.ofNat 64 n) = some totalSoA ∧
      (fullPassSoA data mem).run = some (totalSoA, soa) ∧
      (∃ filled, fullFill base n mem = some filled ∧
        ∀ i : Fin n, ∃ e, fullEntry i AoSEntry.zero = some e ∧
          ∀ m, (aosCells base n).get filled (m, i) = e.value m) ∧
      (∀ m i, (soaCells data).get (resizeInMemory data mem) (m, i) = resizedEntry.value m) ∧
      (touched cacheLineSize aos).card = (if 64 ∣ base then n else n + 1) ∧
      (∀ i, (touched cacheLineSize (addedFields.map fun m => (aosCells base n).place (m, i))).card =
        if 64 ∣ base then 1 else 2) ∧
      3 * n ≤ 4 * (touched cacheLineSize soa).card ∧
      (touched cacheLineSize soa).card ≤ 4 * ((8 * n + 119) / 64) + 4 * ((4 * n + 123) / 64) ∧
      (53 ≤ n → (touched cacheLineSize soa).card < (touched cacheLineSize aos).card) := by
  obtain ⟨totalAoS, htotalAoS, haos⟩ := fullPassAoS_gives (n := n) base (by omega) mem
  obtain ⟨totalSoA, htotalSoA, hsoa⟩ := fullPassSoA_gives data (by omega) mem
  have hlines := card_touched_full_aos hbase hn
  have hnodup : addedFields.Nodup := by decide
  have hbytes := sum_size_le_lines data hnodup
  have hupper := card_touched_soa_le data addedFields
  simp only [addedFields, List.map_cons, List.map_nil, List.sum_cons, List.sum_nil, Member.size]
    at hbytes hupper
  obtain ⟨filled, hfill, hfilled⟩ := exists_fullFill (n := n) base (by omega) mem
  refine ⟨totalAoS, _, totalSoA, _, htotalAoS, haos.run_eq, htotalSoA, hsoa.run_eq,
    ⟨filled, hfill, fun i => ?_⟩, get_resizeInMemory data mem, hlines,
    card_touched_entry hbase, ?_, ?_, fun hlong => ?_⟩
  · obtain ⟨e, he, _, hfields⟩ := hfilled i
    exact ⟨e, he, hfields⟩
  · simp only [addedFields]
    omega
  · simp only [addedFields]
    omega
  · rw [hlines]
    simp only [addedFields]
    split <;> omega

/-- An array that starts in the middle of a line. -/
theorem full_access_middle : ∃ totalAoS aos totalSoA soa,
    (fullPassAoS 4128 53 fun _ => 7).run = some (totalAoS, aos) ∧
    (fullPassSoA (.consecutive 53 8192 (by decide)) fun _ => 7).run = some (totalSoA, soa) ∧
    (∃ filled, fullFill 4128 53 (fun _ => 7) = some filled ∧
      (aosCells 4128 53).get filled (.bidPrice, 52) = 100000000052) ∧
    (touched cacheLineSize aos).card = 54 ∧
    (touched cacheLineSize soa).card < (touched cacheLineSize aos).card := by
  obtain ⟨totalAoS, aos, totalSoA, soa, _, haos, _, hsoa, ⟨filled, hfill, hfields⟩, _, hlines,
    _, _, _, hfewer⟩ := full_access 53 4128 (by decide) (by decide) (by decide)
      (.consecutive 53 8192 (by decide)) fun _ => 7
  obtain ⟨e, he, hvalue⟩ := hfields 52
  cases he
  exact ⟨totalAoS, aos, totalSoA, soa, haos, hsoa, ⟨filled, hfill, hvalue .bidPrice⟩, hlines,
    hfewer (by decide)⟩

end Layouts

end HwBench
