import HwBench.Text.RangeList
import HwBench.Text.Stoi

/-!
# Counting NUMA nodes

`detect_numa_nodes` reads the first line of `/sys/devices/system/node/online`, the
list of ranges of the nodes. It takes the number after the first dash for the
largest node and assumes that the nodes start at zero and have no gaps.

So it finds one more than the end of the first range, or one node if no range is
written with a dash. That is the number of nodes when the nodes behind the range
are as many as the numbers missing before it.
-/

namespace HwBench

open Machine RangeList

namespace NumaBenchmark

/-- Why there is no result: an exception of `std::stoi`, or the overflow of the sum. -/
inductive Fault where
  | thrown (error : StoiError)
  | overflow
  deriving DecidableEq, Repr

/-- `std::getline(f, line)`, on the contents of the file. -/
def getline (contents : List Char) : List Char := contents.takeWhile (· != '\n')

/-- The file is absent when it cannot be opened. -/
def detectNumaNodes (file : Option (List Char)) : Except Fault CInt :=
  match file with
  | none => .ok 1
  | some contents =>
      let line := getline contents
      match line.findIdx? (· == '-') with
      | none => .ok 1
      | some dash =>
          match stoi (line.drop (dash + 1)) with
          | .error error => .error (.thrown error)
          | .ok maxNode =>
              match Signed.add? maxNode 1 with
              | none => .error .overflow
              | some count => .ok count

theorem findIdx?_dash_eq_none {text : List Char} (h : '-' ∉ text) :
    text.findIdx? (· == '-') = none := by
  refine List.findIdx?_eq_none_iff.mpr fun c hc => ?_
  exact beq_eq_false_iff_ne.mpr fun heq => h (heq ▸ hc)

/-- A text without a dash is taken for a single node. -/
theorem detectNumaNodes_of_not_mem {contents : List Char} (h : '-' ∉ getline contents) :
    detectNumaNodes (some contents) = .ok 1 := by
  simp only [detectNumaNodes, findIdx?_dash_eq_none h]

/-- The number after the first dash, plus one. -/
theorem detectNumaNodes_of_range {contents front rest : List Char} {n : Nat} (hn : n + 1 < 2 ^ 31)
    (hline : getline contents = front ++ '-' :: (Nat.toDigits 10 n ++ rest))
    (hfront : '-' ∉ front) (hrest : ∀ c ∈ rest.head?, c.isDigit = false) :
    ∃ count, detectNumaNodes (some contents) = .ok count ∧ count.toInt = n + 1 := by
  have hfind : (getline contents).findIdx? (· == '-') = some front.length := by
    simp [hline, List.findIdx?_append, findIdx?_dash_eq_none hfront, List.findIdx?_cons]
  have hdrop : (getline contents).drop (front.length + 1) = Nat.toDigits 10 n ++ rest := by
    rw [hline, List.drop_length_add_append]
    rfl
  obtain ⟨maxNode, hstoi, hvalue⟩ := stoi_toDigits (by omega : n < 2 ^ 31) hrest
  have hone : (1 : CInt).toInt = 1 := rfl
  obtain ⟨count, hcount, hsum⟩ := Signed.exists_add? (a := maxNode) (b := 1) (by decide)
    (by omega) (by omega)
  refine ⟨count, ?_, by rw [hsum, hvalue, hone]⟩
  simp only [detectNumaNodes, hfind, hdrop, hstoi, hcount]

/-- The result on a list of ranges: one more than the end of the first range that is
written with a dash, and one if there is none. -/
theorem detectNumaNodes_render {contents : List Char} {l : RangeList}
    (hline : getline contents = l.render) (hint : ∀ x, l.Covers x → x + 1 < 2 ^ 31) :
    (l.firstRange = none ∧ detectNumaNodes (some contents) = .ok 1) ∨
      ∃ r count, l.firstRange = some r ∧ detectNumaNodes (some contents) = .ok count ∧
        count.toInt = r.hi + 1 := by
  cases hfirst : l.firstRange with
  | none =>
      refine .inl ⟨rfl, detectNumaNodes_of_not_mem ?_⟩
      rw [hline]
      refine dash_not_mem_renderRuns fun r hr => ?_
      have hshort := List.find?_eq_none.mp hfirst r hr
      have hle := r.lo_le_hi
      simp only [decide_eq_true_eq] at hshort
      omega
  | some r =>
      obtain ⟨front, rest, hrender, hfront, hrest⟩ := renderRuns_eq hfirst
      have hcovers : l.Covers r.hi := ⟨r, List.mem_of_find?_eq_some hfirst, r.lo_le_hi, le_refl _⟩
      obtain ⟨count, hrun, hvalue⟩ :=
        detectNumaNodes_of_range (hint r.hi hcovers) (hline.trans hrender) hfront hrest
      exact .inr ⟨r, count, rfl, hrun, hvalue⟩

/-- The set is a single node, or as many nodes come after its first range of several
nodes as numbers are missing before that range. -/
def Balanced (S : Finset ℕ) : Prop :=
  S.card = 1 ∨ ∃ a b, FirstRange (· ∈ S) a b ∧
    (S.filter (b < ·)).card = ((Finset.range a).filter (· ∉ S)).card

theorem balanced_iff_of_range {S : Finset ℕ} {a b : ℕ} (h : FirstRange (· ∈ S) a b) :
    Balanced S ↔ S.card = b + 1 := by
  have hcount := h.card_add_missing
  constructor
  · rintro (hone | ⟨a', b', h', hequal⟩)
    · have hlt := h.lt
      have htwo := Finset.one_lt_card.mpr ⟨a, h.mem_lo, a + 1, h.mem_succ_lo, a.lt_succ_self.ne⟩
      omega
    · obtain ⟨rfl, rfl⟩ := h.unique h'
      omega
  · exact fun hcard => .inr ⟨a, b, h, by omega⟩

theorem balanced_iff_of_no_range {S : Finset ℕ} (h : ∀ x ∈ S, x + 1 ∉ S) :
    Balanced S ↔ S.card = 1 := by
  refine ⟨?_, .inl⟩
  rintro (hone | ⟨a, b, hrange, _⟩)
  · exact hone
  · exact absurd hrange.mem_succ_lo (h a hrange.mem_lo)

/-- On the kernel's list of the online nodes the result is their number exactly for
balanced sets. -/
theorem detectNumaNodes_iff (S : Finset ℕ) (hint : ∀ x ∈ S, x + 1 < 2 ^ 31)
    (contents : List Char) (hline : getline contents = (RangeList.ofFinset S).render) :
    ∃ count, detectNumaNodes (some contents) = .ok count ∧
      (count.toInt = S.card ↔ Balanced S) := by
  have hmembers : (RangeList.ofFinset S).Covers = (· ∈ S) :=
    funext fun x => propext covers_ofFinset
  have hlimit : ∀ x, (RangeList.ofFinset S).Covers x → x + 1 < 2 ^ 31 :=
    fun x hx => hint x (covers_ofFinset.mp hx)
  obtain ⟨hnone, hrun⟩ | ⟨r, count, hsome, hrun, hvalue⟩ := detectNumaNodes_render hline hlimit
  · have hno : ∀ x ∈ S, x + 1 ∉ S := fun x hx hsucc =>
      firstRange_eq_none hnone (covers_ofFinset.mpr hx) (covers_ofFinset.mpr hsucc)
    refine ⟨1, hrun, ?_⟩
    have hone : (1 : CInt).toInt = 1 := rfl
    rw [balanced_iff_of_no_range hno, hone]
    omega
  · have hrange := firstRange_eq_some hsome
    rw [hmembers] at hrange
    refine ⟨count, hrun, ?_⟩
    rw [balanced_iff_of_range hrange, hvalue]
    omega

/-- Two nodes without gaps. -/
theorem detectNumaNodes_iff_two : ∃ count, detectNumaNodes (some ['0', '-', '1', '\n']) =
    .ok count ∧ (count.toInt = 2 ↔ Balanced {0, 1}) :=
  detectNumaNodes_iff {0, 1} (by decide) ['0', '-', '1', '\n'] (by decide)

/-- The list `0,2` has two nodes and no dash. -/
theorem not_detectNumaNodes :
    ¬ ∀ S : Finset ℕ, S.Nonempty → (∀ x ∈ S, x + 1 < 2 ^ 31) → ∀ contents,
      getline contents = (RangeList.ofFinset S).render →
        ∃ count, detectNumaNodes (some contents) = .ok count ∧ count.toInt = S.card := by
  intro h
  obtain ⟨count, hrun, hvalue⟩ := h {0, 2} ⟨0, by decide⟩ (by decide) ['0', ',', '2', '\n'] (by decide)
  have hone : detectNumaNodes (some ['0', ',', '2', '\n']) = .ok 1 := rfl
  rw [hone] at hrun
  cases hrun
  exact absurd hvalue (by decide)

end NumaBenchmark
end HwBench
