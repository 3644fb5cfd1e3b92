import Mathlib.Data.Finset.Lattice.Fold
import Mathlib.Order.Interval.Finset.Nat
import Mathlib.Order.Lattice.Nat

/-!
# Lists of ranges

A finite set of numbers is written as its maximal runs of consecutive numbers, in
ascending order, separated by commas. A run of one number is written as that
number, a longer one as its ends with a dash between them. The gaps between the
runs are a field, so the runs of a `RangeList` are maximal.
-/

namespace RangeList

/-- The numbers from `lo` to `hi`. -/
structure Run where
  lo : Nat
  hi : Nat
  lo_le_hi : lo ≤ hi
  deriving DecidableEq, Repr

/-- The number is in the run. -/
def Run.Mem (r : Run) (x : Nat) : Prop := r.lo ≤ x ∧ x ≤ r.hi

/-- Add a number in front of the runs above it. -/
def extend (x : Nat) : List Run → List Run
  | [] => [⟨x, x, Nat.le_refl x⟩]
  | r :: rest =>
      if h : r.lo = x + 1 then
        ⟨x, r.hi, by have := r.lo_le_hi; omega⟩ :: rest
      else
        ⟨x, x, Nat.le_refl x⟩ :: r :: rest

/-- There is a number between the runs. -/
def Before (r s : Run) : Prop := r.hi + 1 < s.lo

theorem Before.lt {r s : Run} (h : Before r s) : r.hi + 1 < s.lo := h

theorem exists_mem_extend (x y : Nat) (runs : List Run) :
    (∃ r ∈ extend x runs, r.Mem y) ↔ y = x ∨ ∃ r ∈ runs, r.Mem y := by
  cases runs with
  | nil => simp [extend, Run.Mem]; omega
  | cons r rest =>
      have hr := r.lo_le_hi
      rw [extend]
      split <;> simp only [List.exists_mem_cons_iff, Run.Mem] <;> grind

theorem pairwise_extend {x : Nat} {runs : List Run} (h : runs.Pairwise Before)
    (hx : ∀ r ∈ runs, x < r.lo) : (extend x runs).Pairwise Before := by
  cases runs with
  | nil => exact List.pairwise_singleton _ _
  | cons r rest =>
      obtain ⟨hfirst, hrest⟩ := List.pairwise_cons.mp h
      rw [extend]
      split
      · exact List.pairwise_cons.mpr ⟨hfirst, hrest⟩
      · next hgap =>
          have hxr : x + 1 < r.lo := by
            have := hx r List.mem_cons_self
            omega
          refine List.pairwise_cons.mpr ⟨fun s hs => ?_, h⟩
          obtain rfl | hmem := List.mem_cons.mp hs
          · exact hxr
          · have hrs := (hfirst s hmem).lt
            have hr := r.lo_le_hi
            show x + 1 < s.lo
            omega

/-- The runs of an ascending list. -/
def runsOf (xs : List Nat) : List Run := xs.foldr extend []

theorem exists_mem_runsOf (xs : List Nat) (y : Nat) : (∃ r ∈ runsOf xs, r.Mem y) ↔ y ∈ xs := by
  induction xs with
  | nil => simp [runsOf]
  | cons x xs ih =>
      rw [runsOf, List.foldr_cons, ← runsOf, exists_mem_extend, ih, List.mem_cons]

theorem pairwise_runsOf {xs : List Nat} (h : xs.Pairwise (· < ·)) :
    (runsOf xs).Pairwise Before := by
  induction xs with
  | nil => exact List.Pairwise.nil
  | cons x xs ih =>
      obtain ⟨hfirst, hrest⟩ := List.pairwise_cons.mp h
      refine pairwise_extend (ih hrest) fun r hr => hfirst r.lo ?_
      exact (exists_mem_runsOf xs r.lo).mp ⟨r, hr, Nat.le_refl _, r.lo_le_hi⟩

/-- The members of a set in ascending order. -/
def ascending (S : Finset Nat) : List Nat := (List.range (S.sup id + 1)).filter (· ∈ S)

theorem mem_ascending {S : Finset Nat} {x : Nat} : x ∈ ascending S ↔ x ∈ S := by
  have hle : x ∈ S → x ≤ S.sup id := fun hx => Finset.le_sup (f := id) hx
  simp only [ascending, List.mem_filter, List.mem_range, decide_eq_true_eq]
  exact ⟨And.right, fun hx => ⟨Nat.lt_succ_of_le (hle hx), hx⟩⟩

theorem pairwise_ascending (S : Finset Nat) : (ascending S).Pairwise (· < ·) :=
  List.pairwise_lt_range.filter _

end RangeList

/-- Runs in ascending order, with a gap between any two. -/
structure RangeList where
  runs : List RangeList.Run
  gaps : runs.Pairwise RangeList.Before

namespace RangeList

/-- The maximal runs of a set. -/
def ofFinset (S : Finset Nat) : RangeList :=
  ⟨runsOf (ascending S), pairwise_runsOf (pairwise_ascending S)⟩

/-- The number is in one of the runs. -/
def Covers (l : RangeList) (x : Nat) : Prop := ∃ r ∈ l.runs, r.Mem x

theorem covers_ofFinset {S : Finset Nat} {x : Nat} : (ofFinset S).Covers x ↔ x ∈ S :=
  (exists_mem_runsOf _ x).trans mem_ascending

/-- Two runs of a list are the same or have a gap between them. -/
theorem eq_or_before (l : RangeList) {r s : Run} (hr : r ∈ l.runs) (hs : s ∈ l.runs) :
    r = s ∨ Before r s ∨ Before s r := by
  obtain ⟨i, hi, rfl⟩ := List.getElem_of_mem hr
  obtain ⟨j, hj, rfl⟩ := List.getElem_of_mem hs
  have hgaps := List.pairwise_iff_getElem.mp l.gaps
  obtain hlt | rfl | hlt := Nat.lt_trichotomy i j
  · exact .inr (.inl (hgaps i j hi hj hlt))
  · exact .inl rfl
  · exact .inr (.inr (hgaps j i hj hi hlt))

/-- Consecutive numbers are in one run. -/
theorem exists_run_of_consecutive (l : RangeList) {x : Nat} (hx : l.Covers x)
    (hsucc : l.Covers (x + 1)) : ∃ r ∈ l.runs, r.lo ≤ x ∧ x + 1 ≤ r.hi := by
  obtain ⟨r, hr, hlo, hhi⟩ := hx
  obtain ⟨s, hs, hlo', hhi'⟩ := hsucc
  obtain rfl | hbefore | hbefore := l.eq_or_before hr hs
  · exact ⟨r, hr, hlo, hhi'⟩
  · have hgap := hbefore.lt
    omega
  · have hgap := hbefore.lt
    omega

/-! ### The first range of more than one number -/

/-- The first run that is written with a dash. -/
def firstRange (l : RangeList) : Option Run := l.runs.find? fun r => r.lo < r.hi

/-- The numbers from `a` to `b` are the first maximal run of more than one member. -/
structure FirstRange (P : Nat → Prop) (a b : Nat) : Prop where
  lt : a < b
  mem : ∀ x, a ≤ x → x ≤ b → P x
  not_succ : ¬P (b + 1)
  first : ∀ x, x < a → P x → ¬P (x + 1)

theorem FirstRange.mem_lo {P : Nat → Prop} {a b : Nat} (h : FirstRange P a b) : P a :=
  h.mem a (Nat.le_refl a) h.lt.le

theorem FirstRange.mem_succ_lo {P : Nat → Prop} {a b : Nat} (h : FirstRange P a b) : P (a + 1) :=
  h.mem (a + 1) (Nat.le_succ a) h.lt

/-- No other such range begins before the first one. -/
theorem FirstRange.lo_le {P : Nat → Prop} {a b a' b' : Nat} (h : FirstRange P a b)
    (h' : FirstRange P a' b') : a ≤ a' := by
  by_contra hlt
  exact h.first a' (Nat.lt_of_not_le hlt) h'.mem_lo h'.mem_succ_lo

theorem FirstRange.hi_le {P : Nat → Prop} {a b b' : Nat} (h : FirstRange P a b)
    (h' : FirstRange P a b') : b' ≤ b := by
  by_contra hlt
  have hab := h.lt
  exact h.not_succ (h'.mem (b + 1) (by omega) (by omega))

theorem FirstRange.unique {P : Nat → Prop} {a b a' b' : Nat} (h : FirstRange P a b)
    (h' : FirstRange P a' b') : a = a' ∧ b = b' := by
  obtain rfl : a = a' := le_antisymm (h.lo_le h') (h'.lo_le h)
  exact ⟨rfl, le_antisymm (h'.hi_le h) (h.hi_le h')⟩

/-- The members are those below the range, in it and above it, and the numbers
below it are members or missing. -/
theorem FirstRange.card_add_missing {S : Finset Nat} {a b : Nat} (h : FirstRange (· ∈ S) a b) :
    S.card + ((Finset.range a).filter (· ∉ S)).card = b + 1 + (S.filter (b < ·)).card := by
  have hbelow := Finset.card_filter_add_card_filter_not (s := Finset.range a) (· ∈ S)
  have hlow := Finset.card_filter_add_card_filter_not (s := S) (· < a)
  have hhigh := Finset.card_filter_add_card_filter_not (s := S.filter (¬· < a)) (b < ·)
  have hmembers : (Finset.range a).filter (· ∈ S) = S.filter (· < a) := by
    ext x
    simp only [Finset.mem_filter, Finset.mem_range]
    exact and_comm
  have habove : (S.filter (¬· < a)).filter (b < ·) = S.filter (b < ·) := by
    ext x
    simp only [Finset.mem_filter]
    have hlt := h.lt
    exact ⟨fun hx => ⟨hx.1.1, hx.2⟩, fun hx => ⟨⟨hx.1, by omega⟩, hx.2⟩⟩
  have hrange : (S.filter (¬· < a)).filter (¬b < ·) = Finset.Icc a b := by
    ext x
    simp only [Finset.mem_filter, Finset.mem_Icc, not_lt]
    exact ⟨fun hx => ⟨hx.1.2, hx.2⟩, fun hx => ⟨⟨h.mem x hx.1 hx.2, hx.1⟩, hx.2⟩⟩
  have hlt := h.lt
  rw [hmembers, Finset.card_range] at hbelow
  rw [habove, hrange, Nat.card_Icc] at hhigh
  omega

theorem firstRange_eq_none {l : RangeList} (h : l.firstRange = none) {x : Nat}
    (hx : l.Covers x) : ¬l.Covers (x + 1) := by
  intro hsucc
  obtain ⟨r, hr, hlo, hhi⟩ := l.exists_run_of_consecutive hx hsucc
  have hshort := List.find?_eq_none.mp h r hr
  simp only [decide_eq_true_eq] at hshort
  omega

/-- Every other run of more than one number comes after the first one. -/
theorem eq_or_before_of_firstRange {l : RangeList} {r s : Run} (h : l.firstRange = some r)
    (hs : s ∈ l.runs) (hlong : s.lo < s.hi) : r = s ∨ Before r s := by
  obtain ⟨_, front, rest, hruns, hfront⟩ := List.find?_eq_some_iff_append.mp h
  have hgaps := l.gaps
  rw [hruns, List.pairwise_append, List.pairwise_cons] at hgaps
  rw [hruns, List.mem_append, List.mem_cons] at hs
  obtain hmem | rfl | hmem := hs
  · exact absurd hlong (by simpa using hfront s hmem)
  · exact .inl rfl
  · exact .inr (hgaps.2.1.1 s hmem)

theorem firstRange_eq_some {l : RangeList} {r : Run} (h : l.firstRange = some r) :
    FirstRange l.Covers r.lo r.hi := by
  have hr : r ∈ l.runs := List.mem_of_find?_eq_some h
  have hlong : r.lo < r.hi := by simpa using List.find?_some h
  refine ⟨hlong, fun x hlo hhi => ⟨r, hr, hlo, hhi⟩, fun hsucc => ?_, fun x hx hcovers hsucc => ?_⟩
  · obtain ⟨s, hs, hlo, hhi⟩ :=
      l.exists_run_of_consecutive ⟨r, hr, r.lo_le_hi, Nat.le_refl _⟩ hsucc
    obtain rfl | hbefore := eq_or_before_of_firstRange h hs (by omega)
    · omega
    · have hgap := hbefore.lt
      omega
  · obtain ⟨s, hs, hlo, hhi⟩ := l.exists_run_of_consecutive hcovers hsucc
    obtain rfl | hbefore := eq_or_before_of_firstRange h hs (by omega)
    · omega
    · have hgap := hbefore.lt
      omega

/-! ### Text -/

def Run.render (r : Run) : List Char :=
  if r.lo = r.hi then Nat.toDigits 10 r.lo
  else Nat.toDigits 10 r.lo ++ '-' :: Nat.toDigits 10 r.hi

/-- The runs, separated by commas. -/
def renderRuns : List Run → List Char
  | [] => []
  | [r] => r.render
  | r :: s :: rest => r.render ++ ',' :: renderRuns (s :: rest)

def render (l : RangeList) : List Char := renderRuns l.runs

/-- A character that occurs in no decimal number. -/
theorem not_mem_toDigits {c : Char} (hc : c.isDigit = false) (n : Nat) : c ∉ Nat.toDigits 10 n := by
  intro hmem
  have hdigit : c.isDigit = true := Nat.isDigit_of_mem_toDigits (by decide) (by decide) hmem
  rw [hc] at hdigit
  cases hdigit

theorem Run.dash_not_mem_render {r : Run} (h : r.lo = r.hi) : '-' ∉ r.render := by
  rw [Run.render, if_pos h]
  exact not_mem_toDigits (by decide) r.lo

theorem Run.render_of_lt {r : Run} (h : r.lo < r.hi) :
    r.render = Nat.toDigits 10 r.lo ++ '-' :: Nat.toDigits 10 r.hi := if_neg h.ne

/-- Without a range the text has no dash. -/
theorem dash_not_mem_renderRuns {runs : List Run} (h : ∀ r ∈ runs, r.lo = r.hi) :
    '-' ∉ renderRuns runs := by
  induction runs with
  | nil => exact List.not_mem_nil
  | cons r rest ih =>
      have hfirst := Run.dash_not_mem_render (h r List.mem_cons_self)
      cases rest with
      | nil => exact hfirst
      | cons s rest =>
          have hrest := ih fun t ht => h t (List.mem_cons_of_mem r ht)
          simp only [renderRuns, List.mem_append, List.mem_cons, not_or]
          exact ⟨hfirst, by decide, hrest⟩

/-- The first dash of the text is that of the first range, and the upper end of that
range follows it. -/
theorem renderRuns_eq {runs : List Run} {r : Run}
    (h : runs.find? (fun r => r.lo < r.hi) = some r) :
    ∃ front rest, renderRuns runs = front ++ '-' :: (Nat.toDigits 10 r.hi ++ rest) ∧
      '-' ∉ front ∧ ∀ c ∈ rest.head?, c.isDigit = false := by
  induction runs with
  | nil => cases h
  | cons s runs ih =>
      rw [List.find?_cons] at h
      split at h
      · next hlong =>
          cases h
          have hrender := Run.render_of_lt (of_decide_eq_true hlong)
          have hdash : '-' ∉ Nat.toDigits 10 r.lo := not_mem_toDigits (by decide) r.lo
          cases runs with
          | nil => exact ⟨Nat.toDigits 10 r.lo, [], by simp [renderRuns, hrender], hdash, by simp⟩
          | cons t runs =>
              exact ⟨Nat.toDigits 10 r.lo, ',' :: renderRuns (t :: runs),
                by simp [renderRuns, hrender], hdash, by simp⟩
      · next hshort =>
          obtain ⟨front, rest, hrest, hfront, hend⟩ := ih h
          cases runs with
          | nil => cases h
          | cons t runs =>
              have hsingle : s.lo = s.hi := by
                have hle := s.lo_le_hi
                have hnot : ¬s.lo < s.hi := of_decide_eq_false hshort
                omega
              have hdash := Run.dash_not_mem_render hsingle
              refine ⟨s.render ++ ',' :: front, rest, ?_, ?_, hend⟩
              · simp [renderRuns, hrest]
              · simp only [List.mem_append, List.mem_cons, not_or]
                exact ⟨hdash, by decide, hfront⟩

end RangeList
