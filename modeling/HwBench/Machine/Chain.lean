import Mathlib.Data.List.Range

/-!
# Null-terminated linked chains

`Chain next null a cells` says that following the partial successor `next` from
`a` visits exactly `cells`, in order, and then reaches `null`. The successor is
a parameter: it may be a pointer load, an array of links, or any other lookup,
and `none` is a failing lookup, which no chain contains.

A chain is determined by its start, so a finite chain never repeats a cell.
Only the successors of its own cells matter, which is the frame rule for
writes elsewhere.
-/

namespace Machine

variable {α : Type*}

/-- Following `next` from the first argument visits exactly the listed cells. -/
inductive Chain (next : α → Option α) (null : α) : α → List α → Prop
  | nil : Chain next null null []
  | cons {a b : α} {cells : List α} :
      a ≠ null → next a = some b → Chain next null b cells → Chain next null a (a :: cells)

namespace Chain

variable {next next' : α → Option α} {null a b : α} {cells cells' : List α}

theorem eq_nil_iff (h : Chain next null a cells) : cells = [] ↔ a = null := by
  cases h with
  | nil => exact ⟨fun _ => rfl, fun _ => rfl⟩
  | cons hne _ _ => exact ⟨fun hnil => absurd hnil (List.cons_ne_nil _ _), fun heq => absurd heq hne⟩

/-- A nonempty chain starts at its first cell and continues from its successor. -/
theorem uncons {x : α} (h : Chain next null a (x :: cells)) :
    a = x ∧ x ≠ null ∧ ∃ b, next x = some b ∧ Chain next null b cells := by
  cases h with
  | cons hne hnext htail => exact ⟨rfl, hne, _, hnext, htail⟩

/-- A chain from a non-null cell can be popped. -/
theorem pop (h : Chain next null a cells) (ha : a ≠ null) :
    ∃ b rest, cells = a :: rest ∧ next a = some b ∧ Chain next null b rest := by
  cases h with
  | nil => exact absurd rfl ha
  | cons _ hnext htail => exact ⟨_, _, rfl, hnext, htail⟩

/-- The cells are determined by the starting point. -/
theorem unique (h : Chain next null a cells) (h' : Chain next null a cells') :
    cells = cells' := by
  induction h generalizing cells' with
  | nil => exact (h'.eq_nil_iff.mpr rfl).symm
  | cons hne hnext _ ih =>
      obtain ⟨b', rest, rfl, hnext', htail'⟩ := h'.pop hne
      have hb : b' = _ := Option.some.inj (hnext'.symm.trans hnext)
      subst hb
      rw [ih htail']

/-- A chain that is not empty starts at its first cell. -/
theorem getElem_zero (h : Chain next null a cells) (hpos : 0 < cells.length) : cells[0] = a := by
  cases h with
  | nil => exact absurd hpos (Nat.lt_irrefl 0)
  | cons _ _ _ => rfl

/-- The successor of a cell is the cell behind it. -/
theorem next_getElem (h : Chain next null a cells) {i : Nat} (hi : i + 1 < cells.length) :
    next cells[i] = some cells[i + 1] := by
  induction h generalizing i with
  | nil => exact absurd hi (Nat.not_lt_zero _)
  | @cons a b cells hne hnext htail ih =>
      cases i with
      | zero =>
          have hfirst := htail.getElem_zero (Nat.lt_of_succ_lt_succ hi)
          simpa [hfirst] using hnext
      | succ i => exact ih (Nat.lt_of_succ_lt_succ hi)

/-- Every cell of a chain starts the chain of the cells from there on. -/
theorem suffix (h : Chain next null a cells) {x : α} (hx : x ∈ cells) :
    ∃ front rest, cells = front ++ x :: rest ∧ Chain next null x (x :: rest) := by
  induction h with
  | nil => exact absurd hx List.not_mem_nil
  | @cons a b cells hne hnext htail ih =>
      obtain rfl | hmem := List.mem_cons.mp hx
      · exact ⟨[], cells, rfl, .cons hne hnext htail⟩
      · obtain ⟨front, rest, rfl, hchain⟩ := ih hmem
        exact ⟨a :: front, rest, rfl, hchain⟩

/-- A finite chain has no repeated cell: a repetition would make the chain from
that cell a proper part of itself. -/
theorem nodup (h : Chain next null a cells) : cells.Nodup := by
  induction h with
  | nil => exact List.nodup_nil
  | @cons a b cells hne hnext htail ih =>
      refine List.nodup_cons.mpr ⟨?_, ih⟩
      intro hmem
      obtain ⟨front, rest, rfl, hchain⟩ := htail.suffix hmem
      have heq := (Chain.cons hne hnext htail).unique hchain
      have hlen := congrArg List.length heq
      simp only [List.length_cons, List.length_append] at hlen
      omega

/-- Only the successors of the chain's own cells matter. -/
theorem congr (h : Chain next null a cells) (heq : ∀ x ∈ cells, next' x = next x) :
    Chain next' null a cells := by
  induction h with
  | nil => exact .nil
  | cons hne hnext _ ih =>
      exact .cons hne ((heq _ List.mem_cons_self).trans hnext)
        (ih fun x hx => heq x (List.mem_cons_of_mem _ hx))

/-- Link a new cell in front, leaving the successors of the old cells alone. -/
theorem push (h : Chain next null a cells) {x : α} (hx : x ≠ null) (hnext : next' x = some a)
    (heq : ∀ y ∈ cells, next' y = next y) : Chain next' null x (x :: cells) :=
  .cons hx hnext (h.congr heq)

/-- Cells `slot k, ..., slot (n - 1)` that each link to the following one, the
last one to `null`, form a chain. -/
theorem of_slots {slot : Nat → α} {n k : Nat} (hk : k < n)
    (hne : ∀ i, i < n → slot i ≠ null)
    (hlink : ∀ i, i + 1 < n → next (slot i) = some (slot (i + 1)))
    (hlast : next (slot (n - 1)) = some null) :
    Chain next null (slot k) ((List.range' k (n - k)).map slot) := by
  obtain ⟨d, rfl⟩ : ∃ d, n = k + d + 1 := ⟨n - k - 1, by omega⟩
  rw [show k + d + 1 - k = d + 1 by omega]
  induction d generalizing k with
  | zero => exact .cons (hne k hk) (by simpa using hlast) .nil
  | succ d ih =>
      have htail : Chain next null (slot (k + 1)) ((List.range' (k + 1) (d + 1)).map slot) := by
        have hshift : k + (d + 1) + 1 = k + 1 + d + 1 := by omega
        rw [hshift] at hne hlink hlast
        exact ih (by omega) hne hlink hlast
      exact .cons (hne k hk) (hlink k (by omega)) htail

end Chain
end Machine
