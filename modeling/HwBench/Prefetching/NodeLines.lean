import HwBench.Constants
import HwBench.Machine.Granule
import HwBench.Machine.Recording
import HwBench.Machine.StructLayout
import HwBench.Prefetching.LinkedList

/-!
# The cache lines of the linked list traversal

A traversal loads the link and the first word of the payload of each node it comes to,
which are in one cache line. To prefetch one node ahead takes the link of the node itself.
To prefetch two nodes ahead takes the link of the next node as well, so the line of the
next node is demanded one step earlier. In both variants a step prefetches the one line
that the following step is the first to demand.
-/

namespace HwBench

open Machine Granule

namespace LinkedList

variable {N : Nat}

theorem nodeAlign_pos : 0 < 8 := by decide

/-- `struct Node` -/
def nodeLayout : StructLayout where
  fields := [⟨8, 8⟩, ⟨7 * 8, 8⟩]
  align := 8
  align_pos := nodeAlign_pos
  fields_align := by decide

example : nodeLayout.size = 64 ∧ nodeLayout.members = [⟨0, 8⟩, ⟨8, 56⟩] := by decide

/-- `&nodes[i]`, where the data of the vector is at `base`. -/
def nodeAddr (base i : Nat) : Nat := base + i * nodeLayout.size

/-- What a traversal does to memory. -/
inductive Access where
  | load (place : Span)
  | prefetch (operand : Option Nat)
  deriving DecidableEq, Repr

/-- A step with its accesses; dereferencing null or leaving the vector is undefined. -/
abbrev Step (α : Type) : Type := Recording Access Unit α

section Program

variable (base : Nat) (nodes : Vector Node N)

/-- `*p`, before a member is accessed. -/
def deref (p : NodePtr) : Step (Nat × Node) :=
  match p with
  | none => throw ⟨⟩
  | some i =>
      match nodes[i]? with
      | none => throw ⟨⟩
      | some node => pure (i, node)

/-- `p->next` -/
def loadNext (p : NodePtr) : Step NodePtr := do
  let (i, node) ← deref nodes p
  Recording.record (.load ⟨nodeAddr base i, 8⟩)
  pure node.next

/-- `p->payload[0]` -/
def loadPayload (p : NodePtr) : Step Word := do
  let (i, node) ← deref nodes p
  Recording.record (.load ⟨nodeAddr base i + 8, 8⟩)
  pure (node.payload.get 0)

/-- `__builtin_prefetch(p, 0, 0);` -/
def prefetch (p : NodePtr) : Step Unit :=
  Recording.record (.prefetch (p.map (nodeAddr base)))

/-- The three versions of the loop. -/
inductive Ahead where
  | none
  | one
  | two
  deriving DecidableEq, Repr

/-- The statement at the head of the loop body. -/
def prefetchStatement (a : Ahead) (current : NodePtr) : Step Unit :=
  match a with
  | .none => pure ⟨⟩
  | .one => do
      let next ← loadNext base nodes current
      prefetch base next
  | .two => do
      let next ← loadNext base nodes current
      if next.isSome then do
        let next ← loadNext base nodes current
        let nextNext ← loadNext base nodes next
        prefetch base nextNext

/-- The loop body of the warmup. -/
def warmupStep (a : Ahead) (current : NodePtr) : Step NodePtr := do
  prefetchStatement base nodes a current
  loadNext base nodes current

/-- The loop body of the measurement. -/
def traversalStep (a : Ahead) (s : Vars) : Step Vars := do
  prefetchStatement base nodes a s.current
  let value ← loadPayload base nodes s.current
  let next ← loadNext base nodes s.current
  pure ⟨next, s.sum + value⟩

/-- One iteration of the warmup, with its accesses. -/
def warmupIteration (a : Ahead) (current : NodePtr) : Option (NodePtr × List Access) :=
  (warmupStep base nodes a current).run

/-- One iteration of the measurement, with its accesses. -/
def traversalIteration (a : Ahead) (s : Vars) : Option (Vars × List Access) :=
  (traversalStep base nodes a s).run

/-- One warmup and one measured traversal, with the accesses of each measured step. -/
def traverseInMemory (a : Ahead) (order : Vector Nat N) (warmup steps : Nat) :
    Option (Vars × List (List Access)) := do
  let first ← order[0]?
  let _ ← countedLoop (warmupIteration base nodes a) warmup (some first)
  countedLoop (traversalIteration base nodes a) steps ⟨some first, 0⟩

end Program

/-! ### What a step does -/

section Steps

variable (base : Nat) {nodes : Vector Node N} {i : Nat} {node : Node}

theorem deref_gives (hi : nodes[i]? = some node) : (deref nodes (some i)).Gives (i, node) [] := by
  rw [deref, hi]
  exact .pure _

theorem loadNext_gives (hi : nodes[i]? = some node) :
    (loadNext base nodes (some i)).Gives node.next [.load ⟨nodeAddr base i, 8⟩] :=
  (deref_gives hi).bind ((Recording.Gives.record _).bind (.pure _))

theorem loadPayload_gives (hi : nodes[i]? = some node) :
    (loadPayload base nodes (some i)).Gives (node.payload.get 0) [.load ⟨nodeAddr base i + 8, 8⟩] :=
  (deref_gives hi).bind ((Recording.Gives.record _).bind (.pure _))

end Steps

namespace ShuffledOrder

variable (shuffled : ShuffledOrder N) (hN : 1 ≤ N)

/-- Where the node at position `t` of the walk lies. -/
def addrAt (base t : Nat) : Nat := nodeAddr base (shuffled.walk hN t)

/-- The accesses of the prefetch statement in step `t`. -/
def prefetchAccesses (base : Nat) : Ahead → Nat → List Access
  | .none, _ => []
  | .one, t => [.load ⟨shuffled.addrAt hN base t, 8⟩, .prefetch (some (shuffled.addrAt hN base (t + 1)))]
  | .two, t =>
      [.load ⟨shuffled.addrAt hN base t, 8⟩, .load ⟨shuffled.addrAt hN base t, 8⟩,
        .load ⟨shuffled.addrAt hN base (t + 1), 8⟩,
        .prefetch (some (shuffled.addrAt hN base (t + 2)))]

/-- The accesses of step `t` of the measurement. -/
def accessesAt (base : Nat) (a : Ahead) (t : Nat) : List Access :=
  shuffled.prefetchAccesses hN base a t ++
    [.load ⟨shuffled.addrAt hN base t + 8, 8⟩, .load ⟨shuffled.addrAt hN base t, 8⟩]

section Traversal

variable {nodes linked : Vector Node N} (h : shuffled.Linked hN nodes N linked) (base : Nat)

include h

theorem prefetchStatement_gives (a : Ahead) (t : Nat) :
    (prefetchStatement base linked a (some (shuffled.walk hN t))).Gives ⟨⟩
      (shuffled.prefetchAccesses hN base a t) := by
  have hnext := fun t => loadNext_gives base (shuffled.getElem?_linked hN h t)
  cases a with
  | none => exact .pure _
  | one => exact (hnext t).bind (Recording.Gives.record _)
  | two =>
      exact (hnext t).bind ((hnext t).bind ((hnext (t + 1)).bind (Recording.Gives.record _)))

theorem warmupIteration_eq (a : Ahead) (t : Nat) :
    warmupIteration base linked a (some (shuffled.walk hN t)) =
      some (some (shuffled.walk hN (t + 1)),
        shuffled.prefetchAccesses hN base a t ++ [.load ⟨shuffled.addrAt hN base t, 8⟩]) :=
  ((shuffled.prefetchStatement_gives hN h base a t).bind
    (loadNext_gives base (shuffled.getElem?_linked hN h t))).run_eq

theorem traversalIteration_eq (a : Ahead) (t : Nat) :
    traversalIteration base linked a (shuffled.varsAt hN nodes t) =
      some (shuffled.varsAt hN nodes (t + 1), shuffled.accessesAt hN base a t) := by
  have hnode := shuffled.getElem?_linked hN h t
  have hvars : shuffled.varsAt hN nodes (t + 1) = ⟨some (shuffled.walk hN (t + 1)),
      (shuffled.varsAt hN nodes t).sum + shuffled.payloadAt hN nodes t⟩ := by
    rw [varsAt, wrappingSum_succ, varsAt]
  rw [hvars]
  refine ((shuffled.prefetchStatement_gives hN h base a t).bind
    ((loadPayload_gives base hnode).bind ?_)).run_eq
  have hlast := (loadNext_gives base hnode).bind (f := fun next =>
    pure (Vars.mk next ((shuffled.varsAt hN nodes t).sum + shuffled.payloadAt hN nodes t)))
    (.pure _)
  exact hlast

/-- The traversal in memory makes the steps of the walk, with their accesses. -/
theorem traverseInMemory_eq (a : Ahead) (warmup steps : Nat) :
    traverseInMemory base linked a shuffled.order warmup steps =
      some (shuffled.varsAt hN nodes steps,
        (List.range steps).map (shuffled.accessesAt hN base a)) := by
  have hfirst : shuffled.varsAt hN nodes 0 = ⟨some (shuffled.walk hN 0), 0⟩ := by
    rw [varsAt, wrappingSum_zero]
  simp only [traverseInMemory, shuffled.getElem?_order hN hN,
    countedLoop_eq (shuffled.warmupIteration_eq hN h base a), ← hfirst,
    countedLoop_eq (shuffled.traversalIteration_eq hN h base a), Option.bind_eq_bind,
    Option.bind_some]

end Traversal

end ShuffledOrder

/-! ### Lines -/

/-- The line of a node's first bytes. -/
def lineOf (base i : Nat) : Nat := nodeAddr base i / cacheLineSize

/-- The places that are loaded. -/
def loads (accesses : List Access) : List Span :=
  accesses.filterMap fun
    | .load place => some place
    | .prefetch _ => none

/-- The lines whose contents a step waits for. -/
def demanded (accesses : List Access) : Finset Nat := touched cacheLineSize (loads accesses)

/-- The lines that a step asks for without waiting. -/
def prefetched (accesses : List Access) : Finset Nat :=
  (accesses.filterMap fun
    | .load _ => none
    | .prefetch operand => operand.map (· / cacheLineSize)).toFinset

/-- How many nodes behind its own node a step comes to the next new line. -/
def Ahead.reach : Ahead → Nat
  | .none => 1
  | .one => 1
  | .two => 2

/-- The same version of the loop without its accesses. -/
def Ahead.lookahead : Ahead → Lookahead N
  | .none => noAhead
  | .one => oneAhead
  | .two => twoAhead

section Lines

variable {base : Nat}

theorem nodeAddr_eq (base i : Nat) : nodeAddr base i = base + i * 64 := rfl

/-- Different nodes are in different lines, as a node is as large as a line. -/
theorem lineOf_injective : Function.Injective (lineOf base) := by
  intro i j hij
  simp only [lineOf, nodeAddr_eq, cacheLineSize] at hij
  omega

/-- The link and the first word of the payload are in the line of the node, since the
vector is aligned to 16 bytes. -/
theorem granules_load (hbase : 16 ∣ base) (i : Nat) {offset : Nat} (hoffset : offset ≤ 8) :
    (Span.mk (nodeAddr base i + offset) 8).granules cacheLineSize = {lineOf base i} := by
  rw [nodeAddr_eq, lineOf, nodeAddr_eq, cacheLineSize]
  refine granules_eq_singleton (Nat.succ_pos 7) ?_ ?_
  · dsimp only
    omega
  · dsimp only
    omega

theorem mem_demanded_flatten {steps : List (List Access)} {line : Nat} :
    line ∈ demanded steps.flatten ↔ ∃ accesses ∈ steps, line ∈ demanded accesses := by
  simp only [demanded, loads, mem_touched, List.filterMap_flatten, List.mem_flatten, List.mem_map]
  constructor
  · rintro ⟨s, ⟨_, ⟨accesses, hmem, rfl⟩, hs⟩, hline⟩
    exact ⟨accesses, hmem, s, hs, hline⟩
  · rintro ⟨accesses, hmem, s, hs, hline⟩
    exact ⟨s, ⟨_, ⟨accesses, hmem, rfl⟩, hs⟩, hline⟩

theorem demanded_load (hbase : 16 ∣ base) (i : Nat) {offset : Nat} (hoffset : offset ≤ 8)
    (rest : List Access) : demanded (.load ⟨nodeAddr base i + offset, 8⟩ :: rest) =
      insert (lineOf base i) (demanded rest) := by
  ext line
  have hone := granules_load hbase i hoffset
  simp only [demanded, loads, List.filterMap_cons, mem_touched, List.exists_mem_cons_iff, hone,
    Finset.mem_singleton, Finset.mem_insert]

theorem demanded_prefetch (operand : Option Nat) (rest : List Access) :
    demanded (.prefetch operand :: rest) = demanded rest := rfl

namespace ShuffledOrder

variable (shuffled : ShuffledOrder N) (hN : 1 ≤ N)

/-- The line of the node at position `t` of the walk. -/
def lineAt (base t : Nat) : Nat := lineOf base (shuffled.walk hN t)

/-- Positions of the walk share a line exactly if they are whole rounds apart. -/
theorem exactPeriod_lineAt (base : Nat) : ExactPeriod (shuffled.lineAt hN base) N := fun i j =>
  lineOf_injective.eq_iff.trans (shuffled.exactPeriod_walk hN i j)

/-- The lines that step `t` demands: that of its node, and that of the next one if the
step prefetches two ahead. -/
theorem demanded_accessesAt (hbase : 16 ∣ base) (a : Ahead) (t : Nat) :
    demanded (shuffled.accessesAt hN base a t) =
      (Finset.range a.reach).image fun k => shuffled.lineAt hN base (t + k) := by
  have hnext := fun t => demanded_load hbase (shuffled.walk hN t) (Nat.zero_le 8)
  have hpayload := fun t => demanded_load hbase (shuffled.walk hN t) (Nat.le_refl 8)
  have hnil : demanded [] = ∅ := rfl
  simp only [Nat.add_zero] at hnext
  cases a with
  | none =>
      simp only [accessesAt, prefetchAccesses, addrAt, List.nil_append, hpayload, hnext, hnil]
      simp [Ahead.reach, lineAt]
  | one =>
      simp only [accessesAt, prefetchAccesses, addrAt, List.cons_append, List.nil_append,
        demanded_prefetch, hpayload, hnext, hnil]
      simp [Ahead.reach, lineAt]
  | two =>
      simp only [accessesAt, prefetchAccesses, addrAt, List.cons_append, List.nil_append,
        demanded_prefetch, hpayload, hnext, hnil]
      ext line
      simp [Ahead.reach, lineAt, Finset.range_add_one]

theorem prefetched_accessesAt (base : Nat) (a : Ahead) (t : Nat) :
    prefetched (shuffled.accessesAt hN base a t) =
      if a = .none then ∅ else {shuffled.lineAt hN base (t + a.reach)} := by
  cases a <;> rfl

/-- Of two steps in a row, the second one demands one line more. -/
theorem new_line (hbase : 16 ∣ base) {a : Ahead} (ha : a.reach < N) (t : Nat) :
    demanded (shuffled.accessesAt hN base a (t + 1)) \ demanded (shuffled.accessesAt hN base a t) =
      {shuffled.lineAt hN base (t + a.reach)} := by
  have hreach : 1 ≤ a.reach := by cases a <;> decide
  ext line
  simp only [demanded_accessesAt shuffled hN hbase, Finset.mem_sdiff, Finset.mem_image,
    Finset.mem_range, Finset.mem_singleton]
  constructor
  · rintro ⟨⟨k, hk, rfl⟩, hnew⟩
    -- all but the last line of a step are lines of the step before
    have hlast : k + 1 = a.reach := by
      by_contra hne
      exact hnew ⟨k + 1, by omega, by rw [Nat.add_right_comm, Nat.add_assoc]⟩
    rw [← hlast, Nat.add_right_comm, Nat.add_assoc]
  · rintro rfl
    refine ⟨⟨a.reach - 1, by omega, ?_⟩, ?_⟩
    · rw [Nat.add_assoc, Nat.add_sub_cancel' hreach]
    · rintro ⟨k, hk, heq⟩
      have hmod : k ≡ a.reach [MOD N] :=
        Nat.ModEq.add_left_cancel' t ((shuffled.exactPeriod_lineAt hN base _ _).mp heq)
      have hsame := Nat.ModEq.eq_of_lt_of_lt hmod (by omega) ha
      omega

/-- A run demands the lines of as many nodes as it has steps, and of one more if it
prefetches two ahead. -/
theorem demanded_run (hbase : 16 ∣ base) (a : Ahead) {steps : Nat} (hsteps : 1 ≤ steps) :
    demanded ((List.range steps).map (shuffled.accessesAt hN base a)).flatten =
      (Finset.range (steps + a.reach - 1)).image (shuffled.lineAt hN base) := by
  have hreach : 1 ≤ a.reach := by cases a <;> decide
  ext line
  simp only [mem_demanded_flatten, List.mem_map, exists_exists_and_eq_and, List.mem_range,
    demanded_accessesAt shuffled hN hbase, Finset.mem_image, Finset.mem_range]
  constructor
  · rintro ⟨t, ht, k, hk, rfl⟩
    exact ⟨t + k, by omega, rfl⟩
  · rintro ⟨i, hi, rfl⟩
    exact ⟨min i (steps - 1), by omega, i - min i (steps - 1), by omega, by congr 1; omega⟩

end ShuffledOrder

end Lines

/-- For every shuffled order, the traversal in memory is the traversal of the list. With
either prefetch statement, a step prefetches exactly the line that the next step is the
first to demand, so both versions leave one step for a line to arrive. -/
theorem prefetch_lead (N : Nat) (shuffled : ShuffledOrder N) (nodes : Vector Node N) (base : Nat)
    (hbase : 16 ∣ base) (a : Ahead) (ha : a.reach < N) (warmup steps : Nat) :
    ∃ linked final touches accesses,
      buildList shuffled.order nodes = some linked ∧
      traverse a.lookahead shuffled.order linked warmup steps = some (final, touches) ∧
      traverseInMemory base linked a shuffled.order warmup steps = some (final, accesses) ∧
      accesses.length = steps ∧
      (∀ t now next, accesses[t]? = some now → accesses[t + 1]? = some next →
        (demanded next \ demanded now).card = 1 ∧
          prefetched now = if a = .none then ∅ else demanded next \ demanded now) ∧
      (1 ≤ steps → (demanded accesses.flatten).card = min (steps + a.reach - 1) N) := by
  have hN : 1 ≤ N := by omega
  obtain ⟨linked, hbuild, hlinked⟩ := shuffled.buildList_linked hN nodes
  have htraverse : ∃ touches, traverse a.lookahead shuffled.order linked warmup steps =
      some (shuffled.varsAt hN nodes steps, touches) := by
    cases a
    · exact ⟨_, shuffled.traverse_eq hN hlinked (fun _ => rfl) warmup steps⟩
    · exact ⟨_, shuffled.traverse_eq hN hlinked (fun _ => rfl) warmup steps⟩
    · exact ⟨_, shuffled.traverse_eq hN hlinked (shuffled.twoAhead_withSuccessor hN hlinked)
        warmup steps⟩
  obtain ⟨touches, htouches⟩ := htraverse
  refine ⟨linked, _, touches, _, hbuild, htouches,
    shuffled.traverseInMemory_eq hN hlinked base a warmup steps, by simp, ?_, fun hsteps => ?_⟩
  · intro t now next hnow hnext
    obtain rfl := eq_of_getElem?_map_range hnow
    obtain rfl := eq_of_getElem?_map_range hnext
    rw [shuffled.new_line hN hbase ha, shuffled.prefetched_accessesAt]
    exact ⟨Finset.card_singleton _, rfl⟩
  · rw [shuffled.demanded_run hN hbase a hsteps]
    exact (shuffled.exactPeriod_lineAt hN base).card_image hN _

/-- Three nodes, two ahead: four steps come to all three lines. -/
theorem prefetch_lead_three : ∃ linked final accesses,
    buildList #v[2, 0, 1] (Vector.replicate 3 ⟨none, Vector.replicate 7 5⟩) = some linked ∧
    traverseInMemory 4096 linked .two #v[2, 0, 1] 1 4 = some (final, accesses) ∧
    (demanded accesses.flatten).card = 3 := by
  obtain ⟨linked, final, touches, accesses, hbuild, _, hrun, _, _, hlines⟩ :=
    prefetch_lead 3 ⟨#v[2, 0, 1], by decide⟩ (Vector.replicate 3 ⟨none, Vector.replicate 7 5⟩) 4096
      (by decide) .two (by decide) 1 4
  exact ⟨linked, final, accesses, hbuild, hrun, hlines (by decide)⟩

end LinkedList

end HwBench
