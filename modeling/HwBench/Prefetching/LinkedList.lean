import HwBench.Machine.Loop
import HwBench.Math.ExactPeriod
import HwBench.Math.IndexPerm

/-!
# The linked list traversal test

`run_linked_list_traversal` links the nodes of one vector in a shuffled order,
the last one back to the first, and follows the links three times: without
prefetch, prefetching the next node, and prefetching the one after it.

A pointer is the index of a node of the vector, or null. The links are written
one at a time through the shuffled order, so a write leaves the links written
before it alone because the order repeats no index. Walking the finished list
gives the shuffled order over and over.
-/

namespace HwBench

open Machine

namespace LinkedList

variable {N : Nat}

/-- A `Node*`: the address of `nodes[i]`, or null. -/
abbrev NodePtr : Type := Option Nat

structure Node where
  next : NodePtr
  payload : Vector Word 7
deriving DecidableEq

/-! ### Construction -/

/-- `nodes[order[i]].next = &nodes[order[j]];` -/
def link (order : Vector Nat N) (nodes : Vector Node N) (i j : Nat) : Option (Vector Node N) := do
  let source ← order[i]?
  let target ← order[j]?
  let node ← nodes[source]?
  let _ ← nodes[target]?
  some (nodes.setIfInBounds source { node with next := some target })

/-- The loop over `i < NUM_NODES - 1`, then the link that closes the circle. -/
def buildList (order : Vector Nat N) (nodes : Vector Node N) : Option (Vector Node N) := do
  let nodes ← (List.range (N - 1)).foldlM (fun nodes i => link order nodes i (i + 1)) nodes
  link order nodes (N - 1) 0

/-! ### Traversals -/

/-- The prefetch statement at the head of a loop body, given the current node: the
operand of the instruction if one is executed, or a fault. -/
abbrev Lookahead (N : Nat) : Type := Vector Node N → Node → Option (Option NodePtr)

/-- No prefetch statement. -/
def noAhead : Lookahead N := fun _ _ => some none

/-- `__builtin_prefetch(current->next, 0, 0);` -/
def oneAhead : Lookahead N := fun _ current => some (some current.next)

/-- `if (current->next) __builtin_prefetch(current->next->next, 0, 0);` -/
def twoAhead : Lookahead N := fun nodes current =>
  match current.next with
  | none => some none
  | some next => do
      let node ← nodes[next]?
      some (some node.next)

/-- The variables of one traversal. -/
structure Vars where
  current : NodePtr
  sum : Word
deriving DecidableEq

/-- The prefetch statement, then `current = current->next;` -/
def warmupBody (lookahead : Lookahead N) (nodes : Vector Node N) (current : NodePtr) :
    Option (NodePtr × Option NodePtr) := do
  let i ← current
  let node ← nodes[i]?
  let prefetched ← lookahead nodes node
  some (node.next, prefetched)

/-- The prefetch statement, then `sum += current->payload[0]; current = current->next;` -/
def traversalBody (lookahead : Lookahead N) (nodes : Vector Node N) (s : Vars) :
    Option (Vars × Touch Nat NodePtr) := do
  let i ← s.current
  let node ← nodes[i]?
  let prefetched ← lookahead nodes node
  some (⟨node.next, s.sum + node.payload[0]⟩, ⟨i, prefetched⟩)

/-- One warmup and one measured traversal, both from `&nodes[order[0]]`. -/
def traverse (lookahead : Lookahead N) (order : Vector Nat N) (nodes : Vector Node N)
    (warmup steps : Nat) : Option (Vars × List (Touch Nat NodePtr)) := do
  let first ← order[0]?
  let _ ← countedLoop (warmupBody lookahead nodes) warmup (some first)
  countedLoop (traversalBody lookahead nodes) steps ⟨some first, 0⟩

/-! ### The walk around the circle -/

/-- What `std::shuffle` leaves in `order`: every index once. -/
structure ShuffledOrder (N : Nat) where
  order : Vector Nat N
  perm : order.toList.Perm (List.range N)

namespace ShuffledOrder

variable (shuffled : ShuffledOrder N) (hN : 1 ≤ N)

/-- `order[t mod N]` -/
def walk (t : Nat) : Nat := shuffled.order.get ⟨t % N, Nat.mod_lt t hN⟩

theorem walk_lt (t : Nat) : shuffled.walk hN t < N :=
  IndexPerm.getElem_lt shuffled.perm (Nat.mod_lt t hN)

theorem walk_mod (t : Nat) : shuffled.walk hN (t % N) = shuffled.walk hN t :=
  congrArg shuffled.order.get (Fin.ext (Nat.mod_mod t N))

/-- The first round is the order itself. -/
theorem walk_of_lt {k : Nat} (hk : k < N) : shuffled.walk hN k = shuffled.order[k] :=
  congrArg shuffled.order.get (Fin.ext (Nat.mod_eq_of_lt hk))

/-- The walk repeats a node exactly after whole rounds. -/
theorem exactPeriod_walk : ExactPeriod (shuffled.walk hN) N := by
  intro i j
  constructor
  · exact IndexPerm.getElem_inj shuffled.perm (Nat.mod_lt i hN) (Nat.mod_lt j hN)
  · exact fun hmod => congrArg shuffled.order.get (Fin.ext hmod)

/-- Every node is somewhere on the walk. -/
theorem exists_walk_eq {i : Nat} (hi : i < N) : ∃ t, shuffled.walk hN t = i := by
  obtain ⟨t, ht, heq⟩ := IndexPerm.exists_getElem shuffled.perm hi
  exact ⟨t, (shuffled.walk_of_lt hN ht).trans heq⟩

theorem getElem?_order {k : Nat} (hk : k < N) :
    shuffled.order[k]? = some (shuffled.walk hN k) := by
  rw [Vector.getElem?_eq_getElem hk, shuffled.walk_of_lt hN hk]

/-- The node at position `t` of the walk. -/
def nodeAt (nodes : Vector Node N) (t : Nat) : Node :=
  nodes.get ⟨shuffled.walk hN t, shuffled.walk_lt hN t⟩

theorem getElem?_walk (nodes : Vector Node N) (t : Nat) :
    nodes[shuffled.walk hN t]? = some (shuffled.nodeAt hN nodes t) :=
  Vector.getElem?_eq_getElem (shuffled.walk_lt hN t)

theorem nodeAt_mod (nodes : Vector Node N) (t : Nat) :
    shuffled.nodeAt hN nodes (t % N) = shuffled.nodeAt hN nodes t :=
  congrArg nodes.get (Fin.ext (shuffled.walk_mod hN t))

/-- Storing a node at position `i` changes no other position of the round. -/
theorem nodeAt_setIfInBounds (nodes : Vector Node N) (node : Node) {i k : Nat} (hi : i < N)
    (hk : k < N) : shuffled.nodeAt hN (nodes.setIfInBounds (shuffled.walk hN i) node) k =
      if i = k then node else shuffled.nodeAt hN nodes k := by
  refine (Vector.getElem_setIfInBounds (shuffled.walk_lt hN k)).trans ?_
  by_cases hik : i = k
  · rw [if_pos (congrArg (shuffled.walk hN) hik), if_pos hik]
  · have hne : shuffled.walk hN i ≠ shuffled.walk hN k := fun heq =>
      hik (Nat.ModEq.eq_of_lt_of_lt ((shuffled.exactPeriod_walk hN i k).mp heq) hi hk)
    rw [if_neg hne, if_neg hik]
    rfl

/-- `node` with its link set to the successor on the walk of position `t`. -/
def withSuccessor (node : Node) (t : Nat) : Node :=
  { node with next := some (shuffled.walk hN (t + 1)) }

/-- The first `done` links of the circle are written, and nothing else is. -/
def Linked (nodes : Vector Node N) (done : Nat) (linked : Vector Node N) : Prop :=
  ∀ k, k < N → shuffled.nodeAt hN linked k =
    if k < done then shuffled.withSuccessor hN (shuffled.nodeAt hN nodes k) k
    else shuffled.nodeAt hN nodes k

/-- Linking position `i` to its successor writes one more link of the circle. -/
theorem link_step {nodes linked : Vector Node N} {i j : Nat} (hi : i < N) (hj : j < N)
    (hsucc : j ≡ i + 1 [MOD N]) (h : shuffled.Linked hN nodes i linked) :
    ∃ linked', link shuffled.order linked i j = some linked' ∧
      shuffled.Linked hN nodes (i + 1) linked' := by
  have htarget : shuffled.walk hN j = shuffled.walk hN (i + 1) :=
    (shuffled.exactPeriod_walk hN j (i + 1)).mpr hsucc
  refine ⟨linked.setIfInBounds (shuffled.walk hN i)
    (shuffled.withSuccessor hN (shuffled.nodeAt hN linked i) i), ?_, fun k hk => ?_⟩
  · simp only [link, shuffled.getElem?_order hN hi, shuffled.getElem?_order hN hj, htarget,
      shuffled.getElem?_walk hN, withSuccessor, Option.bind_eq_bind, Option.bind_some]
  · rw [shuffled.nodeAt_setIfInBounds hN linked _ hi hk]
    by_cases hik : i = k
    · -- the node just linked still has its own payload
      rw [if_pos hik, if_pos (by omega), hik, h k hk, if_neg (by omega)]
    · rw [if_neg hik, h k hk]
      by_cases hdone : k < i
      · rw [if_pos hdone, if_pos (by omega)]
      · rw [if_neg hdone, if_neg (by omega)]

/-- The construction links every node to its successor on the walk. -/
theorem buildList_linked (nodes : Vector Node N) :
    ∃ linked, buildList shuffled.order nodes = some linked ∧
      shuffled.Linked hN nodes N linked := by
  have hstart : shuffled.Linked hN nodes 0 nodes := fun k _ => (if_neg (Nat.not_lt_zero k)).symm
  obtain ⟨unclosed, hloop, hunclosed⟩ := foldlM_range_invariant
    (f := fun nodes i => link shuffled.order nodes i (i + 1)) (n := N - 1)
    (fun i s hi h => shuffled.link_step hN (by omega) (by omega) (Nat.ModEq.refl (i + 1)) h) hstart
  have hwrap : 0 ≡ N - 1 + 1 [MOD N] := by
    rw [Nat.sub_add_cancel hN]
    exact ((Nat.modEq_zero_iff_dvd).mpr (Nat.dvd_refl N)).symm
  obtain ⟨linked, hclose, hlinked⟩ := shuffled.link_step hN (by omega) hN hwrap hunclosed
  refine ⟨linked, ?_, by rwa [Nat.sub_add_cancel hN] at hlinked⟩
  rw [buildList, hloop, Option.bind_eq_bind, Option.bind_some, hclose]

/-! ### Traversing the circle -/

section Traversal

variable {nodes linked : Vector Node N}

/-- Every position of the walk, however late, has its successor as its link. -/
theorem getElem?_linked (h : shuffled.Linked hN nodes N linked) (t : Nat) :
    linked[shuffled.walk hN t]? =
      some (shuffled.withSuccessor hN (shuffled.nodeAt hN nodes t) t) := by
  have hround := h (t % N) (Nat.mod_lt t hN)
  have hsucc : shuffled.walk hN (t % N + 1) = shuffled.walk hN (t + 1) :=
    (shuffled.exactPeriod_walk hN _ _).mpr ((Nat.mod_modEq t N).add_right 1)
  rw [if_pos (Nat.mod_lt t hN), withSuccessor, nodeAt_mod, nodeAt_mod, hsucc] at hround
  rw [shuffled.getElem?_walk hN, hround, withSuccessor]

/-- `payload[0]` of the node at position `t`. -/
def payloadAt (nodes : Vector Node N) (t : Nat) : Word := (shuffled.nodeAt hN nodes t).payload[0]

/-- The variables before step `t` of a traversal. -/
def varsAt (nodes : Vector Node N) (t : Nat) : Vars :=
  ⟨some (shuffled.walk hN t), wrappingSum (shuffled.payloadAt hN nodes) t⟩

/-- A prefetch statement that never faults does not influence the traversal. -/
theorem traverse_eq (h : shuffled.Linked hN nodes N linked) {lookahead : Lookahead N}
    {ahead : Nat → Option NodePtr}
    (hahead : ∀ t, lookahead linked (shuffled.withSuccessor hN (shuffled.nodeAt hN nodes t) t) =
      some (ahead t)) (warmup steps : Nat) :
    traverse lookahead shuffled.order linked warmup steps =
      some (shuffled.varsAt hN nodes steps,
        (List.range steps).map fun t => ⟨shuffled.walk hN t, ahead t⟩) := by
  have hwarmup : ∀ t, warmupBody lookahead linked (some (shuffled.walk hN t)) =
      some (some (shuffled.walk hN (t + 1)), ahead t) := by
    intro t
    simp only [warmupBody, shuffled.getElem?_linked hN h t, hahead t, Option.bind_eq_bind,
      Option.bind_some]
    rfl
  have hbody : ∀ t, traversalBody lookahead linked (shuffled.varsAt hN nodes t) =
      some (shuffled.varsAt hN nodes (t + 1), ⟨shuffled.walk hN t, ahead t⟩) := by
    intro t
    simp only [traversalBody, varsAt, shuffled.getElem?_linked hN h t, hahead t,
      wrappingSum_succ, Option.bind_eq_bind, Option.bind_some]
    rfl
  have hfirst : shuffled.varsAt hN nodes 0 = ⟨some (shuffled.walk hN 0), 0⟩ := by
    rw [varsAt, wrappingSum_zero]
  simp only [traverse, shuffled.getElem?_order hN hN, countedLoop_eq hwarmup, ← hfirst,
    countedLoop_eq hbody, Option.bind_eq_bind, Option.bind_some]

theorem twoAhead_withSuccessor (h : shuffled.Linked hN nodes N linked) (t : Nat) :
    twoAhead linked (shuffled.withSuccessor hN (shuffled.nodeAt hN nodes t) t) =
      some (some (some (shuffled.walk hN (t + 2)))) := by
  have hnext := shuffled.getElem?_linked hN h (t + 1)
  simp only [twoAhead, withSuccessor, hnext, Option.bind_eq_bind, Option.bind_some]

end Traversal

end ShuffledOrder

/-- How often a traversal read node `i`. -/
def visits (touches : List (Touch Nat NodePtr)) (i : Nat) : Nat :=
  (touches.map Touch.read).count i

/-- The links form one circle in shuffled order without null pointers. The three
traversals follow it with the same sum and read the nodes equally often, up to
one incomplete round; a prefetch is for the read one or two steps later. -/
theorem linked_list_traversal (N : Nat) (hN : 1 ≤ N) (shuffled : ShuffledOrder N)
    (nodes : Vector Node N) (warmup steps : Nat) :
    ∃ linked final plain one two,
      buildList shuffled.order nodes = some linked ∧
      (∀ i (hi : i < N), ∃ next < N, linked[i].next = some next) ∧
      traverse noAhead shuffled.order linked warmup steps = some (final, plain) ∧
      traverse oneAhead shuffled.order linked warmup steps = some (final, one) ∧
      traverse twoAhead shuffled.order linked warmup steps = some (final, two) ∧
      plain = (List.range steps).map (fun t => ⟨shuffled.walk hN t, none⟩) ∧
      one = (List.range steps).map
        (fun t => ⟨shuffled.walk hN t, some (some (shuffled.walk hN (t + 1)))⟩) ∧
      two = (List.range steps).map
        (fun t => ⟨shuffled.walk hN t, some (some (shuffled.walk hN (t + 2)))⟩) ∧
      final = ⟨some (shuffled.walk hN steps), wrappingSum (shuffled.payloadAt hN nodes) steps⟩ ∧
      ∀ i, i < N → ∀ touches ∈ [plain, one, two],
        visits touches i = steps / N ∨ visits touches i = steps ⌈/⌉ N := by
  obtain ⟨linked, hbuild, hlinked⟩ := shuffled.buildList_linked hN nodes
  refine ⟨linked, _, _, _, _, hbuild, fun i hi => ?_,
    shuffled.traverse_eq hN hlinked (fun _ => rfl) warmup steps,
    shuffled.traverse_eq hN hlinked (fun _ => rfl) warmup steps,
    shuffled.traverse_eq hN hlinked (shuffled.twoAhead_withSuccessor hN hlinked) warmup steps,
    rfl, rfl, rfl, rfl, fun i hi touches htouches => ?_⟩
  · obtain ⟨t, rfl⟩ := shuffled.exists_walk_eq hN hi
    have hnode := shuffled.getElem?_linked hN hlinked t
    rw [Vector.getElem?_eq_getElem hi, Option.some.injEq] at hnode
    exact ⟨shuffled.walk hN (t + 1), shuffled.walk_lt hN (t + 1), by rw [hnode]; rfl⟩
  · obtain ⟨k, rfl⟩ := shuffled.exists_walk_eq hN hi
    have hreads : touches.map Touch.read = (List.range steps).map (shuffled.walk hN) := by
      simp only [List.mem_cons, List.not_mem_nil, or_false] at htouches
      obtain rfl | rfl | rfl := htouches <;> exact List.map_map
    rw [visits, hreads]
    exact (shuffled.exactPeriod_walk hN).count_map_range_eq_or hN steps k

theorem linked_list_traversal_two :
    ∃ linked, buildList #v[1, 0] #v[⟨none, #v[5, 0, 0, 0, 0, 0, 0]⟩, ⟨none, #v[7, 0, 0, 0, 0, 0, 0]⟩]
        = some linked ∧
      ∃ final touches, traverse twoAhead #v[1, 0] linked 1 3 = some (final, touches) ∧
        (visits touches 1 = 1 ∨ visits touches 1 = 2) := by
  obtain ⟨linked, final, plain, one, two, hbuild, _, _, _, htwo, _, _, _, _, hvisits⟩ :=
    linked_list_traversal 2 (by decide) ⟨#v[1, 0], by decide⟩
      #v[⟨none, #v[5, 0, 0, 0, 0, 0, 0]⟩, ⟨none, #v[7, 0, 0, 0, 0, 0, 0]⟩] 1 3
  exact ⟨linked, hbuild, final, two, htwo, hvisits 1 (by decide) two (by simp)⟩

end LinkedList
end HwBench
