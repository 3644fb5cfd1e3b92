import HwBench.Suite.RandomReads

/-!
# The NUMA test

With fewer than two detected nodes the test measures the local memory. Otherwise it
goes through the nodes below the detected number, at most four. Each one gets a buffer
of its own, which is bound to the node, measured and given back. The nodes that cannot
be bound are reported and those without a buffer are left out.
-/

namespace HwBench.NumaBenchmark

open Machine Effect

def size : Nat := 64 * MB
def accesses : Nat := 5000000
def warmup : Nat := 100000

/-- `run_local_only` -/
def runLocalOnly (os : Os) (rng : Nat → Word) : Suite Unit := do
  let mem ← allocPages os .regular size
  if mem = 0 then
    pure ⟨⟩
  else
    let indices := randomIndices rng accesses (size / 8)
    measureAndFree .localMemory mem size indices warmup accesses

/-- `mbind(mem, SIZE, MPOL_BIND, &nodemask, num_nodes + 1, ...) == 0` with the mask
`1UL << node`; the sum is an `int`. -/
def bindNode (os : Os) (numNodes : CInt) (mem node : Nat) : Suite Bool :=
  match Signed.add? numNodes 1 with
  | none => throw (.raised .overflow)
  | some maxnode => pure (os.mbind mem (1#64 <<< node) maxnode)

/-- The body of the loop over the nodes. -/
def measureNode (os : Os) (indices : List Nat) (numNodes : CInt) (node : Nat) : Suite Unit := do
  let mem ← allocPages os .regular size
  if mem = 0 then
    pure ⟨⟩
  else
    let bound ← bindNode os numNodes mem node
    if bound then
      measureAndFree (.node node) mem size indices warmup accesses
    else
      Process.report (.bindFailed node)
      freePages mem size

/-- `run_numa_comparison`; the flag says whether `HAS_LIBNUMA` is defined. -/
def runNumaComparison (hasLibnuma : Bool) (os : Os) (rng : Nat → Word) (numNodes : CInt) :
    Suite Unit :=
  if hasLibnuma then
    let indices := randomIndices rng accesses (size / 8)
    (List.range (min numNodes.toInt.toNat 4)).forM (measureNode os indices numNodes)
  else
    Process.report .noBinding

/-- `NumaBenchmark::run`, on the contents of the file of the online nodes. -/
def run (hasLibnuma : Bool) (os : Os) (file : Option (List Char)) (rng : Nat → Word) :
    Suite Unit := do
  Process.report (.header .numa)
  match detectNumaNodes file with
  | .error fault => throw (.raised fault)
  | .ok numNodes =>
      Process.report (.detected numNodes)
      if numNodes.toInt < 2 then
        runLocalOnly os rng
      else
        runNumaComparison hasLibnuma os rng numNodes

/-! ### What the test prints -/

/-- The local measurement, given the answer to its allocation. -/
def localResults (rng : Nat → Word) : Option Nat → List Report
  | none => []
  | some mem => [.measured .localMemory 0 (readAddrs rng accesses mem size)]

/-- The line of a node, given the answer to its allocation. -/
def nodeResults (os : Os) (rng : Nat → Word) (maxnode : CInt) (node : Nat) :
    Option Nat → List Report
  | none => []
  | some mem =>
      if os.mbind mem (1#64 <<< node) maxnode then
        [.measured (.node node) 0 (readAddrs rng accesses mem size)]
      else
        [.bindFailed node]

/-- The lines of the first `count` nodes. The `k`-th call of `mmap` is for node `0`. -/
def comparisonResults (os : Os) (rng : Nat → Word) (maxnode : CInt) (k count : Nat) : List Report :=
  (List.range count).flatMap fun node =>
    nodeResults os rng maxnode node (os.mmap .regular (k + node))

/-- How the test ends, and its lines. The sum `num_nodes + 1` matters only for a node
that has a buffer. -/
def outcome (hasLibnuma : Bool) (os : Os) (file : Option (List Char)) (rng : Nat → Word)
    (k : Nat) : Except (Stop Fault) Unit × List Report :=
  match detectNumaNodes file with
  | .error fault => (.error (.raised fault), [.header .numa])
  | .ok numNodes =>
      let front := [.header .numa, .detected numNodes]
      if numNodes.toInt < 2 then
        (.ok ⟨⟩, front ++ localResults rng (os.mmap .regular k))
      else if hasLibnuma = false then
        (.ok ⟨⟩, front ++ [.noBinding])
      else if numNodes.toInt = 2 ^ 31 - 1 ∧ ∃ node < 4, os.mmap .regular (k + node) ≠ none then
        (.error (.raised .overflow), front)
      else
        (.ok ⟨⟩, front ++
          comparisonResults os rng (numNodes + 1) k (min numNodes.toInt.toNat 4))

section

variable {hasLibnuma : Bool} {os : Os} {file : Option (List Char)} {rng : Nat → Word} {k : Nat}
  {numNodes : CInt}

theorem outcome_few (h : detectNumaNodes file = .ok numNodes) (hfew : numNodes.toInt < 2) :
    outcome hasLibnuma os file rng k = (.ok ⟨⟩,
      [.header .numa, .detected numNodes] ++ localResults rng (os.mmap .regular k)) := by
  simp only [outcome, h, if_pos hfew]

theorem outcome_noBinding (h : detectNumaNodes file = .ok numNodes) (hmany : ¬numNodes.toInt < 2) :
    outcome false os file rng k =
      (.ok ⟨⟩, [.header .numa, .detected numNodes] ++ [.noBinding]) := by
  simp only [outcome, h, if_neg hmany, if_true]

theorem outcome_overflow (h : detectNumaNodes file = .ok numNodes)
    (hmax : numNodes.toInt = 2 ^ 31 - 1) (hsome : ∃ node < 4, os.mmap .regular (k + node) ≠ none) :
    outcome true os file rng k =
      (.error (.raised .overflow), [.header .numa, .detected numNodes]) := by
  have hmany : ¬numNodes.toInt < 2 := by omega
  simp only [outcome, h, if_neg hmany, Bool.true_eq_false, if_false, if_pos (And.intro hmax hsome)]

theorem outcome_compare (h : detectNumaNodes file = .ok numNodes) (hmany : ¬numNodes.toInt < 2)
    (hno : ¬(numNodes.toInt = 2 ^ 31 - 1 ∧ ∃ node < 4, os.mmap .regular (k + node) ≠ none)) :
    outcome true os file rng k = (.ok ⟨⟩, [.header .numa, .detected numNodes] ++
      comparisonResults os rng (numNodes + 1) k (min numNodes.toInt.toNat 4)) := by
  simp only [outcome, h, if_neg hmany, Bool.true_eq_false, if_false, if_neg hno]

end

theorem comparisonResults_succ (os : Os) (rng : Nat → Word) (maxnode : CInt) (k count : Nat) :
    comparisonResults os rng maxnode k (count + 1) = comparisonResults os rng maxnode k count ++
      nodeResults os rng maxnode count (os.mmap .regular (k + count)) := by
  simp [comparisonResults, List.range_succ]

theorem comparisonResults_eq_nil {os : Os} {rng : Nat → Word} {maxnode : CInt} {k count : Nat}
    (h : ∀ node < count, os.mmap .regular (k + node) = none) :
    comparisonResults os rng maxnode k count = [] := by
  refine List.flatMap_eq_nil_iff.mpr fun node hnode => ?_
  rw [h node (List.mem_range.mp hnode)]
  rfl

section

variable {mapped : List Span} {mmaps : Nat} {output : List Report}
  {E : Stop Fault → Process Report → Prop}

theorem measureBuffer_spec (rng : Nat → Word) (what : Measurement) (mem : Nat) :
    Contract (Process.At (⟨mem, size⟩ :: mapped) mmaps output)
      (measureAndFree what mem size (randomIndices rng accesses (size / 8)) warmup accesses)
      (fun _ => Process.At mapped mmaps
        (output ++ [.measured what 0 (readAddrs rng accesses mem size)])) E := by
  have hsize : 8 ≤ size := by unfold size MB; omega
  have hwarmup : warmup ≤ accesses := by unfold warmup accesses; omega
  exact measureAndFree_spec what hsize hwarmup

theorem runLocalOnly_spec (os : Os) (rng : Nat → Word) :
    Contract (Process.At mapped mmaps output) (runLocalOnly os rng)
      (fun _ => Process.At mapped (mmaps + 1)
        (output ++ localResults rng (os.mmap .regular mmaps))) E := by
  refine allocPages_bind ?_ ?_
  · intro hnone
    rw [if_pos rfl, hnone]
    exact Contract.pure fun p hp => by simpa [localResults] using hp
  · intro mem hne hsome
    rw [if_neg hne, hsome]
    exact measureBuffer_spec rng .localMemory mem

theorem measureNode_spec (os : Os) (rng : Nat → Word) {numNodes maxnode : CInt} (node : Nat)
    (hmax : Signed.add? numNodes 1 = some maxnode) :
    Contract (Process.At mapped mmaps output)
      (measureNode os (randomIndices rng accesses (size / 8)) numNodes node)
      (fun _ => Process.At mapped (mmaps + 1)
        (output ++ nodeResults os rng maxnode node (os.mmap .regular mmaps))) E := by
  refine allocPages_bind ?_ ?_
  · intro hnone
    rw [if_pos rfl, hnone]
    exact Contract.pure fun p hp => by simpa [nodeResults] using hp
  · intro mem hne hsome
    rw [if_neg hne, hsome]
    simp only [bindNode, hmax, pure_bind, nodeResults]
    split
    · exact measureBuffer_spec rng (.node node) mem
    · exact (Process.report_spec _).bind fun _ => Process.munmap_spec

theorem runNumaComparison_spec (os : Os) (rng : Nat → Word) {numNodes maxnode : CInt}
    (hmax : Signed.add? numNodes 1 = some maxnode) :
    Contract (Process.At mapped mmaps output) (runNumaComparison true os rng numNodes)
      (fun _ => Process.At mapped (mmaps + min numNodes.toInt.toNat 4)
        (output ++ comparisonResults os rng maxnode mmaps (min numNodes.toInt.toNat 4))) E := by
  rw [runNumaComparison, if_pos rfl]
  refine (Contract.forM_range (I := fun node => Process.At mapped (mmaps + node)
    (output ++ comparisonResults os rng maxnode mmaps node)) fun node _ => ?_).weaken
    (fun p hp => by simpa [comparisonResults] using hp) fun _ _ h => h
  rw [comparisonResults_succ, ← List.append_assoc]
  exact measureNode_spec os rng node hmax

/-- A node without a buffer does not reach the sum that overflows. -/
theorem measureNode_overflow (os : Os) (indices : List Nat) {numNodes : CInt} (node : Nat)
    (hmax : Signed.add? numNodes 1 = none) :
    Contract (Process.At mapped mmaps output) (measureNode os indices numNodes node)
      (fun _ p => os.mmap .regular mmaps = none ∧ Process.At mapped (mmaps + 1) output p)
      (fun e p => os.mmap .regular mmaps ≠ none ∧ e = .raised .overflow ∧ p.output = output) := by
  refine allocPages_bind ?_ ?_
  · intro hnone
    rw [if_pos rfl]
    exact Contract.pure fun p hp => ⟨hnone, hp⟩
  · intro mem hne hsome
    rw [if_neg hne, bindNode, hmax]
    refine Contract.bind (Q := fun _ _ => False) (Contract.throw fun p hp => ?_) fun _ p => False.elim
    exact ⟨by simp [hsome], rfl, hp.output_eq⟩

theorem runNumaComparison_overflow (os : Os) (rng : Nat → Word) {numNodes : CInt}
    (hmax : Signed.add? numNodes 1 = none) (hfour : 4 ≤ numNodes.toInt) :
    Contract (Process.At mapped mmaps output) (runNumaComparison true os rng numNodes)
      (fun _ p => (∀ node < 4, os.mmap .regular (mmaps + node) = none) ∧
        Process.At mapped (mmaps + 4) output p)
      (fun e p => (∃ node < 4, os.mmap .regular (mmaps + node) ≠ none) ∧
        e = .raised .overflow ∧ p.output = output) := by
  have hcount : min numNodes.toInt.toNat 4 = 4 := by omega
  rw [runNumaComparison, if_pos rfl, hcount]
  refine (Contract.forM_range (I := fun node p =>
    (∀ j < node, os.mmap .regular (mmaps + j) = none) ∧
      Process.At mapped (mmaps + node) output p) fun node hnode => ?_).weaken
    (fun p hp => ⟨by simp, hp⟩) fun _ _ h => h
  refine Contract.assume (fun p hp => hp.1) fun hbefore => ?_
  refine (measureNode_overflow os _ node hmax).mono (fun p hp => hp.2) ?_ ?_
  · rintro _ p ⟨hnone, hp⟩
    refine ⟨fun j hj => ?_, hp⟩
    obtain hlt | rfl := Nat.lt_succ_iff_lt_or_eq.mp hj
    · exact hbefore j hlt
    · exact hnone
  · rintro e p ⟨hsome, he, hp⟩
    exact ⟨⟨node, hnode, hsome⟩, he, hp⟩

/-- The largest `int` has no successor. -/
theorem add?_one_eq_none {n : CInt} (h : n.toInt = 2 ^ 31 - 1) : Signed.add? n 1 = none := by
  have hn : n = 0x7fffffff#32 := BitVec.eq_of_toInt_eq (h.trans rfl)
  subst hn
  rfl

theorem exists_add?_one {n : CInt} (h : n.toInt ≠ 2 ^ 31 - 1) :
    Signed.add? n 1 = some (n + 1) := by
  have hlo := BitVec.le_toInt n
  have hhi := BitVec.toInt_lt (x := n)
  have hone : (1 : CInt).toInt = 1 := rfl
  obtain ⟨c, hc, _⟩ := Signed.exists_add? (a := n) (b := 1) (by decide) (by omega) (by omega)
  rw [hc, (Signed.add?_eq_some hc).1]

theorem run_spec (hasLibnuma : Bool) (os : Os) (file : Option (List Char)) (rng : Nat → Word) :
    Contract (Process.At mapped mmaps output) (run hasLibnuma os file rng)
      (fun _ p => (outcome hasLibnuma os file rng mmaps).1 = .ok ⟨⟩ ∧ ∃ calls,
        Process.At mapped (mmaps + calls) (output ++ (outcome hasLibnuma os file rng mmaps).2) p)
      (fun e p => (outcome hasLibnuma os file rng mmaps).1 = .error e ∧
        p.output = output ++ (outcome hasLibnuma os file rng mmaps).2) := by
  refine (Process.report_spec _).bind fun _ => ?_
  cases hdetect : detectNumaNodes file with
  | error fault => exact Contract.throw fun p hp => by simpa [outcome, hdetect] using hp.output_eq
  | ok numNodes =>
      refine (Process.report_spec _).bind fun _ => ?_
      by_cases hfew : numNodes.toInt < 2
      · simp only [if_pos hfew]
        rw [outcome_few hdetect hfew]
        refine (runLocalOnly_spec os rng).weaken (fun p hp => hp) fun _ p hp => ⟨rfl, 1, ?_⟩
        simpa using hp
      simp only [if_neg hfew]
      cases hasLibnuma with
      | false =>
          rw [outcome_noBinding hdetect hfew]
          refine (Process.report_spec _).weaken (fun p hp => hp) fun _ p hp => ⟨rfl, 0, ?_⟩
          simpa using hp
      | true =>
          by_cases hmax : numNodes.toInt = 2 ^ 31 - 1
          · refine (runNumaComparison_overflow os rng (add?_one_eq_none hmax)
              (by omega)).mono (fun p hp => hp) ?_ ?_
            · rintro _ p ⟨hnone, hp⟩
              rw [outcome_compare hdetect hfew fun ⟨_, node, hnode, hsome⟩ =>
                hsome (hnone node hnode), comparisonResults_eq_nil fun node hnode => hnone node (by omega)]
              exact ⟨rfl, 4, by simpa using hp⟩
            · rintro e p ⟨hsome, rfl, hp⟩
              rw [outcome_overflow hdetect hmax hsome]
              exact ⟨rfl, by simpa using hp⟩
          · rw [outcome_compare hdetect hfew fun h => hmax h.1]
            refine (runNumaComparison_spec os rng (exists_add?_one hmax)).weaken
              (fun p hp => hp) fun _ p hp => ⟨rfl, min numNodes.toInt.toNat 4, ?_⟩
            simpa using hp

/-- The test ends as its outcome says, and gives back what it maps if it reaches its end. -/
theorem run_outcome (hasLibnuma : Bool) (os : Os) (file : Option (List Char)) (rng : Nat → Word)
    (p : Process Report) :
    ∃ p', exec (run hasLibnuma os file rng) p = ((outcome hasLibnuma os file rng p.mmaps).1, p') ∧
      p'.output = p.output ++ (outcome hasLibnuma os file rng p.mmaps).2 ∧
      ((outcome hasLibnuma os file rng p.mmaps).1 = .ok ⟨⟩ → p'.mapped = p.mapped) := by
  have hrun := run_spec hasLibnuma os file rng p (⟨rfl, rfl, rfl⟩ : Process.At _ _ _ p)
  revert hrun
  split
  · next _ p' heq =>
      rintro ⟨hok, calls, hp'⟩
      exact ⟨p', by rw [heq, hok], hp'.output_eq, fun _ => hp'.mapped_eq⟩
  · next e p' heq =>
      rintro ⟨herror, houtput⟩
      refine ⟨p', by rw [heq, herror], houtput, fun hok => ?_⟩
      rw [herror] at hok
      cases hok

end

/-! ### The nodes that are measured -/

def measuredNodes (lines : List Report) : List Nat :=
  lines.filterMap fun
    | .measured (.node node) _ _ => some node
    | _ => none

def failedNodes (lines : List Report) : List Nat :=
  lines.filterMap fun
    | .bindFailed node => some node
    | _ => none

/-- With a buffer for every node, a node is measured or reported as its binding goes. -/
theorem nodes_comparisonResults {os : Os} (rng : Nat → Word) (maxnode : CInt) (k count : Nat)
    {bound : Nat → Bool} (hmmap : ∀ node < count, ∃ mem, os.mmap .regular (k + node) = some mem)
    (hmbind : ∀ node < count, ∀ mem, os.mmap .regular (k + node) = some mem →
      os.mbind mem (1#64 <<< node) maxnode = bound node) :
    measuredNodes (comparisonResults os rng maxnode k count) =
        (List.range count).filter (fun node => bound node) ∧
      failedNodes (comparisonResults os rng maxnode k count) =
        (List.range count).filter (fun node => !bound node) := by
  induction count with
  | zero => exact ⟨rfl, rfl⟩
  | succ count ih =>
      obtain ⟨hmeasured, hfailed⟩ := ih (fun node hnode => hmmap node (by omega))
        fun node hnode => hmbind node (by omega)
      obtain ⟨mem, hmem⟩ := hmmap count count.lt_succ_self
      rw [comparisonResults_succ, hmem, nodeResults, hmbind count count.lt_succ_self mem hmem,
        List.range_succ, List.filter_append, List.filter_append, ← hmeasured, ← hfailed]
      cases hbound : bound count <;> simp [measuredNodes, failedNodes, hbound]

/-- On the kernel's list of the online nodes, with a buffer for every node that is tried:
without a range no node is tried, and otherwise only those up to the end of the first
range. If the calls of `mbind` that the test then makes succeed for exactly the online
nodes, these are measured and the others reported. -/
theorem run_online (os : Os) (rng : Nat → Word) (p : Process Report) (S : Finset ℕ)
    (hint : ∀ x ∈ S, x + 2 < 2 ^ 31) (contents : List Char)
    (hline : getline contents = (RangeList.ofFinset S).render)
    (hmmap : ∀ node < 4, ∃ mem, os.mmap .regular (p.mmaps + node) = some mem) :
    ∃ p' lines, exec (run true os (some contents) rng) p = (.ok ⟨⟩, p') ∧
      p'.mapped = p.mapped ∧ p'.output = p.output ++ lines ∧
      ((∀ x ∈ S, x + 1 ∉ S) → measuredNodes lines = [] ∧ failedNodes lines = []) ∧
      ∀ a b, RangeList.FirstRange (· ∈ S) a b →
        (∀ node < min (b + 1) 4, ∀ mem, os.mmap .regular (p.mmaps + node) = some mem →
          os.mbind mem (1#64 <<< node) (BitVec.ofNat 32 (b + 2)) = decide (node ∈ S)) →
        measuredNodes lines = (List.range (min (b + 1) 4)).filter (fun node => node ∈ S) ∧
        failedNodes lines = (List.range (min (b + 1) 4)).filter (fun node => node ∉ S) := by
  obtain ⟨p', hrun, houtput, hmapped⟩ := run_outcome true os (some contents) rng p
  have hmembers : (RangeList.ofFinset S).Covers = (· ∈ S) :=
    funext fun x => propext RangeList.covers_ofFinset
  have hlimit : ∀ x, (RangeList.ofFinset S).Covers x → x + 1 < 2 ^ 31 := fun x hx => by
    have := hint x (RangeList.covers_ofFinset.mp hx)
    omega
  obtain ⟨hnone, hdetect⟩ | ⟨r, count, hsome, hdetect, hvalue⟩ :=
    detectNumaNodes_render hline hlimit
  · have hno : ∀ a b, ¬RangeList.FirstRange (· ∈ S) a b := fun a b h =>
      RangeList.firstRange_eq_none hnone (RangeList.covers_ofFinset.mpr h.mem_lo)
        (RangeList.covers_ofFinset.mpr h.mem_succ_lo)
    have hone : (1 : CInt).toInt = 1 := rfl
    obtain ⟨mem, hmem⟩ := hmmap 0 (by decide)
    rw [Nat.add_zero] at hmem
    rw [outcome_few hdetect (by omega), hmem] at hrun houtput hmapped
    exact ⟨p', _, hrun, hmapped rfl, houtput, fun _ => ⟨rfl, rfl⟩, fun a b h => absurd h (hno a b)⟩
  · have hrange := RangeList.firstRange_eq_some hsome
    rw [hmembers] at hrange
    have hlt := hrange.lt
    have hhi := hint r.hi (RangeList.covers_ofFinset.mp
      ⟨r, List.mem_of_find?_eq_some hsome, r.lo_le_hi, le_refl _⟩)
    have hmany : ¬count.toInt < 2 := by omega
    have hmax : count.toInt ≠ 2 ^ 31 - 1 := by omega
    rw [outcome_compare hdetect hmany fun h => hmax h.1] at hrun houtput hmapped
    refine ⟨p', _, hrun, hmapped rfl, houtput, fun h => ?_, fun a b h hmbind => ?_⟩
    · exact absurd hrange.mem_succ_lo (h r.lo hrange.mem_lo)
    · obtain ⟨rfl, rfl⟩ := h.unique hrange
      have hcount : min count.toInt.toNat 4 = min (r.hi + 1) 4 := by omega
      have hmaxnode : count + 1 = BitVec.ofNat 32 (r.hi + 2) := by
        have hnat := Signed.toInt_eq_toNat (by omega : 0 ≤ count.toInt)
        refine BitVec.eq_of_toNat_eq ?_
        rw [BitVec.toNat_add, BitVec.toNat_ofNat, show (1 : CInt).toNat = 1 from rfl]
        omega
      have hnodes := nodes_comparisonResults rng (count + 1) p.mmaps (min (r.hi + 1) 4)
        (fun node hnode => hmmap node (by omega)) (hmaxnode ▸ hmbind)
      rw [hcount]
      simpa [measuredNodes, failedNodes] using hnodes

/-- Node 3 is online after a gap, and it is not measured. The limit of the calls is 3. -/
theorem run_online_gap :
    let os := Os.fixed 4194304 4194304 (by decide) (by decide) fun _ mask maxnode =>
      maxnode == 3 && (mask == 1 || mask == 2)
    ∃ p' lines, exec (run true os (some ['0', '-', '1', ',', '3', '\n'])
        fun k => BitVec.ofNat 64 k) ⟨fun _ => 0, [], 0, []⟩ = (.ok ⟨⟩, p') ∧
      p'.mapped = [] ∧ p'.output = lines ∧ measuredNodes lines = [0, 1] := by
  intro os
  obtain ⟨p', lines, hrun, hmapped, houtput, _, hnodes⟩ := run_online os
    (fun k => BitVec.ofNat 64 k) ⟨fun _ => 0, [], 0, []⟩ {0, 1, 3} (by decide)
    ['0', '-', '1', ',', '3', '\n'] (by decide) (fun node _ => ⟨4194304, rfl⟩)
  refine ⟨p', lines, hrun, hmapped, houtput, ?_⟩
  have hfirst : RangeList.FirstRange (· ∈ ({0, 1, 3} : Finset ℕ)) 0 1 := by
    refine ⟨by decide, fun x hlo hhi => ?_, by decide, fun x hx => absurd hx x.not_lt_zero⟩
    obtain rfl | rfl : x = 0 ∨ x = 1 := by omega
    all_goals decide
  refine (hnodes 0 1 hfirst fun node hnode mem _ => ?_).1
  obtain rfl | rfl : node = 0 ∨ node = 1 := by omega
  all_goals rfl

end HwBench.NumaBenchmark
