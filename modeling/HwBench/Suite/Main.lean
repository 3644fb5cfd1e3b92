import HwBench.Numa.Comparison
import HwBench.Suite.Benchmarks
import HwBench.Tlb.HugePages

/-!
# The suite

`main` runs the benchmarks that its first argument selects, in a fixed order. Only the
TLB and NUMA tests map memory, and only the NUMA test can stop the suite before its end,
provided that vectors and threads can be created and `malloc` has a block for each pool.
-/

namespace HwBench.Suite

open Machine Effect

/-- The word that selects a benchmark. -/
def word : Benchmark → String
  | .tlb => "tlb"
  | .cache => "cache"
  | .numa => "numa"
  | .branch => "branch"
  | .access => "access"
  | .prefetch => "prefetch"
  | .alloc => "alloc"

/-- The order of the calls in `main`. -/
def order : List Benchmark := [.tlb, .cache, .numa, .branch, .access, .prefetch, .alloc]

/-- What `main` gets from its surroundings: the build, the operating system, the file of
the online nodes, the cores it may run on and whether `pin_to_core(0)` succeeds, the words
and values of the generators, the threads and objects of the counter tests, the order of
the list nodes, and the answers of `malloc` and of the clock. -/
structure Env where
  hasLibnuma : Bool
  os : Os
  file : Option (List Char)
  affinity : Finset CInt
  pinned : Bool
  rng : Nat → Word
  counting : CacheLineBenchmark.Counting
  values : Nat → {v : CInt // Branchless.Drawn v}
  shuffled : LinkedList.ShuffledOrder PrefetchBenchmark.numNodes
  speed : AllocatorBenchmark.Mallocs AllocatorBenchmark.poolShape
  jitter : AllocatorBenchmark.Mallocs AllocatorBenchmark.poolShape
  clock : AllocatorBenchmark.Clock

/-- The call of a benchmark's `run`, by a thread that may run on the cores of `affinity`. -/
def runBenchmark (env : Env) (affinity : Finset CInt) : Benchmark → Suite Unit
  | .tlb => TlbBenchmark.run env.os env.rng
  | .cache => CacheLineBenchmark.run env.counting affinity env.rng
  | .numa => NumaBenchmark.run env.hasLibnuma env.os env.file env.rng
  | .branch => BranchBenchmark.run env.values
  | .access => AccessPatternBenchmark.run
  | .prefetch => PrefetchBenchmark.run env.shuffled
  | .alloc => AllocatorBenchmark.run env.speed env.jitter env.clock

/-- `(argc > 1) ? argv[1] : "all"` -/
def which (argv : List String) : String := argv[1]?.getD "all"

def Help (argv : List String) : Prop := which argv = "-h" ∨ which argv = "--help"

instance (argv : List String) : Decidable (Help argv) := inferInstanceAs (Decidable (_ ∨ _))

/-- `run_all || strcmp(which, word) == 0` -/
def Selects (argv : List String) (b : Benchmark) : Prop :=
  which argv = "all" ∨ which argv = word b

instance (argv : List String) : DecidablePred (Selects argv) :=
  fun _ => inferInstanceAs (Decidable (_ ∨ _))

/-- `if (pin_to_core(0)) printf(...);` -/
def reportPinned (pinned : Bool) : Suite Unit :=
  if pinned then Process.report .pinned else pure ⟨⟩

def main (env : Env) (argv : List String) : Suite CInt := do
  if Help argv then
    Process.report (.usage (argv.headD ""))
    pure 0
  else
    let pinning := pinToCore env.pinned 0 env.affinity
    reportPinned pinning.1
    order.forM fun b => if Selects argv b then runBenchmark env pinning.2 b else pure ⟨⟩
    Process.report .done
    pure 0

/-! ### Banners -/

/-- The banners of an output: a benchmark, or the end of the suite. -/
def banners (lines : List Report) : List (Option Benchmark) :=
  lines.filterMap fun
    | .header b => some (some b)
    | .done => some none
    | _ => none

theorem banners_append (lines lines' : List Report) :
    banners (lines ++ lines') = banners lines ++ banners lines' := List.filterMap_append

theorem banners_results (rng : Nat → Word) (regular huge : Option Nat) :
    banners (TlbBenchmark.results rng regular huge) = [] := by
  cases regular <;> cases huge <;> rfl

theorem banners_localResults (rng : Nat → Word) (mem : Option Nat) :
    banners (NumaBenchmark.localResults rng mem) = [] := by
  cases mem <;> rfl

theorem banners_comparisonResults (os : Os) (rng : Nat → Word) (maxnode : CInt) (k count : Nat) :
    banners (NumaBenchmark.comparisonResults os rng maxnode k count) = [] := by
  induction count with
  | zero => rfl
  | succ count ih =>
      rw [NumaBenchmark.comparisonResults_succ, banners_append, ih, List.nil_append,
        NumaBenchmark.nodeResults.eq_def]
      split
      · rfl
      · split <;> rfl

theorem banners_outcome (hasLibnuma : Bool) (os : Os) (file : Option (List Char))
    (rng : Nat → Word) (k : Nat) :
    banners (NumaBenchmark.outcome hasLibnuma os file rng k).2 = [some .numa] := by
  unfold NumaBenchmark.outcome
  split
  · rfl
  · next numNodes heq =>
      have hfront : banners [.header .numa, .detected numNodes] = [some .numa] := rfl
      dsimp only
      split_ifs
      · rw [banners_append, hfront, banners_localResults]; rfl
      · rfl
      · exact hfront
      · rw [banners_append, hfront, banners_comparisonResults]; rfl

/-- The NUMA test stops the suite with this error. -/
def Stops (env : Env) (e : Stop NumaBenchmark.Fault) : Prop :=
  ∃ k, (NumaBenchmark.outcome env.hasLibnuma env.os env.file env.rng k).1 = .error e

/-- The detection of the nodes has a result. -/
def Passes (env : Env) : Prop := ∃ numNodes, NumaBenchmark.detectNumaNodes env.file = .ok numNodes

/-- A benchmark prints its banner and gives back what it maps, unless it is stopped. -/
def Prints (env : Env) (b : Benchmark) (m : Suite Unit) : Prop :=
  ∀ mapped k output, Contract (Process.At mapped k output) m
    (fun _ p => (b = .numa → Passes env) ∧ ∃ calls lines, banners lines = [some b] ∧
      Process.At mapped (k + calls) (output ++ lines) p)
    (fun e p => b = .numa ∧ Stops env e ∧ ∃ lines, banners lines = [some b] ∧
      p.output = output ++ lines)

theorem passes_of_outcome {env : Env} {k : Nat}
    (h : (NumaBenchmark.outcome env.hasLibnuma env.os env.file env.rng k).1 = .ok ⟨⟩) :
    Passes env := by
  unfold NumaBenchmark.outcome at h
  split at h
  · cases h
  · next numNodes heq => exact ⟨numNodes, heq⟩

theorem raised_of_stops {env : Env} {e : Stop NumaBenchmark.Fault} (h : Stops env e) :
    ∃ fault, e = .raised fault := by
  obtain ⟨k, h⟩ := h
  unfold NumaBenchmark.outcome at h
  split at h
  · next fault _ =>
      cases h
      exact ⟨fault, rfl⟩
  · dsimp only at h
    split_ifs at h
    cases h
    exact ⟨.overflow, rfl⟩

/-- A benchmark that maps nothing and always ends. -/
theorem prints_of_spec {env : Env} {b : Benchmark} {m : Suite Unit} {lines : List Report}
    (hb : b ≠ .numa) (hbanners : banners lines = [some b])
    (hspec : ∀ {mapped k output E}, Contract (Process.At mapped k output) m
      (fun _ => Process.At mapped k (output ++ lines)) E) : Prints env b m :=
  fun _ _ _ => hspec.weaken (fun _ hp => hp) fun _ _ hp =>
    ⟨fun hnuma => absurd hnuma hb, 0, lines, hbanners, hp⟩

theorem prints_runBenchmark (env : Env) (affinity : Finset CInt) (b : Benchmark) :
    Prints env b (runBenchmark env affinity b) := by
  cases b with
  | tlb =>
      intro mapped k output
      refine (TlbBenchmark.run_spec env.os env.rng).weaken (fun p hp => hp) ?_
      rintro _ p ⟨calls, hp⟩
      refine ⟨nofun, calls, _, ?_, hp⟩
      exact congrArg (some .tlb :: ·) (banners_results env.rng _ _)
  | numa =>
      intro mapped k output
      refine (NumaBenchmark.run_spec env.hasLibnuma env.os env.file env.rng).mono
        (fun p hp => hp) ?_ ?_
      · rintro _ p ⟨hok, calls, hp⟩
        exact ⟨fun _ => passes_of_outcome hok, calls, _, banners_outcome .., hp⟩
      · rintro e p ⟨herror, hp⟩
        exact ⟨rfl, ⟨k, herror⟩, _, banners_outcome .., hp⟩
  | cache =>
      exact prints_of_spec nofun rfl (CacheLineBenchmark.run_spec env.counting affinity env.rng)
  | branch => exact prints_of_spec nofun rfl (BranchBenchmark.run_spec env.values)
  | access => exact prints_of_spec nofun rfl AccessPatternBenchmark.run_spec
  | prefetch => exact prints_of_spec nofun rfl (PrefetchBenchmark.run_spec env.shuffled)
  | alloc =>
      exact prints_of_spec nofun rfl (AllocatorBenchmark.run_spec env.speed env.jitter env.clock)

/-! ### The sequence of the benchmarks -/

/-- The selected benchmarks before the rest have run. -/
def Before (env : Env) (argv : List String) (mapped : List Span) (k : Nat) (output : List Report)
    (rest : List Benchmark) (p : Process Report) : Prop :=
  ∃ front calls lines, front ++ rest = order ∧
    banners lines = (front.filter (Selects argv ·)).map some ∧
    (.numa ∈ front → Selects argv .numa → Passes env) ∧
    Process.At mapped (k + calls) (output ++ lines) p

/-- The suite has stopped in the NUMA test. -/
def Stopped (env : Env) (argv : List String) (output : List Report)
    (e : Stop NumaBenchmark.Fault) (p : Process Report) : Prop :=
  Stops env e ∧ Selects argv .numa ∧ ∃ lines, p.output = output ++ lines ∧
    banners lines = ((order.takeWhile (· ≠ .numa)).filter (Selects argv ·)).map some ++ [some .numa]

/-- What comes before a benchmark in the order. -/
theorem takeWhile_order {front rest : List Benchmark} {b : Benchmark}
    (h : front ++ b :: rest = order) : order.takeWhile (· ≠ b) = front := by
  have hnodup : (front ++ b :: rest).Nodup := h ▸ (by decide : order.Nodup)
  have hfront : ∀ x ∈ front, decide (x ≠ b) = true := fun x hx =>
    decide_eq_true ((List.nodup_append.mp hnodup).2.2 x hx b List.mem_cons_self)
  rw [← h, List.takeWhile_append_of_pos hfront, List.takeWhile_cons_of_neg (by simp),
    List.append_nil]

section

variable {env : Env} {argv : List String} {mapped : List Span} {k : Nat} {output : List Report}

theorem before_step (affinity : Finset CInt) (b : Benchmark) (rest : List Benchmark) :
    Contract (Before env argv mapped k output (b :: rest))
      (if Selects argv b then runBenchmark env affinity b else pure ⟨⟩)
      (fun _ => Before env argv mapped k output rest) (Stopped env argv output) := by
  rintro p ⟨front, calls, lines, hfront, hbanners, hpass, hp⟩
  have hnext : (front ++ [b]) ++ rest = order := by rw [← hfront]; simp
  refine Contract.ite (P := Process.At mapped (k + calls) (output ++ lines)) ?_ ?_ p hp
  · intro hselects
    refine (prints_runBenchmark env affinity b mapped (k + calls) (output ++ lines)).mono
      (fun _ hp => hp) ?_ ?_
    · rintro _ p ⟨hpass', calls', lines', hbanners', hp⟩
      refine ⟨front ++ [b], calls + calls', lines ++ lines', hnext, ?_, ?_, ?_⟩
      · simp [banners_append, hbanners, hbanners', hselects]
      · intro hmem hnuma
        obtain hmem | hb := List.mem_append.mp hmem
        · exact hpass hmem hnuma
        · exact hpass' (List.mem_singleton.mp hb).symm
      · rwa [← Nat.add_assoc, ← List.append_assoc]
    · rintro e p ⟨rfl, hstops, lines', hbanners', hp⟩
      refine ⟨hstops, hselects, lines ++ lines', ?_, ?_⟩
      · rw [hp, List.append_assoc]
      · rw [banners_append, hbanners, hbanners', takeWhile_order hfront]
  · intro hselects
    refine Contract.pure fun p hp => ⟨front ++ [b], calls, lines, hnext, ?_, ?_, hp⟩
    · simp [hbanners, hselects]
    · intro hmem hnuma
      obtain hmem | hb := List.mem_append.mp hmem
      · exact hpass hmem hnuma
      · exact absurd (List.mem_singleton.mp hb ▸ hnuma) hselects

theorem reportPinned_spec (pinned : Bool) :
    Contract (Process.At mapped k output) (reportPinned pinned)
      (fun _ => Before env argv mapped k output order) (Stopped env argv output) := by
  unfold reportPinned
  split
  · refine (Process.report_spec _).weaken (fun p hp => hp) fun _ p hp => ?_
    exact ⟨[], 0, [.pinned], rfl, rfl, nofun, hp⟩
  · refine Contract.pure fun p hp => ⟨[], 0, [], rfl, rfl, nofun, ?_⟩
    rwa [List.append_nil]

theorem done_spec {E : Stop NumaBenchmark.Fault → Process Report → Prop} :
    Contract (Process.At mapped k output) (do Process.report .done; pure 0 : Suite CInt)
      (fun status p => status = 0 ∧ Process.At mapped k (output ++ [.done]) p) E := by
  refine (Process.report_spec _).bind fun _ => Contract.pure fun _ hp => ?_
  exact ⟨rfl, hp⟩

/-- The sequence without the help text. -/
theorem main_spec (env : Env) (hhelp : ¬Help argv) :
    Contract (Process.At mapped k output) (main env argv)
      (fun status p => status = 0 ∧ (Selects argv .numa → Passes env) ∧
        ∃ calls lines, banners lines = (order.filter (Selects argv ·)).map some ++ [none] ∧
          Process.At mapped (k + calls) (output ++ lines) p)
      (Stopped env argv output) := by
  rw [main, if_neg hhelp]
  refine (reportPinned_spec _).bind fun _ => ?_
  refine (Contract.forM (fun b rest => before_step _ b rest) order).bind fun _ => ?_
  refine Contract.exists_pre fun front => Contract.exists_pre fun calls =>
    Contract.exists_pre fun lines => ?_
  refine Contract.assume (fun p hp => hp.1) fun hfront => ?_
  refine Contract.assume (fun p hp => hp.2.1) fun hbanners => ?_
  refine Contract.assume (fun p hp => hp.2.2.1) fun hpass => ?_
  rw [List.append_nil] at hfront
  subst hfront
  refine done_spec.weaken (fun p hp => hp.2.2.2) ?_
  rintro status p ⟨hstatus, hp⟩
  refine ⟨hstatus, hpass (by decide), calls, lines ++ [.done], ?_, ?_⟩
  · rw [banners_append, hbanners]
    rfl
  · rwa [← List.append_assoc]

end

/-- Every run of the suite prints the banners of the selected benchmarks in their order,
or only the help text, and keeps no memory. It ends with its last banner, unless the NUMA
test stops it with an exception or an overflow. No path makes an invalid access, a wrong
call of `munmap` or another undefined operation. -/
theorem main_run (env : Env) (argv : List String) (p : Process Report) :
    ∃ result p' lines, exec (main env argv) p = (result, p') ∧ p'.output = p.output ++ lines ∧
      match result with
      | .ok status => status = 0 ∧ p'.mapped = p.mapped ∧
          if Help argv then
            lines = [.usage (argv.headD "")]
          else
            (Selects argv .numa → Passes env) ∧
              banners lines = (order.filter (Selects argv ·)).map some ++ [none]
      | .error e => (∃ fault, e = .raised fault) ∧ ¬Help argv ∧ Selects argv .numa ∧
          Stops env e ∧ banners lines =
            ((order.takeWhile (· ≠ .numa)).filter (Selects argv ·)).map some ++ [some .numa] := by
  by_cases hhelp : Help argv
  · refine ⟨.ok 0, { p with output := p.output ++ [.usage (argv.headD "")] },
      [.usage (argv.headD "")], ?_, rfl, rfl, rfl, ?_⟩
    · rw [main, if_pos hhelp]
      rfl
    · rw [if_pos hhelp]
  · have hrun := main_spec env hhelp p (⟨rfl, rfl, rfl⟩ : Process.At _ _ _ p)
    revert hrun
    split
    · next status p' heq =>
        rintro ⟨hstatus, hpass, calls, lines, hbanners, hp'⟩
        refine ⟨_, p', lines, heq, hp'.output_eq, hstatus, hp'.mapped_eq, ?_⟩
        rw [if_neg hhelp]
        exact ⟨hpass, hbanners⟩
    · next e p' heq =>
        rintro ⟨hstops, hselects, lines, houtput, hbanners⟩
        exact ⟨_, p', lines, heq, houtput, raised_of_stops hstops, hhelp, hselects, hstops,
          hbanners⟩

/-- A list of nodes that ends in a dash stops the whole suite in its third benchmark. -/
theorem main_run_stopped :
    let pool : Heap AllocatorBenchmark.poolShape.bytes := ⟨4096, fun _ => 0, by decide, by decide⟩
    let mallocs : AllocatorBenchmark.Mallocs AllocatorBenchmark.poolShape := ⟨fun _ => 0, pool, 0⟩
    let env : Env := {
      hasLibnuma := true
      os := Os.fixed 4194304 4194304 (by decide) (by decide) fun _ _ _ => true
      file := some ['0', '-']
      affinity := {0, 1}
      pinned := true
      rng := fun k => BitVec.ofNat 64 k
      counting := ⟨2, ⟨4096, fun _ => 0, by decide, by decide⟩,
        ⟨8192, fun _ => 0, by decide, by decide⟩, ⟨fun _ => true, fun _ => .main⟩,
        ⟨fun _ => false, fun _ => .main⟩⟩
      values := fun _ => ⟨200, by decide⟩
      shuffled := ⟨.range _, by rw [Vector.toList_range]⟩
      speed := mallocs
      jitter := mallocs
      clock := ⟨.exact ℚ, fun _ => 0, fun _ => 0, fun _ => 0⟩ }
    ∃ e p' lines, exec (main env ["benchmark"]) ⟨fun _ => 0, [], 0, []⟩ = (.error e, p') ∧
      p'.output = lines ∧ banners lines = [some .tlb, some .cache, some .numa] := by
  intro _ _ env
  obtain ⟨result, p', lines, hrun, houtput, hresult⟩ :=
    main_run env ["benchmark"] ⟨fun _ => 0, [], 0, []⟩
  cases result with
  | error e => exact ⟨e, p', lines, hrun, houtput, hresult.2.2.2.2⟩
  | ok status =>
      obtain ⟨_, _, hrest⟩ := hresult
      rw [if_neg (by decide)] at hrest
      obtain ⟨numNodes, hpass⟩ := hrest.1 (by decide)
      cases hpass

end HwBench.Suite
