import HwBench.CacheLines.Counters

/-!
# Runs of the counter test

In every schedule a counter holds the increments of its own thread, and a move of one
thread leaves the counter of the other one alone. So no increment is lost. Every move
uses up some of the work, and as long as there is work some thread can move: no schedule
gets stuck, and all complete ones have the same number of moves.
-/

namespace HwBench

open Machine

namespace FalseSharing

/-! ### The invariant -/

/-- The number of iterations of the loop of a worker. -/
def loops (iterations : CInt) : Nat := iterations.toInt.toNat

/-- The increments that a worker has made. -/
def Worker.increments (iterations : CInt) : Worker → Nat
  | .absent => 0
  | .pinning => 0
  | .looping i => i
  | .returned => loops iterations

/-- The moves that a worker still has to make. -/
def Worker.work (iterations : CInt) : Worker → Nat
  | .absent => loops iterations + 2
  | .pinning => loops iterations + 2
  | .looping i => loops iterations - i + 1
  | .returned => 0

def MainPc.work : MainPc → Nat
  | .spawn .a => 4
  | .spawn .b => 3
  | .join .a => 2
  | .join .b => 1
  | .done => 0

def work {size : Nat} (iterations : CInt) (s : TestState size) : Nat :=
  s.main.work + (s.workers .a).work iterations + (s.workers .b).work iterations

/-- A worker exists once the calling thread has started it, and has returned once it
was joined. -/
def MainPc.Admits : MainPc → (Member → Worker) → Prop
  | .spawn .a, w => w .a = .absent ∧ w .b = .absent
  | .spawn .b, w => w .a ≠ .absent ∧ w .b = .absent
  | .join .a, w => w .a ≠ .absent ∧ w .b ≠ .absent
  | .join .b, w => w .a = .returned ∧ w .b ≠ .absent
  | .done, w => w .a = .returned ∧ w .b = .returned

/-- What holds between any two moves. -/
structure Consistent (c : Counters) (iterations : CInt) (place : Placement) (h : Heap c.size)
    (s : TestState c.size) : Prop where
  base_eq : s.heap.base = h.base
  admits : s.main.Admits s.workers
  bounded : ∀ m i, s.workers m = .looping i → i ≤ loops iterations
  counted : ∀ m, s.heap.load (c.cellAt h.base m).start =
    some (BitVec.ofNat 64 ((s.workers m).increments iterations)).toNat
  frame : ∀ x, (∀ m, x < (c.cellAt h.base m).start ∨ (c.cellAt h.base m).start + ptrBytes ≤ x) →
    s.heap.bytes x = h.bytes x
  pinned : ∀ m, s.affinity m =
    if s.workers m = .absent ∨ s.workers m = .pinning then place.inherited else place.mask m
  written : ∀ m span, (m, span) ∈ s.writes ↔
    span = c.cellAt h.base m ∧ 0 < (s.workers m).increments iterations

/-! ### What a move does -/

section Moves

variable {c : Counters} {iterations : CInt} {place : Placement}

/-- The moves of the calling thread and of the workers. -/
inductive Move (c : Counters) (iterations : CInt) (place : Placement) :
    TestState c.size → TestState c.size → Prop where
  | spawn {s : TestState c.size} (m : Member) (hmain : s.main = .spawn m) :
      Move c iterations place s
        { s with main := s.main.next, workers := Function.update s.workers m .pinning }
  | join {s : TestState c.size} (m : Member) (hmain : s.main = .join m)
      (hworker : s.workers m = .returned) :
      Move c iterations place s { s with main := s.main.next }
  | pin {s : TestState c.size} (m : Member) (hworker : s.workers m = .pinning) :
      Move c iterations place s
        { s with
          workers := Function.update s.workers m (.looping 0)
          affinity := Function.update s.affinity m
            (pinToCore (place.pinned m) (place.cores m) (s.affinity m)).2 }
  | increment {s : TestState c.size} (m : Member) (i : Nat) (hworker : s.workers m = .looping i)
      (hi : i < loops iterations) {heap : Heap c.size}
      (hadd : fetchAdd s.heap (c.cellAt s.heap.base m).start = some heap) :
      Move c iterations place s
        { s with
          heap
          workers := Function.update s.workers m (.looping (i + 1))
          writes := (m, c.cellAt s.heap.base m) :: s.writes }
  | leave {s : TestState c.size} (m : Member) (i : Nat) (hworker : s.workers m = .looping i)
      (hi : loops iterations ≤ i) :
      Move c iterations place s { s with workers := Function.update s.workers m .returned }

theorem move_of_step {s s' : TestState c.size} {t : Thread}
    (hstep : step c iterations place s t = some s') : Move c iterations place s s' := by
  cases t with
  | main =>
      simp only [step, stepMain] at hstep
      split at hstep
      · next m hmain =>
          cases hstep
          exact .spawn m hmain
      · next m hmain =>
          split at hstep
          · next hworker =>
              cases hstep
              exact .join m hmain hworker
          · cases hstep
      · cases hstep
  | worker m =>
      simp only [step, stepWorker] at hstep
      split at hstep
      · cases hstep
      · next hworker =>
          cases hstep
          exact .pin m hworker
      · next i hworker =>
          split at hstep
          · next hi =>
              obtain ⟨heap, hadd, hrest⟩ := Option.bind_eq_some_iff.mp hstep
              cases hrest
              exact .increment m i hworker (by rw [loops]; omega) hadd
          · next hi =>
              cases hstep
              exact .leave m i hworker (by rw [loops]; omega)
      · cases hstep

/-- A worker that has been started and has not returned may go on to any later state. -/
theorem MainPc.Admits.update {pc : MainPc} {w : Member → Worker} (h : pc.Admits w) {m : Member}
    {v : Worker} (habsent : w m ≠ .absent) (hreturned : w m ≠ .returned) (hv : v ≠ .absent) :
    pc.Admits (Function.update w m v) := by
  cases pc with
  | done => cases m <;> simp_all [MainPc.Admits]
  | spawn m' => cases m' <;> cases m <;> simp_all [MainPc.Admits]
  | join m' => cases m' <;> cases m <;> simp_all [MainPc.Admits]

namespace Consistent

variable {h : Heap c.size} {s s' : TestState c.size}

theorem spawn (hs : Consistent c iterations place h s) {m : Member} (hmain : s.main = .spawn m) :
    Consistent c iterations place h
      { s with main := s.main.next, workers := Function.update s.workers m .pinning } := by
  have habsent : s.workers m = .absent := by
    have hadmits := hs.admits
    rw [hmain] at hadmits
    cases m
    · exact hadmits.1
    · exact hadmits.2
  have hincrements : ∀ m', (Function.update s.workers m .pinning m').increments iterations =
      (s.workers m').increments iterations := by
    intro m'
    obtain rfl | hne := eq_or_ne m' m
    · rw [Function.update_self, habsent, Worker.increments, Worker.increments]
    · rw [Function.update_of_ne hne]
  refine ⟨hs.base_eq, ?_, fun m' i hi => ?_, fun m' => ?_, hs.frame, fun m' => ?_,
    fun m' span => ?_⟩
  · have hadmits := hs.admits
    rw [hmain] at hadmits ⊢
    cases m <;> simp_all [MainPc.next, MainPc.Admits]
  · obtain rfl | hne := eq_or_ne m' m
    · simp only [Function.update_self, reduceCtorEq] at hi
    · simp only [Function.update_of_ne hne] at hi
      exact hs.bounded m' i hi
  · simp only [hincrements]
    exact hs.counted m'
  · rw [hs.pinned m']
    obtain rfl | hne := eq_or_ne m' m
    · simp [habsent]
    · simp [Function.update_of_ne hne]
  · simp only [hincrements]
    exact hs.written m' span

theorem join (hs : Consistent c iterations place h s) {m : Member} (hmain : s.main = .join m)
    (hworker : s.workers m = .returned) :
    Consistent c iterations place h { s with main := s.main.next } := by
  refine ⟨hs.base_eq, ?_, hs.bounded, hs.counted, hs.frame, hs.pinned, hs.written⟩
  have hadmits := hs.admits
  rw [hmain] at hadmits ⊢
  cases m <;> simp_all [MainPc.next, MainPc.Admits]

/-- A move of one worker that leaves the memory alone. -/
theorem update (hs : Consistent c iterations place h s) {m : Member} {v : Worker}
    {affinity : Member → Finset CInt} (habsent : s.workers m ≠ .absent)
    (hreturned : s.workers m ≠ .returned) (hv : v ≠ .absent ∧ v ≠ .pinning)
    (hlooping : ∀ i, v = .looping i → i ≤ loops iterations)
    (hincrements : v.increments iterations = (s.workers m).increments iterations)
    (haffinity : affinity = Function.update s.affinity m (place.mask m)) :
    Consistent c iterations place h
      { s with workers := Function.update s.workers m v, affinity } := by
  have hsame : ∀ m', (Function.update s.workers m v m').increments iterations =
      (s.workers m').increments iterations := by
    intro m'
    obtain rfl | hne := eq_or_ne m' m
    · rw [Function.update_self, hincrements]
    · rw [Function.update_of_ne hne]
  refine ⟨hs.base_eq, hs.admits.update habsent hreturned hv.1, fun m' i hi => ?_, fun m' => ?_,
    hs.frame, fun m' => ?_, fun m' span => ?_⟩
  · obtain rfl | hne := eq_or_ne m' m
    · simp only [Function.update_self] at hi
      exact hlooping i hi
    · simp only [Function.update_of_ne hne] at hi
      exact hs.bounded m' i hi
  · simp only [hsame]
    exact hs.counted m'
  · rw [haffinity]
    obtain rfl | hne := eq_or_ne m' m
    · simp [hv.1, hv.2]
    · simp [Function.update_of_ne hne, hs.pinned m']
  · simp only [hsame]
    exact hs.written m' span

/-- An increment changes its own counter and nothing else. -/
theorem increment (hs : Consistent c iterations place h s) {m : Member} {i : Nat}
    (hworker : s.workers m = .looping i) (hi : i < loops iterations) {heap : Heap c.size}
    (hadd : fetchAdd s.heap (c.cellAt s.heap.base m).start = some heap) :
    Consistent c iterations place h
      { s with
        heap
        workers := Function.update s.workers m (.looping (i + 1))
        writes := (m, c.cellAt s.heap.base m) :: s.writes } := by
  have hcounted := hs.counted m
  rw [hworker, Worker.increments, ← hs.base_eq] at hcounted
  obtain ⟨heap', hadd', hbase, hload, hframe⟩ := fetchAdd_spec hcounted (c.covers_cell s.heap m)
  rw [hadd] at hadd'
  cases hadd'
  rw [hs.base_eq] at hload hframe
  refine ⟨hbase.trans hs.base_eq, ?_, fun m' i' hi' => ?_, fun m' => ?_, fun x hx => ?_,
    fun m' => ?_, fun m' span => ?_⟩
  · exact hs.admits.update (by simp [hworker]) (by simp [hworker]) (by simp)
  · obtain rfl | hne := eq_or_ne m' m
    · simp only [Function.update_self, Worker.looping.injEq] at hi'
      omega
    · simp only [Function.update_of_ne hne] at hi'
      exact hs.bounded m' i' hi'
  · obtain rfl | hne := eq_or_ne m' m
    · simp only [Function.update_self, Worker.increments, BitVec.ofNat_add]
      exact hload
    · -- the other counter is not among the bytes stored
      have hapart := c.cells_apart h.base hne
      simp only [Function.update_of_ne hne]
      rw [← hs.counted m']
      exact Heap.load_congr hbase fun x hlo hhi => hframe x (by omega)
  · rw [hframe x (hx m)]
    exact hs.frame x hx
  · obtain rfl | hne := eq_or_ne m' m
    · simpa [hworker] using hs.pinned m'
    · simpa [Function.update_of_ne hne] using hs.pinned m'
  · have hbefore := hs.written m' span
    rw [List.mem_cons, hbefore, Prod.mk.injEq, hs.base_eq]
    obtain rfl | hne := eq_or_ne m' m
    · simp [Worker.increments]
      tauto
    · simp [hne]

/-- Every move keeps the state consistent. -/
theorem move (hs : Consistent c iterations place h s) (hmove : Move c iterations place s s') :
    Consistent c iterations place h s' := by
  cases hmove with
  | spawn m hmain => exact hs.spawn hmain
  | join m hmain hworker => exact hs.join hmain hworker
  | pin m hworker =>
      -- before its call a worker has the mask that it inherited
      have haffinity : s.affinity m = place.inherited := by
        have hpinned := hs.pinned m
        rwa [if_pos (Or.inr hworker)] at hpinned
      exact hs.update (by simp [hworker]) (by simp [hworker]) (by simp) (by simp)
        (by simp [hworker, Worker.increments]) (by rw [haffinity, Placement.mask])
  | increment m i hworker hi hadd => exact hs.increment hworker hi hadd
  | leave m i hworker hi =>
      have hle := hs.bounded m i hworker
      have haffinity : s.affinity = Function.update s.affinity m (place.mask m) := by
        have hpinned := hs.pinned m
        simp only [hworker, reduceCtorEq, or_self, if_false] at hpinned
        rw [← hpinned, Function.update_eq_self]
      refine hs.update (by simp [hworker]) (by simp [hworker]) (by simp) (by simp) ?_ haffinity
      rw [hworker, Worker.increments, Worker.increments]
      omega

end Consistent

/-! ### Runs -/

/-- The constructor of the counters stores two zeros. -/
theorem construct_spec (c : Counters) (h : Heap c.size) :
    ∃ h', construct c h = some h' ∧ h'.base = h.base ∧
      (∀ m, h'.load (c.cellAt h.base m).start = some 0) ∧
      ∀ x, (∀ m, x < (c.cellAt h.base m).start ∨ (c.cellAt h.base m).start + ptrBytes ≤ x) →
        h'.bytes x = h.bytes x := by
  obtain ⟨h₁, hfirst⟩ := Heap.exists_store (c.covers_cell h .a) 0
  have hbase := Heap.store_base hfirst
  obtain ⟨h₂, hsecond⟩ := Heap.exists_store (c.covers_cell h₁ .b) 0
  have hbase' := (Heap.store_base hsecond).trans hbase
  rw [hbase] at hsecond
  have hne : Member.b ≠ Member.a := nofun
  have hapart := c.cells_apart h.base hne
  refine ⟨h₂, ?_, hbase', fun m => ?_, fun x hx => ?_⟩
  · simp only [construct, hfirst, hbase, hsecond, Option.bind_eq_bind, Option.bind_some]
  · cases m with
    | a => rw [Heap.load_store_ne hsecond hapart, Heap.load_store hfirst (by decide)]
    | b => exact Heap.load_store hsecond (by decide)
  · rw [Heap.store_frame hsecond (hx .b), Heap.store_frame hfirst (hx .a)]

theorem consistent_start (iterations : CInt) (place : Placement) {h : Heap c.size}
    (hzero : ∀ m, h.load (c.cellAt h.base m).start = some 0) :
    Consistent c iterations place h (start c place h) where
  base_eq := rfl
  admits := ⟨rfl, rfl⟩
  bounded := fun m i hi => by simp [start] at hi
  counted := hzero
  frame := fun _ _ => rfl
  pinned := fun m => by simp [start]
  written := fun m span => by simp [start, Worker.increments]

/-- Every move uses up one unit of work. -/
theorem work_of_move {h : Heap c.size} {s s' : TestState c.size}
    (hs : Consistent c iterations place h s) (hmove : Move c iterations place s s') :
    work iterations s = work iterations s' + 1 := by
  cases hmove with
  | spawn m hmain =>
      have hadmits := hs.admits
      rw [hmain] at hadmits
      cases m with
      | a => simp [work, hmain, MainPc.next, MainPc.work, hadmits.1, Worker.work]; omega
      | b => simp [work, hmain, MainPc.next, MainPc.work, hadmits.2, Worker.work]; omega
  | join m hmain hworker => cases m <;> simp [work, hmain, MainPc.next, MainPc.work] <;> omega
  | pin m hworker => cases m <;> simp [work, hworker, Worker.work] <;> omega
  | increment m i hworker hi hadd => cases m <;> simp [work, hworker, Worker.work] <;> omega
  | leave m i hworker hi => cases m <;> simp [work, hworker, Worker.work] <;> omega

/-- A worker that has been started and has not returned can move. -/
theorem worker_moves {h : Heap c.size} {s : TestState c.size}
    (hs : Consistent c iterations place h s) {m : Member} (habsent : s.workers m ≠ .absent)
    (hreturned : s.workers m ≠ .returned) :
    ∃ s', step c iterations place s (.worker m) = some s' := by
  simp only [step, stepWorker]
  cases hworker : s.workers m with
  | absent => exact absurd hworker habsent
  | pinning => exact ⟨_, rfl⟩
  | returned => exact absurd hworker hreturned
  | looping i =>
      simp only
      split
      · have hcounted := hs.counted m
        rw [← hs.base_eq] at hcounted
        obtain ⟨heap, hadd, _⟩ := fetchAdd_spec hcounted (c.covers_cell s.heap m)
        exact ⟨_, by rw [hadd]; rfl⟩
      · exact ⟨_, rfl⟩

/-- While work is left, the workers or the calling thread can move. -/
theorem progress {h : Heap c.size} {s : TestState c.size}
    (hs : Consistent c iterations place h s) (hwork : work iterations s ≠ 0) :
    ∃ t s', step c iterations place s t = some s' := by
  have hadmits := hs.admits
  by_cases hidle : ∀ m, s.workers m = .absent ∨ s.workers m = .returned
  · refine ⟨.main, ?_⟩
    simp only [step, stepMain]
    cases hmain : s.main with
    | spawn m => exact ⟨_, rfl⟩
    | join m =>
        have hreturned : s.workers m = .returned := by
          rw [hmain] at hadmits
          refine (hidle m).resolve_left ?_
          cases m
          · exact hadmits.1
          · exact hadmits.2
        exact ⟨_, if_pos hreturned⟩
    | done =>
        rw [hmain] at hadmits
        simp [work, hmain, MainPc.work, hadmits.1, hadmits.2, Worker.work] at hwork
  · obtain ⟨m, hm⟩ := not_forall.mp hidle
    obtain ⟨habsent, hreturned⟩ := not_or.mp hm
    exact ⟨.worker m, worker_moves hs habsent hreturned⟩

theorem main_eq_done_iff {h : Heap c.size} {s : TestState c.size}
    (hs : Consistent c iterations place h s) : s.main = .done ↔ work iterations s = 0 := by
  have hadmits := hs.admits
  constructor
  · intro hmain
    rw [hmain] at hadmits
    simp [work, hmain, MainPc.work, hadmits.1, hadmits.2, Worker.work]
  · intro hwork
    have hmain : s.main.work = 0 := by
      rw [work] at hwork
      omega
    cases hpc : s.main with
    | done => rfl
    | spawn m => cases m <;> simp [hpc, MainPc.work] at hmain
    | join m => cases m <;> simp [hpc, MainPc.work] at hmain

/-- A run is consistent with the memory that it started from, however far it is. -/
theorem consistent_of_run {h : Heap c.size} {schedule : List Thread} {s : TestState c.size}
    (hrun : runCounterTest c iterations place h schedule = some s) :
    ∃ h₀, construct c h = some h₀ ∧ h₀.base = h.base ∧ Consistent c iterations place h₀ s ∧
      work iterations (start c place h₀) = schedule.length + work iterations s := by
  obtain ⟨h₀, hconstruct, hbase, hzero, _⟩ := construct_spec c h
  rw [runCounterTest, hconstruct, Option.bind_eq_bind, Option.bind_some] at hrun
  have hstart : Consistent c iterations place h₀ (start c place h₀) :=
    consistent_start iterations place (by rwa [hbase])
  have hpreserved : ∀ s t s', Consistent c iterations place h₀ s →
      step c iterations place s t = some s' → Consistent c iterations place h₀ s' :=
    fun s t s' hs hstep => hs.move (move_of_step hstep)
  exact ⟨h₀, hconstruct, hbase, Schedule.invariant hpreserved hstart hrun,
    Schedule.work_eq hpreserved (fun s t s' hs hstep => work_of_move hs (move_of_step hstep))
      hstart hrun⟩

theorem work_start (iterations : CInt) (place : Placement) (h : Heap c.size) :
    work iterations (start c place h) = 2 * loops iterations + 8 := by
  simp only [work, start, MainPc.work, Worker.work]
  omega

/-- Once both threads have been joined, both have asked for their cores and counted to the
end. -/
theorem done_spec {h : Heap c.size} {schedule : List Thread} {s : TestState c.size}
    (hrun : runCounterTest c iterations place h schedule = some s) (hmain : s.main = .done)
    (m : Member) : s.affinity m = place.mask m ∧
      s.heap.load (c.cellAt h.base m).start =
        some (BitVec.ofNat 64 iterations.toInt.toNat).toNat := by
  obtain ⟨h₀, _, hbase, hs, _⟩ := consistent_of_run hrun
  have hadmits := hs.admits
  rw [hmain] at hadmits
  have hreturned : s.workers m = .returned := by
    cases m
    · exact hadmits.1
    · exact hadmits.2
  have hpinned := hs.pinned m
  have hvalue := hs.counted m
  rw [hreturned] at hpinned hvalue
  rw [hbase] at hvalue
  exact ⟨by simpa using hpinned, hvalue⟩

/-- In whatever order the threads move, each counter has counted the increments of its
own thread and no other byte has changed. A thread that is not finished can always move,
no order gets stuck, and both threads have been joined after exactly the same number of
moves in all of them. Then a thread runs on the core it asked for if its call succeeded,
and otherwise where the calling thread may run. -/
theorem runCounterTest_spec (c : Counters) (iterations : CInt) (place : Placement)
    (h : Heap c.size) (schedule : List Thread) (s : TestState c.size)
    (hrun : runCounterTest c iterations place h schedule = some s) :
    (∀ m, s.heap.load (c.cellAt h.base m).start =
      some (BitVec.ofNat 64 ((s.workers m).increments iterations)).toNat) ∧
    (∀ x, (∀ m, x < (c.cellAt h.base m).start ∨ (c.cellAt h.base m).start + ptrBytes ≤ x) →
      s.heap.bytes x = h.bytes x) ∧
    (∀ m, s.workers m ≠ .absent → s.workers m ≠ .returned →
      ∃ s', step c iterations place s (.worker m) = some s') ∧
    (∃ rest final, runCounterTest c iterations place h (schedule ++ rest) = some final ∧
      final.main = .done) ∧
    (s.main = .done ↔ schedule.length = 2 * iterations.toInt.toNat + 8) ∧
    (s.main = .done → ∀ m,
      s.affinity m = (if place.pinned m then {place.cores m} else place.inherited) ∧
      s.heap.load (c.cellAt h.base m).start =
        some (BitVec.ofNat 64 iterations.toInt.toNat).toNat) := by
  obtain ⟨h₀, hconstruct, hbase, hs, hlength⟩ := consistent_of_run hrun
  obtain ⟨h₀', hconstruct', _, _, hframe⟩ := construct_spec c h
  rw [hconstruct] at hconstruct'
  cases hconstruct'
  have hcounted := hs.counted
  have houtside := hs.frame
  rw [hbase] at hcounted houtside
  refine ⟨hcounted, fun x hx => (houtside x hx).trans (hframe x hx),
    fun m habsent hreturned => worker_moves hs habsent hreturned, ?_, ?_,
    fun hmain m => place.mask_eq m ▸ done_spec hrun hmain m⟩
  · obtain ⟨rest, final, hrest, hdone⟩ := Schedule.exists_completion
      (fun s t s' hs hstep => hs.move (move_of_step hstep))
      (fun s t s' hs hstep => work_of_move hs (move_of_step hstep))
      (fun s hs hwork => progress hs hwork) hs
    have hfinal : Consistent c iterations place h₀ final :=
      Schedule.invariant (fun s t s' hs hstep => hs.move (move_of_step hstep)) hs hrest
    refine ⟨rest, final, ?_, (main_eq_done_iff hfinal).mpr hdone⟩
    rw [runCounterTest, hconstruct, Option.bind_eq_bind, Option.bind_some] at hrun ⊢
    rw [Schedule.exec_append, hrun, Option.bind_some, hrest]
  · rw [main_eq_done_iff hs]
    rw [work_start, loops] at hlength
    omega

/-! ### Tests to their end -/

/-- All threads of the test. -/
def threads : List Thread := [.main, .worker .a, .worker .b]

theorem mem_threads (t : Thread) : t ∈ threads := by
  rcases t with _ | (_ | _) <;> decide

/-- `run_counter_test` to its end, under a scheduler that names a thread for each move. All
tests of so many iterations have the same number of moves. -/
def finishCounterTest (c : Counters) (iterations : CInt) (place : Placement)
    (named : Nat → Thread) (h : Heap c.size) : Option (TestState c.size) := do
  let h ← construct c h
  let s := Schedule.drive (step c iterations place) threads named (2 * loops iterations + 8)
    (start c place h)
  if s.main = .done then some s else none

/-- The test returns under every scheduler, and has run by some schedule. -/
theorem finishCounterTest_spec (c : Counters) (iterations : CInt) (place : Placement)
    (named : Nat → Thread) (h : Heap c.size) :
    ∃ s schedule, finishCounterTest c iterations place named h = some s ∧
      runCounterTest c iterations place h schedule = some s ∧ s.main = .done := by
  obtain ⟨h₀, hconstruct, hbase, hzero, _⟩ := construct_spec c h
  have hstart : Consistent c iterations place h₀ (start c place h₀) :=
    consistent_start iterations place (by rwa [hbase])
  have hpreserved : ∀ s t s', Consistent c iterations place h₀ s →
      step c iterations place s t = some s' → Consistent c iterations place h₀ s' :=
    fun s t s' hs hstep => hs.move (move_of_step hstep)
  obtain ⟨schedule, hrun, hwork⟩ := Schedule.exec_drive hpreserved
    (fun s t s' hs hstep => work_of_move hs (move_of_step hstep))
    (fun s hs hwork => (progress hs hwork).imp fun t ht => ⟨mem_threads t, ht⟩)
    named hstart (work_start iterations place h₀)
  have hdone := (main_eq_done_iff (Schedule.invariant hpreserved hstart hrun)).mpr hwork
  refine ⟨_, schedule, ?_, ?_, hdone⟩
  · rw [finishCounterTest, hconstruct, Option.bind_eq_bind, Option.bind_some, if_pos hdone]
  · rw [runCounterTest, hconstruct, Option.bind_eq_bind, Option.bind_some, hrun]

end Moves

/-- Two words that hold arbitrary bytes. -/
def packedObject : Heap countersPacked.size := ⟨12288, fun _ => 7, by decide, by decide⟩

/-- The threads take turns, the second one is joined last. -/
def alternation : List Thread :=
  [.main, .worker .a, .main, .worker .b, .worker .a, .worker .b, .worker .b, .worker .a, .main, .main]

/-- The first thread gets its core, the second one does not and stays where it is. -/
def halfPinned : Placement where
  inherited := {0, 1, 2}
  cores := fun _ => 2
  pinned := fun m => m = .a

theorem runCounterTest_spec_one : ∃ s,
    runCounterTest countersPacked 1 halfPinned packedObject alternation = some s ∧
      s.heap.load 12288 = some 1 ∧ s.heap.load 12296 = some 1 ∧
      s.affinity .a = {2} ∧ s.affinity .b = {0, 1, 2} := by
  have hruns : (runCounterTest countersPacked 1 halfPinned packedObject alternation).isSome := by
    decide +kernel
  obtain ⟨s, hrun⟩ := Option.isSome_iff_exists.mp hruns
  obtain ⟨_, _, _, _, hdone, hfinal⟩ :=
    runCounterTest_spec countersPacked 1 halfPinned packedObject alternation s hrun
  have hmain : s.main = .done := hdone.mpr rfl
  obtain ⟨ha, hloada⟩ := hfinal hmain .a
  obtain ⟨hb, hloadb⟩ := hfinal hmain .b
  exact ⟨s, hrun, hloada, hloadb, ha, hb⟩

end FalseSharing
end HwBench
