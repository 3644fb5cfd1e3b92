import HwBench.Machine.Heap
import HwBench.Machine.Schedule
import HwBench.Machine.Signed
import HwBench.Machine.StructLayout
import Mathlib.Data.Finset.Insert

/-!
# Two threads on two counters

`run_counter_test` starts two threads and joins them. Each of them asks to be pinned
to a core, ignores whether that succeeded, and then increments its own atomic counter.
The counters are members of one object, a `CountersPacked` or a `CountersPadded`. The
threads may run in any order, so a run is a schedule.
-/

namespace HwBench

open Machine

/-- `pin_to_core(core_id)` by a thread that may run on the cores of `mask`. The answer of
`sched_setaffinity` decides whether the mask becomes the one core or stays. -/
def pinToCore (succeeds : Bool) (core : CInt) (mask : Finset CInt) : Bool × Finset CInt :=
  if succeeds then (true, {core}) else (false, mask)

namespace FalseSharing

/-! ### The two layouts -/

/-- The argument of the template: a struct with two words `a` and `b`. -/
structure Counters extends StructLayout where
  a : Span
  b : Span
  members_eq : toStructLayout.members = [a, b]
  a_size : a.size = ptrBytes
  b_size : b.size = ptrBytes

/-- `std::atomic<uint64_t> a{0}; std::atomic<uint64_t> b{0};` -/
def countersPacked : Counters where
  fields := [⟨8, 8⟩, ⟨8, 8⟩]
  align := 8
  align_pos := by decide
  fields_align := by decide
  a := ⟨0, 8⟩
  b := ⟨8, 8⟩
  members_eq := rfl
  a_size := rfl
  b_size := rfl

/-- Both members are declared `alignas(CACHE_LINE_SIZE)`. -/
def countersPadded : Counters where
  fields := [⟨8, 64⟩, ⟨8, 64⟩]
  align := 64
  align_pos := by decide
  fields_align := by decide
  a := ⟨0, 8⟩
  b := ⟨64, 8⟩
  members_eq := rfl
  a_size := rfl
  b_size := rfl

example : countersPacked.size = 16 ∧ countersPadded.size = 128 := by decide

/-- The counter of each thread. -/
inductive Member where
  | a
  | b
  deriving DecidableEq, Repr

/-- The place of a counter in the object. -/
def Counters.cell (c : Counters) : Member → Span
  | .a => c.a
  | .b => c.b

/-- The place of a counter in memory. -/
def Counters.cellAt (c : Counters) (base : Nat) (m : Member) : Span :=
  ⟨base + (c.cell m).start, (c.cell m).size⟩

/-! ### The threads -/

/-- Where the two workers run: the mask that they inherit, the core that each of them asks
for, and whether its call succeeds. -/
structure Placement where
  inherited : Finset CInt
  cores : Member → CInt
  pinned : Member → Bool

/-- The mask of a worker after its call. -/
def Placement.mask (place : Placement) (m : Member) : Finset CInt :=
  (pinToCore (place.pinned m) (place.cores m) place.inherited).2

theorem Placement.mask_eq (place : Placement) (m : Member) :
    place.mask m = if place.pinned m then {place.cores m} else place.inherited := by
  rw [mask, pinToCore]
  split <;> rfl

/-- `get_second_core()`, on the result of `hardware_concurrency()`. -/
def getSecondCore (hardwareConcurrency : BitVec 32) : CInt :=
  if 4 ≤ hardwareConcurrency.toInt then 2
  else if 2 ≤ hardwareConcurrency.toInt then 1
  else 0

/-- `counter.fetch_add(1)` on the word at an address. -/
def fetchAdd {size : Nat} (h : Heap size) (addr : Nat) : Option (Heap size) := do
  let value ← h.load addr
  h.store addr (BitVec.ofNat 64 value + 1).toNat

/-- The next statement of the calling thread. -/
inductive MainPc where
  | spawn (m : Member)
  | join (m : Member)
  | done
  deriving DecidableEq, Repr

def MainPc.next : MainPc → MainPc
  | .spawn .a => .spawn .b
  | .spawn .b => .join .a
  | .join .a => .join .b
  | .join .b => .done
  | .done => .done

/-- How far a worker is; `looping i` is before the test of `i < n`. -/
inductive Worker where
  | absent
  | pinning
  | looping (i : Nat)
  | returned
  deriving DecidableEq, Repr

inductive Thread where
  | main
  | worker (m : Member)
  deriving DecidableEq, Repr

/-- The memory and the threads, each with the cores it may run on, and the places written
so far and by whom. -/
structure TestState (size : Nat) where
  heap : Heap size
  main : MainPc
  workers : Member → Worker
  affinity : Member → Finset CInt
  writes : List (Member × Span)

section Step

variable (c : Counters) (iterations : CInt) (place : Placement)

/-- A move of the calling thread. A `join` waits for its worker. -/
def stepMain (s : TestState c.size) : Option (TestState c.size) :=
  match s.main with
  | .spawn m =>
      some { s with main := s.main.next, workers := Function.update s.workers m .pinning }
  | .join m => if s.workers m = .returned then some { s with main := s.main.next } else none
  | .done => none

/-- A move of a worker. The result of its `pin_to_core` is not looked at, and the move that
increments is atomic. -/
def stepWorker (m : Member) (s : TestState c.size) : Option (TestState c.size) :=
  match s.workers m with
  | .absent => none
  | .pinning =>
      let (_, mask) := pinToCore (place.pinned m) (place.cores m) (s.affinity m)
      some { s with
        workers := Function.update s.workers m (.looping 0)
        affinity := Function.update s.affinity m mask }
  | .looping i =>
      if (i : Int) < iterations.toInt then do
        let cell := c.cellAt s.heap.base m
        let heap ← fetchAdd s.heap cell.start
        some { s with
          heap
          workers := Function.update s.workers m (.looping (i + 1))
          writes := (m, cell) :: s.writes }
      else
        some { s with workers := Function.update s.workers m .returned }
  | .returned => none

def step (s : TestState c.size) : Thread → Option (TestState c.size)
  | .main => stepMain c s
  | .worker m => stepWorker c iterations place m s

/-- `Counters counters;`, with both counters initialized to zero. -/
def construct (h : Heap c.size) : Option (Heap c.size) := do
  let h ← h.store (c.cellAt h.base .a).start 0
  h.store (c.cellAt h.base .b).start 0

/-- The state in which `run_counter_test` is called. -/
def start (h : Heap c.size) : TestState c.size where
  heap := h
  main := .spawn .a
  workers := fun _ => .absent
  affinity := fun _ => place.inherited
  writes := []

/-- `run_counter_test` after the moves of a schedule, on a new object. -/
def runCounterTest (h : Heap c.size) (schedule : List Thread) : Option (TestState c.size) := do
  let h ← construct c h
  Schedule.exec (step c iterations place) (start c place h) schedule

end Step

/-! ### The cells -/

namespace Counters

variable (c : Counters)

theorem size_cell (m : Member) : (c.cell m).size = ptrBytes := by
  cases m with
  | a => exact c.a_size
  | b => exact c.b_size

/-- A counter lies inside the object. -/
theorem covers_cell (h : Heap c.size) (m : Member) :
    h.Covers (c.cellAt h.base m).start ptrBytes := by
  have hmem : c.cell m ∈ c.members := by
    rw [c.members_eq]
    cases m <;> simp [cell]
  have hend := c.within_size hmem
  rw [c.size_cell] at hend
  refine ⟨Nat.le_add_right _ _, ?_⟩
  simp only [cellAt]
  omega

/-- The counters do not overlap. -/
theorem cells_apart (base : Nat) {m m' : Member} (hne : m ≠ m') :
    (c.cellAt base m).start + ptrBytes ≤ (c.cellAt base m').start ∨
      (c.cellAt base m').start + ptrBytes ≤ (c.cellAt base m).start := by
  have hpairwise := c.pairwise_members
  rw [c.members_eq, List.pairwise_pair, c.a_size] at hpairwise
  simp only [cellAt, cell]
  cases m <;> cases m' <;> simp only [ne_eq, not_true_eq_false, reduceCtorEq] at hne ⊢ <;> omega

end Counters

/-- An increment reads and writes the whole counter. -/
theorem fetchAdd_spec {size : Nat} {h : Heap size} {addr : Nat} {value : Word}
    (hload : h.load addr = some value.toNat) (hcovers : h.Covers addr ptrBytes) :
    ∃ h', fetchAdd h addr = some h' ∧ h'.base = h.base ∧ h'.load addr = some (value + 1).toNat ∧
      (∀ x, x < addr ∨ addr + ptrBytes ≤ x → h'.bytes x = h.bytes x) := by
  obtain ⟨h', hstore⟩ := Heap.exists_store hcovers (value + 1).toNat
  refine ⟨h', ?_, Heap.store_base hstore, Heap.load_store hstore (value + 1).isLt,
    fun x hx => Heap.store_frame hstore hx⟩
  rw [fetchAdd, hload, Option.bind_eq_bind, Option.bind_some, BitVec.ofNat_toNat,
    BitVec.setWidth_eq, hstore]

end FalseSharing
end HwBench
