import HwBench.Machine.Transition
import HwBench.Machine.Word

/-!
# The arena allocator against an exact bump allocator

`ArenaAllocator::allocate` rounds the request up to a multiple of eight and
compares the new offset with the capacity. Both sums are `size_t` sums and can
wrap. `IdealArena` is the same allocator over natural numbers.

One lemma lists what a call does: it fails, or it moves the offset exactly, or
the exact new offset is at least `2 ^ 64` and the code succeeds with the offset
unchanged or moved backwards. The two allocators agree in the first two cases
and in these only.
-/

namespace HwBench

open Machine

/-- The data members of `class ArenaAllocator`. The buffer is an address, null
when the constructor's `malloc` failed. -/
structure ArenaAllocator where
  buffer : Nat
  capacity : Word
  offset : Word

/-- One call on an arena. -/
inductive ArenaOp where
  | allocate (size : Word)
  | reset

namespace ArenaAllocator

/-- The constructor, on the result of `malloc(capacity)`. -/
def new (capacity : Word) (buffer : Nat) : ArenaAllocator :=
  { buffer, capacity, offset := 0 }

def allocate (a : ArenaAllocator) (size : Word) : Nat × ArenaAllocator :=
  let size := (size + 7) &&& ~~~7
  if a.offset + size > a.capacity then
    (0, a)
  else
    (a.buffer + a.offset.toNat, { a with offset := a.offset + size })

def reset (a : ArenaAllocator) : ArenaAllocator := { a with offset := 0 }

def step (a : ArenaAllocator) : ArenaOp → ArenaAllocator
  | .allocate size => (a.allocate size).2
  | .reset => a.reset

def exec (a : ArenaAllocator) (ops : List ArenaOp) : ArenaAllocator := ops.foldl step a

/-- The offset after a successful request for `size` bytes, in exact arithmetic. -/
def exactEnd (a : ArenaAllocator) (size : Word) : Nat :=
  a.offset.toNat + alignUp 8 size.toNat

/-- The rounded request is exact modulo the word range. -/
theorem rounded_toNat (size : Word) :
    ((size + 7) &&& ~~~7).toNat = alignUp 8 size.toNat % 2 ^ 64 :=
  toNat_add_and_not_mask (k := 3) size (by decide)

theorem alignUp_le_word (size : Word) : alignUp 8 size.toNat ≤ 2 ^ 64 := by
  have hlt := size.isLt
  show (size.toNat + (8 - 1)) / 8 * 8 ≤ 2 ^ 64
  omega

/-- What a call does. The new offset is the exact one reduced modulo `2 ^ 64`,
and it is this reduced offset that is compared with the capacity. -/
theorem allocate_cases (a : ArenaAllocator) (size : Word) :
    ∃ offset : Word, offset.toNat = a.exactEnd size % 2 ^ 64 ∧
      ((a.capacity.toNat < offset.toNat ∧ a.allocate size = (0, a)) ∨
        (offset.toNat ≤ a.capacity.toNat ∧
          a.allocate size = (a.buffer + a.offset.toNat, { a with offset }))) := by
  refine ⟨a.offset + ((size + 7) &&& ~~~7), ?_, ?_⟩
  · rw [BitVec.toNat_add, rounded_toNat, Nat.add_mod_mod, exactEnd]
  · by_cases hfull : a.offset + ((size + 7) &&& ~~~7) > a.capacity
    · exact Or.inl ⟨BitVec.lt_def.mp hfull, if_pos hfull⟩
    · exact Or.inr ⟨BitVec.not_lt.mp hfull, if_neg hfull⟩

/-- The bounds that survive every call, wrapped or not. -/
structure Bounded (a : ArenaAllocator) : Prop where
  offset_le : a.offset.toNat ≤ a.capacity.toNat
  aligned : 8 ∣ a.offset.toNat

theorem bounded_new (capacity : Word) (buffer : Nat) : (new capacity buffer).Bounded :=
  ⟨Nat.zero_le _, Nat.dvd_zero 8⟩

/-- Reduction modulo `2 ^ 64` keeps multiples of eight. -/
theorem aligned_exactEnd {a : ArenaAllocator} (ha : 8 ∣ a.offset.toNat) (size : Word) :
    8 ∣ a.exactEnd size % 2 ^ 64 :=
  (Nat.dvd_mod_iff (by decide)).mpr (Nat.dvd_add ha (dvd_alignUp 8 size.toNat))

theorem Bounded.step {a : ArenaAllocator} (h : a.Bounded) (op : ArenaOp) : (a.step op).Bounded := by
  cases op with
  | reset => exact ⟨Nat.zero_le _, Nat.dvd_zero 8⟩
  | allocate size =>
      obtain ⟨offset, hoffset, ⟨_, hrun⟩ | ⟨hle, hrun⟩⟩ := a.allocate_cases size
      · rw [ArenaAllocator.step, hrun]
        exact h
      · rw [ArenaAllocator.step, hrun]
        exact ⟨hle, hoffset ▸ aligned_exactEnd h.aligned size⟩

/-- The buffer and the capacity never change. -/
theorem step_buffer_capacity (a : ArenaAllocator) (op : ArenaOp) :
    (a.step op).buffer = a.buffer ∧ (a.step op).capacity = a.capacity := by
  cases op with
  | reset => exact ⟨rfl, rfl⟩
  | allocate size =>
      obtain ⟨offset, _, ⟨_, hrun⟩ | ⟨_, hrun⟩⟩ := a.allocate_cases size <;>
        rw [ArenaAllocator.step, hrun] <;> exact ⟨rfl, rfl⟩

/-- The states of runs from a new arena. -/
theorem exec_new (capacity : Word) (buffer : Nat) (ops : List ArenaOp) :
    ((new capacity buffer).exec ops).Bounded ∧
      ((new capacity buffer).exec ops).buffer = buffer ∧
      ((new capacity buffer).exec ops).capacity = capacity := by
  refine foldl_invariant step (fun a => a.Bounded ∧ a.buffer = buffer ∧ a.capacity = capacity)
    (fun _ _ => True) ?_ ⟨bounded_new capacity buffer, rfl, rfl⟩ (fun _ _ _ => trivial) ops List.prefix_rfl
  rintro a op ⟨hbounded, hbuffer, hcapacity⟩ _
  obtain ⟨hb, hc⟩ := a.step_buffer_capacity op
  exact ⟨hbounded.step op, hb.trans hbuffer, hc.trans hcapacity⟩

end ArenaAllocator

/-- The arena with natural-number arithmetic. -/
structure IdealArena where
  base : Nat
  capacity : Nat
  offset : Nat
  deriving DecidableEq

namespace IdealArena

def allocate (a : IdealArena) (size : Nat) : Nat × IdealArena :=
  if a.offset + alignUp 8 size > a.capacity then
    (0, a)
  else
    (a.base + a.offset, { a with offset := a.offset + alignUp 8 size })

def reset (a : IdealArena) : IdealArena := { a with offset := 0 }

def step (a : IdealArena) : ArenaOp → IdealArena
  | .allocate size => (a.allocate size.toNat).2
  | .reset => a.reset

def exec (a : IdealArena) (ops : List ArenaOp) : IdealArena := ops.foldl step a

end IdealArena

namespace ArenaAllocator

/-- The ideal arena in the same state. -/
def ideal (a : ArenaAllocator) : IdealArena :=
  { base := a.buffer, capacity := a.capacity.toNat, offset := a.offset.toNat }

/-- The code and the ideal arena return the same pointer and move to the same
state on this request. -/
def AgreesOn (a : ArenaAllocator) (size : Word) : Prop :=
  (a.allocate size).1 = (a.ideal.allocate size.toNat).1 ∧
    (a.allocate size).2.ideal = (a.ideal.allocate size.toNat).2

theorem agreesOn_of_lt {a : ArenaAllocator} {size : Word} (h : a.exactEnd size < 2 ^ 64) :
    a.AgreesOn size := by
  obtain ⟨offset, hoffset, hcase⟩ := a.allocate_cases size
  rw [Nat.mod_eq_of_lt h] at hoffset
  obtain ⟨hfull, hrun⟩ | ⟨hle, hrun⟩ := hcase
  · rw [hoffset] at hfull
    have hideal : a.ideal.allocate size.toNat = (0, a.ideal) := if_pos hfull
    rw [AgreesOn, hrun, hideal]
    exact ⟨rfl, rfl⟩
  · rw [hoffset] at hle
    have hideal : a.ideal.allocate size.toNat =
        (a.buffer + a.offset.toNat, { a.ideal with offset := a.exactEnd size }) :=
      if_neg (Nat.not_lt.mpr hle)
    rw [AgreesOn, hrun, hideal]
    exact ⟨rfl, by simp only [ideal, hoffset]⟩

/-- A request that does not leave the word range where it is made. -/
def Fits (a : ArenaAllocator) : ArenaOp → Prop
  | .allocate size => a.exactEnd size < 2 ^ 64
  | .reset => True

/-- A run without wrapped requests is a run of the ideal arena. -/
theorem exec_ideal (a : ArenaAllocator) (ops : List ArenaOp)
    (hfits : ∀ front op, front ++ [op] <+: ops → (a.exec front).Fits op) :
    (a.exec ops).ideal = a.ideal.exec ops := by
  refine foldl_simulation step IdealArena.step (fun a b => a.ideal = b) Fits ?_ rfl hfits ops
    List.prefix_rfl
  rintro a _ (size | _) rfl hfit
  · exact (agreesOn_of_lt hfit).2
  · rfl

/-- A request whose exact end leaves the word range always succeeds, and does
not move the offset forwards: the exact end exceeds `2 ^ 64` by less than the
old offset, or by exactly the old offset when the rounded size itself wraps. -/
theorem allocate_of_wrap {a : ArenaAllocator} {size : Word} (ha : a.Bounded)
    (h : 2 ^ 64 ≤ a.exactEnd size) :
    ∃ offset : Word, a.allocate size = (a.buffer + a.offset.toNat, { a with offset }) ∧
      (offset = a.offset ∨ offset.toNat < a.offset.toNat) := by
  obtain ⟨offset, hoffset, hcase⟩ := a.allocate_cases size
  have hrounded := alignUp_le_word size
  have hlt := a.offset.isLt
  simp only [exactEnd] at h hoffset
  have hback : offset.toNat = a.offset.toNat + alignUp 8 size.toNat - 2 ^ 64 := by omega
  have hle : offset.toNat ≤ a.offset.toNat := by omega
  obtain ⟨hfull, _⟩ | ⟨_, hrun⟩ := hcase
  · exact absurd (hle.trans ha.offset_le) (Nat.not_le.mpr hfull)
  · refine ⟨offset, hrun, ?_⟩
    obtain hlt' | heq := Nat.lt_or_eq_of_le hle
    · exact Or.inr hlt'
    · exact Or.inl (BitVec.eq_of_toNat_eq heq)

/-- An ideal arena never satisfies such a request. -/
theorem not_agreesOn_of_wrap {a : ArenaAllocator} {size : Word} (ha : a.Bounded)
    (hbuffer : a.buffer ≠ 0) (h : 2 ^ 64 ≤ a.exactEnd size) : ¬a.AgreesOn size := by
  obtain ⟨offset, hrun, _⟩ := allocate_of_wrap ha h
  have hcap := a.capacity.isLt
  have hideal : a.ideal.allocate size.toNat = (0, a.ideal) :=
    if_pos (Nat.lt_of_lt_of_le hcap h)
  rintro ⟨hptr, _⟩
  rw [hrun, hideal] at hptr
  exact hbuffer (Nat.add_eq_zero_iff.mp hptr).1

/-- In every state of every run the arena has the buffer and the capacity it was
built with and an aligned offset within that capacity. The code is the exact bump
allocator precisely on the requests whose exact end is a word, on all others it
succeeds without moving forwards, and `reset` is exact. A run without such
requests is the run of the ideal arena on the same buffer. -/
theorem exec_agrees_iff (capacity : Word) (buffer : Nat) (hbuffer : buffer ≠ 0)
    (ops : List ArenaOp) (size : Word) :
    let a := (new capacity buffer).exec ops
    (a.buffer = buffer ∧ a.capacity = capacity ∧
      a.ideal = { base := buffer, capacity := capacity.toNat, offset := a.offset.toNat }) ∧
      a.offset.toNat ≤ capacity.toNat ∧ 8 ∣ a.offset.toNat ∧
      (a.AgreesOn size ↔ a.offset.toNat + alignUp 8 size.toNat < 2 ^ 64) ∧
      (2 ^ 64 ≤ a.offset.toNat + alignUp 8 size.toNat →
        (a.allocate size).1 = buffer + a.offset.toNat ∧ (a.allocate size).1 ≠ 0 ∧
        ((a.allocate size).2.offset = a.offset ∨
          (a.allocate size).2.offset.toNat < a.offset.toNat)) ∧
      a.reset.ideal = a.ideal.reset ∧
      ((∀ front op, front ++ [op] <+: ops → ((new capacity buffer).exec front).Fits op) →
        a.ideal =
          IdealArena.exec { base := buffer, capacity := capacity.toNat, offset := 0 } ops) := by
  intro a
  obtain ⟨hbounded, hbuf, hcap⟩ := exec_new capacity buffer ops
  have hne : a.buffer ≠ 0 := hbuf ▸ hbuffer
  have hoffset : a.offset.toNat ≤ capacity.toNat := hcap ▸ hbounded.offset_le
  have hideal : a.ideal =
      { base := buffer, capacity := capacity.toNat, offset := a.offset.toNat } := by
    rw [ideal, hbuf, hcap]
  refine ⟨⟨hbuf, hcap, hideal⟩, hoffset, hbounded.aligned,
    ⟨fun hagree => ?_, agreesOn_of_lt⟩, fun hwrap => ?_, rfl, exec_ideal _ ops⟩
  · by_contra hwrap
    exact not_agreesOn_of_wrap hbounded hne (Nat.le_of_not_lt hwrap) hagree
  · obtain ⟨offset, hrun, hmove⟩ := allocate_of_wrap hbounded hwrap
    rw [hrun]
    refine ⟨by rw [hbuf], ?_, hmove⟩
    exact fun hzero => hne (Nat.add_eq_zero_iff.mp hzero).1

/-- After sixteen of sixty-four bytes, a request for almost the whole address
space is one on which the code and the ideal arena disagree. -/
theorem exec_agrees_iff_wrapped :
    ((new 64 4096).exec [.allocate 16]).capacity = 64 ∧
      ((new 64 4096).exec [.allocate 16]).ideal = { base := 4096, capacity := 64, offset := 16 } ∧
      ¬((new 64 4096).exec [.allocate 16]).AgreesOn 0xFFFFFFFFFFFFFFF8 := by
  obtain ⟨⟨_, hcap, hideal⟩, _, _, hiff, _⟩ :=
    exec_agrees_iff 64 4096 (by decide) [.allocate 16] 0xFFFFFFFFFFFFFFF8
  refine ⟨hcap, hideal.trans (by decide), fun hagree => absurd (hiff.mp hagree) (by decide)⟩

end ArenaAllocator
end HwBench
