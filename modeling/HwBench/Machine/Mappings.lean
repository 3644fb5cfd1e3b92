import HwBench.Machine.Effect
import HwBench.Machine.Heap
import HwBench.Machine.Span

/-!
# A process that maps and unmaps memory

`mmap` adds a region of zeros to the memory of a process, and may fail. `munmap` has
to name a region exactly as it was mapped. An access outside the mapped regions is a
fault, so a run without a fault uses no memory after it was given back, and gives
nothing back twice. The regions left at the end are those that leak.
-/

namespace Machine

/-- The memory, the mapped regions, the number of calls of `mmap` so far, and the
results reported so far. -/
structure Process (ρ : Type) where
  memory : Nat → Byte
  mapped : List Span
  mmaps : Nat
  output : List ρ

/-- Undefined behaviour of the process. -/
inductive MemoryFault where
  | unmapped (addr : Nat)
  | badUnmap (addr size : Nat)
  | badIndex (i : Nat)
  | undefined
  deriving DecidableEq, Repr

/-- Why a process stops before its end. -/
inductive Stop (ε : Type) where
  | fault (f : MemoryFault)
  | raised (e : ε)
  deriving DecidableEq, Repr

namespace Process

variable {ρ ε : Type}

/-- All `width` bytes at `a` lie in one mapped region. -/
def Mapped (p : Process ρ) (a width : Nat) : Prop :=
  ∃ s ∈ p.mapped, s.start ≤ a ∧ a + width ≤ s.start + s.size

instance (p : Process ρ) (a width : Nat) : Decidable (p.Mapped a width) :=
  inferInstanceAs (Decidable (∃ s ∈ p.mapped, s.start ≤ a ∧ a + width ≤ s.start + s.size))

/-- The memory with zeros at `size` bytes from `a` on. -/
def zeroed (p : Process ρ) (a size : Nat) : Nat → Byte :=
  fun x => if a ≤ x ∧ x < a + size then 0 else p.memory x

/-- `mmap` of anonymous memory, given what the operating system answers. -/
def mmap (answer : Nat → Option Nat) (size : Nat) : Effect (Process ρ) (Stop ε) (Option Nat) := do
  let p ← get
  match answer p.mmaps with
  | none =>
      modify fun p => { p with mmaps := p.mmaps + 1 }
      pure none
  | some a =>
      modify fun p => { p with
        memory := p.zeroed a size
        mapped := ⟨a, size⟩ :: p.mapped
        mmaps := p.mmaps + 1 }
      pure (some a)

def munmap (a size : Nat) : Effect (Process ρ) (Stop ε) Unit := do
  let p ← get
  if ⟨a, size⟩ ∈ p.mapped then
    modify fun p => { p with mapped := p.mapped.erase ⟨a, size⟩ }
  else
    throw (.fault (.badUnmap a size))

/-- `memset(a, 0, size)` -/
def memset (a size : Nat) : Effect (Process ρ) (Stop ε) Unit := do
  let p ← get
  if p.Mapped a size then
    modify fun p => { p with memory := p.zeroed a size }
  else
    throw (.fault (.unmapped a))

/-- The `uint64_t` at `a`. -/
def readWord (a : Nat) : Effect (Process ρ) (Stop ε) Word := do
  let p ← get
  if p.Mapped a 8 then
    pure (BitVec.ofNat 64 (readLE p.memory a 8))
  else
    throw (.fault (.unmapped a))

/-- A computation on variables of its own, with no value if its behaviour is undefined. -/
def require {α : Type} (o : Option α) : Effect (Process ρ) (Stop ε) α :=
  match o with
  | none => throw (.fault .undefined)
  | some a => pure a

def report (r : ρ) : Effect (Process ρ) (Stop ε) Unit :=
  modify fun p => { p with output := p.output ++ [r] }

/-- The observable state of a process. -/
structure At (mapped : List Span) (mmaps : Nat) (output : List ρ) (p : Process ρ) : Prop where
  mapped_eq : p.mapped = mapped
  mmaps_eq : p.mmaps = mmaps
  output_eq : p.output = output

/-- The region holds zeros only. -/
def Zero (a size : Nat) (p : Process ρ) : Prop := ∀ x, a ≤ x → x < a + size → p.memory x = 0

theorem readLE_zero {bytes : Nat → Byte} {a width : Nat}
    (h : ∀ x, a ≤ x → x < a + width → bytes x = 0) : readLE bytes a width = 0 := by
  induction width generalizing a with
  | zero => rfl
  | succ width ih =>
      have hhead : bytes a = 0 := h a (Nat.le_refl a) (by omega)
      have htail := ih (a := a + 1) fun x hlo hhi => h x (by omega) (by omega)
      simp [readLE, hhead, htail]

section Contracts

open Effect

variable {mapped : List Span} {mmaps : Nat} {output : List ρ} {a size : Nat}
  {E : Stop ε → Process ρ → Prop}

theorem mmap_spec (answer : Nat → Option Nat) (size : Nat) :
    Contract (At mapped mmaps output) (mmap answer size)
      (fun r p => answer mmaps = r ∧
        At ((r.map fun a => ⟨a, size⟩).toList ++ mapped) (mmaps + 1) output p) E := by
  refine Contract.bind_get fun p hp => ?_
  rw [hp.mmaps_eq]
  cases hanswer : answer mmaps with
  | none =>
      refine (Contract.modify fun q hq => ?_).bind fun _ => Contract.pure fun q hq => ⟨rfl, hq⟩
      subst hq
      exact ⟨hp.mapped_eq, congrArg (· + 1) hp.mmaps_eq, hp.output_eq⟩
  | some a =>
      refine (Contract.modify fun q hq => ?_).bind fun _ => Contract.pure fun q hq => ⟨rfl, hq⟩
      subst hq
      exact ⟨congrArg (⟨a, size⟩ :: ·) hp.mapped_eq, congrArg (· + 1) hp.mmaps_eq, hp.output_eq⟩

theorem munmap_spec :
    Contract (At (⟨a, size⟩ :: mapped) mmaps output) (munmap a size)
      (fun _ => At mapped mmaps output) E := by
  refine Contract.bind_get fun p hp => ?_
  have hmem : ⟨a, size⟩ ∈ p.mapped := hp.mapped_eq ▸ List.mem_cons_self
  rw [if_pos hmem]
  refine Contract.modify fun q hq => ?_
  subst hq
  exact ⟨by simp [hp.mapped_eq], hp.mmaps_eq, hp.output_eq⟩

theorem memset_spec :
    Contract (At (⟨a, size⟩ :: mapped) mmaps output) (memset a size)
      (fun _ p => At (⟨a, size⟩ :: mapped) mmaps output p ∧ Zero a size p) E := by
  refine Contract.bind_get fun p hp => ?_
  have hmapped : p.Mapped a size :=
    ⟨⟨a, size⟩, hp.mapped_eq ▸ List.mem_cons_self, Nat.le_refl _, Nat.le_refl _⟩
  rw [if_pos hmapped]
  refine Contract.modify fun q hq => ?_
  subst hq
  exact ⟨⟨hp.mapped_eq, hp.mmaps_eq, hp.output_eq⟩, fun x hlo hhi => if_pos ⟨hlo, hhi⟩⟩

/-- A read inside a region of zeros. -/
theorem readWord_spec {x : Nat} (hlo : a ≤ x) (hhi : x + 8 ≤ a + size) :
    Contract (fun p => At (⟨a, size⟩ :: mapped) mmaps output p ∧ Zero a size p) (readWord x)
      (fun v p => v = 0 ∧ At (⟨a, size⟩ :: mapped) mmaps output p ∧ Zero a size p) E := by
  refine Contract.bind_get fun p hp => ?_
  have hmapped : p.Mapped x 8 := ⟨⟨a, size⟩, hp.1.mapped_eq ▸ List.mem_cons_self, hlo, hhi⟩
  have hzero : readLE p.memory x 8 = 0 :=
    readLE_zero fun y hy hy' => hp.2 y (by omega) (by omega)
  rw [if_pos hmapped, hzero]
  refine Contract.pure fun q hq => ⟨rfl, ?_⟩
  subst hq
  exact hp

/-- A computation that has a value does not change the process. -/
theorem require_bind {α β : Type} {o : Option α} {b : α} (h : o = some b)
    {f : α → Effect (Process ρ) (Stop ε) β} {P : Process ρ → Prop} {Q : β → Process ρ → Prop}
    (hf : Contract P (f b) Q E) : Contract P (require o >>= f) Q E := by
  rw [h, require, pure_bind]
  exact hf

-- a rule for a contract unfolds it, and would evaluate the computation
attribute [irreducible] require

theorem report_spec (r : ρ) :
    Contract (At mapped mmaps output) (report r) (fun _ => At mapped mmaps (output ++ [r])) E :=
  Contract.modify fun _ hp => ⟨hp.mapped_eq, hp.mmaps_eq, congrArg (· ++ [r]) hp.output_eq⟩

end Contracts

end Process

end Machine
