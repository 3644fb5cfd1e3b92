import HwBench.Allocators.PoolRun
import HwBench.Machine.ObjectStore

/-!
# The pool refines a store of objects

The events of a run on a pool are those of a store whose objects have contents of their
own. The names of the objects are the addresses of the slots. The links that the pool
keeps in its free slots, and the order in which it hands them out, cannot be seen by a
client that stays inside its blocks.
-/

namespace HwBench

open Machine Relation

namespace PoolRun

/-- A step of a run with what the client sees of it. -/
inductive Does {size : Nat} : PoolRun size → ObjectEvent Nat → PoolRun size → Prop
  | allocated {r : PoolRun size} {ptr : Nat} {pool : PoolAllocator} {heap : Heap size} :
      r.pool.allocate r.heap = some (ptr, pool, heap) → ptr ≠ 0 →
      Does r (.allocated ptr) { heap, pool, live := ptr :: r.live }
  | exhausted {r : PoolRun size} {pool : PoolAllocator} {heap : Heap size} :
      r.pool.allocate r.heap = some (0, pool, heap) →
      Does r .exhausted { heap, pool, live := r.live }
  | freed {r : PoolRun size} {ptr : Nat} {pool : PoolAllocator} {heap : Heap size} :
      ptr ∈ r.live → r.pool.deallocate ptr r.heap = some (pool, heap) →
      Does r (.freed ptr) { heap, pool, live := r.live.erase ptr }
  | wrote {r : PoolRun size} {ptr i : Nat} (value : Byte) :
      ptr ∈ r.live → i < r.pool.objectSize.toNat →
      Does r (.wrote ptr i value) { r with heap := r.heap.setByte (ptr + i) value }
  | read {r : PoolRun size} {ptr i : Nat} :
      ptr ∈ r.live → i < r.pool.objectSize.toNat →
      Does r (.read ptr i (r.heap.bytes (ptr + i))) r

/-- Apart from the reads these are the steps of a run. -/
theorem Does.step_or_eq {size : Nat} {r r' : PoolRun size} {e : ObjectEvent Nat}
    (h : Does r e r') : Step r r' ∨ r' = r := by
  cases h with
  | allocated hrun hne => exact .inl (.allocate hrun hne)
  | exhausted hrun => exact .inl (.exhausted hrun)
  | freed hptr hrun => exact .inl (.deallocate hptr hrun)
  | wrote value hptr hi => exact .inl (.write value hptr hi)
  | read _ _ => exact .inr rfl

variable {shape : PoolShape}

/-- The store has the blocks of the run, with the bytes that lie in the heap. -/
structure Shows (base : Nat) (r : PoolRun shape.bytes) (o : ObjectStore Nat) : Prop where
  represents : ∃ s, Represents r s
  base_eq : r.heap.base = base
  live_eq : o.live = r.live
  bytes_eq : ∀ ptr ∈ r.live, ∀ i, i < shape.objectSize.toNat →
    r.heap.bytes (ptr + i) = o.contents ptr i

/-- The addresses of the slots. -/
def SlotName (shape : PoolShape) (base ptr : Nat) : Prop :=
  ∃ k, k < shape.count.toNat ∧ ptr = shape.slot base k

namespace Represents

variable {r : PoolRun shape.bytes} {s : FreeStack (List.range shape.count.toNat)}

theorem nodup_live (h : Represents r s) : r.live.Nodup := by
  rw [h.live_eq]
  exact (s.nodup_live List.nodup_range).map (shape.slot_injective r.heap.base)

/-- Bytes of different live blocks have different addresses. -/
theorem ne_of_live (h : Represents r s) {ptr other i j : Nat} (hptr : ptr ∈ r.live)
    (hother : other ∈ r.live) (hne : other ≠ ptr) (hi : i < shape.objectSize.toNat)
    (hj : j < shape.objectSize.toNat) : other + j ≠ ptr + i := by
  obtain ⟨k, _, rfl⟩ := h.exists_slot_of_live hptr
  obtain ⟨k', _, rfl⟩ := h.exists_slot_of_live hother
  have hkk : k' ≠ k := fun heq => hne (heq ▸ rfl)
  have hapart := shape.slot_apart r.heap.base hkk
  omega

/-- A step leads to a stack of slots again. -/
theorem of_does (h : Represents r s) {e : ObjectEvent Nat} {r' : PoolRun shape.bytes}
    (hdoes : Does r e r') : (∃ s, Represents r' s) ∧ r'.heap.base = r.heap.base := by
  obtain hstep | rfl := hdoes.step_or_eq
  · obtain ⟨s', _, hrep⟩ := simulates h hstep
    exact ⟨⟨s', hrep⟩, hstep.base_eq⟩
  · exact ⟨⟨s, h⟩, rfl⟩

end Represents

/-- Every step on the pool is one of the store, with the same event. -/
theorem Shows.step {base : Nat} {r r' : PoolRun shape.bytes} {o : ObjectStore Nat}
    {e : ObjectEvent Nat} (h : Shows base r o) (hdoes : Does r e r') :
    ∃ o', ObjectStore.Step (SlotName shape base) shape.objectSize.toNat o e o' ∧
      Shows base r' o' := by
  obtain ⟨⟨s, hrep⟩, hbase, hlive, hbytes⟩ := h
  obtain ⟨hrep', hbase'⟩ := hrep.of_does hdoes
  rw [hbase] at hbase'
  obtain ⟨ptr, _, _, hrun', hfull, hslot, _⟩ := hrep.sound_allocate
  rw [hbase] at hfull hslot
  cases hdoes with
  | allocated hrun hne =>
      rw [hrun] at hrun'
      cases hrun'
      obtain ⟨hname, hnew⟩ := hslot hne
      obtain ⟨rfl, _⟩ := PoolAllocator.allocate_cases hrun
      refine ⟨_, .allocated (fun i => r.heap.bytes (ptr + i)) hname (hlive ▸ hnew), hrep', hbase',
        congrArg (ptr :: ·) hlive, fun other hother i hi => ?_⟩
      obtain rfl | hold := List.mem_cons.mp hother
      · simp [ObjectStore.put]
      · have hold' : other ≠ ptr := fun heq => hnew (heq ▸ hold)
        simpa [ObjectStore.put, Function.update_of_ne hold'] using hbytes other hold i hi
  | exhausted hrun =>
      rw [hrun] at hrun'
      cases hrun'
      obtain ⟨rfl, _⟩ := PoolAllocator.allocate_cases hrun
      refine ⟨o, .exhausted ?_, hrep', hbase', hlive, hbytes⟩
      rintro _ ⟨k, hk, rfl⟩
      exact hlive ▸ hfull.mp rfl k hk
  | @freed ptr pool heap hptr hrun =>
      obtain ⟨pool', heap', hrun', hframe⟩ := hrep.sound_deallocate hptr
      rw [hrun] at hrun'
      cases hrun'
      refine ⟨_, .freed (hlive ▸ hptr), hrep', hbase', congrArg (List.erase · ptr) hlive,
        fun other hother i hi => ?_⟩
      obtain ⟨hne, hold⟩ := hrep.nodup_live.mem_erase_iff.mp hother
      exact (hframe other hold hne i hi).trans (hbytes other hold i hi)
  | @wrote ptr i value hptr hi =>
      rw [hrep.size_eq] at hi
      refine ⟨_, .wrote value (hlive ▸ hptr) hi, hrep', hbase', hlive, fun other hother j hj => ?_⟩
      by_cases hne : other = ptr
      · subst hne
        by_cases hij : j = i
        · subst hij
          simp [ObjectStore.put, Heap.setByte]
        · simpa [ObjectStore.put, Heap.setByte, Function.update_of_ne hij, hij] using
            hbytes other hptr j hj
      · have hother' : other ∈ r.live := hother
        have haddr := hrep.ne_of_live hptr hother' hne hi hj
        simpa [ObjectStore.put, Heap.setByte, Function.update_of_ne hne, haddr] using
          hbytes other hother' j hj
  | @read ptr i hptr hi =>
      rw [hrep.size_eq] at hi
      refine ⟨o, ?_, hrep', hbase', hlive, hbytes⟩
      rw [hbytes ptr hptr i hi]
      exact .read (hlive ▸ hptr) hi

/-- The events of a run from the constructor's result. -/
def Observes (shape : PoolShape) (h : Heap shape.bytes) (es : List (ObjectEvent Nat))
    (r : PoolRun shape.bytes) : Prop :=
  ∃ pool heap, PoolAllocator.new shape.objectSize shape.count h = some (pool, heap) ∧
    Trace Does { heap, pool, live := [] } es r

theorem Observes.exists_store {h : Heap shape.bytes} {es : List (ObjectEvent Nat)}
    {r : PoolRun shape.bytes} (hr : Observes shape h es r) :
    ∃ o, Trace (ObjectStore.Step (SlotName shape h.base) shape.objectSize.toNat)
      ⟨[], fun _ _ => 0⟩ es o ∧ Shows h.base r o := by
  obtain ⟨pool, heap, hnew, htrace⟩ := hr
  obtain ⟨pool', heap', hnew', hbase, hrep⟩ := represents_new h
  rw [hnew] at hnew'
  cases hnew'
  refine htrace.simulation (fun _ _ _ _ hshows hdoes => hshows.step hdoes)
    ⟨⟨_, hrep⟩, hbase, rfl, fun ptr hptr => absurd hptr List.not_mem_nil⟩

/-- A block is written and read again after the other one was handed out and given back. -/
def writeRead : List (ObjectEvent Nat) :=
  [.allocated 4096, .wrote 4096 3 255, .allocated 4104, .freed 4104, .read 4096 3 255]

theorem observes_writeRead : ∃ r, Observes twoSlots twoSlotBlock writeRead r :=
  ⟨_, _, _, rfl, .cons (.allocated rfl (by decide)) (.cons (.wrote 255 List.mem_cons_self (by decide))
    (.cons (.allocated rfl (by decide)) (.cons (.freed List.mem_cons_self rfl)
      (.cons (.read (i := 3) List.mem_cons_self (by decide)) (.nil _)))))⟩

/-- Whatever a client observes of a pool it could observe of a store of separate objects,
and the blocks in use hold the contents of the objects. -/
theorem observes_refines (shape : PoolShape) (h : Heap shape.bytes) (es : List (ObjectEvent Nat))
    (r : PoolRun shape.bytes) (hr : Observes shape h es r) :
    ∃ o, Trace (ObjectStore.Step (SlotName shape h.base) shape.objectSize.toNat)
        ⟨[], fun _ _ => 0⟩ es o ∧ o.live = r.live ∧
      ∀ ptr ∈ r.live, ∀ i, i < shape.objectSize.toNat →
        r.heap.bytes (ptr + i) = o.contents ptr i := by
  obtain ⟨o, htrace, hshows⟩ := hr.exists_store
  exact ⟨o, htrace, hshows.live_eq, hshows.bytes_eq⟩

theorem observes_refines_writeRead : ∃ r o, Observes twoSlots twoSlotBlock writeRead r ∧
    Trace (ObjectStore.Step (SlotName twoSlots 4096) 8) ⟨[], fun _ _ => 0⟩ writeRead o ∧
      o.live = r.live := by
  obtain ⟨r, hr⟩ := observes_writeRead
  obtain ⟨o, htrace, hlive, _⟩ := observes_refines twoSlots twoSlotBlock writeRead r hr
  exact ⟨r, o, hr, htrace, hlive⟩

/-- A byte that a client wrote into a block is what it reads there, whatever it does with
other blocks and other bytes in between. -/
theorem observes_read_of_wrote (shape : PoolShape) (h : Heap shape.bytes)
    (front between : List (ObjectEvent Nat)) (ptr i : Nat) (v w : Byte) (r : PoolRun shape.bytes)
    (hr : Observes shape h
      (front ++ .wrote ptr i v :: (between ++ [.read ptr i w])) r)
    (hbetween : ∀ e ∈ between, ObjectStore.Leaves ptr i e) : w = v := by
  obtain ⟨o, htrace, _⟩ := hr.exists_store
  exact ObjectStore.read_of_wrote htrace hbetween

theorem observes_read_of_wrote_two : ∃ r w, Observes twoSlots twoSlotBlock
    [.allocated 4096, .wrote 4096 3 255, .allocated 4104, .freed 4104, .read 4096 3 w] r ∧
      w = 255 := by
  obtain ⟨r, hr⟩ := observes_writeRead
  refine ⟨r, 255, hr, observes_read_of_wrote twoSlots twoSlotBlock [.allocated 4096]
    [.allocated 4104, .freed 4104] 4096 3 255 255 r hr fun e he => ?_⟩
  obtain rfl | rfl : e = .allocated 4104 ∨ e = .freed 4104 := by simpa using he
  all_goals exact ⟨by decide, nofun⟩

end PoolRun

end HwBench
