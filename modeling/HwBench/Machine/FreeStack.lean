import Mathlib.Data.List.Perm.Basic
import Mathlib.Data.List.Nodup

/-!
# A last-in first-out stack of free slots

The abstract purpose of a fixed-size allocator: a fixed collection of slots is
split between a stack of free ones and the ones handed out. Popping hands out
the top free slot, pushing takes a live slot back. That the two parts together
are exactly the given slots is a field, so no operation can lose or duplicate a
slot.
-/

namespace Machine

variable {α : Type*}

/-- Every slot is either on the free stack or live, exactly once. -/
structure FreeStack (slots : List α) where
  free : List α
  live : List α
  owns : (free ++ live).Perm slots

namespace FreeStack

variable {slots : List α}

/-- Initially all slots are free, in the given order. -/
def full (slots : List α) : FreeStack slots :=
  ⟨slots, [], by rw [List.append_nil]⟩

/-- Hand out the top of the stack. -/
def pop (s : FreeStack slots) {a : α} {rest : List α} (h : s.free = a :: rest) :
    FreeStack slots where
  free := rest
  live := a :: s.live
  owns := by
    have howns := s.owns
    rw [h] at howns
    exact List.perm_middle.trans howns

/-- Take a live slot back. -/
def push [DecidableEq α] (s : FreeStack slots) {a : α} (h : a ∈ s.live) : FreeStack slots where
  free := a :: s.free
  live := s.live.erase a
  owns := by
    have herase : (a :: s.live.erase a).Perm s.live := (List.perm_cons_erase h).symm
    exact List.perm_middle.symm.trans ((herase.append_left s.free).trans s.owns)

/-- One operation of the allocator on its slots. -/
inductive Step [DecidableEq α] : FreeStack slots → FreeStack slots → Prop
  | pop {s : FreeStack slots} {a : α} {rest : List α} (h : s.free = a :: rest) : Step s (s.pop h)
  | push {s : FreeStack slots} {a : α} (h : a ∈ s.live) : Step s (s.push h)

theorem length_add (s : FreeStack slots) :
    s.free.length + s.live.length = slots.length := by
  rw [← List.length_append]
  exact s.owns.length_eq

theorem mem_iff (s : FreeStack slots) {a : α} : a ∈ slots ↔ a ∈ s.free ∨ a ∈ s.live := by
  rw [← s.owns.mem_iff, List.mem_append]

/-- The stack is empty exactly when every slot is live. -/
theorem free_eq_nil_iff (s : FreeStack slots) (hd : slots.Nodup) :
    s.free = [] ↔ ∀ a ∈ slots, a ∈ s.live := by
  have hnodup : (s.free ++ s.live).Nodup := s.owns.nodup_iff.mpr hd
  constructor
  · intro hnil a ha
    obtain hfree | hlive := s.mem_iff.mp ha
    · rw [hnil] at hfree
      exact absurd hfree List.not_mem_nil
    · exact hlive
  · intro hall
    rw [List.eq_nil_iff_forall_not_mem]
    intro a hfree
    have hlive := hall a (s.mem_iff.mpr (Or.inl hfree))
    exact (List.nodup_append.mp hnodup).2.2 a hfree a hlive rfl

theorem nodup_live (s : FreeStack slots) (hd : slots.Nodup) : s.live.Nodup :=
  (List.nodup_append.mp (s.owns.nodup_iff.mpr hd)).2.1

/-- With distinct slots, the free ones are the slots that are not live. -/
theorem mem_free_iff (s : FreeStack slots) (hd : slots.Nodup) {a : α} :
    a ∈ s.free ↔ a ∈ slots ∧ a ∉ s.live := by
  have hnodup : (s.free ++ s.live).Nodup := s.owns.nodup_iff.mpr hd
  constructor
  · intro hfree
    refine ⟨s.mem_iff.mpr (Or.inl hfree), fun hlive => ?_⟩
    exact (List.nodup_append.mp hnodup).2.2 a hfree a hlive rfl
  · rintro ⟨hslot, hnot⟩
    exact (s.mem_iff.mp hslot).resolve_right hnot

end FreeStack
end Machine
