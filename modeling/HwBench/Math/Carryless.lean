import Mathlib.Data.List.Infix
import Mathlib.Data.Nat.Bitwise

/-!
# Exclusive or as addition without carries

An accumulator of `w` bits is updated by a list of operands. Each operand is
added, or combined by exclusive or when it has only the low `k` bits. An
exclusive or misses the sum by twice the bits that both arguments have, the
carries that the addition would have made. So the final value differs from the
sum of all operands by twice the carries dropped on the way, and these depend on
the low `k` bits of the accumulator only.
-/

namespace Carryless

/-- An update of the accumulator by its operand. -/
inductive Update
  | add (operand : Nat)
  | xor (operand : Nat)

namespace Update

def operand : Update → Nat
  | add a => a
  | xor a => a

/-- Operands of exclusive or have only the low `k` bits. -/
def Low (k : Nat) : Update → Prop
  | add _ => True
  | xor a => a < 2 ^ k

def apply {w : Nat} (s : BitVec w) : Update → BitVec w
  | add a => s + BitVec.ofNat w a
  | xor a => s ^^^ BitVec.ofNat w a

end Update

/-- The sum of all operands. -/
def total (updates : List Update) : Nat := (updates.map Update.operand).sum

theorem total_cons (u : Update) (updates : List Update) :
    total (u :: updates) = u.operand + total updates := by
  rw [total, List.map_cons, List.sum_cons, total]

/-- Adding every operand ends at the sum. -/
theorem foldl_add_operand {w : Nat} (updates : List Update) (s : BitVec w) :
    updates.foldl (fun s u => s + BitVec.ofNat w u.operand) s =
      s + BitVec.ofNat w (total updates) := by
  induction updates generalizing s with
  | nil => exact (BitVec.add_zero s).symm
  | cons u updates ih =>
      rw [List.foldl_cons, ih, total_cons, BitVec.ofNat_add, BitVec.add_assoc]

/-- The carries dropped by the exclusive ors, from the low `k` bits of the
accumulator on. -/
def dropped (k : Nat) : (low : Nat) → List Update → Nat
  | _, [] => 0
  | low, .add a :: updates => dropped k ((low + a) % 2 ^ k) updates
  | low, .xor a :: updates => (low &&& a) + dropped k (low ^^^ a) updates

/-- The sum is the digit-wise sum and the carries. -/
theorem xor_add_two_mul_and (x y : Nat) : (x ^^^ y) + 2 * (x &&& y) = x + y := by
  induction x using Nat.strongRecOn generalizing y with
  | ind x ih =>
      obtain rfl | hx := Nat.eq_zero_or_pos x
      · rw [Nat.zero_xor, Nat.zero_and, Nat.mul_zero, Nat.add_zero, Nat.zero_add]
      · have hhalf := ih (x / 2) (Nat.div_lt_self hx Nat.one_lt_two) (y / 2)
        rw [← Nat.xor_div_two, ← Nat.and_div_two] at hhalf
        have hxor : (x ^^^ y) % 2 = (x + y) % 2 := Nat.xor_mod_two_eq
        have hand : (x &&& y) % 2 = 1 ↔ x % 2 = 1 ∧ y % 2 = 1 := Nat.and_mod_two_eq_one
        omega

variable {w k : Nat}

/-- Only the low bits of the accumulator can meet a low operand. -/
theorem and_low {a : Nat} (s : Nat) (ha : a < 2 ^ k) : s &&& a = s % 2 ^ k &&& a := by
  have hand : (s &&& a) % 2 ^ k = s &&& a :=
    Nat.mod_eq_of_lt (Nat.lt_of_le_of_lt Nat.and_le_right ha)
  rw [← hand, Nat.and_mod_two_pow, Nat.mod_eq_of_lt ha]

theorem toNat_apply_add (s : BitVec w) (a : Nat) (hk : k ≤ w) :
    (Update.apply s (.add a)).toNat % 2 ^ k = (s.toNat % 2 ^ k + a) % 2 ^ k := by
  have hdvd : 2 ^ k ∣ 2 ^ w := Nat.pow_dvd_pow 2 hk
  rw [Update.apply, BitVec.toNat_add, BitVec.toNat_ofNat, Nat.add_mod_mod,
    Nat.mod_mod_of_dvd _ hdvd, Nat.mod_add_mod]

theorem toNat_apply_xor (s : BitVec w) {a : Nat} (hk : k ≤ w) (ha : a < 2 ^ k) :
    (Update.apply s (.xor a)).toNat % 2 ^ k = s.toNat % 2 ^ k ^^^ a := by
  have hdvd : 2 ^ k ∣ 2 ^ w := Nat.pow_dvd_pow 2 hk
  rw [Update.apply, BitVec.toNat_xor, BitVec.toNat_ofNat, Nat.xor_mod_two_pow,
    Nat.mod_mod_of_dvd _ hdvd, Nat.mod_eq_of_lt ha]

theorem apply_xor_add_and (s : BitVec w) {a : Nat} (hk : k ≤ w) (ha : a < 2 ^ k) :
    Update.apply s (.xor a) + BitVec.ofNat w (2 * (s.toNat % 2 ^ k &&& a)) =
      s + BitVec.ofNat w a := by
  have haw : a < 2 ^ w := Nat.lt_of_lt_of_le ha (Nat.pow_le_pow_right Nat.two_pos hk)
  apply BitVec.eq_of_toNat_eq
  rw [Update.apply, BitVec.toNat_add, BitVec.toNat_xor, BitVec.toNat_ofNat, BitVec.toNat_ofNat,
    BitVec.toNat_add, BitVec.toNat_ofNat, Nat.mod_eq_of_lt haw, Nat.add_mod_mod,
    ← and_low s.toNat ha, xor_add_two_mul_and]

/-- The final accumulator and twice the dropped carries make up the sum. -/
theorem foldl_apply_add_dropped (hk : k ≤ w) {updates : List Update}
    (hlow : ∀ u ∈ updates, u.Low k) (s : BitVec w) :
    updates.foldl Update.apply s + BitVec.ofNat w (2 * dropped k (s.toNat % 2 ^ k) updates) =
      s + BitVec.ofNat w (total updates) := by
  induction updates generalizing s with
  | nil => rfl
  | cons u updates ih =>
      have hrest := ih (fun u hu => hlow u (List.mem_cons_of_mem _ hu)) (u.apply s)
      cases u with
      | add a =>
          rw [toNat_apply_add s a hk] at hrest
          rw [List.foldl_cons, dropped, hrest, total_cons, BitVec.ofNat_add, ← BitVec.add_assoc]
          rfl
      | xor a =>
          have ha : a < 2 ^ k := hlow _ List.mem_cons_self
          have hstep := apply_xor_add_and s hk ha
          rw [toNat_apply_xor s hk ha] at hrest
          rw [List.foldl_cons, dropped, total_cons, Nat.mul_add, BitVec.ofNat_add,
            BitVec.ofNat_add, ← BitVec.add_assoc s, Update.operand, ← hstep,
            BitVec.add_comm (BitVec.ofNat w _), ← BitVec.add_assoc, hrest, BitVec.add_assoc,
            BitVec.add_comm (BitVec.ofNat w _), ← BitVec.add_assoc]

/-- The accumulator ends at the sum exactly when twice the dropped carries vanish. -/
theorem foldl_apply_eq_iff (hw : 0 < w) (hk : k ≤ w) {updates : List Update}
    (hlow : ∀ u ∈ updates, u.Low k) (s : BitVec w) :
    updates.foldl Update.apply s = s + BitVec.ofNat w (total updates) ↔
      2 ^ (w - 1) ∣ dropped k (s.toNat % 2 ^ k) updates := by
  have hsum := foldl_apply_add_dropped hk hlow s
  have hpow : 2 ^ w = 2 * 2 ^ (w - 1) := (Nat.two_pow_pred_mul_two hw).symm.trans (Nat.mul_comm _ 2)
  have hzero : BitVec.ofNat w (2 * dropped k (s.toNat % 2 ^ k) updates) = 0#w ↔
      2 ^ (w - 1) ∣ dropped k (s.toNat % 2 ^ k) updates := by
    rw [← BitVec.toNat_inj, BitVec.toNat_ofNat, BitVec.toNat_ofNat, Nat.zero_mod, hpow,
      ← Nat.dvd_iff_mod_eq_zero, Nat.mul_dvd_mul_iff_left Nat.two_pos]
  rw [← hzero, ← hsum]
  constructor
  · intro heq
    exact BitVec.self_eq_add_right.mp heq
  · intro hdropped
    rw [hdropped, BitVec.add_zero]

/-- At most all low bits are dropped at every step. -/
theorem dropped_le {updates : List Update} (hlow : ∀ u ∈ updates, u.Low k) (low : Nat) :
    dropped k low updates ≤ (2 ^ k - 1) * updates.length := by
  induction updates generalizing low with
  | nil => exact Nat.zero_le _
  | cons u updates ih =>
      have hrest := ih fun u hu => hlow u (List.mem_cons_of_mem _ hu)
      rw [List.length_cons, Nat.mul_succ]
      cases u with
      | add a => exact Nat.le_add_right_of_le (hrest _)
      | xor a =>
          have ha : a < 2 ^ k := hlow _ List.mem_cons_self
          have hand : low &&& a ≤ a := Nat.and_le_right
          have htail := hrest (low ^^^ a)
          rw [dropped]
          omega

/-- Arguments without a common bit are added by exclusive or. -/
theorem xor_low {start a : Nat} (ha : a < 2 ^ k) (hand : start % 2 ^ k &&& a = 0) :
    start % 2 ^ k ^^^ a = (start + a) % 2 ^ k := by
  have hsum := xor_add_two_mul_and (start % 2 ^ k) a
  have hlt : start % 2 ^ k ^^^ a < 2 ^ k :=
    Nat.xor_lt_two_pow (Nat.mod_lt start (Nat.two_pow_pos k)) ha
  rw [hand, Nat.mul_zero, Nat.add_zero] at hsum
  rw [← Nat.mod_add_mod, ← hsum, Nat.mod_eq_of_lt hlt]

/-- Visiting a list from the left: first its head, then its tail behind the head. -/
theorem forall_visit_cons {α : Type*} {P : List α → α → Prop} (x : α) (xs : List α) :
    (∀ front y, front ++ [y] <+: x :: xs → P front y) ↔
      P [] x ∧ ∀ front y, front ++ [y] <+: xs → P (x :: front) y := by
  constructor
  · intro h
    exact ⟨h [] x ⟨xs, rfl⟩, fun front y hfront =>
      h (x :: front) y (List.cons_prefix_cons.mpr ⟨rfl, hfront⟩)⟩
  · rintro ⟨hhead, htail⟩ front y hfront
    cases front with
    | nil =>
        obtain ⟨rfl, _⟩ := List.cons_prefix_cons.mp hfront
        exact hhead
    | cons z front =>
        obtain ⟨rfl, hrest⟩ := List.cons_prefix_cons.mp hfront
        exact htail front y hrest

/-- Nothing is dropped exactly when every operand of exclusive or has no bit in
common with the sum of the operands before it. -/
theorem dropped_eq_zero_iff {α : Type*} (update : α → Update) {xs : List α}
    (hlow : ∀ x ∈ xs, (update x).Low k) (start : Nat) :
    dropped k (start % 2 ^ k) (xs.map update) = 0 ↔
      ∀ front x, front ++ [x] <+: xs →
        ∀ a, update x = .xor a → (start + total (front.map update)) &&& a = 0 := by
  induction xs generalizing start with
  | nil => simp [dropped]
  | cons x xs ih =>
      have hrest := ih (fun x hx => hlow x (List.mem_cons_of_mem _ hx))
        (start + (update x).operand)
      rw [forall_visit_cons, List.map_cons]
      simp only [List.map_cons, total_cons, ← Nat.add_assoc]
      rw [← hrest]
      cases hx : update x with
      | add a =>
          rw [dropped, Nat.mod_add_mod, Update.operand]
          exact ⟨fun h => ⟨fun a ha => (nomatch ha), h⟩, And.right⟩
      | xor a =>
          have ha : a < 2 ^ k := by
            have hlowx := hlow x List.mem_cons_self
            rwa [hx] at hlowx
          have hmeet : (start + total (List.map update [])) &&& a = start % 2 ^ k &&& a :=
            and_low start ha
          rw [dropped, Nat.add_eq_zero_iff, Update.operand]
          constructor
          · rintro ⟨hand, htail⟩
            refine ⟨fun b hb => ?_, xor_low ha hand ▸ htail⟩
            cases hb
            exact hmeet.trans hand
          · rintro ⟨hhead, htail⟩
            have hand := hmeet.symm.trans (hhead a rfl)
            exact ⟨hand, (xor_low ha hand).symm ▸ htail⟩

end Carryless
