import HwBench.Machine.Word

/-!
# A bounds-checked heap block of bytes

A `Heap size` is what a successful `malloc(size)` gives: a block of `size` bytes
at a non-null address, inside the 64-bit address space, with unspecified
contents. The two layout facts are fields, so a client never assumes them.

Addresses are natural numbers. Pointer arithmetic is exact: an address outside
the block is an out-of-bounds access, never an alias produced by wrapping. A
pointer access reads or writes eight little-endian bytes and faults (`none`)
unless all eight lie inside the block.
-/

namespace Machine

abbrev Byte : Type := BitVec 8

/-- The little-endian value of `width` bytes starting at `a`. -/
def readLE (bytes : Nat → Byte) (a : Nat) : Nat → Nat
  | 0 => 0
  | width + 1 => (bytes a).toNat + 256 * readLE bytes (a + 1) width

/-- Overwrite `width` bytes at `a` by the little-endian digits of `value`. -/
def writeLE (bytes : Nat → Byte) (a : Nat) (width value : Nat) : Nat → Byte :=
  fun x => if a ≤ x ∧ x < a + width then BitVec.ofNat 8 (value / 256 ^ (x - a)) else bytes x

/-- Only the bytes read matter. -/
theorem readLE_congr {before after : Nat → Byte} {a : Nat} {width : Nat}
    (h : ∀ x, a ≤ x → x < a + width → after x = before x) :
    readLE after a width = readLE before a width := by
  induction width generalizing a with
  | zero => rfl
  | succ width ih =>
      have hhead : after a = before a := h a (Nat.le_refl a) (by omega)
      have htail : readLE after (a + 1) width = readLE before (a + 1) width :=
        ih fun x hlo hhi => h x (by omega) (by omega)
      rw [readLE, readLE, hhead, htail]

/-- Bytes that hold the digits of `value` read back as `value`, truncated to
their width. -/
theorem readLE_digits {bytes : Nat → Byte} {a : Nat} {width value : Nat}
    (h : ∀ i, i < width → bytes (a + i) = BitVec.ofNat 8 (value / 256 ^ i)) :
    readLE bytes a width = value % 256 ^ width := by
  induction width generalizing a value with
  | zero => rw [readLE, Nat.pow_zero, Nat.mod_one]
  | succ width ih =>
      have hhead : bytes a = BitVec.ofNat 8 value := by
        simpa only [Nat.add_zero, Nat.pow_zero, Nat.div_one] using h 0 (Nat.succ_pos width)
      have htail : readLE bytes (a + 1) width = value / 256 % 256 ^ width := by
        apply ih
        intro i hi
        have hbyte := h (i + 1) (Nat.succ_lt_succ hi)
        rwa [Nat.pow_succ', ← Nat.div_div_eq_div_mul, Nat.add_comm i 1, ← Nat.add_assoc] at hbyte
      have hpow : 256 ^ (width + 1) = 256 * 256 ^ width := Nat.pow_succ'
      rw [readLE, hhead, htail, BitVec.toNat_ofNat, hpow, Nat.mod_mul]

theorem readLE_writeLE (bytes : Nat → Byte) (a : Nat) (width value : Nat) :
    readLE (writeLE bytes a width value) a width = value % 256 ^ width := by
  apply readLE_digits
  intro i hi
  rw [writeLE, if_pos (by omega), Nat.add_sub_cancel_left]

theorem writeLE_outside (bytes : Nat → Byte) {a x : Nat} {width : Nat} (value : Nat)
    (hout : x < a ∨ a + width ≤ x) : writeLE bytes a width value x = bytes x := by
  rw [writeLE, if_neg (by omega)]

/-- Size of a pointer in memory. -/
def ptrBytes : Nat := 8

/-- A live `malloc` block of `size` bytes, with its contents. -/
structure Heap (size : Nat) where
  base : Nat
  bytes : Nat → Byte
  base_pos : 0 < base
  fits : base + size ≤ 2 ^ 64

namespace Heap

variable {size : Nat}

/-- All `width` bytes at `a` lie inside the block. -/
def Covers (h : Heap size) (a : Nat) (width : Nat) : Prop :=
  h.base ≤ a ∧ a + width ≤ h.base + size

instance (h : Heap size) (a : Nat) (width : Nat) : Decidable (h.Covers a width) :=
  inferInstanceAs (Decidable (_ ∧ _))

/-- `*(void**)a`. -/
def load (h : Heap size) (a : Nat) : Option Nat :=
  if h.Covers a ptrBytes then some (readLE h.bytes a ptrBytes) else none

/-- `*(void**)a = value`. -/
def store (h : Heap size) (a value : Nat) : Option (Heap size) :=
  if h.Covers a ptrBytes then some { h with bytes := writeLE h.bytes a ptrBytes value } else none

/-- Overwrite one byte, as a client of the block may do. -/
def setByte (h : Heap size) (a : Nat) (value : Byte) : Heap size :=
  { h with bytes := fun x => if x = a then value else h.bytes x }

theorem exists_store {h : Heap size} {a : Nat} (hc : h.Covers a ptrBytes) (value : Nat) :
    ∃ h', h.store a value = some h' :=
  ⟨_, if_pos hc⟩

/-- Everything a successful store does: the block stays in place, the address
was inside it, and only the eight bytes at the address change. -/
theorem store_spec {h h' : Heap size} {a value : Nat} (hs : h.store a value = some h') :
    h.Covers a ptrBytes ∧ h'.base = h.base ∧ h'.bytes = writeLE h.bytes a ptrBytes value := by
  rw [store] at hs
  split at hs
  · next hc =>
      cases hs
      exact ⟨hc, rfl, rfl⟩
  · cases hs

theorem store_base {h h' : Heap size} {a value : Nat} (hs : h.store a value = some h') :
    h'.base = h.base := (store_spec hs).2.1

theorem covers_of_store {h h' : Heap size} {a value : Nat} (hs : h.store a value = some h') :
    h.Covers a ptrBytes := (store_spec hs).1

/-- Bytes outside the eight stored ones are unchanged. -/
theorem store_frame {h h' : Heap size} {a value x : Nat} (hs : h.store a value = some h')
    (hout : x < a ∨ a + ptrBytes ≤ x) : h'.bytes x = h.bytes x := by
  rw [(store_spec hs).2.2]
  exact writeLE_outside h.bytes value hout

theorem covers_congr {h h' : Heap size} (hb : h'.base = h.base) {a : Nat} {width : Nat} :
    h'.Covers a width ↔ h.Covers a width := by
  simp only [Covers, hb]

/-- An address inside the block survives the round trip through memory. -/
theorem load_store {h h' : Heap size} {a value : Nat} (hs : h.store a value = some h')
    (hv : value < 2 ^ 64) : h'.load a = some value := by
  obtain ⟨hc, hb, hbytes⟩ := store_spec hs
  rw [load, if_pos ((covers_congr hb).mpr hc), hbytes, readLE_writeLE, ptrBytes,
    Nat.mod_eq_of_lt (by simpa using hv)]

/-- Blocks at one place that agree on the eight bytes at `a` load the same. -/
theorem load_congr {h h' : Heap size} {a : Nat} (hb : h'.base = h.base)
    (hbytes : ∀ x, a ≤ x → x < a + ptrBytes → h'.bytes x = h.bytes x) :
    h'.load a = h.load a := by
  simp only [load, covers_congr hb, readLE_congr hbytes]

/-- A store does not disturb a pointer eight or more bytes away. -/
theorem load_store_ne {h h' : Heap size} {a b value : Nat} (hs : h.store a value = some h')
    (hsep : a + ptrBytes ≤ b ∨ b + ptrBytes ≤ a) : h'.load b = h.load b :=
  load_congr (store_base hs) fun _ hlo hhi => store_frame hs (by omega)

end Heap
end Machine
