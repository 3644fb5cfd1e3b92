import HwBench.Machine.Word

/-!
# Signed integers with undefined overflow

Signed C++ integers are two's complement numbers. An operation whose exact result
is outside the range of its type is undefined behaviour, and gives `none` here;
when it is defined, the result is also the wrapped one. The conversion to
`uint64_t` keeps the value modulo `2 ^ 64`, that is, it extends the sign.
-/

namespace Machine

/-- A C++ `int`. -/
abbrev CInt : Type := BitVec 32

/-- A C++ `int64_t`. -/
abbrev CInt64 : Type := BitVec 64

namespace Signed

variable {w : Nat} {a b c : BitVec w}

/-- The number of type `BitVec w` with a given value, if there is one. -/
def ofInt? (w : Nat) (i : Int) : Option (BitVec w) :=
  if (BitVec.ofInt w i).toInt = i then some (BitVec.ofInt w i) else none

def add? (a b : BitVec w) : Option (BitVec w) := ofInt? w (a.toInt + b.toInt)

def mul? (a b : BitVec w) : Option (BitVec w) := ofInt? w (a.toInt * b.toInt)

/-- `static_cast<uint64_t>(a)`, and the implicit conversion beside a `uint64_t`. -/
def toWord (a : BitVec w) : Word := a.signExtend 64

theorem toWord_eq (a : BitVec w) : toWord a = BitVec.ofInt 64 a.toInt := rfl

theorem ofInt?_eq_some {i : Int} (h : ofInt? w i = some a) : a = BitVec.ofInt w i ∧ a.toInt = i := by
  rw [ofInt?] at h
  split at h
  · next hi =>
      cases h
      exact ⟨rfl, hi⟩
  · cases h

/-- A value in range is represented exactly. -/
theorem exists_ofInt? (hw : 0 < w) {i : Int} (hlo : -2 ^ (w - 1) ≤ i) (hhi : i < 2 ^ (w - 1)) :
    ∃ a : BitVec w, ofInt? w i = some a ∧ a.toInt = i := by
  have hvalue : (BitVec.ofInt w i).toInt = i := BitVec.toInt_ofInt_eq_self hw hlo hhi
  exact ⟨BitVec.ofInt w i, if_pos hvalue, hvalue⟩

theorem exists_add? (hw : 0 < w) (hlo : -2 ^ (w - 1) ≤ a.toInt + b.toInt)
    (hhi : a.toInt + b.toInt < 2 ^ (w - 1)) :
    ∃ c, add? a b = some c ∧ c.toInt = a.toInt + b.toInt :=
  exists_ofInt? hw hlo hhi

theorem exists_mul? (hw : 0 < w) (hlo : -2 ^ (w - 1) ≤ a.toInt * b.toInt)
    (hhi : a.toInt * b.toInt < 2 ^ (w - 1)) :
    ∃ c, mul? a b = some c ∧ c.toInt = a.toInt * b.toInt :=
  exists_ofInt? hw hlo hhi

/-- A defined sum is the wrapped sum and has the exact value. -/
theorem add?_eq_some (h : add? a b = some c) : c = a + b ∧ c.toInt = a.toInt + b.toInt := by
  obtain ⟨hbits, hvalue⟩ := ofInt?_eq_some h
  refine ⟨?_, hvalue⟩
  rw [hbits, BitVec.ofInt_add, BitVec.ofInt_toInt, BitVec.ofInt_toInt]

/-- Without the sign bit both readings of the bits agree. -/
theorem toInt_eq_toNat (ha : 0 ≤ a.toInt) : a.toInt = a.toNat :=
  BitVec.toInt_eq_toNat_of_lt (BitVec.toInt_pos_iff.mp ha)

theorem toWord_eq_ofNat (ha : 0 ≤ a.toInt) : toWord a = BitVec.ofNat 64 a.toNat := by
  rw [toWord_eq, toInt_eq_toNat ha, BitVec.ofInt_natCast]

end Signed

end Machine
