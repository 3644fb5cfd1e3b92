import HwBench.Machine.Signed

/-!
# Decimal integers in text

`std::stoi` skips white space, takes an optional sign and the digits that follow,
and ignores the rest of the text. It throws if there is no digit, and if the value
is not an `int`.
-/

namespace Machine

/-- The exceptions of `std::stoi`. -/
inductive StoiError where
  | invalidArgument
  | outOfRange
  deriving DecidableEq, Repr

/-- `isspace` in the C locale: the blank, and the codes from tab to carriage return. -/
def isSpace (c : Char) : Bool := c.toNat == 32 || (9 ≤ c.toNat && c.toNat ≤ 13)

/-- The value of the digits at the start of a text, if there are any. -/
def leadingNat (text : List Char) : Option Nat :=
  let digits := text.takeWhile Char.isDigit
  if digits = [] then none else some (Nat.ofDigitChars 10 digits 0)

/-- `strtol(text, &end, 10)`, in exact arithmetic. -/
def strtol (text : List Char) : Option Int :=
  match text.dropWhile isSpace with
  | '-' :: rest => (leadingNat rest).map fun n : Nat => -(n : Int)
  | '+' :: rest => (leadingNat rest).map fun n : Nat => (n : Int)
  | rest => (leadingNat rest).map fun n : Nat => (n : Int)

def stoi (text : List Char) : Except StoiError CInt :=
  match strtol text with
  | none => .error .invalidArgument
  | some value =>
      match Signed.ofInt? 32 value with
      | none => .error .outOfRange
      | some result => .ok result

/-- The digits of a number, up to a character that is not a digit. -/
theorem leadingNat_toDigits (n : Nat) {rest : List Char}
    (hrest : ∀ c ∈ rest.head?, c.isDigit = false) :
    leadingNat (Nat.toDigits 10 n ++ rest) = some n := by
  have hdigits : ∀ c ∈ Nat.toDigits 10 n, c.isDigit = true :=
    fun c hc => Nat.isDigit_of_mem_toDigits (by decide) (by decide) hc
  have htake : (Nat.toDigits 10 n ++ rest).takeWhile Char.isDigit = Nat.toDigits 10 n := by
    rw [List.takeWhile_append_of_pos hdigits]
    cases rest with
    | nil => simp
    | cons c rest => simp [hrest c rfl]
  rw [leadingNat, htake, if_neg Nat.toDigits_ne_nil, Nat.ofDigitChars_ten_toDigits]

/-- A digit is neither white space nor a sign. -/
theorem strtol_of_isDigit {c : Char} (hc : c.isDigit = true) (text : List Char) :
    strtol (c :: text) = (leadingNat (c :: text)).map fun n : Nat => (n : Int) := by
  have hcode : 48 ≤ c.toNat ∧ c.toNat ≤ 57 := Char.isDigit_iff_toNat.mp hc
  have hspace : ¬isSpace c = true := by
    simp only [isSpace, Bool.or_eq_true, Bool.and_eq_true, beq_iff_eq, decide_eq_true_eq]
    omega
  rw [strtol, List.dropWhile_cons_of_neg hspace]
  split
  · next heq =>
      cases heq
      exact absurd hc (by decide)
  · next heq =>
      cases heq
      exact absurd hc (by decide)
  · rfl

theorem stoi_toDigits {n : Nat} (hn : n < 2 ^ 31) {rest : List Char}
    (hrest : ∀ c ∈ rest.head?, c.isDigit = false) :
    ∃ value, stoi (Nat.toDigits 10 n ++ rest) = .ok value ∧ value.toInt = n := by
  obtain ⟨value, hvalue, hint⟩ := Signed.exists_ofInt? (w := 32) (by decide)
    (i := (n : Int)) (by omega) (by omega)
  obtain ⟨c, digits, hcons⟩ := List.exists_cons_of_ne_nil (Nat.toDigits_ne_nil (n := n) (b := 10))
  have hc : c.isDigit = true :=
    Nat.isDigit_of_mem_toDigits (by decide) (by decide) (hcons ▸ List.mem_cons_self)
  refine ⟨value, ?_, hint⟩
  have hleading := leadingNat_toDigits n hrest
  rw [hcons, List.cons_append] at hleading ⊢
  rw [stoi, strtol_of_isDigit hc, hleading, Option.map_some]
  simp only [hvalue]

end Machine
