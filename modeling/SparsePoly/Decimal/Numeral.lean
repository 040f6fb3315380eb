import SparsePoly.Binary64.Arithmetic

/-!
# Decimal numerals

Unsigned decimal numerals as polynomials are written with: ASCII digits, at least one, with at
most one point before, between or after them.  A numeral denotes an exact decimal fraction, and
its value is the binary64 number nearest to that, however many digits there are.

## Main definitions

* `Numeral` - the digits as one natural number, and how many of them follow the point
* `Numeral.read?` - reads a text, all of it
* `Numeral.value` - the nearest binary64 number, infinite beyond the largest magnitude
-/

namespace SparsePoly

/-- The decimal fraction `digits / 10 ^ places`. -/
structure Numeral where
  /-- All digits, read as one natural number. -/
  digits : Nat
  /-- The number of digits after the point. -/
  places : Nat
  deriving DecidableEq

namespace Numeral

/-- The natural number that decimal digits denote; no digits denote zero. -/
def natOfDigits (digits : List Char) : Nat := Nat.ofDigitChars 10 digits 0

@[simp] theorem natOfDigits_nil : natOfDigits [] = 0 := rfl

/-- The digits of a number denote it. -/
@[simp] theorem natOfDigits_toDigits (n : Nat) : natOfDigits (Nat.toDigits 10 n) = n :=
  Nat.ofDigitChars_ten_toDigits

/-- Reads a numeral; `none` if the text is anything else, were it only a sign, an exponent or a
blank more. -/
def read? (text : List Char) : Option Numeral :=
  let whole := text.takeWhile Char.isDigit
  match text.dropWhile Char.isDigit with
  | [] => if whole.isEmpty then none else some ⟨natOfDigits whole, 0⟩
  | point :: fraction =>
    if point = '.' ∧ fraction.all Char.isDigit = true ∧ ¬(whole ++ fraction).isEmpty then
      some ⟨natOfDigits (whole ++ fraction), fraction.length⟩
    else
      none

@[simp] theorem read?_nil : read? [] = none := rfl

private theorem takeWhile_append_of_all {p : Char → Bool} {front : List Char}
    (all : ∀ c ∈ front, p c = true) (rest : List Char) :
    (front ++ rest).takeWhile p = front ++ rest.takeWhile p ∧
      (front ++ rest).dropWhile p = rest.dropWhile p := by
  induction front with
  | nil => simp
  | cons c front ih =>
    have head := all c List.mem_cons_self
    have tail := ih fun d mem => all d (List.mem_cons_of_mem c mem)
    simp [head, tail]

/-- **Digits are a numeral.** -/
theorem read?_digits {digits : List Char} (nonempty : digits ≠ [])
    (all : ∀ c ∈ digits, c.isDigit = true) : read? digits = some ⟨natOfDigits digits, 0⟩ := by
  have ⟨taken, dropped⟩ := takeWhile_append_of_all all []
  rw [List.append_nil] at taken dropped
  unfold read?
  simp [taken, dropped, nonempty]

/-- **Digits with a point among them are a numeral.** -/
theorem read?_point {whole fraction : List Char} (nonempty : whole ++ fraction ≠ [])
    (whole_all : ∀ c ∈ whole, c.isDigit = true) (fraction_all : ∀ c ∈ fraction, c.isDigit = true) :
    read? (whole ++ '.' :: fraction) =
      some ⟨natOfDigits (whole ++ fraction), fraction.length⟩ := by
  have ⟨taken, dropped⟩ := takeWhile_append_of_all whole_all ('.' :: fraction)
  have stop : ('.' : Char).isDigit = false := by decide
  unfold read?
  rw [taken, dropped, List.takeWhile_cons, List.dropWhile_cons, stop]
  simp only [Bool.false_eq_true, ↓reduceIte, List.append_nil]
  rw [if_pos ⟨trivial, List.all_eq_true.mpr fraction_all, by simpa using nonempty⟩]

/-- **The value of a numeral.**  One rounding, from the exact decimal fraction. -/
def value (n : Numeral) : Binary64 :=
  Binary64.rounded false (n.digits * Binary64.unitsPerOne) (10 ^ n.places)

end Numeral

end SparsePoly
