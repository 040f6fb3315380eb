/-!
# Malformed expressions

What can be wrong with the text of a polynomial.  All offsets are byte offsets into the text
without the blanks at its ends.

## Main definitions

* `ParseError` - the causes, each with the place and the text at fault
* `ParseError.offset?`, `ParseError.message` - the place, and the wording
-/

namespace SparsePoly

/-- Why a text is no expression. -/
inductive ParseError where
  /-- Nothing but blanks. -/
  | empty
  /-- A blank inside. -/
  | blank (offset : Nat)
  /-- A sign without a term after it. -/
  | straySign (sign : Char) (offset : Nat)
  /-- The coefficient is no numeral. -/
  | invalidCoefficient (fragment : List Char) (offset : Nat)
  /-- The exponent is no natural number of 32 bits. -/
  | invalidExponent (fragment : List Char) (offset : Nat)
  /-- The coefficient is a numeral beyond the largest number. -/
  | coefficientTooLarge (fragment : List Char) (offset : Nat)
  deriving DecidableEq

namespace ParseError

/-- The place that the error points at. -/
def offset? : ParseError → Option Nat
  | empty => none
  | blank offset => some offset
  | straySign _ offset => some offset
  | invalidCoefficient _ offset => some offset
  | invalidExponent _ offset => some offset
  | coefficientTooLarge _ offset => some offset

/-- A fragment in single quotes, followed by its place. -/
private def quotedAt (fragment : List Char) (offset : Nat) : String :=
  "'" ++ String.ofList fragment ++ "' at offset " ++ toString offset

/-- The wording. -/
def message : ParseError → String
  | empty => "empty expression"
  | blank offset => "unexpected whitespace at offset " ++ toString offset
  | straySign sign offset => "stray operator " ++ quotedAt [sign] offset
  | invalidCoefficient fragment offset => "invalid coefficient " ++ quotedAt fragment offset
  | invalidExponent fragment offset => "invalid exponent " ++ quotedAt fragment offset
  | coefficientTooLarge fragment offset =>
    "coefficient " ++ quotedAt fragment offset ++ " is out of range"

end ParseError

end SparsePoly
