import SparsePoly.Decimal.Numeral
import SparsePoly.Expression.Token
import SparsePoly.Poly.Basic

/-!
# Reading expressions

An expression is a row of signed terms.  A term is a numeral, or the variable `x` with a numeral
in front, which may be missing and is then one, and with decimal digits after it, which may be
missing and are then one.  Blanks are allowed at both ends of the text and nowhere inside.

## Main definitions

* `Token.term` - the term that a token denotes
* `Poly.parse` - the polynomial that a text denotes

## Design decisions

* Terms are read from left to right and the first one that is malformed decides the error; within
  a term the coefficient comes before the exponent.
* Terms may come in any order and several may have one exponent.  They are added up, which may
  leave the finite range: only a single numeral beyond it is an error.
-/

namespace SparsePoly

/-- Reads a coefficient without sign. -/
def readCoefficient (text : List Char) (offset : Nat) : Except ParseError Binary64 :=
  match Numeral.read? text with
  | none => .error (.invalidCoefficient text offset)
  | some numeral =>
    if numeral.value.isFinite then
      .ok numeral.value
    else
      .error (.coefficientTooLarge text offset)

/-- Reads an exponent: digits, any number of zeros in front. -/
def readExponent (text : List Char) (offset : Nat) : Except ParseError UInt32 :=
  if text.all Char.isDigit ∧ ¬text.isEmpty ∧ Numeral.natOfDigits text < UInt32.size then
    .ok (UInt32.ofNat (Numeral.natOfDigits text))
  else
    .error (.invalidExponent text offset)

/-- The character of the variable. -/
def variableChar : Char := 'x'

namespace Token

/-- **The term that a token denotes.**  The first `x` separates the coefficient from the exponent;
without one the token is a constant. -/
def term (t : Token) : Except ParseError Term :=
  let front := t.body.takeWhile (· != variableChar)
  match t.body.dropWhile (· != variableChar) with
  | [] => do
    let magnitude ← readCoefficient front t.offset
    return ⟨0, t.sign.apply magnitude⟩
  | _ :: back => do
    let magnitude ← if front.isEmpty then .ok 1 else readCoefficient front t.offset
    let exponent ←
      if back.isEmpty then .ok 1
      else readExponent back (t.offset + Text.byteLength front + variableChar.utf8Size)
    return ⟨exponent, t.sign.apply magnitude⟩

end Token

namespace Poly

/-- The terms that an expression without blanks denotes, in text order. -/
def readTerms (expression : List Char) : Except ParseError (List Term) :=
  (Token.scan expression).mapM fun item => item.bind Token.term

/-- **The polynomial that a text denotes.** -/
def parse (text : List Char) : Except ParseError Poly :=
  let expression := Text.trim text
  if expression.isEmpty then
    .error .empty
  else
    match Text.firstBlank? expression with
    | some offset => .error (.blank offset)
    | none => (readTerms expression).map collect

/-- Reads a polynomial from a string. -/
def ofString (s : String) : Except ParseError Poly := parse s.toList

end Poly

end SparsePoly
