import SparsePoly.Decimal.Numeral
import SparsePoly.Decimal.Shortest

/-!
# Binary64 numbers as text

A number is written as the shortest decimal that reads back to it, in positional notation of any
length: never with an exponent, with a point only if digits follow it, and with a digit before the
point.  So `1e23` is `1` and twenty-three zeros, one is `1` and a tenth is `0.1`.

## Main definitions

* `Decimal.text` - positional notation
* `Binary64.text` - with a minus sign where it is due, and names for what is no number of digits
-/

namespace SparsePoly

namespace Decimal

/-- The digits of a natural number, filled up with leading zeros to at least `width`. -/
def paddedDigits (width n : Nat) : List Char :=
  let digits := Nat.toDigits 10 n
  List.replicate (width - digits.length) '0' ++ digits

/-- **Positional notation.**  Zeros fill the places up to the point on either side of it. -/
def text (d : Decimal) : List Char :=
  match d.exponent with
  | .ofNat zeros => Nat.toDigits 10 d.digits ++ List.replicate zeros '0'
  | .negSucc k =>
    let digits := paddedDigits (k + 2) d.digits
    digits.take (digits.length - (k + 1)) ++ '.' :: digits.drop (digits.length - (k + 1))

end Decimal

namespace Binary64

/-- The text of a magnitude. -/
def Magnitude.text (m : Magnitude) : List Char :=
  if m.units = 0 then ['0'] else (Decimal.shortest m).text

/-- A minus sign, if negative. -/
def signText (negative : Bool) : List Char := if negative then ['-'] else []

/-- **The text of a number.** -/
def text : Binary64 → List Char
  | nan => ['N', 'a', 'N']
  | infinity negative => signText negative ++ ['i', 'n', 'f']
  | finite negative magnitude => signText negative ++ magnitude.text

instance : ToString Binary64 := ⟨fun x => String.ofList x.text⟩

end Binary64

end SparsePoly
