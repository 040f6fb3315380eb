import SparsePoly.Decimal.Text
import SparsePoly.Poly.Basic

/-!
# Writing expressions

A polynomial is written term by term in ascending order.  A coefficient of one is not written
before the variable, nor an exponent of one after it; a constant is its coefficient alone.  Minus
signs belong to the coefficients, and a plus sign stands before every positive coefficient but the
first.  The zero polynomial is written `0`.

## Main definitions

* `Term.pieces`, `Poly.pieces` - the text in the small pieces in which it is put out
* `Poly.render` - the whole text
-/

namespace SparsePoly

namespace Term

/-- The coefficient before the variable: nothing for one, only the sign for minus one. -/
def coefficientText (t : Term) : List Char :=
  if t.coeff = -1 then ['-'] else if t.coeff = 1 then [] else t.coeff.text

/-- The exponent after the variable: nothing for one. -/
def exponentText (t : Term) : List Char :=
  if 1 < t.exponent then Nat.toDigits 10 t.exponent.toNat else []

/-- **A term.** -/
def pieces (t : Term) : List (List Char) :=
  if t.isConstant then [t.coeff.text] else [t.coefficientText, ['x'], t.exponentText]

/-- What joins a term to the ones before it. -/
def joint (t : Term) : List Char := if Binary64.less 0 t.coeff then ['+'] else []

end Term

namespace Poly

/-- **A polynomial**, in pieces. -/
def pieces (p : Poly) : List (List Char) :=
  match p.terms with
  | [] => [['0']]
  | t :: ts => t.pieces ++ ts.flatMap fun u => u.joint :: u.pieces

/-- The text of a polynomial. -/
def render (p : Poly) : List Char := p.pieces.flatten

instance : ToString Poly := ⟨fun p => String.ofList p.render⟩

@[simp] theorem render_zero : (0 : Poly).render = ['0'] := rfl

end Poly

end SparsePoly
