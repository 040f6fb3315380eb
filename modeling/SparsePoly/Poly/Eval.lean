import SparsePoly.Decimal.Numeral
import SparsePoly.Poly.Basic

/-!
# Values and approximate roots

A polynomial is evaluated term by term in ascending order, and its values are added from zero.  A
root test is approximate: it asks whether the value is nearer to zero than a tolerance, and may
accept points that are merely close to a root.

## Main definitions

* `Poly.eval` - the value at a number
* `Poly.hasRootWithin`, `Poly.hasRoot` - the test, with a given tolerance and with `10 ^ -9`
-/

namespace SparsePoly

namespace Poly

/-- **The value at a number.**  What overflows becomes infinite; the zero polynomial has the value
zero everywhere. -/
def eval (p : Poly) (x : Binary64) : Binary64 := Binary64.sum (p.terms.map (·.eval x))

@[simp] theorem eval_zero (x : Binary64) : (0 : Poly).eval x = 0 := rfl

/-- **The root test** with a tolerance of the caller's.  It fails if the value is NaN. -/
def hasRootWithin (p : Poly) (x tolerance : Binary64) : Bool := (p.eval x).abs.less tolerance

/-- The usual tolerance, `10 ^ -9`. -/
def rootTolerance : Binary64 := Numeral.value ⟨1, 9⟩

/-- The root test with the usual tolerance. -/
def hasRoot (p : Poly) (x : Binary64) : Bool := p.hasRootWithin x rootTolerance

end Poly

end SparsePoly
