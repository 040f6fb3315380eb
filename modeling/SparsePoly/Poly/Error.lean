import SparsePoly.Decimal.Text
import SparsePoly.Terms.Product

/-!
# What polynomials are not made of

The causes for which explicit data or an argument of an operation is refused, and their wording.
A cause keeps the offending value.

## Main definitions

* `ConstructionError` - explicit terms or coefficients make no polynomial
* `DomainError` - a coefficient or scalar outside the domain of an operation
* `ProductError.message` - the wording for products that cannot be formed
-/

namespace SparsePoly

/-- Why explicit terms or coefficients make no polynomial. -/
inductive ConstructionError where
  /-- An exponent is negative or too large. -/
  | exponentOutOfRange (exponent : Int)
  /-- A coefficient is infinite or NaN. -/
  | nonFiniteCoefficient (coeff : Binary64)
  deriving DecidableEq

/-- Why an operation refuses its argument. -/
inductive DomainError where
  /-- The coefficient of a monomial is infinite or NaN. -/
  | nonFiniteCoefficient (coeff : Binary64)
  /-- A scalar factor is infinite or NaN. -/
  | nonFiniteScalar (scalar : Binary64)
  deriving DecidableEq

/-- The wording. -/
def ConstructionError.message : ConstructionError → String
  | exponentOutOfRange exponent =>
    "invalid exponent " ++ toString exponent ++
      ": exponents must be non-negative and fit in 32 bits"
  | nonFiniteCoefficient coeff =>
    "coefficient " ++ toString coeff ++ " is not a finite real number"

/-- The wording. -/
def DomainError.message : DomainError → String
  | nonFiniteCoefficient coeff => "coefficient " ++ toString coeff ++ " is not finite"
  | nonFiniteScalar scalar => "scalar " ++ toString scalar ++ " is not finite"

/-- The wording. -/
def ProductError.message : ProductError → String
  | degreeOverflow left right =>
    "product degree " ++ toString left.toNat ++ " + " ++ toString right.toNat ++
      " overflows the exponent range"
  | aboveBound => "partial product above the degree bound"

end SparsePoly
