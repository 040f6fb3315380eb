import SparsePoly.Binary64.Power

/-!
# Terms

A term `coeff * x ^ exponent` in one variable.  Exponents are 32-bit words.

A term by itself may have any coefficient; what a list of terms must satisfy to be a polynomial is
said in `SparsePoly.Terms.Canonical`.
-/

namespace SparsePoly

/-- The term `coeff * x ^ exponent`. -/
structure Term where
  /-- The power of the variable. -/
  exponent : UInt32
  /-- The coefficient. -/
  coeff : Binary64
  deriving DecidableEq

namespace Term

/-- A term without the variable. -/
def isConstant (t : Term) : Bool := t.exponent == 0

/-- **The value of a term.**  The power comes first and is multiplied once; a constant term is
its coefficient, at zero too. -/
def eval (t : Term) (x : Binary64) : Binary64 := t.coeff * x.pow t.exponent

/-- A constant term has its coefficient for a value everywhere. -/
@[simp] theorem eval_constant (c x : Binary64) : eval ⟨0, c⟩ x = c := by
  simp [eval]

/-- The term with the other sign. -/
def neg (t : Term) : Term := ⟨t.exponent, -t.coeff⟩

@[simp] theorem neg_neg (t : Term) : t.neg.neg = t := by
  simp [neg]

/-- The term with the coefficient multiplied by a number. -/
def scale (t : Term) (c : Binary64) : Term := ⟨t.exponent, t.coeff * c⟩

/-- The product of two terms.  The exponents are added as words. -/
def mul (t u : Term) : Term := ⟨t.exponent + u.exponent, t.coeff * u.coeff⟩

instance : Mul Term := ⟨mul⟩

/-- Equality with the coefficients compared as numbers. -/
def equal (t u : Term) : Bool := t.exponent == u.exponent && t.coeff.equal u.coeff

end Term

end SparsePoly
