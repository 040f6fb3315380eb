import SparsePoly.Poly.Basic

/-!
# Dense rows of coefficients

A polynomial as the row of all its coefficients up to its degree.  Entry `i` belongs to the
exponent `i`; the zero polynomial has the empty row.
-/

namespace SparsePoly

namespace Poly

/-- **From a dense row.**  The first entry that is not finite is refused, and so is a row with
more entries than there are exponents; zeros give no term. -/
def ofDense (cs : List Binary64) : Except ConstructionError Poly :=
  match cs.find? (! ·.isFinite) with
  | some c => .error (.nonFiniteCoefficient c)
  | none =>
    if fits : cs.length ≤ UInt32.size then
      .ok ⟨Terms.ofCoefficients cs, Terms.canonical_ofCoefficients fits⟩
    else
      .error (.exponentOutOfRange (cs.length - 1 : Nat))

/-- The row of ascending terms from the exponent `first` on, with zeros in the gaps. -/
def denseFrom (first : Nat) : List Term → List Binary64
  | [] => []
  | t :: ts =>
    List.replicate (t.exponent.toNat - first) 0 ++ t.coeff :: denseFrom (t.exponent.toNat + 1) ts

/-- **To a dense row**, which ends with the leading coefficient. -/
def toDense (p : Poly) : List Binary64 := denseFrom 0 p.terms

@[simp] theorem toDense_zero : (0 : Poly).toDense = [] := rfl

end Poly

end SparsePoly
