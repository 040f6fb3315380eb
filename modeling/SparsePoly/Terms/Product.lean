import SparsePoly.Terms.DenseSums
import SparsePoly.Terms.SparseSums
import SparsePoly.Terms.Stored

/-!
# Products of lists of terms

Every pair of terms contributes its product, and what falls on one exponent is added.  Sums of
rounded numbers depend on their order, so the order of the pairs is part of the result: the
operands are put in order first, and of the ordered operands the first is the outer one.  That
makes the product independent of which operand was given first.

## Main definitions

* `Terms.inOrder` - the operands in order, by the words in which they are stored
* `Terms.partialProducts` - the products of all pairs
* `Terms.degreeBound` - the sum of the last exponents, if it is an exponent
* `Terms.Scratch`, `Terms.chooseScratch` - where the partial products are added up
* `Terms.productIn`, `Terms.product` - the product, in given scratch space or in the one chosen

## Main statements

* `Terms.canonical_productIn`, `Terms.canonical_product` - products are canonical

## Design decisions

* A degree that is no exponent is an error of the operands.  A partial product above the degree
  bound can only come from operands that do not ascend; it is an error of its own in the dense
  scratch space.
* The order of operands compares the words of NaNs, which nothing else depends on.  So those words
  are a parameter of products (`Patterns`), and not a part of coefficients.
-/

namespace SparsePoly

/-- Why a product cannot be formed. -/
inductive ProductError where
  /-- The sum of the last exponents of the operands, as given, does not fit in 32 bits. -/
  | degreeOverflow (left right : UInt32)
  /-- A partial product lies above the degree bound. -/
  | aboveBound
  deriving DecidableEq

namespace Terms

/-! ### Pairs of terms -/

/-- The operands in order; equal ones stay as they are. -/
def inOrder [Patterns] (ts us : List Term) : List Term × List Term :=
  if operandOrder (Patterns.stored ts) (Patterns.stored us) = .gt then (us, ts) else (ts, us)

/-- The products of all pairs, the first list being the outer one. -/
def partialProducts (ts us : List Term) : List Term := ts.flatMap fun t => us.map fun u => t * u

/-! ### Scratch space -/

/-- Where partial products are added up. -/
inductive Scratch where
  /-- A row with a slot for every exponent up to the degree bound. -/
  | dense
  /-- A tree of the exponents that occur. -/
  | sparse
  deriving DecidableEq

/-- **The degree bound**: no product of terms of ascending lists lies above it.  There is none if
a list is empty. -/
def degreeBound (ts us : List Term) : Except ProductError (Option UInt32) :=
  match lastExponent? ts, lastExponent? us with
  | some m, some n =>
    if m.toNat + n.toNat < UInt32.size then
      .ok (some (m + n))
    else
      .error (.degreeOverflow m n)
  | _, _ => .ok none

/-- A row may have this many slots for each partial product. -/
def slotsPerProduct : Nat := 4

/-- **The choice of scratch space**: a row if it is not much longer than the number of partial
products, none if there are no partial products. -/
def chooseScratch (ts us : List Term) : Except ProductError (Option Scratch) :=
  match degreeBound ts us with
  | .error e => .error e
  | .ok none => .ok none
  | .ok (some bound) =>
    if bound.toNat < slotsPerProduct * (ts.length * us.length) then
      .ok (some .dense)
    else
      .ok (some .sparse)

/-! ### Products -/

/-- **The product, in given scratch space.** -/
def productIn [Patterns] (scratch : Scratch) (ts us : List Term) :
    Except ProductError (List Term) :=
  match degreeBound ts us with
  | .error e => .error e
  | .ok none => .ok []
  | .ok (some bound) =>
    -- The bound does not depend on the order, but which operand an error names first does.
    let operands := inOrder ts us
    let products := partialProducts operands.1 operands.2
    match scratch with
    | .dense =>
      match (DenseSums.empty bound.toNat).addAll? products with
      | some sums => .ok sums.toTerms
      | none => .error .aboveBound
    | .sparse => .ok (SparseSums.empty.addAll products).toTerms

/-- **The product**, in the scratch space that suits it. -/
def product [Patterns] (ts us : List Term) : Except ProductError (List Term) :=
  match chooseScratch ts us with
  | .error e => .error e
  | .ok none => .ok []
  | .ok (some scratch) => productIn scratch ts us

/-- **Products are canonical**, in either scratch space. -/
theorem canonical_productIn [Patterns] {scratch : Scratch} {ts us vs : List Term}
    (eq : productIn scratch ts us = .ok vs) : Canonical vs := by
  unfold productIn at eq
  split at eq
  · cases eq
  · cases eq
    exact canonical_nil
  · simp only at eq
    split at eq
    · split at eq
      · cases eq
        exact DenseSums.canonical_toTerms _
      · cases eq
    · cases eq
      exact SparseSums.canonical_toTerms _

theorem canonical_product [Patterns] {ts us vs : List Term} (eq : product ts us = .ok vs) :
    Canonical vs := by
  unfold product at eq
  split at eq
  · cases eq
  · cases eq
    exact canonical_nil
  · exact canonical_productIn eq

end Terms

end SparsePoly
