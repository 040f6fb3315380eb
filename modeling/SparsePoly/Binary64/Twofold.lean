import SparsePoly.Binary64.Arithmetic

/-!
# Twofold numbers

A *twofold* number is a sum of two binary64 numbers that is left standing: a head, and a tail that
holds what the head has lost by rounding.  It has about twice as many significant bits as a
number, and its operations are a few operations on numbers.

## Main definitions

* `Twofold` - the sum of a head and a tail
* `Twofold.ofSum`, `Twofold.ofProduct` - a sum and a product with what their rounding has lost
* `Twofold.mulLeft` - the product with a number
-/

namespace SparsePoly

namespace Binary64

/-- The number `head + tail`. -/
structure Twofold where
  /-- The number, rounded or nearly so. -/
  head : Binary64
  /-- What is to be added to the head. -/
  tail : Binary64
  deriving DecidableEq

namespace Twofold

instance : Zero Twofold := ⟨⟨0, 0⟩⟩

/-- **A sum and its loss.**  The first summand is meant to be the greater one: then what is left
of the second, once the head has taken its part, is a number. -/
def ofSum (greater smaller : Binary64) : Twofold :=
  let total := greater + smaller
  ⟨total, (greater - total) + smaller⟩

/-- **A product and its loss.**  The fused operation brings to light what the head has lost. -/
def ofProduct (x y : Binary64) : Twofold :=
  let product := x * y
  ⟨product, x.mulAdd y (-product)⟩

/-- The product of a number and a twofold number. -/
def mulLeft (x : Binary64) (y : Twofold) : Twofold :=
  let leading := ofProduct x y.head
  ⟨leading.head, x.mulAdd y.tail leading.tail⟩

/-- The product with zero is zero. -/
@[simp] theorem mulLeft_zero (m : Magnitude) : mulLeft (finite false m) 0 = 0 := by
  have product : finite false m * 0 = 0 := by
    rw [zero_def, finite_mul_finite, mulFinite, Magnitude.units_zero, Nat.mul_zero, rounded_zero]
    rfl
  have fused (s : Bool) : (finite false m).mulAdd 0 (finite s 0) = 0 := by
    rw [zero_def, finite_mulAdd_finite, mulAddFinite, if_pos (by simp [signedUnits])]
    rfl
  have head : (0 : Twofold).head = 0 := rfl
  have tail : (0 : Twofold).tail = 0 := rfl
  unfold mulLeft ofProduct
  simp only [head, tail, product]
  have left : (finite false m).mulAdd 0 (-0) = 0 := fused true
  have right : (finite false m).mulAdd 0 0 = 0 := fused false
  rw [left, right]
  rfl

end Twofold

end Binary64

end SparsePoly
