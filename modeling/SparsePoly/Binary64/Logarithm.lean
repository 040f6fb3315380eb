import SparsePoly.Binary64.Bits
import SparsePoly.Binary64.Twofold

/-!
# Logarithms near one

The natural logarithm of a number `1 + r` with a small `r`, as a twofold number.  The leading terms
`r - r ^ 2 / 2` are kept with everything that their rounding loses; the terms from `r ^ 3` on are
small against them and are numbers.

## Main definitions

* `Binary64.logNearOne` - the logarithm of a number that differs little from one
-/

namespace SparsePoly

namespace Binary64

/-- The coefficients `a` of the later terms.  With `s = -r ^ 2 / 2` these terms are the product of
`r * s` and `a 0 + a 1 * r + s * (a 2 + a 3 * r + s * (a 4 + a 5 * r))`.  The series of the
logarithm has `-2 / 3`, `1 / 2`, `4 / 5`, `-2 / 3`, `-8 / 7` and `1`; a polynomial that ends at
`r ^ 8` comes nearest to the logarithm with coefficients a little different. -/
def logCoefficients : Vector Binary64 6 :=
  #v[ofBits 0xBFE5555555555560, ofBits 0x3FE0000000000006, ofBits 0x3FE999999959554E,
    ofBits 0xBFE555555529A47A, ofBits 0xBFF2495B9B4845E9, ofBits 0x3FF0002B8B263FC3]

/-- The number `-1 / 2`. -/
def minusHalf : Binary64 := (-1 : Binary64).scaleB (-1)

/-- **The logarithm of a number near one.**  The difference from one is exact. -/
def logNearOne (x : Binary64) : Twofold :=
  let a := logCoefficients
  let r := x - 1
  -- The leading terms, with the loss of their product and of their sum.
  let square := Twofold.ofProduct (minusHalf * r) r
  let leading := Twofold.ofSum r square.head
  -- The later terms.
  let s := square.head
  let series :=
    s.mulAdd ((r.mulAdd a[5] a[4]).mulAdd s (r.mulAdd a[3] a[2])) (r.mulAdd a[1] a[0])
  Twofold.ofSum leading.head ((r * s).mulAdd series (square.tail + leading.tail))

/-- The logarithm of one is zero. -/
@[simp] theorem logNearOne_one : logNearOne 1 = 0 := by
  decide +kernel

end Binary64

end SparsePoly
