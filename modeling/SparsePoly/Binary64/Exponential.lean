import SparsePoly.Binary64.Bits
import SparsePoly.Binary64.Twofold

/-!
# Exponentials

The number `e ^ t` for a twofold `t`.  The exponent is divided into whole steps of `log 2 / 128`
and a rest: the steps give a power of two and one of the 128 numbers `2 ^ (step / 128)`, and a
polynomial gives the power of the rest, which is at most half a step.

## Main definitions

* `binaryRoot` - the leading bits of `2 ^ (step / degree)`, in exact arithmetic
* `Binary64.exp` - the exponential of a twofold number

## Main statements

* `binaryRoot_bounds` - the leading bits are a root rounded down

## Design decisions

* The 128 numbers are not stored.  Each is a root of a power of two, which exact arithmetic finds
  with bits enough for the nearest number and for what that has lost.
* A subnormal result is rounded once from a twofold product, at the spacing that it will have, and
  not once more when it is brought to its place.
-/

namespace SparsePoly

/-! ### Roots of powers of two -/

/-- **The leading bits of a root.**  The number `2 ^ (step / degree)`, where `step < degree`, with
the given number of bits after the point, rounded down.  Each bit is set if the power of the
outcome does not become too large. -/
def binaryRoot (degree step : Nat) : Nat → Nat
  | 0 => 1
  | bits + 1 =>
    let even := 2 * binaryRoot degree step bits
    if (even + 1) ^ degree ≤ 2 ^ (degree * (bits + 1) + step) then even + 1 else even

/-- **A root rounded down.**  Its power does not exceed the power of two, and the power of the next
number does. -/
theorem binaryRoot_bounds {degree step : Nat} (lt : step < degree) (bits : Nat) :
    binaryRoot degree step bits ^ degree ≤ 2 ^ (degree * bits + step) ∧
      2 ^ (degree * bits + step) < (binaryRoot degree step bits + 1) ^ degree := by
  induction bits with
  | zero =>
    simp only [binaryRoot, Nat.one_pow, Nat.mul_zero, Nat.zero_add]
    exact ⟨Nat.two_pow_pos step, Nat.pow_lt_pow_right (by decide) lt⟩
  | succ bits ih =>
    obtain ⟨below, above⟩ := ih
    have shift : 2 ^ (degree * (bits + 1) + step) = 2 ^ degree * 2 ^ (degree * bits + step) := by
      rw [← Nat.pow_add]
      congr 1
      rw [Nat.mul_add]
      omega
    have positive := Nat.two_pow_pos degree
    simp only [binaryRoot]
    split
    · rename_i le
      refine ⟨le, ?_⟩
      rw [shift, show 2 * binaryRoot degree step bits + 1 + 1 =
        2 * (binaryRoot degree step bits + 1) by omega, Nat.mul_pow]
      exact Nat.mul_lt_mul_of_pos_left above positive
    · rename_i gt
      refine ⟨?_, Nat.lt_of_not_le gt⟩
      rw [shift, Nat.mul_pow]
      exact Nat.mul_le_mul_left _ below

namespace Binary64

/-- The number of steps in which a result doubles. -/
def stepsPerDoubling : Nat := 128

/-- The bits after the point with which roots are found: enough for a number and its loss. -/
def rootBits : Nat := 128

/-- A root `value * (1 + loss)`, rounded. -/
structure RoundedRoot where
  /-- The number nearest to the root. -/
  value : Binary64
  /-- What rounding has lost, as a fraction of the value. -/
  loss : Binary64

/-- The number `2 ^ (step / 128)`, for a step of a doubling. -/
def root (step : Nat) : RoundedRoot :=
  let exact := binaryRoot stepsPerDoubling step rootBits * unitsPerOne
  let units := roundToGrid exact (2 ^ rootBits)
  { value := nearest units unitsPerOne
    loss := nearest (exact - units * 2 ^ rootBits) (units * 2 ^ rootBits) }

/-! ### Whole steps and the rest -/

/-- The integer nearest to `num / den`, ties to even. -/
def nearestInt (num : Int) (den : Nat) : Int :=
  let below := num / den
  let rest := num % den
  if den < 2 * rest ∨ (2 * rest = den ∧ below % 2 = 1) then below + 1 else below

/-- **An integer that is nearest is at most half away.** -/
theorem nearestInt_bounds (num : Int) {den : Nat} (positive : 0 < den) :
    2 * num - den ≤ 2 * (den * nearestInt num den) ∧
      2 * (den * nearestInt num den) ≤ 2 * num + den := by
  have split := Int.mul_ediv_add_emod num den
  have nonneg := Int.emod_nonneg num (Int.ne_of_gt (Int.natCast_pos.mpr positive))
  have lt := Int.emod_lt_of_pos num (Int.natCast_pos.mpr positive)
  have next : (den : Int) * (num / den + 1) = den * (num / den) + den := by
    rw [Int.mul_add, Int.mul_one]
  simp only [nearestInt]
  split <;> omega

/-- The number nearest to `128 / log 2`. -/
def stepsPerUnit : Binary64 := ofBits 0x40671547652B82FE

/-- A step downwards, `-log 2 / 128`.  The head is so short that its products with whole steps
are exact. -/
def stepDown : Twofold := ⟨ofBits 0xBF762E42FEFA0000, ofBits 0xBD0CF79ABC9E3B3A⟩

/-- The nearest whole number of steps. -/
def stepsOf (x : Binary64) : Int :=
  nearestInt (x.rank.getD 0 * stepsPerUnit.rank.getD 0) (unitsPerOne * unitsPerOne)

/-- What is left of an exponent after whole steps. -/
def restOf (t : Twofold) (steps : Int) : Binary64 :=
  let count := ofInt steps
  t.tail + count.mulAdd stepDown.tail (count.mulAdd stepDown.head t.head)

/-- The coefficients of `r ^ 2` to `r ^ 5`.  The series of the exponential has `1 / 2`, `1 / 6`,
`1 / 24` and `1 / 120`; a polynomial that ends at `r ^ 5` comes nearest to the exponentials of rests
with coefficients a little different. -/
def expCoefficients : Vector Binary64 4 :=
  #v[ofBits 0x3FDFFFFFFFFFFDBD, ofBits 0x3FC555555555543C, ofBits 0x3FA55555CF172B91,
    ofBits 0x3F81111167A4D017]

/-- What a factor `1 + loss` and the power of a rest add to one: `loss + e ^ r - 1`. -/
def excess (loss r : Binary64) : Binary64 :=
  let a := expCoefficients
  let square := r * r
  (r.mulAdd a[3] a[2]).mulAdd (square * square)
    ((a[1].mulAdd r a[0]).mulAdd square (loss + r))

/-! ### The exponential -/

/-- The exponent of the least normal number, `2 ^ -1022`. -/
def leastNormalExponent : Int := -1022

/-- The product `value * (1 + extra) * 2 ^ doublings`, which may be subnormal.  It is formed in
units of the least normal number.  If it is below one then, its sum with one is rounded to the
spacing of the subnormal numbers, and the way back is exact. -/
def nearSubnormal (value extra : Binary64) (doublings : Int) : Binary64 :=
  let scaled := value.scaleB (doublings - leastNormalExponent)
  let product := Twofold.ofSum scaled (extra * scaled)
  let onGrid :=
    if product.head.less 1 then
      let lifted := Twofold.ofSum 1 product.head
      ((lifted.tail + product.tail) + lifted.head) - 1
    else
      product.head
  onGrid.scaleB leastNormalExponent

/-- **The exponential.**  From `-512` down, where results come near the subnormal range, the last
product is formed with more care. -/
def exp (t : Twofold) : Binary64 :=
  let steps := stepsOf t.head
  let doublings := steps / stepsPerDoubling
  let ⟨value, loss⟩ := root (steps % stepsPerDoubling).toNat
  let extra := excess loss (restOf t steps)
  if (ofInt (-512)).less t.head then
    (value.mulAdd extra value).scaleB doublings
  else
    nearSubnormal value extra doublings

/-- The exponential of zero is one. -/
@[simp] theorem exp_zero : exp 0 = 1 := by
  decide +kernel

end Binary64

end SparsePoly
