import SparsePoly.Binary64.Exponential
import SparsePoly.Binary64.Logarithm

/-!
# Powers of binary64 numbers

Natural powers.  Up to the exponent `2 ^ 31 - 1` a power is found by squaring, and every product on
the way is a binary64 product and rounds.  Beyond it the rounding errors of some thirty squarings
would drown the result, and a power is the exponential of a multiple of the logarithm, which are
twofold numbers.

## Main definitions

* `Binary64.powerBySquaring` - square and multiply, for any multiplication
* `Binary64.longPow` - a power with a long exponent, by logarithm and exponential
* `Binary64.pow` - the power that terms are evaluated with; `0 ^ 0` is one

## Main statements

* `Binary64.longPow_neg` - the sign of a long power is the parity of its exponent
* `Binary64.longPow_zero`, `Binary64.longPow_one` - the long powers of zero and one

## Design decisions

* The sign of a long power is decided apart from its magnitude: it is the sign of the base if the
  exponent is odd.  The powers of infinities are again infinities.
* A long exponent leaves few bases to work on.  If the base differs from one by `2 ^ -16` or more,
  the power is beyond all magnitudes or below half of the least one, and nothing needs computing.
-/

namespace SparsePoly

namespace Binary64

/-- **Square and multiply.**  Multiplies into `product` the squares that the binary digits of the
exponent select, from the lowest digit up.  The last digit is followed by no further square. -/
def powerBySquaring {α : Type} (mul : α → α → α) (product square : α) (exponent : Nat) : α :=
  let product := if exponent % 2 = 1 then mul product square else product
  if _last : exponent / 2 = 0 then
    product
  else
    powerBySquaring mul product (mul square square) (exponent / 2)
termination_by exponent

/-! ### Powers -/

/-- The greatest exponent for which every product on the way is rounded to binary64. -/
def longestShortPower : Nat := 2 ^ 31 - 1

/-- The units of `2 ^ -16`: bases that differ by less from one have long powers of their own. -/
def reachUnits : Nat := unitsPerOne / 2 ^ 16

/-- The power of a magnitude with a long exponent. -/
def longPowMagnitude (exponent : UInt32) (magnitude : Magnitude) : Binary64 :=
  if unitsPerOne + reachUnits ≤ magnitude.units then
    infinity false
  else if magnitude.units + reachUnits ≤ unitsPerOne then
    0
  else
    exp (Twofold.mulLeft (ofInt exponent.toNat) (logNearOne (finite false magnitude)))

/-- The negative of a number if the flag is set, and the number otherwise. -/
def withSign (negative : Bool) (x : Binary64) : Binary64 := if negative then -x else x

@[simp] theorem withSign_not (negative : Bool) (x : Binary64) :
    withSign (!negative) x = -withSign negative x := by
  cases negative <;> simp [withSign]

/-- A power with a long exponent. -/
def longPow (exponent : UInt32) : Binary64 → Binary64
  | nan => nan
  | infinity negative => infinity (negative && decide (exponent.toNat % 2 = 1))
  | finite negative magnitude =>
    withSign (negative && decide (exponent.toNat % 2 = 1)) (longPowMagnitude exponent magnitude)

/-- **The power of a number.** -/
def pow (x : Binary64) (exponent : UInt32) : Binary64 :=
  if exponent.toNat ≤ longestShortPower then
    powerBySquaring (· * ·) 1 x exponent.toNat
  else
    longPow exponent x

@[simp] theorem pow_zero (x : Binary64) : x.pow 0 = 1 := by
  simp [pow, powerBySquaring]

@[simp] theorem pow_one (x : Binary64) : x.pow 1 = x := by
  simp [pow, powerBySquaring, longestShortPower]

/-- **The parity of a long exponent is the sign's.** -/
theorem longPow_neg (exponent : UInt32) (x : Binary64) :
    longPow exponent (-x) =
      if exponent.toNat % 2 = 1 then -longPow exponent x else longPow exponent x := by
  cases x with
  | nan => simp [longPow]
  | infinity s => by_cases odd : exponent.toNat % 2 = 1 <;> simp [longPow, odd]
  | finite s a => by_cases odd : exponent.toNat % 2 = 1 <;> simp [longPow, odd]

/-- The long powers of zero are zero. -/
@[simp] theorem longPow_zero (exponent : UInt32) : longPow exponent 0 = 0 := by
  have positive := unitsPerOne_pos
  have small : reachUnits ≤ unitsPerOne := Nat.div_le_self _ _
  have magnitude : longPowMagnitude exponent 0 = 0 := by
    unfold longPowMagnitude
    rw [Magnitude.units_zero, if_neg (by omega), if_pos (by omega)]
  rw [zero_def, longPow, magnitude]
  rfl

/-- **The long powers of one are one.** -/
@[simp] theorem longPow_one (exponent : UInt32) : longPow exponent 1 = 1 := by
  have reach : 0 < reachUnits := by
    unfold reachUnits unitsPerOne unitExponent
    decide +kernel
  obtain ⟨m, eq, _⟩ := ofInt_of_le (Nat.le_of_lt (Nat.lt_trans exponent.toNat_lt (by decide)))
  have magnitude : longPowMagnitude exponent 1 = 1 := by
    unfold longPowMagnitude
    rw [Magnitude.units_one, if_neg (by omega), if_neg (by omega), ← one_def, logNearOne_one, eq,
      Twofold.mulLeft_zero, exp_zero]
  rw [one_def, longPow, magnitude]
  rfl

end Binary64

end SparsePoly
