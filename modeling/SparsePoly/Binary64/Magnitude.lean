/-!
# Magnitudes on the binary64 grid

A finite binary64 number is a whole number of *units* of `2 ^ -1074`, the least positive
subnormal, so its magnitude is a natural number.  Not every natural number is one: a magnitude has
at most 53 significant bits.  This module holds that grid and the one operation that leads onto
it, rounding to the nearest grid point.

## Main definitions

* `Binary64.spacing` - the distance of neighbouring grid points around a number of units
* `Binary64.OnGrid` - the numbers of units that a magnitude may have, but for their upper end
* `Binary64.roundToGrid` - the grid point nearest to an exact quotient of two natural numbers
* `Binary64.Magnitude` - a grid point below `2 ^ 1024`

## Design decisions

* Counting in units makes subnormal and normal numbers alike: below `2 ^ 53` units the spacing is
  one, above it doubles with every power of two, and no exponent is stored.
* `roundToGrid` takes a quotient and not a number, so that a product (over `2 ^ 1074`), a sum
  (over `1`) and a decimal fraction (over a power of ten) are all rounded once, from their exact
  value, by the same rule.
* A power of natural numbers is the one of the core library, whatever else a module imports.
-/

attribute [instance (2000), default_instance (20000)] instPowNat

namespace SparsePoly

namespace Binary64

/-- The number one is `2 ^ unitExponent` units. -/
@[irreducible] def unitExponent : Nat := 1074

/-- The least power of two that is too large for a magnitude is `2 ^ limitExponent` units. -/
@[irreducible] def limitExponent : Nat := 2098

/-- The number of units in the number one. -/
def unitsPerOne : Nat := 2 ^ unitExponent

/-- The first number of units beyond the largest magnitude: `2 ^ 1024`, in units. -/
def unitLimit : Nat := 2 ^ limitExponent

theorem unitExponent_lt_limitExponent : unitExponent < limitExponent := by
  unfold unitExponent limitExponent
  decide

theorem unitsPerOne_pos : 0 < unitsPerOne := Nat.two_pow_pos _

theorem unitLimit_pos : 0 < unitLimit := Nat.two_pow_pos _

theorem unitsPerOne_lt_unitLimit : unitsPerOne < unitLimit :=
  Nat.pow_lt_pow_right (by decide) unitExponent_lt_limitExponent

/-! ### The grid -/

/-- The distance between neighbouring grid points around `units`: a number of `b` bits is rounded
to its leading 53, and what the other `b - 53` bits can hold is the spacing. -/
def spacing (units : Nat) : Nat := 2 ^ (units.log2 - 52)

/-- A number of units lies on the grid when it is a multiple of the spacing around it, that is,
when it has at most 53 significant bits. -/
def OnGrid (units : Nat) : Prop := spacing units ∣ units

instance (units : Nat) : Decidable (OnGrid units) :=
  inferInstanceAs (Decidable (spacing units ∣ units))

@[simp] theorem spacing_zero : spacing 0 = 1 := rfl

theorem spacing_pos (units : Nat) : 0 < spacing units := Nat.two_pow_pos _

/-- **Small numbers are dense.**  Below `2 ^ 53` units every natural number is on the grid. -/
theorem spacing_eq_one {units : Nat} (small : units < 2 ^ 53) : spacing units = 1 := by
  unfold spacing
  by_cases zero : units = 0
  · subst zero; rfl
  · have : units.log2 < 53 := (Nat.log2_lt zero).mpr small
    rw [Nat.sub_eq_zero_of_le (by omega), Nat.pow_zero]

/-- A number of at most 53 bits times a power of two is on the grid. -/
theorem onGrid_mul_two_pow {significand : Nat} (le : significand ≤ 2 ^ 53) (shift : Nat) :
    OnGrid (significand * 2 ^ shift) := by
  unfold OnGrid spacing
  by_cases zero : significand = 0
  · simp [zero]
  · have nonzero : significand * 2 ^ shift ≠ 0 :=
      Nat.mul_ne_zero zero (Nat.ne_of_gt (Nat.two_pow_pos shift))
    -- Below `2 ^ 53` the spacing divides the power of two; at `2 ^ 53` it is one power more.
    rcases Nat.lt_or_eq_of_le le with lt | eq
    · have bits : (significand * 2 ^ shift).log2 < 53 + shift := by
        rw [Nat.log2_lt nonzero, Nat.pow_add]
        exact Nat.mul_lt_mul_of_pos_right lt (Nat.two_pow_pos shift)
      exact Nat.dvd_trans (Nat.pow_dvd_pow 2 (by omega)) (Nat.dvd_mul_left _ _)
    · rw [eq, ← Nat.pow_add, Nat.log2_two_pow]
      exact Nat.pow_dvd_pow 2 (by omega)

theorem onGrid_zero : OnGrid 0 := Nat.dvd_zero _

theorem onGrid_two_pow (shift : Nat) : OnGrid (2 ^ shift) := by
  have grid := @onGrid_mul_two_pow 1 (by decide) shift
  rwa [Nat.one_mul] at grid

/-! ### Rounding -/

/-- **Rounding to nearest.**  The grid point nearest to `num / den`; of two that are equally near,
the one with the even significand.  The leading 53 bits of the whole part of the quotient give
the grid point below; the rest, compared with half a step, decides between it and the next. -/
def roundToGrid (num den : Nat) : Nat :=
  -- The fraction beyond the whole part cannot change the number of leading bits.
  let gap := spacing (num / den)
  let step := den * gap
  let below := num / step
  let rest := num % step
  -- `below + 1` may be `2 ^ 53`, which is again on the grid, one binade up.
  if step < 2 * rest ∨ (2 * rest = step ∧ below % 2 = 1) then (below + 1) * gap else below * gap

@[simp] theorem roundToGrid_zero (den : Nat) : roundToGrid 0 den = 0 := by
  simp [roundToGrid]

/-- The leading bits of the whole part of a quotient are at most 53. -/
private theorem div_spacing_lt (units : Nat) : units / spacing units < 2 ^ 53 := by
  rw [Nat.div_lt_iff_lt_mul (spacing_pos units)]
  unfold spacing
  rw [← Nat.pow_add]
  exact Nat.lt_of_lt_of_le Nat.lt_log2_self (Nat.pow_le_pow_right (by decide) (by omega))

theorem onGrid_roundToGrid (num den : Nat) : OnGrid (roundToGrid num den) := by
  have lt : num / (den * spacing (num / den)) < 2 ^ 53 := by
    rw [← Nat.div_div_eq_div_mul]
    exact div_spacing_lt _
  unfold roundToGrid
  simp only
  split
  · exact onGrid_mul_two_pow lt _
  · exact onGrid_mul_two_pow (Nat.le_of_lt lt) _

/-- **Grid points stay.**  A whole number of units on the grid is its own nearest grid point. -/
theorem roundToGrid_of_onGrid {units den : Nat} (positive : 0 < den) (grid : OnGrid units) :
    roundToGrid (units * den) den = units := by
  have whole : units * den / den = units := Nat.mul_div_cancel _ positive
  obtain ⟨significand, eq⟩ := grid
  have gap := spacing_pos units
  have below : units * den / (den * spacing units) = significand := by
    rw [← Nat.div_div_eq_div_mul, whole]
    exact Nat.div_eq_of_eq_mul_right gap eq
  have rest : units * den % (den * spacing units) = 0 := by
    apply Nat.mod_eq_zero_of_dvd
    exact ⟨significand, by rw [Nat.mul_assoc, ← eq, Nat.mul_comm]⟩
  unfold roundToGrid
  simp only [whole, below, rest]
  rw [if_neg (by have := Nat.mul_pos positive gap; omega), Nat.mul_comm]
  exact eq.symm

/-! ### The type of magnitudes -/

/-- The magnitude of a finite binary64 number, in units of `2 ^ -1074`: a grid point below the
overflow limit.  Equal magnitudes have equal units, so a finite number has exactly one value of
this type for its sixteen-digit bit pattern without sign. -/
structure Magnitude where
  /-- The number of units. -/
  units : Nat
  /-- At most 53 significant bits. -/
  onGrid : OnGrid units
  /-- Below `2 ^ 1024`. -/
  lt_limit : units < unitLimit
  deriving DecidableEq

namespace Magnitude

instance : Zero Magnitude := ⟨⟨0, onGrid_zero, unitLimit_pos⟩⟩

instance : One Magnitude := ⟨⟨unitsPerOne, onGrid_two_pow _, unitsPerOne_lt_unitLimit⟩⟩

@[simp] theorem units_zero : (0 : Magnitude).units = 0 := rfl

@[simp] theorem units_one : (1 : Magnitude).units = unitsPerOne := rfl

@[ext] theorem ext {a b : Magnitude} (eq : a.units = b.units) : a = b := by
  cases a; cases b; cases eq; rfl

/-- Rounds an exact quotient of units; `none` when the result would not lie below the limit. -/
def round? (num den : Nat) : Option Magnitude :=
  if lt : roundToGrid num den < unitLimit then
    some ⟨roundToGrid num den, onGrid_roundToGrid num den, lt⟩
  else
    none

@[simp] theorem round?_zero (den : Nat) : round? 0 den = some 0 := by
  have lt : roundToGrid 0 den < unitLimit := by rw [roundToGrid_zero]; exact unitLimit_pos
  unfold round?
  rw [dif_pos lt]
  exact congrArg some (Magnitude.ext (roundToGrid_zero den))

/-- **A magnitude over one is itself.**  Nothing is lost when no rounding is due. -/
theorem round?_units_mul (m : Magnitude) {den : Nat} (positive : 0 < den) :
    round? (m.units * den) den = some m := by
  have eq := roundToGrid_of_onGrid positive m.onGrid
  have lt : roundToGrid (m.units * den) den < unitLimit := by rw [eq]; exact m.lt_limit
  unfold round?
  rw [dif_pos lt]
  exact congrArg some (Magnitude.ext eq)

end Magnitude

end Binary64

end SparsePoly
