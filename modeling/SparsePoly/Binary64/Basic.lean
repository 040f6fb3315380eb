import SparsePoly.Binary64.Magnitude

/-!
# Binary64 numbers

The numbers that coefficients, arguments and values are made of: IEEE 754 binary64, with all of
its signed zeros and infinities and one NaN.  The sign and payload of a NaN are no part of a
number here, so that equality of this type is equality bit for bit with all NaNs identified.

## Main definitions

* `Binary64` - NaN, an infinity or a signed magnitude
* `Binary64.rank` - the place of a number on the number line, which the IEEE comparisons compare
* `Binary64.equal`, `Binary64.less` - the IEEE comparisons: a NaN is unequal to itself and
  unordered, and the two zeros are equal

## Design decisions

* The comparisons compare places in `Int`, so that their laws are laws of the integers.
* Signs and payloads of NaNs show in one place only, the total order of bit patterns, which
  compares patterns and not numbers (`SparsePoly.Binary64.TotalOrder`).
-/

namespace SparsePoly

/-- An IEEE 754 binary64 number. -/
inductive Binary64 where
  /-- Not a number. -/
  | nan
  /-- `+inf`, or `-inf` if negative. -/
  | infinity (negative : Bool)
  /-- A sign and a magnitude; zero has both signs. -/
  | finite (negative : Bool) (magnitude : Binary64.Magnitude)
  deriving DecidableEq

namespace Binary64

instance : Zero Binary64 := ⟨.finite false 0⟩

instance : One Binary64 := ⟨.finite false 1⟩

instance : Inhabited Binary64 := ⟨0⟩

theorem zero_def : (0 : Binary64) = .finite false 0 := rfl

theorem one_def : (1 : Binary64) = .finite false 1 := rfl

/-! ### Sign -/

/-- Flips the sign, that of a zero too.  NaN stays NaN. -/
def neg : Binary64 → Binary64
  | nan => nan
  | infinity negative => infinity !negative
  | finite negative magnitude => finite (!negative) magnitude

instance : Neg Binary64 := ⟨neg⟩

@[simp] theorem neg_nan : -nan = nan := rfl

@[simp] theorem neg_infinity (negative : Bool) : -infinity negative = infinity (!negative) := rfl

@[simp] theorem neg_finite (negative : Bool) (magnitude : Magnitude) :
    -finite negative magnitude = finite (!negative) magnitude := rfl

@[simp] theorem neg_neg (x : Binary64) : - -x = x := by
  cases x <;> simp

/-- Clears the sign. -/
def abs : Binary64 → Binary64
  | nan => nan
  | infinity _ => infinity false
  | finite _ magnitude => finite false magnitude

@[simp] theorem abs_neg (x : Binary64) : (-x).abs = x.abs := by
  cases x <;> rfl

/-- Neither infinite nor NaN. -/
def isFinite : Binary64 → Bool
  | finite _ _ => true
  | _ => false

@[simp] theorem isFinite_neg (x : Binary64) : (-x).isFinite = x.isFinite := by
  cases x <;> rfl

theorem exists_of_isFinite {x : Binary64} (h : x.isFinite = true) :
    ∃ negative magnitude, x = finite negative magnitude := by
  cases x with
  | finite s m => exact ⟨s, m, rfl⟩
  | infinity s => cases h
  | nan => cases h

/-! ### The IEEE comparisons -/

/-- A natural number with a sign. -/
def signedUnits (negative : Bool) (units : Nat) : Int :=
  if negative then -(units : Int) else units

@[simp] theorem signedUnits_not (negative : Bool) (units : Nat) :
    signedUnits (!negative) units = -signedUnits negative units := by
  cases negative <;> simp [signedUnits]

@[simp] theorem signedUnits_eq_zero {negative : Bool} {units : Nat} :
    signedUnits negative units = 0 ↔ units = 0 := by
  cases negative <;> simp [signedUnits]

/-- The place on the number line, in units; the infinities stand just beyond the largest
magnitude, and NaN has no place. -/
def rank : Binary64 → Option Int
  | nan => none
  | infinity negative => some (signedUnits negative unitLimit)
  | finite negative magnitude => some (signedUnits negative magnitude.units)

/-- Equality of places: `0 = -0`, and NaN is not equal to itself. -/
def equal (x y : Binary64) : Bool :=
  match x.rank, y.rank with
  | some a, some b => a == b
  | _, _ => false

/-- Order of places: a NaN is neither below nor above. -/
def less (x y : Binary64) : Bool :=
  match x.rank, y.rank with
  | some a, some b => decide (a < b)
  | _, _ => false

theorem equal_iff {x y : Binary64} :
    x.equal y = true ↔ x.rank = y.rank ∧ x.rank ≠ none := by
  rw [equal]
  cases x.rank <;> cases y.rank <;> simp

theorem less_iff {x y : Binary64} :
    x.less y = true ↔ ∃ a b, x.rank = some a ∧ y.rank = some b ∧ a < b := by
  rw [less]
  cases x.rank <;> cases y.rank <;> simp

/-- One of the two zeros. -/
def isZero (x : Binary64) : Bool := x.equal 0

/-- A zero is what stands at the place zero. -/
theorem isZero_eq_decide_rank (x : Binary64) : x.isZero = decide (x.rank = some 0) := by
  have zero : (0 : Binary64).rank = some 0 := rfl
  unfold isZero equal
  rw [zero, Bool.eq_iff_iff]
  cases x.rank <;> simp

@[simp] theorem isZero_nan : nan.isZero = false := rfl

@[simp] theorem isZero_infinity (negative : Bool) : (infinity negative).isZero = false := by
  have positive := unitLimit_pos
  rw [isZero_eq_decide_rank]
  simp [rank]
  omega

theorem isZero_finite (negative : Bool) (magnitude : Magnitude) :
    (finite negative magnitude).isZero = decide (magnitude.units = 0) := by
  rw [isZero_eq_decide_rank]
  simp [rank]

@[simp] theorem isZero_zero : (0 : Binary64).isZero = true := by
  simp [zero_def, isZero_finite]

@[simp] theorem isZero_one : (1 : Binary64).isZero = false := by
  have := unitsPerOne_pos
  simp [one_def, isZero_finite]
  omega

/-- **The zeros are the two zeros.** -/
theorem isZero_iff {x : Binary64} : x.isZero = true ↔ ∃ negative, x = finite negative 0 := by
  cases x with
  | nan => simp
  | infinity negative => simp
  | finite negative magnitude =>
    rw [isZero_finite, decide_eq_true_iff]
    exact ⟨fun units => ⟨negative, congrArg _ (Magnitude.ext units)⟩,
      fun ⟨_, eq⟩ => by cases eq; rfl⟩

@[simp] theorem isZero_neg (x : Binary64) : (-x).isZero = x.isZero := by
  cases x with
  | nan => rfl
  | infinity negative => rw [neg_infinity, isZero_infinity, isZero_infinity]
  | finite negative magnitude => rw [neg_finite, isZero_finite, isZero_finite]

end Binary64

end SparsePoly
