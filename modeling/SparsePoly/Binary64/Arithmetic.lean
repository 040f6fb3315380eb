import SparsePoly.Binary64.Basic

/-!
# Sums and products of binary64 numbers

Addition and multiplication as IEEE 754 has them: the exact result is rounded once, to the nearest
number, ties to the even significand; beyond the largest magnitude it becomes an infinity.

## Main definitions

* `Binary64.rounded` - the number nearest to an exact quotient of units, with a given sign
* `Binary64.nearest`, `Binary64.ofInt` - the number nearest to a fraction, to an integer
* `Binary64.add`, `Binary64.sub`, `Binary64.mul` - the operations, also as `+`, `-` and `*`
* `Binary64.sum` - the sum of a list from left to right, starting from `0`
* `Binary64.mulAdd` - a product and a sum with one rounding
* `Binary64.scaleB` - the product with a power of two

## Main statements

* `Binary64.add_comm`, `Binary64.mul_comm` - the order of two operands does not matter
* `Binary64.neg_mul` - the sign of a factor is a sign of the product

## Design decisions

* Sums are exact integers of units and products exact integers of squared units, so no guard bits
  or shifting of exponents take part, and what holds of integers holds before rounding.
* Addition is not associative.  A sum of several numbers is always the left fold `sum`, and the
  order of the list is the order of the additions.
-/

namespace SparsePoly

namespace Binary64

/-- The number with the given sign nearest to the exact magnitude `num / den`, in units. -/
def rounded (negative : Bool) (num den : Nat) : Binary64 :=
  match Magnitude.round? num den with
  | some magnitude => finite negative magnitude
  | none => infinity negative

@[simp] theorem rounded_zero (negative : Bool) (den : Nat) :
    rounded negative 0 den = finite negative 0 := by
  simp [rounded]

@[simp] theorem neg_rounded (negative : Bool) (num den : Nat) :
    -rounded negative num den = rounded (!negative) num den := by
  unfold rounded
  cases Magnitude.round? num den <;> rfl

/-- A magnitude is rounded to itself. -/
theorem rounded_units_mul (negative : Bool) (m : Magnitude) {den : Nat} (positive : 0 < den) :
    rounded negative (m.units * den) den = finite negative m := by
  simp [rounded, m.round?_units_mul positive]

/-- The number nearest to the fraction `num / den`.  Zero is positive. -/
def nearest (num : Int) (den : Nat) : Binary64 :=
  rounded (decide (num < 0)) (num.natAbs * unitsPerOne) den

/-- The number nearest to an integer. -/
def ofInt (n : Int) : Binary64 := nearest n 1

@[simp] theorem ofInt_zero : ofInt 0 = 0 := by
  simp [ofInt, nearest, zero_def]

/-- **Integers of at most 53 bits are numbers.** -/
theorem ofInt_of_le {n : Nat} (le : n ≤ 2 ^ 53) :
    ∃ m : Magnitude, ofInt n = finite false m ∧ m.units = n * unitsPerOne := by
  have grid : OnGrid (n * unitsPerOne) := onGrid_mul_two_pow le unitExponent
  have lt : n * unitsPerOne < unitLimit := by
    refine Nat.lt_of_le_of_lt (Nat.mul_le_mul_right _ le) ?_
    unfold unitsPerOne unitLimit
    rw [← Nat.pow_add]
    exact Nat.pow_lt_pow_right (by decide) (by unfold unitExponent limitExponent; decide)
  refine ⟨⟨n * unitsPerOne, grid, lt⟩, ?_, rfl⟩
  have keep := rounded_units_mul false ⟨n * unitsPerOne, grid, lt⟩ Nat.zero_lt_one
  rw [Nat.mul_one] at keep
  have positive : ¬(n : Int) < 0 := by omega
  simpa [ofInt, nearest, positive] using keep

/-! ### Addition -/

/-- The sum of two finite numbers.  An exact zero is negative only if both summands are. -/
def addFinite (s : Bool) (a : Magnitude) (t : Bool) (b : Magnitude) : Binary64 :=
  let total := signedUnits s a.units + signedUnits t b.units
  if total = 0 then finite (s && t) 0 else rounded (decide (total < 0)) total.natAbs 1

/-- Addition.  Opposite infinities have no sum. -/
def add : Binary64 → Binary64 → Binary64
  | nan, _ => nan
  | _, nan => nan
  | infinity s, infinity t => if s = t then infinity s else nan
  | infinity s, finite _ _ => infinity s
  | finite _ _, infinity t => infinity t
  | finite s a, finite t b => addFinite s a t b

instance : Add Binary64 := ⟨add⟩

@[simp] theorem nan_add (x : Binary64) : nan + x = nan := by
  cases x <;> rfl

@[simp] theorem add_nan (x : Binary64) : x + nan = nan := by
  cases x <;> rfl

theorem infinity_add_infinity (s t : Bool) :
    infinity s + infinity t = if s = t then infinity s else nan := rfl

@[simp] theorem infinity_add_finite (s t : Bool) (b : Magnitude) :
    infinity s + finite t b = infinity s := rfl

@[simp] theorem finite_add_infinity (s t : Bool) (a : Magnitude) :
    finite s a + infinity t = infinity t := rfl

theorem finite_add_finite (s t : Bool) (a b : Magnitude) :
    finite s a + finite t b = addFinite s a t b := rfl

/-- **Addition is commutative.** -/
protected theorem add_comm (x y : Binary64) : x + y = y + x := by
  cases x with
  | nan => simp
  | infinity s =>
    cases y with
    | nan => simp
    | infinity t => cases s <;> cases t <;> rfl
    | finite t b => simp
  | finite s a =>
    cases y with
    | nan => simp
    | infinity t => simp
    | finite t b =>
      simp only [finite_add_finite, addFinite, Int.add_comm (signedUnits s a.units), Bool.and_comm s]

/-- A finite number and zero: all but `-0` are kept. -/
theorem zero_add_of_ne {x : Binary64} (ne : x ≠ finite true 0) : 0 + x = x := by
  cases x with
  | nan => rfl
  | infinity s => rfl
  | finite s a =>
    have zero : signedUnits false (0 : Magnitude).units = 0 := rfl
    rw [zero_def, finite_add_finite, addFinite]
    simp only [zero, Int.zero_add, Bool.false_and]
    by_cases units : a.units = 0
    · have eq : a = 0 := Magnitude.ext units
      subst eq
      cases s
      · rfl
      · exact absurd rfl ne
    · have keep := rounded_units_mul s a (Nat.zero_lt_one)
      rw [Nat.mul_one] at keep
      cases s <;> simp [signedUnits, units, Nat.pos_of_ne_zero units] <;> exact keep

theorem zero_add_of_nonzero {x : Binary64} (nonzero : x.isZero = false) : 0 + x = x := by
  apply zero_add_of_ne
  rintro rfl
  cases nonzero

/-- Added to zero, a zero of either sign is a zero and nothing else is. -/
theorem isZero_zero_add (x : Binary64) : (0 + x).isZero = x.isZero := by
  by_cases minus_zero : x = finite true 0
  · rw [minus_zero]
    rfl
  · rw [zero_add_of_ne minus_zero]

/-- Subtraction is the addition of the opposite. -/
def sub (x y : Binary64) : Binary64 := x + -y

instance : Sub Binary64 := ⟨sub⟩

theorem sub_def (x y : Binary64) : x - y = x + -y := rfl

/-! ### Multiplication -/

/-- The product of two finite numbers, exact in squares of units until it is rounded. -/
def mulFinite (s : Bool) (a : Magnitude) (t : Bool) (b : Magnitude) : Binary64 :=
  rounded (s ^^ t) (a.units * b.units) unitsPerOne

/-- Multiplication.  An infinity and a zero have no product. -/
def mul : Binary64 → Binary64 → Binary64
  | nan, _ => nan
  | _, nan => nan
  | infinity s, infinity t => infinity (s ^^ t)
  | infinity s, finite t b => if b.units = 0 then nan else infinity (s ^^ t)
  | finite s a, infinity t => if a.units = 0 then nan else infinity (s ^^ t)
  | finite s a, finite t b => mulFinite s a t b

instance : Mul Binary64 := ⟨mul⟩

@[simp] theorem nan_mul (x : Binary64) : nan * x = nan := by
  cases x <;> rfl

@[simp] theorem mul_nan (x : Binary64) : x * nan = nan := by
  cases x <;> rfl

theorem infinity_mul_infinity (s t : Bool) : infinity s * infinity t = infinity (s ^^ t) := rfl

theorem infinity_mul_finite (s t : Bool) (b : Magnitude) :
    infinity s * finite t b = if b.units = 0 then nan else infinity (s ^^ t) := rfl

theorem finite_mul_infinity (s t : Bool) (a : Magnitude) :
    finite s a * infinity t = if a.units = 0 then nan else infinity (s ^^ t) := rfl

theorem finite_mul_finite (s t : Bool) (a b : Magnitude) :
    finite s a * finite t b = mulFinite s a t b := rfl

/-- **Multiplication is commutative.** -/
protected theorem mul_comm (x y : Binary64) : x * y = y * x := by
  cases x with
  | nan => simp
  | infinity s =>
    cases y with
    | nan => simp
    | infinity t => simp only [infinity_mul_infinity, Bool.xor_comm]
    | finite t b => simp only [infinity_mul_finite, finite_mul_infinity, Bool.xor_comm]
  | finite s a =>
    cases y with
    | nan => simp
    | infinity t => simp only [infinity_mul_finite, finite_mul_infinity, Bool.xor_comm]
    | finite t b =>
      simp only [finite_mul_finite, mulFinite, Nat.mul_comm a.units, Bool.xor_comm s]

/-- **The sign of a factor is a sign of the product.** -/
protected theorem neg_mul (x y : Binary64) : -x * y = -(x * y) := by
  cases x with
  | nan => simp
  | infinity s =>
    cases y with
    | nan => simp
    | infinity t => simp [infinity_mul_infinity]
    | finite t b => by_cases zero : b.units = 0 <;> simp [infinity_mul_finite, zero]
  | finite s a =>
    cases y with
    | nan => simp
    | infinity t => by_cases zero : a.units = 0 <;> simp [finite_mul_infinity, zero]
    | finite t b => simp [finite_mul_finite, mulFinite]

/-- One is neutral, for NaN as well. -/
@[simp] protected theorem one_mul (x : Binary64) : 1 * x = x := by
  have positive := unitsPerOne_pos
  cases x with
  | nan => rfl
  | infinity s =>
    rw [one_def, finite_mul_infinity, if_neg (by rw [Magnitude.units_one]; omega)]
    simp
  | finite s a =>
    rw [one_def, finite_mul_finite, mulFinite, Magnitude.units_one, Nat.mul_comm,
      rounded_units_mul _ _ positive]
    simp

@[simp] protected theorem mul_one (x : Binary64) : x * 1 = x := by
  rw [Binary64.mul_comm, Binary64.one_mul]

/-- **The product with a power of two.**  It is rounded only where it leaves the range of the
normal numbers. -/
def scaleB : Binary64 → Int → Binary64
  | finite s a, exponent => rounded s (a.units * 2 ^ exponent.toNat) (2 ^ (-exponent).toNat)
  | x, _ => x

@[simp] theorem scaleB_zero (x : Binary64) : x.scaleB 0 = x := by
  cases x with
  | nan => rfl
  | infinity s => rfl
  | finite s a => exact rounded_units_mul s a Nat.zero_lt_one

/-! ### The fused operation -/

/-- The product of two finite numbers plus a third, exact until it is rounded.  An exact zero is
negative only if product and summand both are. -/
def mulAddFinite (s : Bool) (a : Magnitude) (t : Bool) (b : Magnitude) (u : Bool) (c : Magnitude) :
    Binary64 :=
  let total := signedUnits (s ^^ t) (a.units * b.units) + signedUnits u (c.units * unitsPerOne)
  if total = 0 then finite ((s ^^ t) && u) 0
  else rounded (decide (total < 0)) total.natAbs unitsPerOne

/-- **The fused operation** `x * y + z`, rounded once.  A product of finite numbers is finite here,
however large, and does not meet an infinite summand as an infinity. -/
def mulAdd : Binary64 → Binary64 → Binary64 → Binary64
  | finite s a, finite t b, finite u c => mulAddFinite s a t b u c
  | finite _ _, finite _ _, z => z
  | x, y, z => x * y + z

theorem finite_mulAdd_finite (s t u : Bool) (a b c : Magnitude) :
    (finite s a).mulAdd (finite t b) (finite u c) = mulAddFinite s a t b u c := rfl

/-- **The order of the factors does not matter.** -/
theorem mulAdd_comm (x y z : Binary64) : x.mulAdd y z = y.mulAdd x z := by
  cases x with
  | nan => cases y <;> simp [mulAdd]
  | infinity s =>
    cases y <;> simp only [mulAdd, Binary64.mul_comm (infinity s)]
  | finite s a =>
    cases y with
    | nan => simp [mulAdd]
    | infinity t => simp only [mulAdd, Binary64.mul_comm (finite s a)]
    | finite t b =>
      cases z <;> simp only [mulAdd, mulAddFinite, Nat.mul_comm a.units, Bool.xor_comm s]

/-! ### Sums of lists -/

/-- The sum from left to right, starting from `0`. -/
def sum (xs : List Binary64) : Binary64 := xs.foldl (· + ·) 0

@[simp] theorem sum_nil : sum [] = 0 := rfl

@[simp] theorem sum_append_singleton (xs : List Binary64) (x : Binary64) :
    sum (xs ++ [x]) = sum xs + x := by
  simp [sum]

end Binary64

end SparsePoly
