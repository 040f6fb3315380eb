import Mathlib.Algebra.Order.Ring.Int
import SparsePoly.Binary64.Power

/-!
# Integers among the binary64 numbers

Sums, products and powers of integers are exact as long as the result is an integer of at most 53
bits.  `Binary64.IsInt` says that a number is an integer; both zeros are the integer zero, so that
nothing has to be said of the signs of zeros.

A sum of a list is exact if the magnitudes of its summands add up to at most `2 ^ 53`, since that
bounds every partial sum.  A power by squaring multiplies squares that the exponent selects, and
none of them exceeds the power, unless the base is zero or a unit.

## Main definitions

* `Binary64.IsInt`, `Binary64.toInt` - integers, as a relation and as a function

## Main statements

* `Binary64.IsInt.add`, `Binary64.IsInt.mul` - sums and products
* `Binary64.isInt_sum` - sums of lists
* `Binary64.IsInt.pow` - powers
-/

namespace SparsePoly

namespace Binary64

/-! ### Signs -/

theorem natAbs_signedUnits (negative : Bool) (k : Nat) : (signedUnits negative k).natAbs = k := by
  cases negative <;> simp [signedUnits]

theorem signedUnits_natAbs (n : Int) : signedUnits (decide (n < 0)) n.natAbs = n := by
  rw [signedUnits]
  split <;> rename_i sign <;> simp only [decide_eq_true_eq] at sign <;> omega

theorem signedUnits_mul_left (negative : Bool) (k c : Nat) :
    signedUnits negative (k * c) = signedUnits negative k * c := by
  cases negative <;> simp [signedUnits]

theorem signedUnits_mul_signedUnits (s t : Bool) (k l : Nat) :
    signedUnits s k * signedUnits t l = signedUnits (s ^^ t) (k * l) := by
  cases s <;> cases t <;> simp [signedUnits]

/-- A number with a sign determines both, if zero has only one. -/
theorem signedUnits_injective {s t : Bool} {a b : Nat} (eq : signedUnits s a = signedUnits t b)
    (a_sign : s = true → a ≠ 0) (b_sign : t = true → b ≠ 0) : s = t ∧ a = b := by
  cases s <;> cases t <;> simp [signedUnits] at eq a_sign b_sign ⊢ <;> omega

/-- **But for `-0` the place on the number line decides the number.** -/
theorem eq_of_rank_eq {x y : Binary64} {place : Int} (x_place : x.rank = some place)
    (y_place : y.rank = some place) (x_ne : x ≠ finite true 0) (y_ne : y ≠ finite true 0) :
    x = y := by
  have same := x_place.trans y_place.symm
  have signed {s : Bool} {m : Magnitude} (ne : finite s m ≠ finite true 0) (sign : s = true) :
      m.units ≠ 0 := by
    intro zero
    rw [sign, show m = 0 from Magnitude.ext zero] at ne
    exact ne rfl
  have limit : unitLimit ≠ 0 := Nat.ne_of_gt unitLimit_pos
  cases x with
  | nan => cases x_place
  | infinity s =>
    cases y with
    | nan => cases y_place
    | infinity t =>
      rw [(signedUnits_injective (Option.some.inj same) (fun _ => limit) (fun _ => limit)).1]
    | finite t n =>
      have units := (signedUnits_injective (Option.some.inj same) (fun _ => limit) (signed y_ne)).2
      exact absurd units.symm (Nat.ne_of_lt n.lt_limit)
  | finite s m =>
    cases y with
    | nan => cases y_place
    | infinity t =>
      have units := (signedUnits_injective (Option.some.inj same) (signed x_ne) (fun _ => limit)).2
      exact absurd units (Nat.ne_of_lt m.lt_limit)
    | finite t n =>
      obtain ⟨sign, units⟩ :=
        signedUnits_injective (Option.some.inj same) (signed x_ne) (signed y_ne)
      rw [sign, Magnitude.ext units]

/-! ### Integers -/

/-- The number is the integer: so many ones, with a sign. -/
inductive IsInt : Binary64 → Int → Prop
  | mk (negative : Bool) {m : Magnitude} {k : Nat} (units : m.units = k * unitsPerOne) :
      IsInt (finite negative m) (signedUnits negative k)

/-- The number is an integer. -/
def IsInteger (x : Binary64) : Prop := ∃ n, x.IsInt n

/-- The integer that a number is, or what is left of it without its fraction. -/
def toInt : Binary64 → Int
  | finite negative m => signedUnits negative (m.units / unitsPerOne)
  | _ => 0

theorem toInt_neg (x : Binary64) : (-x).toInt = -x.toInt := by
  cases x with
  | nan => rfl
  | infinity negative => rfl
  | finite negative m => exact signedUnits_not negative _

theorem mul_unitsPerOne_neg_iff {n : Int} : n * unitsPerOne < 0 ↔ n < 0 := by
  have positive := Int.natCast_pos.mpr unitsPerOne_pos
  refine ⟨fun neg => ?_, fun neg => mul_neg_of_neg_of_pos neg positive⟩
  rw [← Int.zero_mul (unitsPerOne : Int)] at neg
  exact lt_of_mul_lt_mul_right neg (Int.le_of_lt positive)

/-- Integers of at most 53 bits have a magnitude. -/
theorem exists_magnitude_of_le {k : Nat} (le : k ≤ 2 ^ 53) :
    ∃ m : Magnitude, m.units = k * unitsPerOne := by
  obtain ⟨m, _, units⟩ := ofInt_of_le le
  exact ⟨m, units⟩

/-- An integer of at most 53 bits is a number. -/
theorem isInt_ofInt {n : Int} (small : n.natAbs ≤ 2 ^ 53) : (ofInt n).IsInt n := by
  obtain ⟨m, units⟩ := exists_magnitude_of_le small
  have keep := rounded_units_mul (decide (n < 0)) m Nat.zero_lt_one
  rw [Nat.mul_one, units] at keep
  have whole := IsInt.mk (decide (n < 0)) units
  rwa [signedUnits_natAbs, ← keep] at whole

theorem isInt_zero : IsInt 0 0 := IsInt.mk false (Nat.zero_mul _).symm

theorem isInt_one : IsInt 1 1 := IsInt.mk false (Nat.one_mul _).symm

namespace IsInt

variable {x y : Binary64} {m n : Int}

theorem toInt_eq (hx : x.IsInt n) : x.toInt = n := by
  cases hx with
  | mk negative units =>
    rw [toInt, units, Nat.mul_div_cancel _ unitsPerOne_pos]

/-- A number is at most one integer. -/
theorem unique (hm : x.IsInt m) (hn : x.IsInt n) : m = n := hm.toInt_eq.symm.trans hn.toInt_eq

theorem rank_eq (hx : x.IsInt n) : x.rank = some (n * unitsPerOne) := by
  cases hx with
  | mk negative units => rw [rank, units, signedUnits_mul_left]

theorem isFinite (hx : x.IsInt n) : x.isFinite = true := by
  cases hx
  rfl

/-- Numbers that are one integer are equal as numbers. -/
theorem equal (hx : x.IsInt n) (hy : y.IsInt n) : x.equal y = true := by
  rw [Binary64.equal, hx.rank_eq, hy.rank_eq]
  exact beq_self_eq_true _

theorem isZero_iff (hx : x.IsInt n) : x.isZero = true ↔ n = 0 := by
  have positive := Int.natCast_pos.mpr unitsPerOne_pos
  rw [isZero_eq_decide_rank, hx.rank_eq, decide_eq_true_iff, Option.some_inj]
  exact Int.mul_eq_zero.trans (or_iff_left (Int.ne_of_gt positive))

/-- Numbers that are one integer are one number, but for the sign of a zero. -/
theorem eq (hx : x.IsInt n) (hy : y.IsInt n) (x_ne : x ≠ finite true 0)
    (y_ne : y ≠ finite true 0) : x = y :=
  eq_of_rank_eq hx.rank_eq hy.rank_eq x_ne y_ne

/-- Only the integer zero has a number that is `-0`. -/
theorem ne_minus_zero (hx : x.IsInt n) (nonzero : n ≠ 0) : x ≠ finite true 0 := by
  rintro rfl
  exact nonzero (hx.isZero_iff.mp (Binary64.isZero_iff.mpr ⟨true, rfl⟩))

theorem neg (hx : x.IsInt n) : (-x).IsInt (-n) := by
  cases hx with
  | mk negative units =>
    rw [← signedUnits_not]
    exact .mk (!negative) units

/-- **Sums are exact**, as far as integers have at most 53 bits. -/
theorem add (hx : x.IsInt m) (hy : y.IsInt n) (small : (m + n).natAbs ≤ 2 ^ 53) :
    (x + y).IsInt (m + n) := by
  have positive := Int.natCast_pos.mpr unitsPerOne_pos
  obtain ⟨s, units_x⟩ := hx
  obtain ⟨t, units_y⟩ := hy
  rename_i a k b l
  generalize sum : signedUnits s k + signedUnits t l = total at small ⊢
  have exact_sum : signedUnits s a.units + signedUnits t b.units = total * unitsPerOne := by
    rw [units_x, units_y, signedUnits_mul_left, signedUnits_mul_left, ← Int.add_mul, sum]
  rw [finite_add_finite, addFinite, exact_sum]
  by_cases zero : total = 0
  · rw [if_pos (by rw [zero, Int.zero_mul]), zero, ← @signedUnits_eq_zero (s && t) 0 |>.mpr rfl]
    exact .mk (s && t) (Nat.zero_mul _).symm
  · obtain ⟨r, units⟩ := exists_magnitude_of_le small
    have sign : decide (total * unitsPerOne < 0) = decide (total < 0) :=
      decide_eq_decide.mpr mul_unitsPerOne_neg_iff
    have magnitude : (total * unitsPerOne).natAbs = r.units * 1 := by
      rw [Int.natAbs_mul, Int.natAbs_natCast, units, Nat.mul_one]
    rw [if_neg fun eq => zero ((Int.mul_eq_zero.mp eq).resolve_right (Int.ne_of_gt positive)),
      sign, magnitude, rounded_units_mul _ _ Nat.zero_lt_one]
    have whole := IsInt.mk (decide (total < 0)) units
    rwa [signedUnits_natAbs] at whole

/-- **Products are exact**, as far as integers have at most 53 bits. -/
theorem mul (hx : x.IsInt m) (hy : y.IsInt n) (small : (m * n).natAbs ≤ 2 ^ 53) :
    (x * y).IsInt (m * n) := by
  obtain ⟨s, units_x⟩ := hx
  obtain ⟨t, units_y⟩ := hy
  rename_i a k b l
  rw [signedUnits_mul_signedUnits] at small ⊢
  rw [natAbs_signedUnits] at small
  obtain ⟨r, units⟩ := exists_magnitude_of_le small
  have exact_product : a.units * b.units = r.units * unitsPerOne := by
    rw [units_x, units_y, units]
    ac_rfl
  rw [finite_mul_finite, mulFinite, exact_product, rounded_units_mul _ _ unitsPerOne_pos]
  exact .mk (s ^^ t) units

end IsInt

theorem IsInteger.isInt {x : Binary64} (integer : x.IsInteger) : x.IsInt x.toInt := by
  obtain ⟨n, hx⟩ := integer
  rwa [hx.toInt_eq]

/-! ### Sums of lists -/

section Sums

variable {α : Type} {f : α → Binary64} {g : α → Int}

/-- One summand after another; the bound leaves room for what is still to come. -/
theorem IsInt.foldl_add {xs : List α} (isInt : ∀ a ∈ xs, (f a).IsInt (g a)) {x : Binary64}
    {n : Int} (hx : x.IsInt n)
    (small : n.natAbs + (xs.map fun a => (g a).natAbs).sum ≤ 2 ^ 53) :
    (xs.foldl (fun sum a => sum + f a) x).IsInt (n + (xs.map g).sum) := by
  induction xs generalizing x n with
  | nil => simpa using hx
  | cons a xs ih =>
    rw [List.map_cons, List.sum_cons] at small
    have step : (n + g a).natAbs ≤ n.natAbs + (g a).natAbs := Int.natAbs_add_le n (g a)
    have next := hx.add (isInt a List.mem_cons_self) (by omega)
    have rest := ih (fun b mem => isInt b (List.mem_cons_of_mem a mem)) next (by omega)
    rw [List.map_cons, List.sum_cons, ← Int.add_assoc]
    exact rest

/-- **The sum of a list is exact** if the magnitudes add up to at most `2 ^ 53`. -/
theorem isInt_sum {xs : List α} (isInt : ∀ a ∈ xs, (f a).IsInt (g a))
    (small : (xs.map fun a => (g a).natAbs).sum ≤ 2 ^ 53) :
    (sum (xs.map f)).IsInt (xs.map g).sum := by
  have whole := IsInt.foldl_add isInt isInt_zero (by simpa using small)
  rw [Int.zero_add] at whole
  rwa [sum, List.foldl_map]

end Sums

/-! ### Powers -/

/-- The magnitude of an integer, but one for zero: what its powers are measured by. -/
def scaleOf (n : Int) : Nat := max 1 n.natAbs

theorem one_le_scaleOf (n : Int) : 1 ≤ scaleOf n := Nat.le_max_left _ _

theorem natAbs_le_scaleOf (n : Int) : n.natAbs ≤ scaleOf n := Nat.le_max_right _ _

theorem scaleOf_mul_le (m n : Int) : scaleOf (m * n) ≤ scaleOf m * scaleOf n := by
  have one := Nat.mul_le_mul (one_le_scaleOf m) (one_le_scaleOf n)
  have product := Nat.mul_le_mul (natAbs_le_scaleOf m) (natAbs_le_scaleOf n)
  rw [← Int.natAbs_mul] at product
  exact Nat.max_le.mpr ⟨by omega, product⟩

theorem scaleOf_pow_le (n : Int) (k : Nat) : scaleOf (n ^ k) ≤ scaleOf n ^ k := by
  induction k with
  | zero =>
    rw [Int.pow_zero, Nat.pow_zero]
    exact Nat.le_refl 1
  | succ k ih =>
    rw [Int.pow_succ, Nat.pow_succ]
    exact Nat.le_trans (scaleOf_mul_le _ n) (Nat.mul_le_mul_right _ ih)

theorem powerBySquaring_eq {α : Type} (mul : α → α → α) (product square : α) (exponent : Nat) :
    powerBySquaring mul product square exponent =
      if exponent / 2 = 0 then
        if exponent % 2 = 1 then mul product square else product
      else
        powerBySquaring mul (if exponent % 2 = 1 then mul product square else product)
          (mul square square) (exponent / 2) := by
  rw [powerBySquaring]
  rfl

/-- **Squaring is exact** as long as the power is: the bound on what is still to come covers the
next product and, if there are digits left, the next square. -/
theorem IsInt.powerBySquaring {product square : Binary64} {a b : Int} {exponent : Nat}
    (hp : product.IsInt a) (hs : square.IsInt b)
    (small : scaleOf a * scaleOf b ^ exponent ≤ 2 ^ 53) :
    (powerBySquaring (· * ·) product square exponent).IsInt (a * b ^ exponent) := by
  induction exponent using Nat.strongRecOn generalizing product square a b with
  | _ exponent ih =>
    have digits := Nat.div_add_mod exponent 2
    have base_pos := one_le_scaleOf b
    have part {k : Nat} (le : k ≤ exponent) : scaleOf a * scaleOf b ^ k ≤ 2 ^ 53 :=
      Nat.le_trans (Nat.mul_le_mul_left _ (Nat.pow_le_pow_right base_pos le)) small
    -- The product, with the last digit in it.
    have last : scaleOf (a * b ^ (exponent % 2)) ≤ scaleOf a * scaleOf b ^ (exponent % 2) :=
      Nat.le_trans (scaleOf_mul_le _ _) (Nat.mul_le_mul_left _ (scaleOf_pow_le b _))
    have next : (if exponent % 2 = 1 then product * square else product).IsInt
        (a * b ^ (exponent % 2)) := by
      have fits := Nat.le_trans (natAbs_le_scaleOf _) (Nat.le_trans last (part (by omega)))
      split
      · rename_i odd
        rw [odd, Int.pow_one] at fits ⊢
        exact hp.mul hs fits
      · rename_i even
        rw [show exponent % 2 = 0 by omega, Int.pow_zero, Int.mul_one]
        exact hp
    rw [powerBySquaring_eq]
    split
    · rename_i done
      rw [show exponent % 2 = exponent by omega] at next ⊢
      exact next
    · rename_i more
      have squared : (square * square).IsInt (b ^ 2) := by
        have fits : (b ^ 2).natAbs ≤ 2 ^ 53 := calc
          (b ^ 2).natAbs ≤ scaleOf b ^ 2 := Nat.le_trans (natAbs_le_scaleOf _) (scaleOf_pow_le b 2)
          _ ≤ scaleOf a * scaleOf b ^ 2 := Nat.le_mul_of_pos_left _ (one_le_scaleOf a)
          _ ≤ 2 ^ 53 := part (by omega)
        rw [pow_two] at fits ⊢
        exact hs.mul hs fits
      have rest : scaleOf (a * b ^ (exponent % 2)) * scaleOf (b ^ 2) ^ (exponent / 2) ≤ 2 ^ 53 :=
        calc
          _ ≤ scaleOf a * scaleOf b ^ (exponent % 2) * (scaleOf b ^ 2) ^ (exponent / 2) :=
            Nat.mul_le_mul last (Nat.pow_le_pow_left (scaleOf_pow_le b 2) _)
          _ = scaleOf a * scaleOf b ^ exponent := by
            rw [← Nat.pow_mul, Nat.mul_assoc, ← Nat.pow_add, Nat.add_comm, digits]
          _ ≤ 2 ^ 53 := small
      have power := ih (exponent / 2) (by omega) next squared rest
      have whole : a * b ^ (exponent % 2) * (b ^ 2) ^ (exponent / 2) = a * b ^ exponent := by
        rw [← pow_mul, Int.mul_assoc, ← pow_add, Nat.add_comm, digits]
      rwa [whole] at power

/-- A power of at most 53 bits is short, or one of zero or a unit. -/
theorem scaleOf_eq_one_of_long {n : Int} {exponent : Nat} (long : longestShortPower < exponent)
    (small : scaleOf n ^ exponent ≤ 2 ^ 53) : scaleOf n = 1 := by
  refine Nat.le_antisymm (Nat.le_of_not_lt fun greater => ?_) (one_le_scaleOf n)
  have short : exponent ≤ 53 :=
    (Nat.pow_le_pow_iff_right (by decide)).mp (Nat.le_trans (Nat.pow_le_pow_left greater _) small)
  rw [longestShortPower] at long
  omega

/-- A long power has the sign that the parity of its exponent gives it. -/
theorem isInt_longPow_neg {x : Binary64} {n : Int} {exponent : UInt32}
    (power : (longPow exponent x).IsInt (n ^ exponent.toNat)) :
    (longPow exponent (-x)).IsInt ((-n) ^ exponent.toNat) := by
  rw [longPow_neg]
  split
  · rename_i odd
    rw [(Nat.odd_iff.mpr odd).neg_pow]
    exact power.neg
  · rename_i even
    rw [(Nat.even_iff.mpr (by omega)).neg_pow]
    exact power

/-- Long powers of zero and the units are exact. -/
theorem IsInt.longPow {x : Binary64} {n : Int} (hx : x.IsInt n) (unit : scaleOf n = 1)
    {exponent : UInt32} (positive : exponent.toNat ≠ 0) :
    (longPow exponent x).IsInt (n ^ exponent.toNat) := by
  have zero : (Binary64.longPow exponent 0).IsInt (0 ^ exponent.toNat) := by
    rw [longPow_zero, Int.zero_pow positive]
    exact isInt_zero
  have one : (Binary64.longPow exponent 1).IsInt (1 ^ exponent.toNat) := by
    rw [longPow_one, Int.one_pow]
    exact isInt_one
  have le := natAbs_le_scaleOf n
  obtain rfl | rfl | rfl : n = 0 ∨ n = 1 ∨ n = -1 := by omega
  · obtain ⟨negative, rfl⟩ := Binary64.isZero_iff.mp (hx.isZero_iff.mpr rfl)
    cases negative with
    | false => exact zero
    | true => exact isInt_longPow_neg zero
  · rw [hx.eq isInt_one (hx.ne_minus_zero (by decide)) nofun]
    exact one
  · rw [hx.eq isInt_one.neg (hx.ne_minus_zero (by decide))
      (isInt_one.neg.ne_minus_zero (by decide))]
    exact isInt_longPow_neg one

/-- **Powers are exact**, as far as integers have at most 53 bits. -/
theorem IsInt.pow {x : Binary64} {n : Int} (hx : x.IsInt n) {exponent : UInt32}
    (small : scaleOf n ^ exponent.toNat ≤ 2 ^ 53) :
    (x.pow exponent).IsInt (n ^ exponent.toNat) := by
  rw [Binary64.pow]
  split
  · have fits : scaleOf 1 * scaleOf n ^ exponent.toNat ≤ 2 ^ 53 := by
      rwa [show scaleOf 1 = 1 from rfl, Nat.one_mul]
    have power := isInt_one.powerBySquaring hx fits
    rwa [Int.one_mul] at power
  · rename_i long
    rw [Nat.not_le] at long
    exact hx.longPow (scaleOf_eq_one_of_long long small) (by omega)

end Binary64

end SparsePoly
