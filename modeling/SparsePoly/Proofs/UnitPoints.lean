import SparsePoly.Proofs.Reflection

/-!
# Values at zero and at the units

Powers of zero and of the units are not rounded, neither short ones nor long ones, so that values at
these points can be told from the coefficients: the value at zero is the coefficient of the constant
term, the value at one is the sum of the coefficients, and the value at minus one is their sum with
the signs that the parity of the exponents gives them.

At zero all terms but the constant one are zeros, with signs that depend on the coefficients, the
exponents and the argument.  None of these signs survives: the sum starts from `0`, and a zero that
is added to anything but `-0` changes nothing (`Binary64.add_of_isZero`).

## Main statements

* `Term.isZero_eval`, `Term.eval_one` - terms at zero and at one
* `Terms.foldl_eval_of_isZero` - at zero, constant terms alone are added up
* `Poly.eval_of_isZero`, `Poly.eval_one`, `Poly.eval_minus_one` - the values
* `Poly.eval_at_units` - all of them
-/

namespace SparsePoly

namespace Binary64

/-! ### Zeros and units -/

/-- A zero of either sign changes no number but `-0`. -/
theorem add_of_isZero {x z : Binary64} (ne : x ≠ finite true 0) (zero : z.isZero = true) :
    x + z = x := by
  obtain ⟨negative, rfl⟩ := isZero_iff.mp zero
  cases negative with
  | false => exact add_zero_of_ne ne
  | true => rw [Binary64.add_comm, minus_zero_add]

/-- The product of a finite number and a zero is a zero. -/
theorem isZero_mul {x z : Binary64} (finite : x.isFinite = true) (zero : z.isZero = true) :
    (x * z).isZero = true := by
  obtain ⟨s, m, rfl⟩ := exists_of_isFinite finite
  obtain ⟨negative, rfl⟩ := isZero_iff.mp zero
  rw [finite_mul_finite, mulFinite, Magnitude.units_zero, Nat.mul_zero, rounded_zero]
  exact isZero_iff.mpr ⟨_, rfl⟩

theorem isInt_of_isZero {z : Binary64} (zero : z.isZero = true) : z.IsInt 0 := by
  obtain ⟨negative, rfl⟩ := isZero_iff.mp zero
  cases negative with
  | false => exact isInt_zero
  | true => exact isInt_zero.neg

/-- There is always room for the powers of zero and of the units. -/
theorem scaleOf_pow_le_of_unit {n : Int} (unit : scaleOf n = 1) (k : Nat) :
    scaleOf n ^ k ≤ 2 ^ 53 := by
  rw [unit, Nat.one_pow]
  decide

/-- **Powers of zeros** are zeros, but for the power that is one. -/
theorem isZero_pow {z : Binary64} (zero : z.isZero = true) {exponent : UInt32}
    (positive : exponent ≠ 0) : (z.pow exponent).isZero = true := by
  have power := (isInt_of_isZero zero).pow (scaleOf_pow_le_of_unit rfl exponent.toNat)
  refine power.isZero_iff.mpr (Int.zero_pow fun none_left => positive ?_)
  exact UInt32.toNat_inj.mp none_left

/-- **The powers of one** are one. -/
theorem one_pow (exponent : UInt32) : (1 : Binary64).pow exponent = 1 := by
  have power := isInt_one.pow (scaleOf_pow_le_of_unit rfl exponent.toNat)
  rw [Int.one_pow] at power
  exact power.eq isInt_one (power.ne_minus_zero (by decide)) nofun

end Binary64

namespace Term

variable (t : Term)

/-- **At zero** only a constant term has a value other than zero. -/
theorem isZero_eval (finite : t.coeff.isFinite = true) {z : Binary64} (zero : z.isZero = true)
    (not_constant : t.exponent ≠ 0) : (t.eval z).isZero = true :=
  Binary64.isZero_mul finite (Binary64.isZero_pow zero not_constant)

/-- **At one** the value is the coefficient. -/
theorem eval_one : t.eval 1 = t.coeff := by
  rw [eval, Binary64.one_pow, Binary64.mul_one]

theorem coeff_reflect :
    t.reflect.coeff = if t.exponent.toNat % 2 = 1 then -t.coeff else t.coeff := by
  rw [reflect]
  split <;> rfl

end Term

/-- **At zero, constant terms alone are added up.** -/
theorem Terms.foldl_eval_of_isZero {ts : List Term} (finite : ∀ t ∈ ts, t.coeff.isFinite = true)
    {z : Binary64} (zero : z.isZero = true) {start : Binary64} (ne : start ≠ .finite true 0) :
    (ts.map (·.eval z)).foldl (· + ·) start =
      ((ts.filter (·.exponent == 0)).map Term.coeff).foldl (· + ·) start := by
  induction ts generalizing start with
  | nil => rfl
  | cons t ts ih =>
    obtain ⟨t_finite, ts_finite⟩ := List.forall_mem_cons.mp finite
    rw [List.map_cons, List.foldl_cons]
    by_cases constant : t.exponent = 0
    · have value : t.eval z = t.coeff := by
        rw [Term.eval, constant, Binary64.pow_zero, Binary64.mul_one]
      rw [value, List.filter_cons_of_pos (by simpa using constant), List.map_cons, List.foldl_cons]
      exact ih ts_finite (Binary64.add_ne_minus_zero ne _)
    · rw [Binary64.add_of_isZero ne (t.isZero_eval t_finite zero constant),
        List.filter_cons_of_neg (by simpa using constant)]
      exact ih ts_finite ne

namespace Poly

variable (p : Poly)

/-- **At a zero of either sign** the value is the coefficient of the constant term. -/
theorem eval_of_isZero (finite : ∀ t ∈ p.terms, t.coeff.isFinite = true) {z : Binary64}
    (zero : z.isZero = true) : p.eval z = p.coeff 0 := by
  have sum : p.eval z = Terms.sumAt p.terms 0 := Terms.foldl_eval_of_isZero finite zero nofun
  rw [sum, ← coeff_collect_eq_sumAt, collect_terms]

/-- **At one** the value is the sum of the coefficients. -/
theorem eval_one : p.eval 1 = Binary64.sum (p.terms.map Term.coeff) :=
  congrArg Binary64.sum (List.map_congr_left fun t _ => t.eval_one)

/-- **At minus one** it is the sum of the reflected coefficients. -/
theorem eval_minus_one : p.eval (-1) =
    Binary64.sum (p.terms.map fun t => if t.exponent.toNat % 2 = 1 then -t.coeff else t.coeff) := by
  rw [eval_neg, eval_one, reflect, List.map_map]
  exact congrArg Binary64.sum (List.map_congr_left fun t _ => t.coeff_reflect)

/-- **Values at zero and at the units** are not touched by the rounding of powers.  At either zero
the value is the coefficient of the constant term, to the last bit.  At one it is the sum of the
coefficients in the order of the exponents, and at minus one the same sum with the signs of the odd
exponents changed. -/
theorem eval_at_units :
    ((∀ t ∈ p.terms, t.coeff.isFinite = true) → p.eval 0 = p.coeff 0 ∧ p.eval (-0) = p.coeff 0) ∧
      p.eval 1 = Binary64.sum (p.terms.map Term.coeff) ∧
      p.eval (-1) = Binary64.sum
        (p.terms.map fun t => if t.exponent.toNat % 2 = 1 then -t.coeff else t.coeff) :=
  ⟨fun finite => ⟨p.eval_of_isZero finite rfl, p.eval_of_isZero finite rfl⟩, p.eval_one,
    p.eval_minus_one⟩

/-- A polynomial with the greatest exponent and no constant term. -/
def highest : Poly :=
  ⟨[⟨1, -1⟩, ⟨4294967295, 1⟩], by simp [Terms.canonical_cons, Terms.canonical_nil]⟩

/-- Its values are `0` at all four points: the terms are zeros of both signs at zero, and cancel at
the units. -/
theorem eval_at_units_of_highest :
    (∀ t ∈ highest.terms, t.coeff.isFinite = true) ∧ highest.eval 0 = 0 ∧
      highest.eval (-0) = 0 ∧ highest.eval 1 = 0 ∧ highest.eval (-1) = 0 := by
  have finite : ∀ t ∈ highest.terms, t.coeff.isFinite = true := by decide
  obtain ⟨at_zeros, at_one, at_minus_one⟩ := highest.eval_at_units
  obtain ⟨at_zero, at_minus_zero⟩ := at_zeros finite
  refine ⟨finite, at_zero, at_minus_zero, at_one.trans ?_, at_minus_one.trans ?_⟩
  · decide +kernel
  · decide +kernel

end Poly

end SparsePoly
