import Mathlib.Data.List.Induction
import SparsePoly.Poly.Eval
import SparsePoly.Proofs.AdditiveLaws
import SparsePoly.Proofs.Integers

/-!
# Values under a change of sign

A value changes its sign with the coefficients, and a change of sign of the argument can be moved to
the coefficients of the odd exponents.  Rounding does not disturb either symmetry: rounding to
nearest looks at magnitudes only.

What is added up are opposite numbers then, step by step, in one order.  The sums are opposite as
well, as long as they are not zero; a sum that starts from `0` is never `-0`, so that two opposite
sums are both `0` if one of them is (`Binary64.sum_map_neg`).

For powers the exponent is followed digit by digit.  The sign of the base survives only in the
product, and only if the lowest digit is one, because the first square already forgets it
(`Binary64.powerBySquaring_neg_square`).

## Main statements

* `Binary64.pow_neg` - the sign of a power is the parity of its exponent
* `Poly.neg_eval`, `Poly.eval_neg` - values of the negative, and at the opposite argument
* `Poly.eval_sign_symmetries` - these, and what they mean for roots
-/

namespace SparsePoly

namespace Binary64

/-! ### Powers of opposite numbers -/

protected theorem mul_neg (x y : Binary64) : x * -y = -(x * y) := by
  rw [Binary64.mul_comm, Binary64.neg_mul, Binary64.mul_comm]

/-- A square forgets the sign. -/
theorem neg_mul_neg (x y : Binary64) : -x * -y = x * y := by
  rw [Binary64.neg_mul, Binary64.mul_neg, neg_neg]

/-- A sign of the product stays to the end. -/
theorem powerBySquaring_neg_product (product square : Binary64) (exponent : Nat) :
    powerBySquaring (· * ·) (-product) square exponent =
      -powerBySquaring (· * ·) product square exponent := by
  induction exponent using Nat.strongRecOn generalizing product square with
  | ind exponent ih =>
    have next : (if exponent % 2 = 1 then -product * square else -product) =
        -(if exponent % 2 = 1 then product * square else product) := by
      split
      · exact Binary64.neg_mul product square
      · rfl
    rw [powerBySquaring_eq, powerBySquaring_eq _ product, next]
    split
    · rfl
    · exact ih (exponent / 2) (by omega) _ _

/-- **A sign of the square stays if the lowest digit is one.**  Beyond that digit the squares are
the same. -/
theorem powerBySquaring_neg_square (product square : Binary64) (exponent : Nat) :
    powerBySquaring (· * ·) product (-square) exponent =
      if exponent % 2 = 1 then -powerBySquaring (· * ·) product square exponent
      else powerBySquaring (· * ·) product square exponent := by
  rw [powerBySquaring_eq, neg_mul_neg]
  split
  · rename_i last
    rw [powerBySquaring_eq _ product, if_pos last]
    split
    · exact Binary64.mul_neg product square
    · rfl
  · rename_i more
    rw [powerBySquaring_eq _ product, if_neg more]
    split
    · rw [Binary64.mul_neg]
      exact powerBySquaring_neg_product _ _ _
    · rfl

/-- **The sign of a power is the parity of its exponent**, for short and for long exponents. -/
theorem pow_neg (x : Binary64) (exponent : UInt32) :
    (-x).pow exponent = if exponent.toNat % 2 = 1 then -x.pow exponent else x.pow exponent := by
  rw [pow, pow]
  split
  · exact powerBySquaring_neg_square 1 x exponent.toNat
  · exact longPow_neg exponent x

/-! ### Sums of opposite numbers -/

theorem add_zero_add {x : Binary64} (ne : x ≠ finite true 0) (y : Binary64) :
    x + (0 + y) = x + y := by
  rw [zero_add_eq]
  split
  · rename_i minus_zero
    rw [minus_zero, Binary64.add_comm x (-0), add_zero_of_ne ne]
    exact (minus_zero_add x).symm
  · rfl

/-- **Opposite numbers have opposite sums**, except that `0` is its own opposite. -/
theorem sum_map_neg (xs : List Binary64) : sum (xs.map (- ·)) = 0 + -sum xs := by
  induction xs using List.reverseRecOn with
  | nil => rfl
  | append_singleton xs x ih =>
    have positive : (0 : Binary64) ≠ finite true 0 := nofun
    have opposite := add_ne_minus_zero positive (-sum xs)
    rw [List.map_append, List.map_singleton, sum_append_singleton, sum_append_singleton, ih,
      ← add_zero_add opposite, zero_add_add_zero_add, zero_add_neg_add]

/-- Neither the sign of a number nor what adding to `0` makes of its zeros can be seen from its
absolute value. -/
theorem abs_zero_add_neg (x : Binary64) : (0 + -x).abs = x.abs := by
  rw [zero_add_eq]
  split
  · rename_i minus_zero
    have zero : x = 0 := by rw [← neg_neg x, minus_zero, neg_neg]
    rw [zero]
  · exact abs_neg x

end Binary64

namespace Term

/-! ### Terms -/

theorem neg_eval (t : Term) (x : Binary64) : t.neg.eval x = -t.eval x :=
  Binary64.neg_mul t.coeff (x.pow t.exponent)

/-- The term with the other sign if its exponent is odd. -/
def reflect (t : Term) : Term := if t.exponent.toNat % 2 = 1 then t.neg else t

@[simp] theorem exponent_reflect (t : Term) : t.reflect.exponent = t.exponent := by
  rw [reflect]
  split <;> rfl

@[simp] theorem isZero_coeff_reflect (t : Term) : t.reflect.coeff.isZero = t.coeff.isZero := by
  rw [reflect]
  split
  · exact Binary64.isZero_neg t.coeff
  · rfl

/-- **The value at the opposite number.** -/
theorem eval_neg (t : Term) (x : Binary64) : t.eval (-x) = t.reflect.eval x := by
  rw [eval, Binary64.pow_neg, reflect]
  split
  · rw [Binary64.mul_neg, neg_eval, eval]
  · rfl

end Term

namespace Poly

/-! ### Polynomials -/

/-- **The reflected polynomial**: the coefficients of its odd exponents have the other sign. -/
def reflect (p : Poly) : Poly :=
  ⟨p.terms.map Term.reflect,
    p.canonical.map_of_exponent Term.reflect Term.exponent_reflect fun t mem => by
      rw [Term.isZero_coeff_reflect]
      exact p.canonical.nonzero t mem⟩

variable (p : Poly)

theorem reflect_of_even (even : ∀ t ∈ p.terms, t.exponent.toNat % 2 = 0) : p.reflect = p := by
  apply ext
  refine (List.map_congr_left fun t mem => ?_).trans (List.map_id p.terms)
  rw [Term.reflect, if_neg (by rw [even t mem]; decide)]
  rfl

/-- No value is `-0`. -/
theorem eval_ne_minus_zero (x : Binary64) : p.eval x ≠ -0 :=
  Binary64.foldl_ne_minus_zero _ nofun

/-- **The value of the negative** is the negative of the value, except that `0` stays `0`. -/
theorem neg_eval (x : Binary64) : (-p).eval x = 0 + -p.eval x := by
  have opposite : (-p).terms.map (·.eval x) = (p.terms.map (·.eval x)).map (- ·) := by
    rw [terms_neg, List.map_map, List.map_map]
    exact List.map_congr_left fun t _ => t.neg_eval x
  rw [eval, opposite, Binary64.sum_map_neg, ← eval]

/-- **The value at the opposite number** is that of the reflected polynomial. -/
theorem eval_neg (x : Binary64) : p.eval (-x) = p.reflect.eval x := by
  have reflected : p.terms.map (·.eval (-x)) = p.reflect.terms.map (·.eval x) := by
    rw [reflect, List.map_map]
    exact List.map_congr_left fun t _ => t.eval_neg x
  rw [eval, reflected, ← eval]

/-- A polynomial and its negative have the same roots, for every tolerance. -/
theorem hasRootWithin_neg (x tolerance : Binary64) :
    (-p).hasRootWithin x tolerance = p.hasRootWithin x tolerance := by
  rw [hasRootWithin, hasRootWithin, neg_eval, Binary64.abs_zero_add_neg]

/-- **Values respect both changes of sign**, to the last bit and with infinities and NaN among the
coefficients and for the argument: of all coefficients, and of the argument.  The first leaves the
roots as they are; the second is no change for a polynomial that has only even exponents. -/
theorem eval_sign_symmetries :
    (∀ x, (-p).eval x = if p.eval x = 0 then 0 else -p.eval x) ∧
      (∀ x tolerance, (-p).hasRootWithin x tolerance = p.hasRootWithin x tolerance) ∧
      (∀ x, p.eval (-x) = p.reflect.eval x) ∧
      ((∀ t ∈ p.terms, t.exponent.toNat % 2 = 0) → ∀ x, p.eval (-x) = p.eval x) ∧
      ∀ x, p.eval x ≠ -0 := by
  refine ⟨fun x => ?_, p.hasRootWithin_neg, p.eval_neg, fun even x => ?_, p.eval_ne_minus_zero⟩
  · rw [neg_eval, Binary64.zero_add_eq]
    refine if_congr ⟨fun zero => ?_, congrArg _⟩ rfl rfl
    rw [← Binary64.neg_neg (p.eval x), zero, Binary64.neg_neg]
  · rw [eval_neg, p.reflect_of_even even]

/-- The opposite of the square, at the units. -/
theorem eval_sign_symmetries_of_square :
    (∀ t ∈ (-single 2 1 Binary64.isZero_one).terms, t.exponent.toNat % 2 = 0) ∧
      (-single 2 1 Binary64.isZero_one).eval (-1) = (-single 2 1 Binary64.isZero_one).eval 1 := by
  have even : ∀ t ∈ (-single 2 1 Binary64.isZero_one).terms, t.exponent.toNat % 2 = 0 := by
    intro t mem
    cases List.mem_singleton.mp mem
    rfl
  obtain ⟨_, _, _, ofEven, _⟩ := eval_sign_symmetries (-single 2 1 Binary64.isZero_one)
  exact ⟨even, ofEven even 1⟩

end Poly

end SparsePoly
