import SparsePoly.Proofs.Merging

/-!
# Sums, negatives and differences

Sums of polynomials round, and do not associate.  They still have the other laws of addition, to the
last bit: the operands may be exchanged, zero is neutral, and the negative passes through sums and
differences.  Only `p - p` needs a condition, since an infinity and its opposite have no sum.

The laws are those of the coefficients.  Among these there is no `-0`, and numbers without `-0` have
the laws: a rounded sum of opposite numbers is the opposite of the rounded sum, as long as it is not
zero, and adding to `0` forgets the sign of a zero (`Binary64.zero_add_neg_add`,
`Binary64.zero_add_add_zero_add`).

## Main statements

* `Poly.coeff_neg` - the coefficients of the negative
* `Poly.add_comm`, `Poly.neg_add`, `Poly.neg_sub` - the laws without a condition
* `Poly.sub_self_eq_zero_iff` - when a polynomial cancels with itself
* `Poly.additive_laws` - all of them
-/

namespace SparsePoly

namespace Binary64

/-! ### Opposite sums -/

/-- The sums of opposite numbers are opposite, or both are zeros. -/
theorem neg_add_or_isZero (x y : Binary64) :
    -(x + y) = -x + -y ∨ (x + y).isZero = true ∧ (-x + -y).isZero = true := by
  cases x with
  | nan => exact .inl (by simp)
  | infinity s =>
    cases y with
    | nan => exact .inl (by simp)
    | infinity t => exact .inl (by cases s <;> cases t <;> rfl)
    | finite t b => exact .inl rfl
  | finite s a =>
    cases y with
    | nan => exact .inl (by simp)
    | infinity t => exact .inl rfl
    | finite t b =>
      simp only [neg_finite, finite_add_finite, addFinite, signedUnits_not, ← Int.neg_add,
        Int.neg_eq_zero, Int.natAbs_neg]
      split
      · exact .inr ⟨isZero_iff.mpr ⟨_, rfl⟩, isZero_iff.mpr ⟨_, rfl⟩⟩
      · rename_i total
        refine .inl ?_
        rw [neg_rounded, ← decide_not]
        congr 1
        rw [decide_eq_decide]
        omega

/-- **The negative passes through a sum**, up to the sign of a zero. -/
theorem zero_add_neg_add (x y : Binary64) : 0 + -(x + y) = 0 + (-x + -y) := by
  rcases neg_add_or_isZero x y with eq | ⟨zero, opposite_zero⟩
  · rw [eq]
  · rw [zero_add_of_isZero ((isZero_neg _).trans zero), zero_add_of_isZero opposite_zero]

/-- `-0` is neutral. -/
theorem minus_zero_add (x : Binary64) : finite true 0 + x = x := by
  cases zero : x.isZero with
  | true =>
    obtain ⟨negative, rfl⟩ := isZero_iff.mp zero
    cases negative <;> rfl
  | false =>
    have opposite : (-x).isZero = false := (isZero_neg x).trans zero
    rcases neg_add_or_isZero 0 (-x) with eq | ⟨sum_zero, _⟩
    · rw [zero_add_of_nonzero opposite, neg_neg] at eq
      exact eq.symm
    · rw [isZero_zero_add, opposite] at sum_zero
      cases sum_zero

/-- **Signs of zeros do not matter in a sum**, if its own does not. -/
theorem zero_add_add_zero_add (x y : Binary64) : (0 + x) + (0 + y) = 0 + (x + y) := by
  by_cases x_zero : x = finite true 0
  · have positive : (0 : Binary64) ≠ finite true 0 := nofun
    rw [x_zero, minus_zero_add]
    exact zero_add_of_ne (add_ne_minus_zero positive y)
  · rw [zero_add_of_ne x_zero, zero_add_of_ne (add_ne_minus_zero x_zero y)]
    by_cases y_zero : y = finite true 0
    · rw [y_zero, Binary64.add_comm x (finite true 0), minus_zero_add]
      exact add_zero_of_ne x_zero
    · rw [zero_add_of_ne y_zero]

/-- **What is not `-0` cancels with its negative** if it is finite. -/
theorem add_zero_add_neg_eq_zero_iff {x : Binary64} (ne : x ≠ finite true 0) :
    x + (0 + -x) = 0 ↔ x.isFinite = true := by
  constructor
  · intro cancels
    cases x with
    | nan => cases cancels
    | infinity s => cases s <;> cases cancels
    | finite s a => rfl
  · intro finite
    cases zero : x.isZero with
    | true =>
      rw [eq_zero_of_isZero zero ne]
      rfl
    | false =>
      rw [zero_add_of_nonzero ((isZero_neg x).trans zero)]
      exact eq_zero_of_isZero (isZero_add_neg finite) (add_ne_minus_zero ne _)

end Binary64

namespace Poly

variable (p q : Poly)

/-- **The negative has the negative coefficients**, but `0` where a polynomial has none. -/
theorem coeff_neg (n : UInt32) : (-p).coeff n = 0 + -p.coeff n := by
  by_cases there : Terms.Occurs p.terms n
  · obtain ⟨t, mem, rfl⟩ := there
    have neg_mem : t.neg ∈ (-p).terms := List.mem_map_of_mem mem
    have opposite : (-t.coeff).isZero = false :=
      (Binary64.isZero_neg _).trans (p.canonical.nonzero t mem)
    rw [coeff_of_mem mem, Binary64.zero_add_of_nonzero opposite]
    exact coeff_of_mem neg_mem
  · have absent : ¬Terms.Occurs (-p).terms n := by
      rintro ⟨_, mem, same⟩
      obtain ⟨t, t_mem, rfl⟩ := List.mem_map.mp mem
      exact there ⟨t, t_mem, same⟩
    rw [coeff, coeff, Terms.coeff_of_not_occurs there, Terms.coeff_of_not_occurs absent]
    rfl

/-! ### The laws -/

protected theorem add_comm : p + q = q + p := by
  apply ext_coeff
  intro n
  rw [coeff_add, coeff_add, Binary64.add_comm]

/-- **The negative of a sum.** -/
protected theorem neg_add : -(p + q) = -p + -q := by
  apply ext_coeff
  intro n
  rw [coeff_neg, coeff_add, coeff_add, coeff_neg, coeff_neg, Binary64.zero_add_neg_add,
    Binary64.zero_add_add_zero_add]

/-- **The negative of a difference.** -/
protected theorem neg_sub : -(p - q) = q - p := by
  rw [sub_eq_add_neg, Poly.neg_add, neg_neg, Poly.add_comm, ← sub_eq_add_neg]

/-- **A polynomial cancels with itself** if all of its coefficients are finite. -/
theorem sub_self_eq_zero_iff : p - p = 0 ↔ ∀ t ∈ p.terms, t.coeff.isFinite = true := by
  have coeff_sub (n : UInt32) : (p - p).coeff n = 0 ↔ (p.coeff n).isFinite = true := by
    rw [sub_eq_add_neg, coeff_add, coeff_neg]
    exact Binary64.add_zero_add_neg_eq_zero_iff (p.canonical.coeff_ne_minus_zero n)
  rw [← forall_coeff_isFinite_iff]
  constructor
  · intro cancels n
    rw [← coeff_sub, cancels, coeff_zero]
  · exact fun finite => ext_coeff fun n => (coeff_sub n).mpr (finite n)

/-- **Addition has its laws bit for bit**, rounding or not, and with infinities and NaN among the
coefficients.  These only keep a polynomial from cancelling with itself. -/
theorem additive_laws :
    p + q = q + p ∧ p + 0 = p ∧ 0 + p = p ∧ - -p = p ∧ -(p + q) = -p + -q ∧ p - q = -(q - p) ∧
      (p - p = 0 ↔ ∀ t ∈ p.terms, t.coeff.isFinite = true) ∧
        (p + -p = 0 ↔ ∀ t ∈ p.terms, t.coeff.isFinite = true) :=
  ⟨p.add_comm q, p.add_zero, p.zero_add, p.neg_neg, p.neg_add q, (q.neg_sub p).symm,
    p.sub_self_eq_zero_iff, p.sub_self_eq_zero_iff⟩

end Poly

end SparsePoly
