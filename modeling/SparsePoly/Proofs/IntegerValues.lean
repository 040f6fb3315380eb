import SparsePoly.Poly.Eval
import SparsePoly.Proofs.IntegerArithmetic

/-!
# Values of integer polynomials

A value is exact if there is room for the sum of the magnitudes of all its terms.  The magnitude of
a term is bounded by that of the coefficient times a power of the point's magnitude; but at zero the
powers vanish and say nothing of the coefficients, so the points `0` and `1` are measured alike, by
one.  The same bound leaves room for the powers, whose squares are formed on the way.

Where polynomials, their sums and products have exact values, values of sums are sums of values, and
values of products are products.  They are equal as numbers, and not as bits: a sum of terms starts
from `0`, but a product of values may be `-0`.

## Main statements

* `Term.isInt_eval`, `Poly.Represents.isInt_eval` - values are exact
* `Poly.eval_in_integers` - sums and products, evaluated before or after
-/

namespace SparsePoly

open scoped Polynomial

open Binary64 (scaleOf)

variable {x : Binary64} {n : Int}

theorem natAbs_mul_pow_le (c n : Int) (k : Nat) :
    (c * n ^ k).natAbs ≤ c.natAbs * scaleOf n ^ k := by
  rw [Int.natAbs_mul, Int.natAbs_pow]
  exact Nat.mul_le_mul_left _ (Nat.pow_le_pow_left (Binary64.natAbs_le_scaleOf n) k)

/-- **The value of a term** is exact.  The coefficient must not be zero, since the power alone would
have no bound then. -/
theorem Term.isInt_eval {t : Term} {c : Int} (ht : t.coeff.IsInt c) (nonzero : c ≠ 0)
    (hx : x.IsInt n) (small : c.natAbs * scaleOf n ^ t.exponent.toNat ≤ 2 ^ 53) :
    (t.eval x).IsInt (c * n ^ t.exponent.toNat) := by
  have power : (x.pow t.exponent).IsInt (n ^ t.exponent.toNat) :=
    hx.pow (Nat.le_trans (Nat.le_mul_of_pos_left _ (Int.natAbs_pos.mpr nonzero)) small)
  exact ht.mul power (Nat.le_trans (natAbs_mul_pow_le c n _) small)

namespace Terms

theorem eval_toPolynomial (ts : List Term) (n : Int) :
    (toPolynomial ts).eval n = (ts.map fun t => t.coeff.toInt * n ^ t.exponent.toNat).sum := by
  rw [toPolynomial, Polynomial.eval_listSum, List.map_map]
  refine congrArg List.sum (List.map_congr_left fun t _ => ?_)
  exact Polynomial.eval_monomial

end Terms

namespace Poly

open Terms (LastFit)

variable {p q : Poly} {P Q : ℤ[X]}

theorem absSum_le_weight (p : Poly) (n : Int) : p.absSum ≤ p.weight (scaleOf n) :=
  weight_one p ▸ Terms.weight_le_weight (Binary64.one_le_scaleOf n) p.terms

namespace Represents

/-- **The value of a polynomial** is exact. -/
theorem isInt_eval (hp : p.Represents P) (hx : x.IsInt n)
    (small : p.weight (scaleOf n) ≤ 2 ^ 53) : (p.eval x).IsInt (P.eval n) := by
  have fits (t : Term) (mem : t ∈ p.terms) := Nat.le_trans (Terms.le_weight (scaleOf n) mem) small
  have values : ∀ t ∈ p.terms, (t.eval x).IsInt (t.coeff.toInt * n ^ t.exponent.toNat) := by
    intro t mem
    have coeff := (hp.isIntegral t mem).isInt
    refine Term.isInt_eval coeff (fun zero => ?_) hx (fits t mem)
    rw [← coeff.isZero_iff, p.canonical.nonzero t mem] at zero
    cases zero
  rw [← hp.toPolynomial_eq, toPolynomial, Terms.eval_toPolynomial]
  refine Binary64.isInt_sum values (Nat.le_trans (List.sum_le_sum fun t _ => ?_) small)
  exact natAbs_mul_pow_le t.coeff.toInt n t.exponent.toNat

theorem natAbs_eval_le (hp : p.Represents P) (n : Int) :
    (P.eval n).natAbs ≤ p.weight (scaleOf n) :=
  hp.weight_eq _ ▸ SparsePoly.natAbs_eval_le _ P (Binary64.natAbs_le_scaleOf n)

/-- **Values of sums** are sums of values. -/
theorem eval_add (hp : p.Represents P) (hq : q.Represents Q) (hx : x.IsInt n)
    (small : p.weight (scaleOf n) + q.weight (scaleOf n) ≤ 2 ^ 53) :
    ((p + q).eval x).equal (p.eval x + q.eval x) = true := by
  have p_le := p.absSum_le_weight n
  have q_le := q.absSum_le_weight n
  have sum := hp.add hq (by omega)
  have p_value := hp.isInt_eval hx (by omega)
  have q_value := hq.isInt_eval hx (by omega)
  have value := sum.isInt_eval hx (Nat.le_trans (hp.weight_add_le hq sum _) small)
  rw [Polynomial.eval_add] at value
  refine value.equal (p_value.add q_value (Nat.le_trans (Int.natAbs_add_le _ _) ?_))
  exact Nat.le_trans (Nat.add_le_add (hp.natAbs_eval_le n) (hq.natAbs_eval_le n)) small

/-- **Values of products** are products of values. -/
theorem eval_mul [Patterns] (hp : p.Represents P) (hq : q.Represents Q) (hx : x.IsInt n)
    (p_small : p.weight (scaleOf n) ≤ 2 ^ 53) (q_small : q.weight (scaleOf n) ≤ 2 ^ 53)
    (small : p.weight (scaleOf n) * q.weight (scaleOf n) ≤ 2 ^ 53)
    (fit : LastFit p.terms q.terms) :
    ∃ s, p.mul q = .ok s ∧ (s.eval x).equal (p.eval x * q.eval x) = true := by
  obtain ⟨s, product, exact_product⟩ := exists_mul hp hq fit
  refine ⟨s, product.mul, ?_⟩
  have hs := exact_product
    (Nat.le_trans (Nat.mul_le_mul (p.absSum_le_weight n) (q.absSum_le_weight n)) small)
  have value := hs.isInt_eval hx (Nat.le_trans (hp.weight_mul_le hq hs _) small)
  have p_value := hp.isInt_eval hx p_small
  have q_value := hq.isInt_eval hx q_small
  rw [Polynomial.eval_mul] at value
  refine value.equal (p_value.mul q_value ?_)
  rw [Int.natAbs_mul]
  exact Nat.le_trans (Nat.mul_le_mul (hp.natAbs_eval_le n) (hq.natAbs_eval_le n)) small

end Represents

/-- **Evaluation is a homomorphism on the integers**, as long as there is room.  The value of a
polynomial is the integer that its terms add up to, a power with the exponent zero being one also at
zero; and the values of sums and products are the sums and products of the values, equal as
numbers. -/
theorem eval_in_integers [Patterns] (p q : Poly) (x : Binary64) (n : Int) (hp : p.IsIntegral)
    (hq : q.IsIntegral) (hx : x.IsInt n) :
    (p.weight (scaleOf n) ≤ 2 ^ 53 →
      (p.eval x).IsInt (p.terms.map fun t => t.coeff.toInt * n ^ t.exponent.toNat).sum) ∧
    (p.weight (scaleOf n) + q.weight (scaleOf n) ≤ 2 ^ 53 →
      ((p + q).eval x).equal (p.eval x + q.eval x) = true) ∧
    (p.weight (scaleOf n) ≤ 2 ^ 53 → q.weight (scaleOf n) ≤ 2 ^ 53 →
      p.weight (scaleOf n) * q.weight (scaleOf n) ≤ 2 ^ 53 → LastFit p.terms q.terms →
        ∃ s, p.mul q = .ok s ∧ (s.eval x).equal (p.eval x * q.eval x) = true) := by
  have hp := hp.represents
  have hq := hq.represents
  refine ⟨fun small => ?_, hp.eval_add hq hx, hp.eval_mul hq hx⟩
  have value := hp.isInt_eval hx small
  rwa [toPolynomial, Terms.eval_toPolynomial] at value

/-- The variable, at `-1`. -/
theorem eval_variable :
    Poly.x.IsIntegral ∧ (-1 : Binary64).IsInt (-1) ∧ (Poly.x.eval (-1)).IsInt (-1) ∧
      ((Poly.x + Poly.x).eval (-1)).equal (Poly.x.eval (-1) + Poly.x.eval (-1)) = true ∧
      ∃ s, @Poly.mul .standard Poly.x Poly.x = .ok s ∧
        (s.eval (-1)).equal (Poly.x.eval (-1) * Poly.x.eval (-1)) = true := by
  have integral := represents_x.isIntegral
  have weight : Poly.x.weight (scaleOf (-1)) = 1 := by
    rw [show scaleOf (-1) = 1 from rfl, weight_one, absSum_x]
  have terms : (Poly.x.terms.map fun t => t.coeff.toInt * (-1) ^ t.exponent.toNat).sum = -1 := by
    rw [← Terms.eval_toPolynomial, ← toPolynomial, represents_x.toPolynomial_eq,
      Polynomial.eval_X]
  have point := Binary64.isInt_one.neg
  obtain ⟨value, sum, product⟩ :=
    @eval_in_integers .standard Poly.x Poly.x (-1) (-1) integral integral point
  rw [weight] at value sum product
  rw [terms] at value
  exact ⟨integral, point, value (by decide), sum (by decide),
    product (by decide) (by decide) (by decide) lastFit_x⟩

end Poly

end SparsePoly
