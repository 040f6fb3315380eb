import Mathlib.Algebra.BigOperators.Ring.List
import Mathlib.Algebra.Polynomial.Eval.Degree
import SparsePoly.Proofs.Integers
import SparsePoly.Proofs.Merging

/-!
# Terms as polynomials over the integers

A list of terms with integer coefficients denotes a polynomial of `ℤ[X]`, the sum of its monomials.
Nothing is asked of the list: the terms may come in any order and with any repetitions, as partial
products do.

How far the list can be added up without rounding is decided by its *weight*, the sum of the
magnitudes of the coefficients.  The weight is taken at a base, the magnitudes being multiplied by
the powers of the base, so that it also bounds the values at a point; at the base one it is the sum
of the magnitudes alone.  A polynomial of `ℤ[X]` has a weight too, the one of the canonical list; it
is at most the sum of the weights for a sum, since cancelling only loses weight, and at most their
product for a product.

## Main definitions

* `Terms.toPolynomial`, `Poly.toPolynomial` - the denotation
* `Terms.weight`, `Poly.weight`, `weightOf` - weights of lists and of polynomials
* `Poly.Represents` - to have the coefficients of a polynomial of `ℤ[X]`, and no other terms

## Main statements

* `Poly.represents_collect` - what terms add up to represents what they denote
* `Poly.Represents.eq` - a polynomial of `ℤ[X]` is represented only once
* `Poly.weight_eq` - a canonical list weighs what it denotes
-/

namespace SparsePoly

open scoped Polynomial

/-! ### Weights of polynomials -/

/-- The sum of the magnitudes of the coefficients, each times a power of the base. -/
def weightOf (base : Nat) (P : ℤ[X]) : Nat := P.sum fun k c => c.natAbs * base ^ k

section Weights

variable (base : Nat)

/-- The weight as a sum over all places of a given set, some of them empty perhaps. -/
theorem weightOf_eq_sum {P : ℤ[X]} {places : Finset Nat} (within : P.support ⊆ places) :
    weightOf base P = ∑ k ∈ places, (P.coeff k).natAbs * base ^ k := by
  refine Polynomial.sum_eq_of_subset (fun k c => c.natAbs * base ^ k) ?_ within
  exact fun k => Nat.zero_mul (base ^ k)

theorem weightOf_zero : weightOf base 0 = 0 := Polynomial.sum_zero_index _

theorem weightOf_monomial (k : Nat) (c : Int) :
    weightOf base (Polynomial.monomial k c) = c.natAbs * base ^ k :=
  Polynomial.sum_monomial_index c _ (Nat.zero_mul _)

/-- **Coefficients may cancel**, but they do not gain. -/
theorem weightOf_add_le (P Q : ℤ[X]) :
    weightOf base (P + Q) ≤ weightOf base P + weightOf base Q := by
  rw [weightOf_eq_sum base Polynomial.support_add,
    weightOf_eq_sum base (Finset.subset_union_left : P.support ⊆ P.support ∪ Q.support),
    weightOf_eq_sum base (Finset.subset_union_right : Q.support ⊆ P.support ∪ Q.support),
    ← Finset.sum_add_distrib]
  apply Finset.sum_le_sum
  intro k _
  rw [Polynomial.coeff_add, ← Nat.add_mul]
  exact Nat.mul_le_mul_right _ (Int.natAbs_add_le _ _)

/-- The weight of a product is at most the product of the weights. -/
theorem weightOf_mul_le (P Q : ℤ[X]) :
    weightOf base (P * Q) ≤ weightOf base P * weightOf base Q := by
  have sum_le {places : Finset Nat} (f : Nat → ℤ[X]) :
      weightOf base (∑ k ∈ places, f k) ≤ ∑ k ∈ places, weightOf base (f k) :=
    Finset.le_sum_of_subadditive _ (weightOf_zero base).le (weightOf_add_le base) places f
  rw [Polynomial.mul_eq_sum_sum, weightOf_eq_sum base (subset_refl P.support),
    weightOf_eq_sum base (subset_refl Q.support), Finset.sum_mul_sum]
  refine Nat.le_trans (sum_le _) (Finset.sum_le_sum fun i _ => ?_)
  refine Nat.le_trans (sum_le _) (Finset.sum_le_sum fun j _ => ?_)
  rw [weightOf_monomial, Int.natAbs_mul, Nat.pow_add]
  exact Nat.le_of_eq (Nat.mul_mul_mul_comm _ _ _ _)

/-- A value is bounded by the weight at the magnitude of the point. -/
theorem natAbs_eval_le (P : ℤ[X]) {n : Int} (le : n.natAbs ≤ base) :
    (P.eval n).natAbs ≤ weightOf base P := by
  rw [Polynomial.eval_eq_sum, Polynomial.sum_def, weightOf, Polynomial.sum_def]
  refine Nat.le_trans (Int.natAbs_sum_le _ _) (Finset.sum_le_sum fun k _ => ?_)
  rw [Int.natAbs_mul, Int.natAbs_pow]
  exact Nat.mul_le_mul_left _ (Nat.pow_le_pow_left le k)

end Weights

namespace Terms

/-! ### Lists -/

/-- All coefficients are integers. -/
def Integral (ts : List Term) : Prop := ∀ t ∈ ts, t.coeff.IsInteger

/-- **The polynomial that terms denote.** -/
noncomputable def toPolynomial (ts : List Term) : ℤ[X] :=
  (ts.map fun t => Polynomial.monomial t.exponent.toNat t.coeff.toInt).sum

/-- The sum of the magnitudes of the coefficients, each times a power of the base. -/
def weight (base : Nat) (ts : List Term) : Nat :=
  (ts.map fun t => t.coeff.toInt.natAbs * base ^ t.exponent.toNat).sum

theorem toPolynomial_cons (t : Term) (ts : List Term) :
    toPolynomial (t :: ts) =
      Polynomial.monomial t.exponent.toNat t.coeff.toInt + toPolynomial ts := by
  rw [toPolynomial, List.map_cons, List.sum_cons]
  rfl

theorem toPolynomial_append (ts us : List Term) :
    toPolynomial (ts ++ us) = toPolynomial ts + toPolynomial us := by
  rw [toPolynomial, List.map_append, List.sum_append]
  rfl

theorem weight_append (base : Nat) (ts us : List Term) :
    weight base (ts ++ us) = weight base ts + weight base us := by
  rw [weight, List.map_append, List.sum_append]
  rfl

theorem Integral.append {ts us : List Term} (ht : Integral ts) (hu : Integral us) :
    Integral (ts ++ us) := by
  intro t mem
  rcases List.mem_append.mp mem with mem | mem
  · exact ht t mem
  · exact hu t mem

theorem weight_one (ts : List Term) :
    weight 1 ts = (ts.map fun t => t.coeff.toInt.natAbs).sum := by
  simp only [weight, Nat.one_pow, Nat.mul_one]

/-- Each term alone weighs no more than the list. -/
theorem le_weight (base : Nat) {ts : List Term} {t : Term} (mem : t ∈ ts) :
    t.coeff.toInt.natAbs * base ^ t.exponent.toNat ≤ weight base ts :=
  List.le_sum_of_mem (List.mem_map.mpr ⟨t, mem, rfl⟩)

/-- The weight grows with the base. -/
theorem weight_le_weight {base base' : Nat} (le : base ≤ base') (ts : List Term) :
    weight base ts ≤ weight base' ts :=
  List.sum_le_sum fun _ _ => Nat.mul_le_mul_left _ (Nat.pow_le_pow_left le _)

/-! ### Coefficients -/

/-- A coefficient is the sum of those of the terms at its exponent. -/
theorem coeff_toPolynomial (ts : List Term) (n : UInt32) :
    (toPolynomial ts).coeff n.toNat =
      ((ts.filter (·.exponent == n)).map fun t => t.coeff.toInt).sum := by
  induction ts with
  | nil => rfl
  | cons t ts ih =>
    rw [toPolynomial_cons, Polynomial.coeff_add, Polynomial.coeff_monomial, ih, List.filter_cons]
    by_cases here : t.exponent = n
    · rw [if_pos (congrArg UInt32.toNat here), if_pos (beq_iff_eq.mpr here), List.map_cons,
        List.sum_cons]
    · rw [if_neg (mt UInt32.toNat_inj.mp here), if_neg (by simpa using here), Int.zero_add]

/-- Where no term is there is no coefficient. -/
theorem coeff_toPolynomial_eq_zero {ts : List Term} {k : Nat}
    (none_there : ∀ t ∈ ts, t.exponent.toNat ≠ k) : (toPolynomial ts).coeff k = 0 := by
  induction ts with
  | nil => rfl
  | cons t ts ih =>
    rw [toPolynomial_cons, Polynomial.coeff_add, Polynomial.coeff_monomial,
      if_neg (none_there t List.mem_cons_self),
      ih fun u mem => none_there u (List.mem_cons_of_mem t mem), Int.zero_add]

/-- **Adding up is exact** as long as the weight is at most `2 ^ 53`. -/
theorem isInt_sumAt {ts : List Term} (integral : Integral ts) (small : weight 1 ts ≤ 2 ^ 53)
    (n : UInt32) : (sumAt ts n).IsInt ((toPolynomial ts).coeff n.toNat) := by
  rw [coeff_toPolynomial]
  refine Binary64.isInt_sum (fun t mem => (integral t (List.mem_filter.mp mem).1).isInt) ?_
  rw [weight_one] at small
  refine Nat.le_trans (List.Sublist.sum_le_sum (List.filter_sublist.map _) ?_) small
  exact fun _ _ => Nat.zero_le _

/-- The only term at an exponent is the coefficient there. -/
theorem Canonical.coeff_toPolynomial {ts : List Term} (h : Canonical ts) {t : Term}
    (mem : t ∈ ts) : (toPolynomial ts).coeff t.exponent.toNat = t.coeff.toInt := by
  rw [Terms.coeff_toPolynomial, Terms.filter_exponent_of_ascending h.ascending mem]
  exact Int.add_zero _

end Terms

namespace Poly

/-! ### Polynomials -/

/-- All coefficients are integers. -/
def IsIntegral (p : Poly) : Prop := Terms.Integral p.terms

/-- The polynomial of `ℤ[X]` with the coefficients of `p`, which are meant to be integers. -/
noncomputable def toPolynomial (p : Poly) : ℤ[X] := Terms.toPolynomial p.terms

/-- The sum of the magnitudes of the coefficients, each times a power of the base. -/
def weight (base : Nat) (p : Poly) : Nat := Terms.weight base p.terms

/-- The sum of the magnitudes of the coefficients. -/
def absSum (p : Poly) : Nat := (p.terms.map fun t => t.coeff.toInt.natAbs).sum

theorem weight_one (p : Poly) : p.weight 1 = p.absSum := Terms.weight_one p.terms

/-- **To stand for a polynomial of `ℤ[X]`**: to have exactly its coefficients, and no term where it
has none. -/
structure Represents (p : Poly) (P : ℤ[X]) : Prop where
  /-- Every coefficient is that of `P`. -/
  coeff : ∀ n : UInt32, (p.coeff n).IsInt (P.coeff n.toNat)
  /-- There is a term exactly where `P` has a coefficient. -/
  term : ∀ k, (∃ t ∈ p.terms, t.exponent.toNat = k) ↔ P.coeff k ≠ 0

/-- What terms denote has no coefficient out of reach. -/
theorem exists_exponent_of_coeff {ts : List Term} {k : Nat}
    (nonzero : (Terms.toPolynomial ts).coeff k ≠ 0) : ∃ n : UInt32, n.toNat = k := by
  by_contra none_there
  push Not at none_there
  exact nonzero (Terms.coeff_toPolynomial_eq_zero fun t _ => none_there t.exponent)

/-- To represent what terms denote, it is enough to have the coefficients. -/
theorem represents_of_coeff {p : Poly} {ts : List Term}
    (coeff : ∀ n : UInt32, (p.coeff n).IsInt ((Terms.toPolynomial ts).coeff n.toNat)) :
    p.Represents (Terms.toPolynomial ts) where
  coeff := coeff
  term k := by
    have nonzero_iff (n : UInt32) :
        (p.coeff n).isZero = false ↔ (Terms.toPolynomial ts).coeff n.toNat ≠ 0 := by
      rw [← Bool.not_eq_true, (coeff n).isZero_iff]
    constructor
    · rintro ⟨t, mem, rfl⟩
      exact (nonzero_iff _).mp (exists_term_iff.mp ⟨t, mem, rfl⟩)
    · intro nonzero
      obtain ⟨n, rfl⟩ := exists_exponent_of_coeff nonzero
      obtain ⟨t, mem, same⟩ := exists_term_iff.mpr ((nonzero_iff n).mpr nonzero)
      exact ⟨t, mem, congrArg UInt32.toNat same⟩

/-- **What terms add up to represents what they denote**, as long as they weigh at most
`2 ^ 53`. -/
theorem represents_collect {ts : List Term} (integral : Terms.Integral ts)
    (small : Terms.weight 1 ts ≤ 2 ^ 53) : (collect ts).Represents (Terms.toPolynomial ts) := by
  refine represents_of_coeff fun n => ?_
  rw [coeff_collect_eq_sumAt]
  exact Terms.isInt_sumAt integral small n

/-- A polynomial with integer coefficients represents what it denotes, be they large or small. -/
theorem IsIntegral.represents {p : Poly} (integral : p.IsIntegral) :
    p.Represents p.toPolynomial := by
  refine represents_of_coeff fun n => ?_
  by_cases there : ∃ t ∈ p.terms, t.exponent = n
  · obtain ⟨t, mem, rfl⟩ := there
    rw [coeff_of_mem mem, p.canonical.coeff_toPolynomial mem]
    exact (integral t mem).isInt
  · have none_there : ∀ t ∈ p.terms, t.exponent.toNat ≠ n.toNat :=
      fun t mem same => there ⟨t, mem, UInt32.toNat_inj.mp same⟩
    rw [Terms.coeff_toPolynomial_eq_zero none_there, coeff,
      Terms.coeff_eq_zero fun t mem same => there ⟨t, mem, same⟩]
    exact Binary64.isInt_zero

namespace Represents

variable {p q : Poly} {P : ℤ[X]}

theorem isIntegral (hp : p.Represents P) : p.IsIntegral := by
  intro t mem
  rw [← coeff_of_mem mem]
  exact ⟨_, hp.coeff t.exponent⟩

/-- **A polynomial of `ℤ[X]` is represented only once.** -/
theorem eq (hp : p.Represents P) (hq : q.Represents P) : p = q :=
  ext_coeff fun n => (hp.coeff n).eq (hq.coeff n) (p.canonical.coeff_ne_minus_zero n)
    (q.canonical.coeff_ne_minus_zero n)

/-- Only what is denoted is represented. -/
theorem toPolynomial_eq (hp : p.Represents P) : p.toPolynomial = P := by
  have own := hp.isIntegral.represents
  ext k
  by_cases there : ∃ t ∈ p.terms, t.exponent.toNat = k
  · obtain ⟨t, _, rfl⟩ := there
    exact (own.coeff t.exponent).unique (hp.coeff t.exponent)
  · rw [not_not.mp (mt (own.term k).mpr there), not_not.mp (mt (hp.term k).mpr there)]

end Represents

/-- **A canonical list weighs what it denotes.** -/
theorem weight_eq (base : Nat) (p : Poly) : p.weight base = weightOf base p.toPolynomial := by
  have ascending : (p.terms.map fun t => t.exponent.toNat).Nodup :=
    List.pairwise_map.mpr (p.canonical.ascending.imp fun lt => Nat.ne_of_lt lt)
  have within : p.toPolynomial.support ⊆ (p.terms.map fun t => t.exponent.toNat).toFinset := by
    intro k mem
    have nonzero := Polynomial.mem_support_iff.mp mem
    by_contra absent
    refine nonzero (Terms.coeff_toPolynomial_eq_zero fun t t_mem same => absent ?_)
    exact List.mem_toFinset.mpr (List.mem_map.mpr ⟨t, t_mem, same⟩)
  rw [weightOf_eq_sum base within, List.sum_toFinset _ ascending, List.map_map, weight,
    Terms.weight]
  refine congrArg List.sum (List.map_congr_left fun t mem => ?_)
  show _ = (p.toPolynomial.coeff t.exponent.toNat).natAbs * base ^ t.exponent.toNat
  rw [toPolynomial, p.canonical.coeff_toPolynomial mem]

end Poly

end SparsePoly
