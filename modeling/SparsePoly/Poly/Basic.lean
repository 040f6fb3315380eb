import SparsePoly.Poly.Error

/-!
# Polynomials

A polynomial in one variable with binary64 coefficients, stored as the canonical list of its
terms.  The form is part of the type: whatever returns a polynomial returns one in that form, the
zero polynomial is the empty list, and polynomials are equal exactly if their terms are.

## Main definitions

* `Poly` - the type
* `Poly.coeff` - the view: the coefficient at an exponent
* `Poly.collect` - the polynomial that arbitrary terms add up to
* `Poly.monomial`, `Poly.ofTerms` - from explicit data, which may be refused

## Main statements

* `Poly.ext_coeff` - a polynomial is determined by its coefficients
* `Poly.coeff_collect` - `collect` adds, at every exponent, what the terms give to it

## Design decisions

* Explicit data must be finite.  What arithmetic makes of it need not be: a sum or product that
  overflows is stored as an infinity, and opposite infinities add up to NaN.
-/

namespace SparsePoly

/-- A sparse polynomial in one variable. -/
structure Poly where
  /-- The terms, in ascending order. -/
  terms : List Term
  /-- Ascending exponents and no zero coefficient. -/
  canonical : Terms.Canonical terms
  deriving DecidableEq

namespace Poly

@[ext] theorem ext {p q : Poly} (eq : p.terms = q.terms) : p = q := by
  cases p; cases q; cases eq; rfl

/-! ### Reading a polynomial -/

/-- The number of terms. -/
def size (p : Poly) : Nat := p.terms.length

/-- There is no term. -/
def isZero (p : Poly) : Bool := p.terms.isEmpty

/-- The term at a place, counted from zero in ascending order. -/
def term? (p : Poly) (i : Nat) : Option Term := p.terms[i]?

/-- The term with the greatest exponent. -/
def leadingTerm? (p : Poly) : Option Term := p.terms.getLast?

/-- The greatest exponent; the zero polynomial has none. -/
def degree? (p : Poly) : Option UInt32 := Terms.lastExponent? p.terms

/-- **The coefficient at an exponent**, zero where there is no term. -/
def coeff (p : Poly) (n : UInt32) : Binary64 := Terms.coeff p.terms n

/-- Equality with the coefficients compared as numbers, so that a NaN among them makes a
polynomial unequal to itself. -/
def equal (p q : Poly) : Bool := p.terms.isEqv q.terms Term.equal

/-- The coefficient of a term is the one at its exponent. -/
theorem coeff_of_mem {p : Poly} {t : Term} (mem : t ∈ p.terms) : p.coeff t.exponent = t.coeff :=
  p.canonical.coeff_eq mem

/-- **Terms are the nonzero coefficients.** -/
theorem mem_terms_iff {p : Poly} {t : Term} :
    t ∈ p.terms ↔ p.coeff t.exponent = t.coeff ∧ t.coeff.isZero = false := by
  constructor
  · exact fun mem => ⟨coeff_of_mem mem, p.canonical.nonzero t mem⟩
  · intro ⟨eq, nonzero⟩
    -- A nonzero coefficient cannot be the zero of an exponent without a term.
    by_cases there : ∃ u ∈ p.terms, u.exponent = t.exponent
    · obtain ⟨u, mem, same⟩ := there
      have coeffs : u.coeff = t.coeff := by rw [← coeff_of_mem mem, same, eq]
      have : u = t := by cases u; cases t; simp_all
      exact this ▸ mem
    · have zero := @Terms.coeff_eq_zero p.terms t.exponent fun u mem same => there ⟨u, mem, same⟩
      unfold coeff at eq
      rw [← eq, zero] at nonzero
      exact absurd nonzero (by simp)

/-- **A polynomial is determined by its coefficients.** -/
theorem ext_coeff {p q : Poly} (eq : ∀ n, p.coeff n = q.coeff n) : p = q :=
  ext (p.canonical.eq_of_mem_iff q.canonical fun t => by rw [mem_terms_iff, mem_terms_iff, eq])

/-! ### Collecting terms -/

/-- **The polynomial that terms add up to**, in any order and with any repetitions. -/
def collect (ts : List Term) : Poly :=
  ⟨(SparseSums.empty.addAll ts).toTerms, SparseSums.canonical_toTerms _⟩

/-- The terms of what is collected. -/
theorem mem_terms_collect {ts : List Term} {t : Term} :
    t ∈ (collect ts).terms ↔
      (∃ u ∈ ts, u.exponent = t.exponent) ∧ Terms.sumAt ts t.exponent = t.coeff ∧
        t.coeff.isZero = false := by
  have some_there : (ts.any (·.exponent == t.exponent)) = true ↔
      ∃ u ∈ ts, u.exponent = t.exponent := by simp
  unfold collect
  rw [SparseSums.mem_toTerms, SparseSums.sum?_addAll_empty, ← some_there]
  by_cases there : ts.any (·.exponent == t.exponent) = true
  · rw [if_pos there]
    simp [there]
  · rw [if_neg there]
    simp [there]

/-- **What is collected at an exponent**: the sum of what the terms give to it, and `0` instead
of a zero of either sign. -/
theorem coeff_collect (ts : List Term) (n : UInt32) :
    (collect ts).coeff n = if (Terms.sumAt ts n).isZero then 0 else Terms.sumAt ts n := by
  by_cases zero : (Terms.sumAt ts n).isZero = true
  · rw [if_pos zero]
    refine Terms.coeff_eq_zero fun t mem eq => ?_
    have ⟨_, sum, nonzero⟩ := mem_terms_collect.mp mem
    rw [← sum, eq, zero] at nonzero
    exact Bool.noConfusion nonzero
  · have there : ∃ u ∈ ts, u.exponent = n := by
      refine Classical.byContradiction fun none_there => zero ?_
      have absent : ts.filter (·.exponent == n) = [] :=
        List.filter_eq_nil_iff.mpr fun u mem eq => none_there ⟨u, mem, by simpa using eq⟩
      unfold Terms.sumAt
      rw [absent]
      exact Binary64.isZero_zero
    rw [if_neg zero]
    exact @coeff_of_mem _ ⟨n, Terms.sumAt ts n⟩
      (mem_terms_collect.mpr ⟨there, rfl, by simpa using zero⟩)

/-! ### Explicit polynomials -/

/-- The zero polynomial. -/
def zero : Poly := ⟨[], Terms.canonical_nil⟩

instance : Zero Poly := ⟨zero⟩

instance : Inhabited Poly := ⟨zero⟩

@[simp] theorem terms_zero : (0 : Poly).terms = [] := rfl

@[simp] theorem coeff_zero (n : UInt32) : (0 : Poly).coeff n = 0 := rfl

/-- A single term with a coefficient that is not zero. -/
def single (n : UInt32) (c : Binary64) (nonzero : c.isZero = false) : Poly :=
  ⟨[⟨n, c⟩], Terms.canonical_singleton.mpr nonzero⟩

/-- The constant polynomial one. -/
def one : Poly := single 0 1 Binary64.isZero_one

instance : One Poly := ⟨one⟩

@[simp] theorem terms_one : (1 : Poly).terms = [⟨0, 1⟩] := rfl

/-- The variable. -/
def x : Poly := single 1 1 Binary64.isZero_one

/-- **A monomial.**  Its coefficient must be finite; a zero coefficient gives the zero
polynomial. -/
def monomial (c : Binary64) (n : UInt32) : Except DomainError Poly :=
  if c.isFinite then
    if nonzero : c.isZero = false then .ok (single n c nonzero) else .ok 0
  else
    .error (.nonFiniteCoefficient c)

/-- A constant polynomial. -/
def constant (c : Binary64) : Except DomainError Poly := monomial c 0

/-! ### Lists of explicit terms -/

/-- A term from an integer exponent and a coefficient; the exponent is looked at first. -/
def termOfPair (pair : Int × Binary64) : Except ConstructionError Term :=
  if 0 ≤ pair.1 ∧ pair.1 < UInt32.size then
    if pair.2.isFinite then
      .ok ⟨UInt32.ofNat pair.1.toNat, pair.2⟩
    else
      .error (.nonFiniteCoefficient pair.2)
  else
    .error (.exponentOutOfRange pair.1)

/-- **A polynomial from explicit terms**, in any order and with any repetitions.  The first term
that is refused decides the error. -/
def ofTerms (pairs : List (Int × Binary64)) : Except ConstructionError Poly :=
  (pairs.mapM termOfPair).map collect

end Poly

end SparsePoly
