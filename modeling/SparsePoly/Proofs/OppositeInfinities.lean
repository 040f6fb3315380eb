import SparsePoly.Poly.Eval
import SparsePoly.Proofs.PowerRange
import SparsePoly.Proofs.ProductDegree
import SparsePoly.Proofs.RunningSums

/-!
# How finite data lead to NaN

Coefficients and arguments are finite, and what overflows on the way becomes infinite.  That is not
the end of it: terms and partial products may overflow in both directions, and opposite infinities
have no sum.  So values and coefficients of products can be NaN, and a root test at such a point
fails for every tolerance.

Nothing else leads there.  Powers of finite numbers are not NaN (`Binary64.pow_ne_nan`), and a
coefficient of a polynomial is not zero, so that it never meets an infinite power as one.  What is
left is the additions, and they go from left to right: a sum is NaN exactly if an infinity is added
to the opposite one (`Binary64.Clashes`).

## Main statements

* `Binary64.sum_eq_nan_iff` - sums of numbers that are not NaN
* `Poly.eval_eq_nan_iff`, `Poly.coeff_collected_eq_nan_iff` - values, and coefficients of products
* `Poly.nan_iff_clashes` - both, for finite data
-/

namespace SparsePoly

namespace Binary64

/-! ### Sums -/

/-- **Opposite infinities have no sum**, and besides them only NaN has none. -/
theorem add_eq_nan_iff {x y : Binary64} :
    x + y = nan ↔ x = nan ∨ y = nan ∨ ∃ s, x = infinity s ∧ y = infinity (!s) := by
  cases x with
  | nan => simp
  | finite s a =>
    cases y with
    | nan => simp
    | infinity t => simp
    | finite t b =>
      have number : finite s a + finite t b ≠ nan := add_ne_nan nofun rfl
      simp [number]
  | infinity s =>
    cases y with
    | nan => simp
    | finite t b => simp
    | infinity t => cases s <;> cases t <;> simp [infinity_add_infinity]

/-- **Infinities clash** in a sum from left to right: one is added where the sum of what stands
before it is the opposite one. -/
def Clashes (xs : List Binary64) : Prop :=
  ∃ front s back, xs = front ++ infinity (!s) :: back ∧ sum front = infinity s

/-- A clash in a longer sum is an earlier one, or the last addition. -/
theorem clashes_append_singleton {xs : List Binary64} {x : Binary64} :
    Clashes (xs ++ [x]) ↔ Clashes xs ∨ ∃ s, sum xs = infinity s ∧ x = infinity (!s) := by
  constructor
  · rintro ⟨front, s, back, split, total⟩
    rcases List.eq_nil_or_concat back with rfl | ⟨back, last, rfl⟩
    · obtain ⟨rfl, rfl⟩ := List.append_singleton_inj.mp split
      exact Or.inr ⟨s, total, rfl⟩
    · rw [List.concat_eq_append, ← List.cons_append, ← List.append_assoc] at split
      obtain ⟨rfl, _⟩ := List.append_singleton_inj.mp split
      exact Or.inl ⟨front, s, back, rfl, total⟩
  · rintro (⟨front, s, back, rfl, total⟩ | ⟨s, total, rfl⟩)
    · exact ⟨front, s, back ++ [x], by rw [List.append_assoc, List.cons_append], total⟩
    · exact ⟨xs, s, [], rfl, total⟩

/-- **A sum of numbers is NaN exactly if infinities clash.** -/
theorem sum_eq_nan_iff {xs : List Binary64} (numbers : ∀ x ∈ xs, x ≠ nan) :
    sum xs = nan ↔ Clashes xs := by
  induction xs using List.reverseRecOn with
  | nil => exact iff_of_false nofun (by rintro ⟨_ | _, _, _, split, _⟩ <;> cases split)
  | append_singleton xs x ih =>
    obtain ⟨xs_numbers, x_number⟩ := List.forall_mem_append.mp numbers
    have number := x_number x List.mem_cons_self
    rw [sum_append_singleton, add_eq_nan_iff, clashes_append_singleton, ih xs_numbers]
    exact or_congr_right (or_iff_right number)

/-- A finite number that is not zero makes no NaN of what is none. -/
theorem mul_ne_nan {x y : Binary64} (finite : x.isFinite = true) (nonzero : x.isZero = false)
    (number : y ≠ nan) : x * y ≠ nan := by
  obtain ⟨s, a, rfl⟩ := exists_of_isFinite finite
  cases y with
  | nan => exact absurd rfl number
  | finite t b => exact rounded_ne_nan _ _ _
  | infinity t =>
    rw [isZero_finite, decide_eq_false_iff_not] at nonzero
    rw [finite_mul_infinity, if_neg nonzero]
    exact nofun

end Binary64

namespace Terms

/-- The partial products at an exponent, in the order in which they are added up. -/
def productsAt [Patterns] (ts us : List Term) (n : UInt32) : List Binary64 :=
  ((partialProducts (inOrder ts us).1 (inOrder ts us).2).filter (·.exponent == n)).map Term.coeff

/-- The product of finite coefficients that are not zero is a number. -/
theorem ne_nan_of_mem_partialProducts {ts us : List Term} (ht : Canonical ts)
    (ts_finite : ∀ t ∈ ts, t.coeff.isFinite = true)
    (us_finite : ∀ u ∈ us, u.coeff.isFinite = true) :
    ∀ v ∈ partialProducts ts us, v.coeff ≠ .nan := by
  intro v mem
  obtain ⟨t, t_mem, mem⟩ := List.mem_flatMap.mp mem
  obtain ⟨u, u_mem, rfl⟩ := List.mem_map.mp mem
  refine Binary64.mul_ne_nan (ts_finite t t_mem) (ht.nonzero t t_mem) fun isNaN => ?_
  have u_finite := us_finite u u_mem
  rw [isNaN] at u_finite
  cases u_finite

theorem ne_nan_of_mem_productsAt [Patterns] {ts us : List Term} (ht : Canonical ts)
    (hu : Canonical us) (ts_finite : ∀ t ∈ ts, t.coeff.isFinite = true)
    (us_finite : ∀ u ∈ us, u.coeff.isFinite = true)
    (n : UInt32) : ∀ c ∈ productsAt ts us n, c ≠ .nan := by
  intro c mem
  obtain ⟨v, v_mem, rfl⟩ := List.mem_map.mp mem
  have product := (List.mem_filter.mp v_mem).1
  rcases inOrder_cases ts us with order | order
  · rw [order] at product
    exact ne_nan_of_mem_partialProducts ht ts_finite us_finite v product
  · rw [order] at product
    exact ne_nan_of_mem_partialProducts hu us_finite ts_finite v product

end Terms

namespace Poly

/-! ### Values and products -/

section Finite

variable {p q : Poly} (p_finite : ∀ t ∈ p.terms, t.coeff.isFinite = true)

include p_finite

/-- **A value is NaN exactly if the values of terms clash.** -/
theorem eval_eq_nan_iff {x : Binary64} (x_finite : x.isFinite = true) :
    p.eval x = .nan ↔ Binary64.Clashes (p.terms.map (·.eval x)) := by
  refine Binary64.sum_eq_nan_iff fun value mem => ?_
  obtain ⟨t, t_mem, rfl⟩ := List.mem_map.mp mem
  exact Binary64.mul_ne_nan (p_finite t t_mem) (p.canonical.nonzero t t_mem)
    (Binary64.pow_ne_nan x_finite t.exponent)

/-- **A coefficient of a product is NaN exactly if partial products clash.** -/
theorem coeff_collected_eq_nan_iff [Patterns]
    (q_finite : ∀ t ∈ q.terms, t.coeff.isFinite = true) (n : UInt32) :
    (p.collected q).coeff n = .nan ↔ Binary64.Clashes (Terms.productsAt p.terms q.terms n) := by
  rw [collected, coeff_collect_eq_sumAt]
  exact Binary64.sum_eq_nan_iff
    (Terms.ne_nan_of_mem_productsAt p.canonical q.canonical p_finite q_finite n)

end Finite

/-- No root is found where the value is NaN. -/
theorem hasRootWithin_of_nan {p : Poly} {x : Binary64} (isNaN : p.eval x = .nan)
    (tolerance : Binary64) : p.hasRootWithin x tolerance = false := by
  rw [hasRootWithin, isNaN]
  rfl

/-- **NaN comes from opposite infinities only.**  For finite coefficients, a value at a finite
argument is NaN exactly if some term is infinite and the sum of the terms before it is the opposite
infinity; then no tolerance makes it a root.  And a coefficient of a product is NaN exactly if that
happens to the partial products at its exponent. -/
theorem nan_iff_clashes [Patterns] (p q : Poly)
    (p_finite : ∀ t ∈ p.terms, t.coeff.isFinite = true)
    (q_finite : ∀ t ∈ q.terms, t.coeff.isFinite = true) :
    (∀ x : Binary64, x.isFinite = true →
      (p.eval x = .nan ↔ Binary64.Clashes (p.terms.map (·.eval x))) ∧
      (p.eval x = .nan → ∀ tolerance, p.hasRootWithin x tolerance = false)) ∧
    ((∀ m ∈ p.degree?, ∀ n ∈ q.degree?, m.toNat + n.toNat ≤ 4294967295) →
      ∃ r, p.HasProduct q r ∧ ∀ n, r.coeff n = .nan ↔
        Binary64.Clashes (Terms.productsAt p.terms q.terms n)) := by
  refine ⟨fun x x_finite => ⟨eval_eq_nan_iff p_finite x_finite, hasRootWithin_of_nan⟩, ?_⟩
  intro fit
  have lasts : Terms.LastFit p.terms q.terms := fun m m_last n n_last =>
    Nat.lt_succ_of_le (fit m m_last n n_last)
  exact ⟨p.collected q, hasProduct_of_lastFit lasts, coeff_collected_eq_nan_iff p_finite q_finite⟩

/-! ### Overflow in both directions -/

/-- The difference of the square and the cube. -/
def squareMinusCube : Poly :=
  ⟨[⟨2, 1⟩, ⟨3, -1⟩], by simp [Terms.canonical_cons, Terms.canonical_nil]⟩

theorem isFinite_squareMinusCube : ∀ t ∈ squareMinusCube.terms, t.coeff.isFinite = true := by
  decide

/-- The sum of one and the variable, or their difference, multiplied by the greatest power of two
that is a number. -/
def largeLine (negative : Bool) : Poly :=
  ⟨[⟨0, Binary64.greatestPower⟩, ⟨1, Binary64.withSign negative Binary64.greatestPower⟩], by
    have nonzero : Binary64.greatestPower.isZero = false := by decide +kernel
    cases negative <;> simp [Terms.canonical_cons, Terms.canonical_nil, Binary64.withSign, nonzero]⟩

/-- The square and the cube are infinite, and so is the negative of the cube. -/
theorem values_squareMinusCube :
    squareMinusCube.terms.map (·.eval Binary64.greatestPower) =
      [.infinity false, .infinity true] := by
  have twice : Binary64.greatestPower * Binary64.greatestPower = .infinity false := by
    decide +kernel
  have thrice : Binary64.greatestPower * .infinity false = .infinity false := by decide +kernel
  have square : Binary64.greatestPower.pow 2 = .infinity false := by
    simp [Binary64.pow, Binary64.powerBySquaring, Binary64.longestShortPower, twice]
  have cube : Binary64.greatestPower.pow 3 = .infinity false := by
    simp [Binary64.pow, Binary64.powerBySquaring, Binary64.longestShortPower, twice, thrice]
  simp [squareMinusCube, Term.eval, square, cube, Binary64.neg_mul]

/-- The square and the cube of the greatest power of two clash, and leave no root. -/
theorem nan_iff_clashes_of_overflow :
    squareMinusCube.eval Binary64.greatestPower = .nan ∧
      (∀ tolerance, squareMinusCube.hasRootWithin Binary64.greatestPower tolerance = false) ∧
      ∃ r, @HasProduct .standard squareMinusCube squareMinusCube r := by
  obtain ⟨values, products⟩ := @nan_iff_clashes .standard squareMinusCube squareMinusCube
    isFinite_squareMinusCube isFinite_squareMinusCube
  obtain ⟨value, root⟩ := values Binary64.greatestPower rfl
  have clash : Binary64.Clashes (squareMinusCube.terms.map (·.eval Binary64.greatestPower)) :=
    ⟨[.infinity false], false, [], values_squareMinusCube, rfl⟩
  have fit : ∀ m ∈ squareMinusCube.degree?, ∀ n ∈ squareMinusCube.degree?,
      m.toNat + n.toNat ≤ 4294967295 := by
    rintro m ⟨⟩ n ⟨⟩
    decide
  obtain ⟨r, product, _⟩ := products fit
  exact ⟨value.mpr clash, root (value.mpr clash), r, product⟩

/-- **Finite operands with a value, and with a product, that are NaN.** -/
theorem nan_of_finite_operands :
    ((∀ t ∈ squareMinusCube.terms, t.coeff.isFinite = true) ∧
        Binary64.greatestPower.isFinite = true ∧
        squareMinusCube.eval Binary64.greatestPower = .nan) ∧
      (∀ s, ∀ t ∈ (largeLine s).terms, t.coeff.isFinite = true) ∧
      ∃ r, @mul .standard (largeLine false) (largeLine true) = .ok r ∧ r.coeff 1 = .nan := by
  refine ⟨⟨isFinite_squareMinusCube, rfl, ?value⟩, by decide, ?product⟩
  case value =>
    rw [eval, values_squareMinusCube]
    rfl
  case product =>
    have fit : Terms.LastFit (largeLine false).terms (largeLine true).terms := by
      rintro m ⟨⟩ n ⟨⟩
      decide
    obtain ⟨⟨product, _, _⟩, _⟩ := @hasProduct_of_lastFit .standard _ _ fit
    refine ⟨_, product, ?_⟩
    rw [coeff_collect_eq_sumAt]
    decide +kernel

end Poly

end SparsePoly
