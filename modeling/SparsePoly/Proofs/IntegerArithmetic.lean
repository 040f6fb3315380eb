import SparsePoly.Proofs.IntegerPolynomials
import SparsePoly.Proofs.OperandOrder

/-!
# Arithmetic over the integers

On polynomials with integer coefficients nothing is rounded as long as the magnitudes of the
coefficients leave room: sums, differences and products are then those of `ℤ[X]`.  A sum is what the
terms of both operands add up to, and a product what the partial products add up to, so the bound in
both cases is on the weight of a list of terms, whatever cancels on the way.

The laws of a ring follow, as equations between stored polynomials: both sides represent one
polynomial of `ℤ[X]`.

## Main statements

* `Poly.Represents.add`, `Poly.Represents.sub`, `Poly.exists_mul` - the operations are exact
* `Poly.add_assoc_of_le`, `Poly.mul_assoc_of_le`, `Poly.mul_add_of_le` - the laws
* `Poly.arithmetic_in_integers` - all of it
-/

namespace SparsePoly

open scoped Polynomial

namespace Terms

variable {ts us : List Term}

/-! ### The other sign -/

theorem Integral.map_neg (integral : Integral ts) : Integral (ts.map Term.neg) := by
  intro t mem
  obtain ⟨u, u_mem, rfl⟩ := List.mem_map.mp mem
  exact ⟨_, (integral u u_mem).isInt.neg⟩

theorem toPolynomial_map_neg (ts : List Term) :
    toPolynomial (ts.map Term.neg) = -toPolynomial ts := by
  induction ts with
  | nil => exact neg_zero.symm
  | cons t ts ih =>
    rw [List.map_cons, toPolynomial_cons, toPolynomial_cons, ih, neg_add, ← Polynomial.monomial_neg]
    show Polynomial.monomial t.exponent.toNat (-t.coeff).toInt + _ = _
    rw [Binary64.toInt_neg]

theorem weight_map_neg (base : Nat) (ts : List Term) :
    weight base (ts.map Term.neg) = weight base ts := by
  rw [weight, weight, List.map_map]
  refine congrArg List.sum (List.map_congr_left fun t _ => ?_)
  show (-t.coeff).toInt.natAbs * _ = _
  rw [Binary64.toInt_neg, Int.natAbs_neg]
  rfl

/-! ### Partial products -/

/-- **What distributes over the pairs** distributes over the lists. -/
theorem sum_map_partialProducts {R : Type} [NonUnitalNonAssocSemiring R] {f : Term → R}
    (mul : ∀ t ∈ ts, ∀ u ∈ us, f (t * u) = f t * f u) :
    ((partialProducts ts us).map f).sum = (ts.map f).sum * (us.map f).sum := by
  induction ts with
  | nil => exact (zero_mul _).symm
  | cons t ts ih =>
    have row : ((us.map fun u => t * u).map f).sum = f t * (us.map f).sum := by
      rw [List.map_map, ← List.sum_map_mul_left]
      exact congrArg List.sum (List.map_congr_left fun u mem => mul t List.mem_cons_self u mem)
    have rows := ih fun u mem => mul u (List.mem_cons_of_mem t mem)
    rw [partialProducts, List.flatMap_cons, List.map_append, List.sum_append, row, List.map_cons,
      List.sum_cons, add_mul]
    exact congrArg _ rows

section Products

variable (ht : Integral ts) (hu : Integral us) (small : weight 1 ts * weight 1 us ≤ 2 ^ 53)

include ht hu small

/-- The product of two coefficients is exact. -/
theorem isInt_coeff_mul {t u : Term} (t_mem : t ∈ ts) (u_mem : u ∈ us) :
    (t * u).coeff.IsInt (t.coeff.toInt * u.coeff.toInt) := by
  have t_le := le_weight 1 t_mem
  have u_le := le_weight 1 u_mem
  rw [Nat.one_pow, Nat.mul_one] at t_le u_le
  refine (ht t t_mem).isInt.mul (hu u u_mem).isInt ?_
  rw [Int.natAbs_mul]
  exact Nat.le_trans (Nat.mul_le_mul t_le u_le) small

theorem toInt_coeff_mul {t u : Term} (t_mem : t ∈ ts) (u_mem : u ∈ us) :
    (t * u).coeff.toInt = t.coeff.toInt * u.coeff.toInt :=
  (isInt_coeff_mul ht hu small t_mem u_mem).toInt_eq

theorem integral_partialProducts : Integral (partialProducts ts us) := by
  intro v mem
  obtain ⟨t, t_mem, mem⟩ := List.mem_flatMap.mp mem
  obtain ⟨u, u_mem, rfl⟩ := List.mem_map.mp mem
  exact ⟨_, isInt_coeff_mul ht hu small t_mem u_mem⟩

theorem weight_partialProducts :
    weight 1 (partialProducts ts us) = weight 1 ts * weight 1 us := by
  refine sum_map_partialProducts fun t t_mem u u_mem => ?_
  rw [toInt_coeff_mul ht hu small t_mem u_mem, Int.natAbs_mul]
  simp only [Nat.one_pow, Nat.mul_one]

/-- **Partial products denote the product**, if words are added like numbers. -/
theorem toPolynomial_partialProducts (fit : PairsBelow UInt32.size ts us) :
    toPolynomial (partialProducts ts us) = toPolynomial ts * toPolynomial us := by
  refine sum_map_partialProducts fun t t_mem u u_mem => ?_
  rw [toInt_coeff_mul ht hu small t_mem u_mem, toNat_exponent_mul fit t_mem u_mem,
    Polynomial.monomial_mul_monomial]

end Products

/-! ### The range of exponents -/

/-- If the products with two lists fit, so does the product with their merge. -/
theorem LastFit.merge {vs : List Term} (ht : Canonical ts) (hu : Canonical us)
    (fit_ts : LastFit vs ts) (fit_us : LastFit vs us) : LastFit vs (merge ts us) := by
  intro m m_last n n_last
  obtain ⟨v, v_last, rfl⟩ := Option.map_eq_some_iff.mp n_last
  -- The last exponent of the merge is that of a term of one of the lists.
  have part {ws : List Term} (hw : Canonical ws) (fit : LastFit vs ws)
      (there : ∃ w ∈ ws, v.exponent = w.exponent) :
      m.toNat + v.exponent.toNat < UInt32.size := by
    obtain ⟨w, w_mem, same⟩ := there
    cases w_last : lastExponent? ws with
    | none =>
      rw [eq_nil_of_lastExponent? w_last] at w_mem
      cases w_mem
    | some l =>
      have le := UInt32.le_iff_toNat_le.mp (hw.exponent_le_last w_mem w_last)
      have fits := fit m m_last l w_last
      rw [same]
      omega
  rcases exponent_of_mem_merge (List.mem_of_getLast? v_last) with there | there
  · exact part ht fit_ts there
  · exact part hu fit_us there

end Terms

namespace Poly

open Terms (LastFit)

variable {p q r : Poly} {P Q R : ℤ[X]}

/-! ### Zero -/

theorem eq_zero_or_absSum_pos (hp : p.IsIntegral) : p = 0 ∨ 0 < p.absSum := by
  cases terms : p.terms with
  | nil => exact Or.inl (ext terms)
  | cons t ts =>
    have mem : t ∈ p.terms := terms ▸ List.mem_cons_self
    have le := Terms.le_weight 1 mem
    have nonzero : t.coeff.toInt ≠ 0 := by
      rw [Ne, ← (hp t mem).isInt.isZero_iff, p.canonical.nonzero t mem]
      exact Bool.false_ne_true
    rw [Nat.one_pow, Nat.mul_one] at le
    rw [← weight_one]
    exact Or.inr (Nat.lt_of_lt_of_le (Int.natAbs_pos.mpr nonzero) le)

theorem zero_mul [Patterns] (q : Poly) : mul 0 q = .ok 0 := (zero_yields q).mul

theorem mul_zero [Patterns] (p : Poly) : p.mul 0 = .ok 0 := (yields_zero p).mul

/-! ### Exact operations -/

namespace Represents

theorem weight_eq (hp : p.Represents P) (base : Nat) : p.weight base = weightOf base P := by
  rw [Poly.weight_eq, hp.toPolynomial_eq]

/-- **Sums are exact.** -/
theorem add (hp : p.Represents P) (hq : q.Represents Q) (small : p.absSum + q.absSum ≤ 2 ^ 53) :
    (p + q).Represents (P + Q) := by
  rw [← weight_one, ← weight_one, weight, weight, ← Terms.weight_append] at small
  have sum := represents_collect (hp.isIntegral.append hq.isIntegral) small
  rw [Terms.toPolynomial_append] at sum
  rw [add_eq_collect, ← hp.toPolynomial_eq, ← hq.toPolynomial_eq]
  exact sum

/-- The negative is always exact. -/
theorem neg (hp : p.Represents P) : (-p).Represents (-P) := by
  have negative : (-p).IsIntegral := hp.isIntegral.map_neg
  have denoted : (-p).toPolynomial = -P := by
    rw [← hp.toPolynomial_eq]
    exact Terms.toPolynomial_map_neg p.terms
  exact denoted ▸ negative.represents

/-- **Differences are exact.** -/
theorem sub (hp : p.Represents P) (hq : q.Represents Q) (small : p.absSum + q.absSum ≤ 2 ^ 53) :
    (p - q).Represents (P - Q) := by
  have same : (-q).absSum = q.absSum := by
    rw [← weight_one, ← weight_one]
    exact Terms.weight_map_neg 1 q.terms
  rw [sub_eq_add_neg, SubNegMonoid.sub_eq_add_neg]
  exact hp.add hq.neg (by rwa [same])

end Represents

/-- What the partial products add up to represents the product. -/
theorem represents_partialProducts {ts us : List Term} (ht : Terms.Integral ts)
    (hu : Terms.Integral us) (small : Terms.weight 1 ts * Terms.weight 1 us ≤ 2 ^ 53)
    (fit : Terms.PairsBelow UInt32.size ts us) :
    (collect (Terms.partialProducts ts us)).Represents
      (Terms.toPolynomial ts * Terms.toPolynomial us) := by
  rw [← Terms.toPolynomial_partialProducts ht hu small fit]
  refine represents_collect (Terms.integral_partialProducts ht hu small) ?_
  rwa [Terms.weight_partialProducts ht hu small]

/-- **Products are exact**, whichever way they are formed. -/
theorem exists_mul [Patterns] (hp : p.Represents P) (hq : q.Represents Q)
    (fit : LastFit p.terms q.terms) :
    ∃ s, p.Yields q (.ok s) ∧ (p.absSum * q.absSum ≤ 2 ^ 53 → s.Represents (P * Q)) := by
  refine ⟨_, yields_of_lastFit fit, fun small => ?_⟩
  have pairs := Terms.pairsBelow_size p.canonical q.canonical fit
  rw [← weight_one, ← weight_one] at small
  rw [← hp.toPolynomial_eq, ← hq.toPolynomial_eq]
  rcases Terms.inOrder_cases p.terms q.terms with eq | eq
  · rw [eq] at pairs ⊢
    exact represents_partialProducts hp.isIntegral hq.isIntegral small pairs
  · rw [eq] at pairs ⊢
    rw [Nat.mul_comm] at small
    rw [mul_comm p.toPolynomial]
    exact represents_partialProducts hq.isIntegral hp.isIntegral small pairs

/-! ### Room for the next operation -/

namespace Represents

variable {s : Poly}

/-- A sum weighs no more than its operands. -/
theorem weight_add_le (hp : p.Represents P) (hq : q.Represents Q) (hs : s.Represents (P + Q))
    (base : Nat) : s.weight base ≤ p.weight base + q.weight base := by
  rw [hp.weight_eq, hq.weight_eq, hs.weight_eq]
  exact weightOf_add_le base P Q

theorem absSum_add_le (hp : p.Represents P) (hq : q.Represents Q) (hs : s.Represents (P + Q)) :
    s.absSum ≤ p.absSum + q.absSum := by
  simpa only [weight_one] using hp.weight_add_le hq hs 1

/-- A product weighs no more than the product of the weights. -/
theorem weight_mul_le (hp : p.Represents P) (hq : q.Represents Q) (hs : s.Represents (P * Q))
    (base : Nat) : s.weight base ≤ p.weight base * q.weight base := by
  rw [hp.weight_eq, hq.weight_eq, hs.weight_eq]
  exact weightOf_mul_le base P Q

theorem absSum_mul_le (hp : p.Represents P) (hq : q.Represents Q) (hs : s.Represents (P * Q)) :
    s.absSum ≤ p.absSum * q.absSum := by
  simpa only [weight_one] using hp.weight_mul_le hq hs 1

end Represents

/-! ### The laws of a ring -/

section Laws

variable (hp : p.Represents P) (hq : q.Represents Q) (hr : r.Represents R)

include hp hq hr

/-- **Sums associate.** -/
theorem add_assoc_of_le (small : p.absSum + q.absSum + r.absSum ≤ 2 ^ 53) :
    p + q + r = p + (q + r) := by
  have pq := hp.add hq (by omega)
  have qr := hq.add hr (by omega)
  have pq_le := hp.absSum_add_le hq pq
  have qr_le := hq.absSum_add_le hr qr
  have left := pq.add hr (by omega)
  have right := hp.add qr (by omega)
  rw [add_assoc] at left
  exact left.eq right

/-- **Products associate**, as far as they exist. -/
theorem mul_assoc_of_le [Patterns] (small : p.absSum * q.absSum * r.absSum ≤ 2 ^ 53)
    (fit_pq : LastFit p.terms q.terms) (fit_qr : LastFit q.terms r.terms) :
    ∃ pq qr, p.mul q = .ok pq ∧ q.mul r = .ok qr ∧
      (LastFit pq.terms r.terms → LastFit p.terms qr.terms →
        ∃ s, pq.mul r = .ok s ∧ p.mul qr = .ok s) := by
  obtain ⟨pq, pq_product, pq_exact⟩ := exists_mul hp hq fit_pq
  obtain ⟨qr, qr_product, qr_exact⟩ := exists_mul hq hr fit_qr
  refine ⟨pq, qr, pq_product.mul, qr_product.mul, fun fit_left fit_right => ?_⟩
  -- An outer factor that is zero leaves no bound for the inner product, which may be rounded then.
  rcases eq_zero_or_absSum_pos hp.isIntegral with rfl | p_pos
  · have pq_zero : pq = 0 := Except.ok.inj (pq_product.mul.symm.trans (zero_mul q))
    rw [pq_zero]
    exact ⟨0, zero_mul r, zero_mul qr⟩
  rcases eq_zero_or_absSum_pos hr.isIntegral with rfl | r_pos
  · have qr_zero : qr = 0 := Except.ok.inj (qr_product.mul.symm.trans (mul_zero q))
    rw [qr_zero]
    exact ⟨0, mul_zero pq, mul_zero p⟩
  have small' : p.absSum * (q.absSum * r.absSum) ≤ 2 ^ 53 := by rwa [← Nat.mul_assoc]
  have pq_exact := pq_exact (Nat.le_trans (Nat.le_mul_of_pos_right _ r_pos) small)
  have qr_exact := qr_exact (Nat.le_trans (Nat.le_mul_of_pos_left _ p_pos) small')
  obtain ⟨s, s_product, s_exact⟩ := exists_mul pq_exact hr fit_left
  obtain ⟨t, t_product, t_exact⟩ := exists_mul hp qr_exact fit_right
  have pq_le := hp.absSum_mul_le hq pq_exact
  have qr_le := hq.absSum_mul_le hr qr_exact
  have left := s_exact (Nat.le_trans (Nat.mul_le_mul_right _ pq_le) small)
  have right := t_exact (Nat.le_trans (Nat.mul_le_mul_left _ qr_le) small')
  rw [mul_assoc] at left
  exact ⟨s, s_product.mul, left.eq right ▸ t_product.mul⟩

/-- **Products distribute over sums**, and the product with the sum exists if those with the
summands do. -/
theorem mul_add_of_le [Patterns] (small : p.absSum * (q.absSum + r.absSum) ≤ 2 ^ 53)
    (fit_pq : LastFit p.terms q.terms) (fit_pr : LastFit p.terms r.terms) :
    ∃ s t, p.mul q = .ok s ∧ p.mul r = .ok t ∧ p.mul (q + r) = .ok (s + t) := by
  rcases eq_zero_or_absSum_pos hp.isIntegral with rfl | p_pos
  · refine ⟨0, 0, zero_mul q, zero_mul r, ?_⟩
    rw [zero_add]
    exact zero_mul (q + r)
  have qr := hq.add hr (Nat.le_trans (Nat.le_mul_of_pos_left _ p_pos) small)
  have fit_sum : LastFit p.terms (q + r).terms := fit_pq.merge q.canonical r.canonical fit_pr
  have qr_le := Nat.mul_le_mul_left p.absSum (hq.absSum_add_le hr qr)
  rw [Nat.mul_add] at small qr_le
  obtain ⟨s, s_product, s_exact⟩ := exists_mul hp hq fit_pq
  obtain ⟨t, t_product, t_exact⟩ := exists_mul hp hr fit_pr
  obtain ⟨whole, product, exact_whole⟩ := exists_mul hp qr fit_sum
  have s_exact := s_exact (by omega)
  have t_exact := t_exact (by omega)
  have s_le := hp.absSum_mul_le hq s_exact
  have t_le := hp.absSum_mul_le hr t_exact
  have left := exact_whole (by omega)
  have right := s_exact.add t_exact (by omega)
  rw [mul_add] at left
  exact ⟨s, t, s_product.mul, t_product.mul, left.eq right ▸ product.mul⟩

end Laws

/-! ### The variable -/

theorem represents_x : x.Represents Polynomial.X := by
  have integral : x.IsIntegral := by
    intro t mem
    rw [List.mem_singleton.mp mem]
    exact ⟨1, Binary64.isInt_one⟩
  have denoted : x.toPolynomial = Polynomial.X := by
    show Polynomial.monomial 1 (1 : Binary64).toInt + 0 = Polynomial.X
    rw [Binary64.isInt_one.toInt_eq, AddMonoid.add_zero, Polynomial.X]
  exact denoted ▸ integral.represents

theorem absSum_x : x.absSum = 1 := by
  show (1 : Binary64).toInt.natAbs + 0 = 1
  rw [Binary64.isInt_one.toInt_eq]
  rfl

theorem lastFit_x : LastFit x.terms x.terms := by
  intro m m_last n n_last
  cases m_last
  cases n_last
  decide

/-! ### Integer arithmetic -/

/-- **The arithmetic of integer polynomials is that of `ℤ[X]`**, as long as the magnitudes of the
coefficients leave room: sums, differences and products have exactly the integer coefficients and no
other terms, a product in whatever scratch space it is formed, and the laws of a ring hold between
the stored polynomials.  A product exists if the degrees add up to an exponent or an operand is
zero. -/
theorem arithmetic_in_integers [Patterns] (p q r : Poly) (hp : p.IsIntegral) (hq : q.IsIntegral)
    (hr : r.IsIntegral) :
    (p.absSum + q.absSum ≤ 2 ^ 53 →
      (p + q).Represents (p.toPolynomial + q.toPolynomial) ∧
        (p - q).Represents (p.toPolynomial - q.toPolynomial)) ∧
    (p.absSum * q.absSum ≤ 2 ^ 53 → LastFit p.terms q.terms →
      ∃ s, p.Yields q (.ok s) ∧ s.Represents (p.toPolynomial * q.toPolynomial)) ∧
    (p.absSum + q.absSum + r.absSum ≤ 2 ^ 53 → p + q + r = p + (q + r)) ∧
    (p.absSum * q.absSum * r.absSum ≤ 2 ^ 53 →
      LastFit p.terms q.terms → LastFit q.terms r.terms →
        ∃ pq qr, p.mul q = .ok pq ∧ q.mul r = .ok qr ∧
          (LastFit pq.terms r.terms → LastFit p.terms qr.terms →
            ∃ s, pq.mul r = .ok s ∧ p.mul qr = .ok s)) ∧
    (p.absSum * (q.absSum + r.absSum) ≤ 2 ^ 53 →
      LastFit p.terms q.terms → LastFit p.terms r.terms →
        ∃ s t, p.mul q = .ok s ∧ p.mul r = .ok t ∧ p.mul (q + r) = .ok (s + t)) := by
  have hp := hp.represents
  have hq := hq.represents
  have hr := hr.represents
  refine ⟨fun small => ⟨hp.add hq small, hp.sub hq small⟩, fun small fit => ?_,
    add_assoc_of_le hp hq hr, mul_assoc_of_le hp hq hr, mul_add_of_le hp hq hr⟩
  obtain ⟨s, product, exact_product⟩ := exists_mul hp hq fit
  exact ⟨s, product, exact_product small⟩

/-- The variable. -/
theorem arithmetic_of_variable :
    x.IsIntegral ∧ (x + x).Represents (Polynomial.X + Polynomial.X) ∧
      (x - x).Represents (Polynomial.X - Polynomial.X) ∧
      (∃ s, @Yields .standard x x (.ok s) ∧ s.Represents (Polynomial.X * Polynomial.X)) ∧
      (∃ s t, @mul .standard x x = .ok s ∧ @mul .standard x x = .ok t ∧
        @mul .standard x (x + x) = .ok (s + t)) := by
  have integral := represents_x.isIntegral
  have fit := lastFit_x
  obtain ⟨sums, products, _, _, distributes⟩ :=
    @arithmetic_in_integers .standard x x x integral integral integral
  simp only [absSum_x, represents_x.toPolynomial_eq] at sums products distributes
  obtain ⟨sum, difference⟩ := sums (by decide)
  exact ⟨integral, sum, difference, products (by decide) fit, distributes (by decide) fit fit⟩

end Poly

end SparsePoly
