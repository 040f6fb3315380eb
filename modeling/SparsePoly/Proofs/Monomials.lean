import SparsePoly.Proofs.OperandOrder

/-!
# Products with one term

A multiple by a scalar is formed term by term, and its zeros are dropped at once.  A product with a
monomial goes another way: the operands are put in order, scratch space is chosen, every partial
product is added to what there is at its exponent, and zeros are dropped at the end.

Both come to the same terms.  With one term on one side there is one partial product for each term
of the other, they ascend as long as no exponent overflows, and so each of them is added to the zero
of an empty slot.  That changes none but `-0`, which is dropped like every zero.  The scalar zero is
an exception on both sides: it gives the zero polynomial even where an infinity would be multiplied.

## Main statements

* `Poly.exists_mul_monomial` - the product with a monomial is a multiple with its exponents raised
* `Poly.mul_monomial_eq_scale` - scalars, signs, one and zero as cases of that
-/

namespace SparsePoly

namespace Term

/-- The term with its exponent raised.  Exponents are added as words. -/
def shift (k : UInt32) (t : Term) : Term := ⟨t.exponent + k, t.coeff⟩

theorem shift_zero (t : Term) : shift 0 t = t := by
  rw [shift, UInt32.add_zero]

protected theorem mul_comm (t u : Term) : t * u = u * t := by
  show mk (t.exponent + u.exponent) (t.coeff * u.coeff) =
    mk (u.exponent + t.exponent) (u.coeff * t.coeff)
  rw [UInt32.add_comm, Binary64.mul_comm]

theorem scale_one (t : Term) : t.scale 1 = t := by
  rw [scale, Binary64.mul_one]

theorem scale_neg_one (t : Term) : t.scale (-1) = t.neg := by
  rw [scale, neg, Binary64.mul_comm, Binary64.neg_mul, Binary64.one_mul]

end Term

namespace Terms

/-! ### Partial products with one term -/

/-- With one term on one side there is a partial product for each term of the other. -/
theorem partialProducts_singleton [Patterns] (ts : List Term) (u : Term) :
    partialProducts (inOrder ts [u]).1 (inOrder ts [u]).2 = ts.map (· * u) := by
  rcases inOrder_cases ts [u] with order | order
  · rw [order]
    exact List.map_eq_flatMap.symm
  · rw [order]
    show [u].flatMap (fun u => ts.map fun t => u * t) = ts.map (· * u)
    rw [List.flatMap_singleton]
    exact List.map_congr_left fun t _ => u.mul_comm t

/-- The partial products with one term ascend if their exponents do not overflow. -/
theorem ascending_map_mul {ts : List Term} {u : Term}
    (ascending : ts.Pairwise (·.exponent < ·.exponent)) (fit : PairsBelow UInt32.size ts [u]) :
    (ts.map (· * u)).Pairwise (·.exponent < ·.exponent) := by
  refine List.pairwise_map.mpr (ascending.imp_of_mem fun {t v} t_mem v_mem lt => ?_)
  rw [UInt32.lt_iff_toNat_lt] at lt ⊢
  rw [toNat_exponent_mul fit t_mem List.mem_cons_self,
    toNat_exponent_mul fit v_mem List.mem_cons_self]
  exact Nat.add_lt_add_right lt _

/-- **What the partial products with one term add up to**: the multiples that are not zero, with
their exponents raised. -/
theorem collected_singleton [Patterns] {ts : List Term} {k : UInt32} {c : Binary64}
    (ascending : ts.Pairwise (·.exponent < ·.exponent))
    (fit : PairsBelow UInt32.size ts [⟨k, c⟩]) :
    collected ts [⟨k, c⟩] =
      ((ts.map (·.scale c)).filter (! ·.coeff.isZero)).map (Term.shift k) := by
  have products : ts.map (· * ⟨k, c⟩) = (ts.map (·.scale c)).map (Term.shift k) := by
    rw [List.map_map]
    rfl
  rw [collected, partialProducts_singleton,
    Poly.terms_collect_of_ascending (ascending_map_mul ascending fit), products, List.filter_map]
  rfl

end Terms

namespace Poly

/-! ### Products in either order -/

/-- Two polynomials have a product: one in either order, whichever way it is formed. -/
def HasProduct [Patterns] (p q r : Poly) : Prop := p.Yields q (.ok r) ∧ q.Yields p (.ok r)

theorem hasProduct_of_lastFit [Patterns] {p q : Poly} (fit : Terms.LastFit p.terms q.terms) :
    p.HasProduct q (collect (Terms.partialProducts (Terms.inOrder p.terms q.terms).1
      (Terms.inOrder p.terms q.terms).2)) := by
  have swapped := yields_of_lastFit fit.symm
  rw [Terms.inOrder_comm] at swapped
  exact ⟨yields_of_lastFit fit, swapped⟩

theorem hasProduct_zero [Patterns] (p : Poly) : p.HasProduct 0 0 := ⟨yields_zero p, zero_yields p⟩

section Multiple

variable (p : Poly) {c : Binary64} (finite : c.isFinite = true)
include finite

/-! ### Multiples by a scalar -/

theorem monomial_of_zero (zero : c.isZero = true) (k : UInt32) : monomial c k = .ok 0 := by
  rw [monomial, if_pos finite, dif_neg (by simp [zero])]

theorem monomial_of_nonzero (nonzero : c.isZero = false) (k : UInt32) :
    monomial c k = .ok (single k c nonzero) := by
  rw [monomial, if_pos finite, dif_pos nonzero]

theorem scale_of_zero (zero : c.isZero = true) : p.scale c = .ok 0 := by
  rw [scale, if_pos finite, if_pos zero]

/-- The terms of a multiple are the multiples of the terms, as far as they are not zero. -/
theorem exists_scale (nonzero : c.isZero = false) :
    ∃ s, p.scale c = .ok s ∧ s.terms = (p.terms.map (·.scale c)).filter (! ·.coeff.isZero) := by
  rw [scale, if_pos finite, if_neg (by simp [nonzero])]
  exact ⟨_, rfl, rfl⟩

/-! ### Products with a monomial -/

/-- **The product with a monomial is the multiple by its coefficient with all exponents raised**,
and no exponent overflows. -/
theorem exists_mul_monomial [Patterns] {k : UInt32}
    (fit : c.isZero = true ∨ ∀ n ∈ p.degree?, n.toNat + k.toNat < UInt32.size) :
    ∃ m s r, monomial c k = .ok m ∧ p.scale c = .ok s ∧ p.HasProduct m r ∧
      r.terms = s.terms.map (Term.shift k) ∧
      ∀ t ∈ s.terms, (t.shift k).exponent.toNat = t.exponent.toNat + k.toNat := by
  cases nonzero : c.isZero with
  | true =>
    -- No exponent is added, so that none has to fit.
    exact ⟨0, 0, 0, monomial_of_zero finite nonzero k, p.scale_of_zero finite nonzero,
      p.hasProduct_zero, rfl, nofun⟩
  | false =>
    obtain ⟨s, scaled, s_terms⟩ := p.exists_scale finite nonzero
    have lasts : Terms.LastFit p.terms (single k c nonzero).terms := by
      intro m p_last n k_last
      cases k_last
      exact fit.resolve_left (by simp [nonzero]) m p_last
    have fits := Terms.pairsBelow_of_lastFit p.canonical (single k c nonzero).canonical lasts
    have whole : ∀ t ∈ s.terms, (t.shift k).exponent.toNat = t.exponent.toNat + k.toNat := by
      intro t mem
      rw [s_terms] at mem
      obtain ⟨u, u_mem, rfl⟩ := List.mem_map.mp (List.mem_of_mem_filter mem)
      exact Terms.toNat_exponent_mul fits u_mem List.mem_cons_self
    refine ⟨_, s, _, monomial_of_nonzero finite nonzero k, scaled,
      hasProduct_of_lastFit lasts, ?_, whole⟩
    rw [s_terms]
    exact Terms.collected_singleton p.canonical.ascending fits

/-- The product with a constant is the multiple. -/
theorem exists_mul_constant [Patterns] :
    ∃ q s, constant c = .ok q ∧ p.scale c = .ok s ∧ p.HasProduct q s := by
  obtain ⟨q, s, r, isConstant, scaled, product, terms, _⟩ :=
    @exists_mul_monomial p c finite _ 0 (Or.inr fun n _ => n.toNat_lt)
  have same : r = s := by
    apply ext
    rw [terms, List.map_congr_left fun t _ => t.shift_zero, List.map_id']
  exact ⟨q, s, isConstant, scaled, same ▸ product⟩

end Multiple

theorem scale_one (p : Poly) : p.scale 1 = .ok p := by
  obtain ⟨s, scaled, s_terms⟩ := @exists_scale p 1 rfl Binary64.isZero_one
  have same : s = p := by
    apply ext
    rw [s_terms, List.map_congr_left fun t _ => t.scale_one, List.map_id',
      p.canonical.filter_nonzero]
  rw [scaled, same]

theorem scale_neg_one (p : Poly) : p.scale (-1) = .ok (-p) := by
  obtain ⟨s, scaled, s_terms⟩ := @exists_scale p (-1) rfl (by simp)
  have same : s = -p := by
    apply ext
    rw [s_terms, List.map_congr_left fun t _ => t.scale_neg_one]
    exact (-p).canonical.filter_nonzero
  rw [scaled, same]

/-- **Multiples and negatives are products.**  The product with a monomial has the terms of the
multiple by its coefficient, to the last bit, with the exponents raised.  So the multiple is the
product with a constant, the negative is the product with `-1`, the product with one is the same
polynomial, and that with zero is zero. -/
theorem mul_monomial_eq_scale [Patterns] (p : Poly) :
    (∀ c k, c.isFinite = true →
      (c.isZero = true ∨ ∀ n ∈ p.degree?, n.toNat + k.toNat < UInt32.size) →
      ∃ m s r, monomial c k = .ok m ∧ p.scale c = .ok s ∧ p.HasProduct m r ∧
        r.terms = s.terms.map (Term.shift k) ∧
        ∀ t ∈ s.terms, (t.shift k).exponent.toNat = t.exponent.toNat + k.toNat) ∧
    (∀ c, c.isFinite = true →
      ∃ q s, constant c = .ok q ∧ p.scale c = .ok s ∧ p.HasProduct q s) ∧
    (p.scale (-1) = .ok (-p) ∧ ∃ q, constant (-1) = .ok q ∧ p.HasProduct q (-p)) ∧
    p.HasProduct 1 p ∧ p.HasProduct 0 0 := by
  have negative : ∃ q, constant (-1) = .ok q ∧ p.HasProduct q (-p) := by
    obtain ⟨q, s, isConstant, scaled, product⟩ := @exists_mul_constant p (-1) rfl _
    cases p.scale_neg_one.symm.trans scaled
    exact ⟨q, isConstant, product⟩
  have identity : p.HasProduct 1 p := by
    obtain ⟨q, s, isConstant, scaled, product⟩ := @exists_mul_constant p 1 rfl _
    cases p.scale_one.symm.trans scaled
    have isOne : constant 1 = .ok 1 := monomial_of_nonzero rfl Binary64.isZero_one 0
    cases isOne.symm.trans isConstant
    exact product
  exact ⟨fun c k finite fit => p.exists_mul_monomial finite fit,
    fun c finite => p.exists_mul_constant finite, ⟨p.scale_neg_one, negative⟩, identity,
    p.hasProduct_zero⟩

/-- The variable times a monomial, up to the greatest exponent. -/
theorem mul_monomial_of_variable :
    ∃ m r, monomial (-1) 4294967294 = .ok m ∧ @HasProduct .standard x m r ∧
      r.terms = [⟨4294967295, -1⟩] := by
  obtain ⟨products, _, ⟨negated, _⟩, _⟩ := @mul_monomial_eq_scale .standard x
  have fit : ∀ n ∈ x.degree?, n.toNat + (4294967294 : UInt32).toNat < UInt32.size := by
    rintro n ⟨⟩
    decide
  obtain ⟨m, s, r, isMonomial, scaled, product, terms, _⟩ :=
    products (-1) 4294967294 rfl (Or.inr fit)
  cases negated.symm.trans scaled
  exact ⟨m, r, isMonomial, product, terms⟩

end Poly

end SparsePoly
