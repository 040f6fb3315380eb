import SparsePoly.Poly.Basic
import SparsePoly.Terms.Merge

/-!
# Sums, products and multiples of polynomials

## Main definitions

* `Poly.add`, `Poly.neg`, `Poly.sub` - total, also as `+` and `-`
* `Poly.mul` - refused if the degree of the product is no exponent
* `Poly.scale` - refused for a scalar that is infinite or NaN

## Design decisions

* A difference is the sum with the negative, so that a sum and a difference round alike.
-/

namespace SparsePoly

namespace Poly

/-- **The sum**, by merging the terms. -/
def add (p q : Poly) : Poly :=
  ⟨Terms.merge p.terms q.terms, Terms.canonical_merge p.canonical q.canonical⟩

/-- The polynomial with all signs flipped. -/
def neg (p : Poly) : Poly :=
  ⟨p.terms.map Term.neg,
    p.canonical.map_of_exponent Term.neg (fun _ => rfl) fun t mem => by
      simpa [Term.neg] using p.canonical.nonzero t mem⟩

/-- The difference. -/
def sub (p q : Poly) : Poly := p.add q.neg

instance : Add Poly := ⟨add⟩

instance : Neg Poly := ⟨neg⟩

instance : Sub Poly := ⟨sub⟩

theorem terms_add (p q : Poly) : (p + q).terms = Terms.merge p.terms q.terms := rfl

theorem terms_neg (p : Poly) : (-p).terms = p.terms.map Term.neg := rfl

theorem sub_eq_add_neg (p q : Poly) : p - q = p + -q := rfl

@[simp] theorem zero_add (p : Poly) : 0 + p = p :=
  ext (by simp [terms_add])

@[simp] theorem add_zero (p : Poly) : p + 0 = p :=
  ext (by simp [terms_add])

@[simp] theorem neg_neg (p : Poly) : - -p = p :=
  ext (by simp [terms_neg, Function.comp_def])

/-- **The product**, for the words in which the operands are stored. -/
def mul [Patterns] (p q : Poly) : Except ProductError Poly :=
  match eq : Terms.product p.terms q.terms with
  | .ok ts => .ok ⟨ts, Terms.canonical_product eq⟩
  | .error e => .error e

/-- **The multiple by a scalar.**  The scalar must be finite; zero gives the zero polynomial, and
a product that underflows to zero gives no term. -/
def scale (p : Poly) (c : Binary64) : Except DomainError Poly :=
  if c.isFinite then
    if c.isZero then
      .ok 0
    else
      .ok ⟨(p.terms.map (·.scale c)).filter (! ·.coeff.isZero),
        Terms.canonical_filter (List.pairwise_map.mpr p.canonical.ascending)⟩
  else
    .error (.nonFiniteScalar c)

end Poly

end SparsePoly
