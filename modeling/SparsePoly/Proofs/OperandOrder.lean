import SparsePoly.Poly.Arithmetic
import SparsePoly.Proofs.Products

/-!
# The order of operands, and products in either order

Sums of rounded numbers depend on the order of their summands, so a product could depend on which
operand is given first.  It does not: the operands are put in order, and that order is a *linear*
one.  It compares the words in which the coefficients are stored, and tells any two different lists
of words apart, the signs of zeros and those of NaNs included; two lists that it does not tell apart
are one list, so that the same list is the outer one both times.

The laws of the order are those of the lexicographic orders of the library, of which it is one
(`Terms.operandOrder_eq_compareLex`).

The words of NaNs are not determined by the terms, and with NaNs among the coefficients the order
may well depend on them.  Then so does the product, but not on which operand was given first.
Without NaN there is one product (`Terms.product_eq_of_ne_nan`).

## Main statements

* `Terms.operandOrder_linear` - the laws of the order, and what comes first in it
* `Terms.inOrder_comm` - the ordered operands do not depend on which was given first
* `Terms.product_eq_of_ne_nan` - without NaN a product does not depend on any choice of words
* `Poly.Yields` - what all ways to form a product come to
* `Poly.yields_comm` - a product comes to the same in either order
-/

namespace SparsePoly

/-! ### The order of terms -/

namespace StoredTerm

theorem order_eq_compareLex :
    order = compareLex (compareOn exponent) (compareOn fun t => Binary64.wordKey t.bits) := rfl

instance : Std.TransCmp order :=
  order_eq_compareLex ▸ inferInstance

/-- **The order tells all stored terms apart.** -/
instance : Std.LawfulEqCmp order where
  eq_of_compare {t u} eq := by
    obtain ⟨exponent, bits⟩ := Ordering.then_eq_eq.mp eq
    have same_exponent : t.exponent = u.exponent := Std.compare_eq_iff_eq.mp exponent
    have same_bits : t.bits = u.bits := Binary64.wordKey_injective (Std.compare_eq_iff_eq.mp bits)
    cases t
    cases u
    cases same_exponent
    cases same_bits
    rfl

end StoredTerm

namespace Terms

/-! ### The order of operands -/

/-- Lists of one length are compared term by term. -/
theorem lexOrder_eq_compareLex {ts us : List StoredTerm} (length : ts.length = us.length) :
    lexOrder ts us = List.compareLex StoredTerm.order ts us := by
  induction ts generalizing us with
  | nil =>
    rw [List.eq_nil_of_length_eq_zero length.symm]
    rfl
  | cons t ts ih =>
    obtain ⟨u, us, rfl⟩ := List.exists_cons_of_length_eq_add_one length.symm
    rw [lexOrder, List.compareLex_cons_cons, ih (Nat.succ.inj length)]

/-- **The order of operands is a lexicographic order**: of the length first, and then of the
terms. -/
theorem operandOrder_eq_compareLex :
    operandOrder = compareLex (compareOn List.length) (List.compareLex StoredTerm.order) := by
  funext ts us
  show (compare ts.length us.length).then (lexOrder ts us) =
    (compare ts.length us.length).then (List.compareLex StoredTerm.order ts us)
  by_cases length : ts.length = us.length
  · rw [lexOrder_eq_compareLex length]
  · have differ : compare ts.length us.length ≠ .eq := mt Std.compare_eq_iff_eq.mp length
    cases first : compare ts.length us.length with
    | eq => exact absurd first differ
    | lt => rfl
    | gt => rfl

instance : Std.TransCmp operandOrder :=
  operandOrder_eq_compareLex ▸ inferInstance

/-- **The order tells all lists apart.** -/
instance : Std.LawfulEqCmp operandOrder where
  eq_of_compare {ts us} eq := by
    rw [operandOrder_eq_compareLex] at eq
    exact Std.LawfulEqCmp.eq_of_compare (Ordering.then_eq_eq.mp eq).2

/-- **A list comes before another** if it is shorter.  Of two lists of one length the terms at the
first difference decide: by their exponents, and if these are equal by the total order of the
coefficients. -/
def Precedes (ts us : List StoredTerm) : Prop :=
  ts.length < us.length ∨ ts.length = us.length ∧ ∃ front t u ts' us',
    ts = front ++ t :: ts' ∧ us = front ++ u :: us' ∧
      (t.exponent < u.exponent ∨ t.exponent = u.exponent ∧ Binary64.totalOrder t.bits u.bits = .lt)

/-- **The first difference decides** between lists of one length. -/
theorem lexOrder_eq_lt_iff {ts us : List StoredTerm} (length : ts.length = us.length) :
    lexOrder ts us = .lt ↔ ∃ front t u ts' us', ts = front ++ t :: ts' ∧ us = front ++ u :: us' ∧
      t.order u = .lt := by
  induction ts generalizing us with
  | nil => simp [lexOrder]
  | cons t ts ih =>
    obtain ⟨u, us, rfl⟩ := List.exists_cons_of_length_eq_add_one length.symm
    rw [lexOrder, Ordering.then_eq_lt, ih (Nat.succ.inj length)]
    constructor
    · rintro (here | ⟨same, front, v, w, ts', us', rfl, rfl, later⟩)
      · exact ⟨[], t, u, ts, us, rfl, rfl, here⟩
      -- Terms that are not told apart are one term, which goes to the common front.
      · cases Std.LawfulEqCmp.eq_of_compare same
        exact ⟨t :: front, v, w, ts', us', rfl, rfl, later⟩
    · rintro ⟨front, v, w, ts', us', ts_eq, us_eq, differ⟩
      cases front with
      | nil =>
        cases ts_eq
        cases us_eq
        exact Or.inl differ
      | cons x front =>
        cases ts_eq
        cases us_eq
        exact Or.inr ⟨Std.ReflCmp.compare_self, front, v, w, ts', us', rfl, rfl, differ⟩

/-- What comes first in the order. -/
theorem operandOrder_eq_lt_iff {ts us : List StoredTerm} :
    operandOrder ts us = .lt ↔ Precedes ts us := by
  have terms (t u : StoredTerm) : t.order u = .lt ↔ t.exponent < u.exponent ∨
      t.exponent = u.exponent ∧ Binary64.totalOrder t.bits u.bits = .lt := by
    rw [StoredTerm.order, Ordering.then_eq_lt, Std.compare_eq_lt, Std.compare_eq_iff_eq]
  rw [operandOrder, Ordering.then_eq_lt, Std.compare_eq_lt, Std.compare_eq_iff_eq, Precedes]
  refine or_congr_right (and_congr_right fun length => ?_)
  rw [lexOrder_eq_lt_iff length]
  simp only [terms]

/-- **The order of operands is a linear order.**  To change places reverses it, it has only
identical lists for equal, to the last bit of every coefficient, and it is transitive; it has the
shorter list first, and then the lesser one at the first difference.  The words of NaNs are told
apart like all others. -/
theorem operandOrder_linear (ts us vs : List StoredTerm) :
    operandOrder ts us = (operandOrder us ts).swap ∧
      (operandOrder ts us = .eq ↔ ts = us) ∧
      (operandOrder ts us ≠ .gt → operandOrder us vs ≠ .gt → operandOrder ts vs ≠ .gt) ∧
      (operandOrder ts us = .lt ↔ Precedes ts us) := by
  refine ⟨Std.OrientedCmp.eq_swap, Std.LawfulEqCmp.compare_eq_iff_eq, ?_, operandOrder_eq_lt_iff⟩
  intro ts_us us_vs
  exact Ordering.ne_gt_iff_isLE.mpr (Std.TransCmp.isLE_trans
    (Ordering.ne_gt_iff_isLE.mp ts_us) (Ordering.ne_gt_iff_isLE.mp us_vs))

/-- The two zeros are told apart, and an infinity lies beyond both. -/
theorem operandOrder_of_zeros :
    operandOrder [.ofTerm ⟨1, -0⟩] [.ofTerm ⟨1, 0⟩] ≠ .gt ∧
      operandOrder [.ofTerm ⟨1, 0⟩] [.ofTerm ⟨1, .infinity false⟩] ≠ .gt ∧
      operandOrder [.ofTerm ⟨1, -0⟩] [.ofTerm ⟨1, .infinity false⟩] ≠ .gt ∧
      operandOrder [.ofTerm ⟨1, -0⟩] [.ofTerm ⟨1, 0⟩] ≠ .eq := by
  have zeros : operandOrder [.ofTerm ⟨1, -0⟩] [.ofTerm ⟨1, 0⟩] ≠ .gt := by decide +kernel
  have beyond : operandOrder [.ofTerm ⟨1, 0⟩] [.ofTerm ⟨1, .infinity false⟩] ≠ .gt := by
    decide +kernel
  have apart : [StoredTerm.ofTerm ⟨1, -0⟩] ≠ [StoredTerm.ofTerm ⟨1, 0⟩] := by decide +kernel
  obtain ⟨_, identical, trans, _⟩ := operandOrder_linear [.ofTerm ⟨1, -0⟩] [.ofTerm ⟨1, 0⟩]
    [.ofTerm ⟨1, .infinity false⟩]
  exact ⟨zeros, beyond, trans zeros beyond, mt identical.mp apart⟩

/-! ### Ordered operands -/

section InOrder

variable [Patterns]

/-- The operands stay as they are, or change places. -/
theorem inOrder_cases (ts us : List Term) :
    inOrder ts us = (ts, us) ∨ inOrder ts us = (us, ts) := by
  rw [inOrder]
  split
  · exact Or.inr rfl
  · exact Or.inl rfl

/-- **Which operand was given first is forgotten.**  If neither comes before the other, they are
one list. -/
theorem inOrder_comm (ts us : List Term) : inOrder us ts = inOrder ts us := by
  have swapped : operandOrder (Patterns.stored us) (Patterns.stored ts) =
      (operandOrder (Patterns.stored ts) (Patterns.stored us)).swap := Std.OrientedCmp.eq_swap
  rw [inOrder, inOrder, swapped]
  cases order : operandOrder (Patterns.stored ts) (Patterns.stored us) with
  | lt => rfl
  | gt => rfl
  | eq =>
    rw [Patterns.stored_injective (Std.LawfulEqCmp.eq_of_compare order)]
    rfl

end InOrder

section Numbers

variable (P Q : Patterns) {ts us : List Term} (ts_numbers : ∀ t ∈ ts, t.coeff ≠ .nan)
  (us_numbers : ∀ u ∈ us, u.coeff ≠ .nan)

include ts_numbers us_numbers

/-- Without NaN the terms determine the order. -/
theorem inOrder_eq_of_ne_nan : @inOrder P ts us = @inOrder Q ts us := by
  unfold inOrder
  rw [Patterns.stored_eq_of_ne_nan P Q ts_numbers,
    Patterns.stored_eq_of_ne_nan P Q us_numbers]

theorem productIn_eq_of_ne_nan (scratch : Scratch) :
    @productIn P scratch ts us = @productIn Q scratch ts us := by
  unfold productIn
  rw [inOrder_eq_of_ne_nan P Q ts_numbers us_numbers]

/-- **Without NaN there is one product**, whatever words NaNs have. -/
theorem product_eq_of_ne_nan : @product P ts us = @product Q ts us := by
  unfold product
  split
  · rfl
  · rfl
  · exact productIn_eq_of_ne_nan P Q ts_numbers us_numbers _

end Numbers

theorem LastFit.symm {ts us : List Term} (fit : LastFit ts us) : LastFit us ts := by
  intro n u_last m t_last
  rw [Nat.add_comm]
  exact fit m t_last n u_last

/-- If the last exponents do not fit there are two of them. -/
theorem exists_last_of_not_lastFit {ts us : List Term} (overflow : ¬LastFit ts us) :
    ∃ m n, lastExponent? ts = some m ∧ lastExponent? us = some n ∧
      UInt32.size ≤ m.toNat + n.toNat := by
  simpa [LastFit] using overflow

/-- The operands of an overflow are named in the order in which they are given. -/
theorem degreeBound_of_overflow {ts us : List Term} {m n : UInt32}
    (t_last : lastExponent? ts = some m) (u_last : lastExponent? us = some n)
    (overflow : UInt32.size ≤ m.toNat + n.toNat) :
    degreeBound ts us = .error (.degreeOverflow m n) := by
  rw [degreeBound, t_last, u_last]
  exact if_neg (Nat.not_lt.mpr overflow)

end Terms

/-! ### Products -/

namespace Poly

/-- **The outcome of a product**, whichever way it is formed: on polynomials, on their terms with
the scratch space that is chosen, and with any given scratch space. -/
structure Yields [Patterns] (p q : Poly) (outcome : Except ProductError Poly) : Prop where
  /-- On polynomials. -/
  mul : p.mul q = outcome
  /-- On terms. -/
  product : Terms.product p.terms q.terms = outcome.map terms
  /-- On terms, with given scratch space. -/
  productIn : ∀ scratch, Terms.productIn scratch p.terms q.terms = outcome.map terms

section Outcome

variable [Patterns]

/-- The product of polynomials is that of their terms. -/
theorem mul_eq_of_product {p q : Poly} {outcome : Except ProductError Poly}
    (eq : Terms.product p.terms q.terms = outcome.map terms) : p.mul q = outcome := by
  rw [mul]
  split <;> rename_i result
  · rw [result] at eq
    cases outcome with
    | error e => cases eq
    | ok r => exact congrArg Except.ok (ext (Except.ok.inj eq))
  · rw [result] at eq
    cases outcome with
    | error e => exact congrArg Except.error (Except.error.inj eq)
    | ok r => cases eq

/-- If the degrees fit, a product is what the partial products of the ordered operands add up
to. -/
theorem yields_of_lastFit {p q : Poly} (fit : Terms.LastFit p.terms q.terms) :
    p.Yields q (.ok (collect (Terms.partialProducts (Terms.inOrder p.terms q.terms).1
      (Terms.inOrder p.terms q.terms).2))) where
  mul := mul_eq_of_product (Terms.product_eq_collected p.canonical q.canonical fit)
  product := Terms.product_eq_collected p.canonical q.canonical fit
  productIn := Terms.productIn_eq_collected p.canonical q.canonical fit

/-- Zero has the product zero with everything. -/
theorem yields_of_empty {p q : Poly} (empty : p.terms = [] ∨ q.terms = []) :
    p.Yields q (.ok 0) := by
  have fit : Terms.LastFit p.terms q.terms := by
    rcases empty with nothing | nothing
    · rw [nothing]
      exact Terms.lastFit_nil_left _
    · rw [nothing]
      exact Terms.lastFit_nil_right _
  have nothing : collect (Terms.partialProducts (Terms.inOrder p.terms q.terms).1
      (Terms.inOrder p.terms q.terms).2) = 0 := ext (Terms.collected_of_empty empty)
  exact nothing ▸ yields_of_lastFit fit

theorem zero_yields (q : Poly) : Yields 0 q (.ok 0) := yields_of_empty (Or.inl rfl)

theorem yields_zero (p : Poly) : p.Yields 0 (.ok 0) := yields_of_empty (Or.inr rfl)

/-- If they do not fit, there is no product. -/
theorem yields_of_overflow {p q : Poly} {m n : UInt32} (p_degree : p.degree? = some m)
    (q_degree : q.degree? = some n) (overflow : UInt32.size ≤ m.toNat + n.toNat) :
    p.Yields q (.error (.degreeOverflow m n)) := by
  have noBound := Terms.degreeBound_of_overflow p_degree q_degree overflow
  have noProduct : Terms.product p.terms q.terms = .error (.degreeOverflow m n) := by
    rw [Terms.product, Terms.chooseScratch, noBound]
  refine ⟨mul_eq_of_product noProduct, noProduct, ?_⟩
  intro scratch
  rw [Terms.productIn, noBound]
  rfl

/-- **Products commute bit for bit.**  Two polynomials have one product in either order, with the
same coefficients to the last bit, whichever way it is formed.  Or they have none: their degrees
add up to no exponent, and the error names the degrees in the order of the operands.  Coefficients
may be NaN, in whatever words; the words of a NaN in the product are not compared. -/
theorem yields_comm (p q : Poly) :
    (∃ r, p.Yields q (.ok r) ∧ q.Yields p (.ok r)) ∨
      ∃ m n, p.degree? = some m ∧ q.degree? = some n ∧ UInt32.size ≤ m.toNat + n.toNat ∧
        p.Yields q (.error (.degreeOverflow m n)) ∧ q.Yields p (.error (.degreeOverflow n m)) := by
  by_cases fit : Terms.LastFit p.terms q.terms
  · have swapped := yields_of_lastFit fit.symm
    rw [Terms.inOrder_comm] at swapped
    exact Or.inl ⟨_, yields_of_lastFit fit, swapped⟩
  · obtain ⟨m, n, p_degree, q_degree, overflow⟩ := Terms.exists_last_of_not_lastFit fit
    have overflow' : UInt32.size ≤ n.toNat + m.toNat := by rwa [Nat.add_comm]
    exact Or.inr ⟨m, n, p_degree, q_degree, overflow,
      yields_of_overflow p_degree q_degree overflow, yields_of_overflow q_degree p_degree overflow'⟩

end Outcome

end Poly

end SparsePoly
