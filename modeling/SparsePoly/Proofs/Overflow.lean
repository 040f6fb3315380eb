import SparsePoly.Proofs.OperandOrder

/-!
# When a product is refused

Before a product is formed, one addition is checked: that of the last exponents.  The loops add
exponents without checks of their own, in words of 32 bits, and a row of sums is as long as the
degree bound.

That is enough.  Canonical operands ascend, so the last pair is the greatest one; and that is a fact
about pairs, which putting the operands in order does not change.  So some pair overflows exactly if
the last one does, and then there is no product; otherwise every addition is one of numbers, and
every partial product has a slot when its turn comes.

## Main statements

* `Terms.lastFit_iff` - the last exponents stand for all pairs
* `Terms.stays_in_range` - no addition wraps around, and no slot is missing
* `Poly.mul_refused_iff_overflows` - the products, the choice and the loops agree on that
-/

namespace SparsePoly

namespace Terms

/-- The exponents of some pair of terms add up to no exponent. -/
def Overflows (ts us : List Term) : Prop :=
  ∃ t ∈ ts, ∃ u ∈ us, UInt32.size ≤ t.exponent.toNat + u.exponent.toNat

theorem not_overflows_iff {ts us : List Term} :
    ¬Overflows ts us ↔ PairsBelow UInt32.size ts us := by
  simp [Overflows, PairsBelow]

/-- **What a product does with words**, once its operands are in order.  The loops of either
scratch space add the exponents of all pairs; a row takes the partial products one after another,
and when the turn of one comes all before it have been taken. -/
structure StaysInRange (bound : UInt32) (ts us : List Term) : Prop where
  /-- No addition of exponents wraps around. -/
  additions : ∀ t ∈ ts, ∀ u ∈ us,
    (t.exponent + u.exponent).toNat = t.exponent.toNat + u.exponent.toNat
  /-- Every access is within the row. -/
  accesses : ∀ front v back, partialProducts ts us = front ++ v :: back →
    ∃ sums, (DenseSums.empty bound.toNat).addAll? front = some sums ∧
      v.exponent.toNat < sums.size ∧ (sums.add? v).isSome = true

/-! ### The last pair -/

/-- The last exponent is that of a term. -/
theorem exists_mem_of_lastExponent? {ts : List Term} {m : UInt32}
    (isLast : lastExponent? ts = some m) : ∃ t ∈ ts, t.exponent = m := by
  obtain ⟨t, last, eq⟩ := Option.map_eq_some_iff.mp isLast
  exact ⟨t, List.mem_of_getLast? last, eq⟩

section Canonical

variable {ts us : List Term} (ht : Canonical ts) (hu : Canonical us)

include ht hu

/-- **The last exponents stand for all pairs.** -/
theorem lastFit_iff : LastFit ts us ↔ ¬Overflows ts us := by
  rw [not_overflows_iff]
  constructor
  · exact pairsBelow_of_lastFit ht hu
  · intro below m t_last n u_last
    obtain ⟨t, t_mem, rfl⟩ := exists_mem_of_lastExponent? t_last
    obtain ⟨u, u_mem, rfl⟩ := exists_mem_of_lastExponent? u_last
    exact below t t_mem u u_mem

/-- Some pair overflows exactly if there is a last one, and it does. -/
theorem overflows_iff :
    Overflows ts us ↔ ∃ m n, lastExponent? ts = some m ∧ lastExponent? us = some n ∧
      UInt32.size ≤ m.toNat + n.toNat := by
  constructor
  · intro overflow
    exact exists_last_of_not_lastFit fun fit => (lastFit_iff ht hu).mp fit overflow
  · rintro ⟨m, n, t_last, u_last, overflow⟩
    obtain ⟨t, t_mem, rfl⟩ := exists_mem_of_lastExponent? t_last
    obtain ⟨u, u_mem, rfl⟩ := exists_mem_of_lastExponent? u_last
    exact ⟨t, t_mem, u, u_mem, overflow⟩

/-! ### The choice of scratch space -/

/-- Without an overflow a scratch space is chosen, or none if there is nothing to multiply. -/
theorem chooseScratch_of_lastFit (fit : LastFit ts us) :
    ∃ choice, chooseScratch ts us = .ok choice := by
  rw [chooseScratch]
  rcases degreeBound_cases ht hu fit with ⟨noBound, _⟩ | ⟨bound, isBound, _⟩
  · rw [noBound]
    exact ⟨none, rfl⟩
  · rw [isBound]
    by_cases small : bound.toNat < slotsPerProduct * (ts.length * us.length)
    · exact ⟨some .dense, if_pos small⟩
    · exact ⟨some .sparse, if_neg small⟩

end Canonical

/-- There is no bound for an empty list, and only for one. -/
theorem degreeBound_eq_none_iff {ts us : List Term} :
    degreeBound ts us = .ok none ↔ ts = [] ∨ us = [] := by
  rw [degreeBound]
  cases t_last : lastExponent? ts with
  | none => exact iff_of_true rfl (Or.inl (eq_nil_of_lastExponent? t_last))
  | some m =>
    have t_there : ts ≠ [] := by
      rintro rfl
      cases t_last
    cases u_last : lastExponent? us with
    | none => exact iff_of_true rfl (Or.inr (eq_nil_of_lastExponent? u_last))
    | some n =>
      have u_there : us ≠ [] := by
        rintro rfl
        cases u_last
      refine iff_of_false ?_ (not_or.mpr ⟨t_there, u_there⟩)
      intro noBound
      dsimp only at noBound
      split at noBound <;> cases noBound

/-- **No scratch space is chosen** exactly if there is nothing to multiply. -/
theorem chooseScratch_eq_none_iff {ts us : List Term} :
    chooseScratch ts us = .ok none ↔ ts = [] ∨ us = [] := by
  rw [← degreeBound_eq_none_iff, chooseScratch]
  constructor
  · intro noScratch
    split at noScratch
    · cases noScratch
    · rename_i noBound
      exact noBound
    · split at noScratch <;> cases noScratch
  · intro noBound
    rw [noBound]

/-! ### The loops -/

/-- **Nothing leaves its range.**  The bound is that of the operands as they are given, and their
order in the loops is another; what holds of pairs holds in either order. -/
theorem stays_in_range [Patterns] {ts us : List Term} (ht : Canonical ts) (hu : Canonical us)
    (fit : LastFit ts us) {bound : UInt32} (isBound : degreeBound ts us = .ok (some bound)) :
    StaysInRange bound (inOrder ts us).1 (inOrder ts us).2 := by
  have below : PairsBelow (bound.toNat + 1) ts us := by
    rcases degreeBound_cases ht hu fit with ⟨noBound, _⟩ | ⟨_, found, below⟩
    · rw [noBound] at isBound
      cases isBound
    · rw [found] at isBound
      cases isBound
      exact below
  have fits := pairsBelow_size ht hu fit
  have slots := exponent_le_of_mem_partialProducts fits below.inOrder
  refine ⟨fun t t_mem u u_mem => toNat_exponent_mul fits t_mem u_mem, ?_⟩
  intro front v back split
  rw [split] at slots
  obtain ⟨front_slots, v_slots⟩ := List.forall_mem_append.mp slots
  have v_slot : v.exponent.toNat ≤ bound.toNat := v_slots v List.mem_cons_self
  obtain ⟨sums, added⟩ := (DenseSums.empty bound.toNat).exists_addAll? front_slots
  exact ⟨sums, added, Nat.lt_succ_of_le v_slot, (sums.add?_isSome_iff v).mpr v_slot⟩

end Terms

namespace Poly

/-- A pair that overflows refuses the product, and the choice of scratch space for it. -/
theorem refused_of_overflows [Patterns] {p q : Poly}
    (overflow : Terms.Overflows p.terms q.terms) :
    ∃ e, p.Yields q (.error e) ∧ Terms.chooseScratch p.terms q.terms = .error e := by
  obtain ⟨m, n, p_degree, q_degree, beyond⟩ :=
    (Terms.overflows_iff p.canonical q.canonical).mp overflow
  refine ⟨.degreeOverflow m n, yields_of_overflow p_degree q_degree beyond, ?_⟩
  rw [Terms.chooseScratch, Terms.degreeBound_of_overflow p_degree q_degree beyond]

/-- If none does, there is a product, and a choice. -/
theorem formed_of_not_overflows [Patterns] {p q : Poly}
    (fits : ¬Terms.Overflows p.terms q.terms) :
    ∃ r choice, p.Yields q (.ok r) ∧ Terms.chooseScratch p.terms q.terms = .ok choice := by
  have fit := (Terms.lastFit_iff p.canonical q.canonical).mpr fits
  obtain ⟨choice, chosen⟩ := Terms.chooseScratch_of_lastFit p.canonical q.canonical fit
  exact ⟨_, choice, yields_of_lastFit fit, chosen⟩

/-- **A product is refused exactly if some pair of exponents overflows**, which is seen from the
degrees: by the product of polynomials, by that of their terms, by the choice of scratch space and
with either one given.  Otherwise nothing leaves its range, and scratch space is chosen unless there
is nothing to multiply. -/
theorem mul_refused_iff_overflows [Patterns] (p q : Poly) :
    (Terms.Overflows p.terms q.terms ↔
      ∃ m n, p.degree? = some m ∧ q.degree? = some n ∧ UInt32.size ≤ m.toNat + n.toNat) ∧
    ((∃ e, p.mul q = .error e) ↔ Terms.Overflows p.terms q.terms) ∧
    ((∃ e, Terms.product p.terms q.terms = .error e) ↔ Terms.Overflows p.terms q.terms) ∧
    ((∃ e, Terms.chooseScratch p.terms q.terms = .error e) ↔
      Terms.Overflows p.terms q.terms) ∧
    (∀ scratch, (∃ e, Terms.productIn scratch p.terms q.terms = .error e) ↔
      Terms.Overflows p.terms q.terms) ∧
    (¬Terms.Overflows p.terms q.terms → ∀ bound,
      Terms.degreeBound p.terms q.terms = .ok (some bound) →
        Terms.StaysInRange bound (Terms.inOrder p.terms q.terms).1
          (Terms.inOrder p.terms q.terms).2) ∧
    (Terms.chooseScratch p.terms q.terms = .ok none ↔ p.terms = [] ∨ q.terms = []) := by
  have range (fits : ¬Terms.Overflows p.terms q.terms) (bound : UInt32)
      (isBound : Terms.degreeBound p.terms q.terms = .ok (some bound)) :=
    Terms.stays_in_range p.canonical q.canonical
      ((Terms.lastFit_iff p.canonical q.canonical).mpr fits) isBound
  refine ⟨Terms.overflows_iff p.canonical q.canonical, ?_⟩
  by_cases overflow : Terms.Overflows p.terms q.terms
  · obtain ⟨e, yields, refused⟩ := refused_of_overflows overflow
    exact ⟨iff_of_true ⟨e, yields.mul⟩ overflow, iff_of_true ⟨e, yields.product⟩ overflow,
      iff_of_true ⟨e, refused⟩ overflow,
      fun scratch => iff_of_true ⟨e, yields.productIn scratch⟩ overflow, range,
      Terms.chooseScratch_eq_none_iff⟩
  · obtain ⟨r, choice, yields, chosen⟩ := formed_of_not_overflows overflow
    -- A result is no error.
    have formed {α : Type} {result : Except ProductError α} {value : α}
        (eq : result = .ok value) :
        (∃ e, result = .error e) ↔ Terms.Overflows p.terms q.terms := by
      subst eq
      exact iff_of_false nofun overflow
    exact ⟨formed yields.mul, formed yields.product, formed chosen,
      fun scratch => formed (yields.productIn scratch), range, Terms.chooseScratch_eq_none_iff⟩

end Poly

end SparsePoly
