import Mathlib.Data.List.Nodup
import Mathlib.Data.List.Perm.Subperm
import Mathlib.Data.List.ProdSigma
import SparsePoly.Proofs.Merging
import SparsePoly.Proofs.Monomials
import SparsePoly.Proofs.Overflow

/-!
# The support and the degree of a product

Every exponent of a product is that of a pair of terms.  At most exponents several pairs meet and
their partial products are added up and rounded, so that little can be said of the coefficients
there.  The two ends are different: among terms that ascend, the last ones are the only pair with
the greatest sum of exponents and the first ones the only pair with the least.

Where there is only one pair (`Terms.OnlyPair`) one partial product is added to the zero of an empty
slot, in either scratch space and in either order of the operands.  So the coefficient is that
product, rounded once.  Underflow of this one product is the only way to lose the degree, and the
sign of a zero is lost with it: where no term is stored the coefficient is `0`.

## Main statements

* `Terms.sumAt_of_onlyPair` - the only pair gives its product, added to zero
* `Poly.exists_pair_of_mem_collected`, `Poly.size_collected_le` - the support of a product
* `Poly.product_support_and_degree` - both ends of a product, and when its degree is the sum
-/

namespace SparsePoly

/-- The least number of a sign, one unit. -/
def Binary64.least (negative : Bool) : Binary64 :=
  .finite negative ⟨1, Nat.one_dvd _, Nat.lt_of_le_of_lt unitsPerOne_pos unitsPerOne_lt_unitLimit⟩

namespace Terms

/-! ### The only pair with a sum of exponents -/

/-- No other pair of terms has the same sum of exponents as a given one. -/
def OnlyPair (ts us : List Term) (t u : Term) : Prop :=
  ∀ v ∈ ts, ∀ w ∈ us,
    v.exponent.toNat + w.exponent.toNat = t.exponent.toNat + u.exponent.toNat → v = t ∧ w = u

theorem OnlyPair.symm {ts us : List Term} {t u : Term} (only : OnlyPair ts us t u) :
    OnlyPair us ts u t := by
  intro w w_mem v v_mem sum
  exact (only v v_mem w w_mem (by omega)).symm

section Ends

variable {ts us : List Term} (ht : Canonical ts) (hu : Canonical us) {t u : Term}
  (t_mem : t ∈ ts) (u_mem : u ∈ us)

include ht hu t_mem u_mem

/-- **The last terms are the only pair** with the greatest sum. -/
theorem onlyPair_of_last (t_last : ∀ v ∈ ts, v.exponent ≤ t.exponent)
    (u_last : ∀ w ∈ us, w.exponent ≤ u.exponent) : OnlyPair ts us t u := by
  intro v v_mem w w_mem sum
  have v_le := UInt32.le_iff_toNat_le.mp (t_last v v_mem)
  have w_le := UInt32.le_iff_toNat_le.mp (u_last w w_mem)
  exact ⟨ht.eq_of_exponent_eq v_mem t_mem (UInt32.toNat_inj.mp (by omega)),
    hu.eq_of_exponent_eq w_mem u_mem (UInt32.toNat_inj.mp (by omega))⟩

/-- **The first terms are the only pair** with the least sum. -/
theorem onlyPair_of_first (t_first : ∀ v ∈ ts, t.exponent ≤ v.exponent)
    (u_first : ∀ w ∈ us, u.exponent ≤ w.exponent) : OnlyPair ts us t u := by
  intro v v_mem w w_mem sum
  have v_ge := UInt32.le_iff_toNat_le.mp (t_first v v_mem)
  have w_ge := UInt32.le_iff_toNat_le.mp (u_first w w_mem)
  exact ⟨ht.eq_of_exponent_eq v_mem t_mem (UInt32.toNat_inj.mp (by omega)),
    hu.eq_of_exponent_eq w_mem u_mem (UInt32.toNat_inj.mp (by omega))⟩

end Ends

/-- No term of a canonical list lies below the first one. -/
theorem Canonical.first_le {ts : List Term} (h : Canonical ts) {t : Term}
    (first : ts[0]? = some t) : ∀ v ∈ ts, t.exponent ≤ v.exponent := by
  cases ts with
  | nil => cases first
  | cons u ts =>
    cases first
    refine List.forall_mem_cons.mpr ⟨UInt32.le_refl _, fun v mem => ?_⟩
    exact UInt32.le_of_lt ((canonical_cons.mp h).2.1 v mem)

/-! ### What the only pair gives -/

theorem Canonical.nodup {ts : List Term} (h : Canonical ts) : ts.Nodup :=
  List.Pairwise.imp (fun {t u} lt (same : t = u) => UInt32.lt_irrefl _ (same ▸ lt)) h.ascending

/-- The partial products are those of the pairs in the product of the lists. -/
theorem partialProducts_eq_map_product (ts us : List Term) :
    partialProducts ts us = (ts ×ˢ us).map fun pair => pair.1 * pair.2 := by
  show _ = (ts.flatMap fun t => us.map (Prod.mk t)).map _
  rw [List.map_flatMap]
  simp only [List.map_map]
  rfl

theorem length_partialProducts (ts us : List Term) :
    (partialProducts ts us).length = ts.length * us.length := by
  rw [partialProducts_eq_map_product, List.length_map, List.length_product]

section Pair

variable {ts us : List Term} (ht : Canonical ts) (hu : Canonical us)
  (fit : PairsBelow UInt32.size ts us) {t u : Term} (t_mem : t ∈ ts) (u_mem : u ∈ us)
  (only : OnlyPair ts us t u)

include ht hu fit t_mem u_mem only

/-- **The only pair leaves one partial product** at its exponent. -/
theorem filter_partialProducts_of_onlyPair :
    (partialProducts ts us).filter (·.exponent == (t * u).exponent) = [t * u] := by
  have pair_mem : (t, u) ∈ ts ×ˢ us := List.mem_product.mpr ⟨t_mem, u_mem⟩
  have here : (ts ×ˢ us).filter ((·.exponent == (t * u).exponent) ∘ fun pair => pair.1 * pair.2) =
      (ts ×ˢ us).filter (· == (t, u)) := by
    refine List.filter_congr fun ⟨v, w⟩ mem => ?_
    obtain ⟨v_mem, w_mem⟩ := List.mem_product.mp mem
    rw [Bool.eq_iff_iff, Function.comp_apply, beq_iff_eq, beq_iff_eq, Prod.mk.injEq,
      ← UInt32.toNat_inj, toNat_exponent_mul fit v_mem w_mem, toNat_exponent_mul fit t_mem u_mem]
    constructor
    · exact only v v_mem w w_mem
    · rintro ⟨rfl, rfl⟩
      rfl
  rw [partialProducts_eq_map_product, List.filter_map, here, List.filter_beq,
    List.count_eq_one_of_mem (ht.nodup.product hu.nodup) pair_mem]
  rfl

/-- **What the only pair gives**: its product, added to the zero of an empty slot. -/
theorem sumAt_of_onlyPair :
    sumAt (partialProducts ts us) (t * u).exponent = 0 + t.coeff * u.coeff := by
  rw [sumAt, filter_partialProducts_of_onlyPair ht hu fit t_mem u_mem only]
  rfl

/-- Which operand was given first does not matter. -/
theorem sumAt_inOrder_of_onlyPair [Patterns] :
    sumAt (partialProducts (inOrder ts us).1 (inOrder ts us).2) (t * u).exponent =
      0 + t.coeff * u.coeff := by
  rcases inOrder_cases ts us with order | order
  · rw [order]
    exact sumAt_of_onlyPair ht hu fit t_mem u_mem only
  · have swapped : PairsBelow UInt32.size us ts := fun v v_mem w w_mem => by
      rw [Nat.add_comm]
      exact fit w w_mem v v_mem
    rw [order, Term.mul_comm, Binary64.mul_comm]
    exact sumAt_of_onlyPair hu ht swapped u_mem t_mem only.symm

end Pair

end Terms

namespace Poly

/-! ### The support -/

/-- No more terms are collected than there were. -/
theorem size_collect_le (ts : List Term) : (collect ts).size ≤ ts.length := by
  have nodup : ((collect ts).terms.map Term.exponent).Nodup :=
    List.pairwise_map.mpr ((collect ts).canonical.ascending.imp UInt32.ne_of_lt)
  have occur : (collect ts).terms.map Term.exponent ⊆ ts.map Term.exponent := by
    intro n mem
    obtain ⟨t, t_mem, rfl⟩ := List.mem_map.mp mem
    obtain ⟨⟨u, u_mem, same⟩, _⟩ := mem_terms_collect.mp t_mem
    exact List.mem_map.mpr ⟨u, u_mem, same⟩
  have le := (List.subperm_of_subset nodup occur).length_le
  rwa [List.length_map, List.length_map] at le

/-- What the partial products of two polynomials add up to: their product, if the degrees fit. -/
def collected [Patterns] (p q : Poly) : Poly :=
  collect (Terms.partialProducts (Terms.inOrder p.terms q.terms).1
    (Terms.inOrder p.terms q.terms).2)

section Product

variable [Patterns] {p q : Poly}

theorem size_collected_le : (p.collected q).size ≤ p.size * q.size := by
  refine Nat.le_trans (size_collect_le _) (Nat.le_of_eq ?_)
  rw [Terms.length_partialProducts]
  rcases Terms.inOrder_cases p.terms q.terms with order | order
  · rw [order]
    rfl
  · rw [order, Nat.mul_comm]
    rfl

variable (fit : Terms.PairsBelow UInt32.size p.terms q.terms)

include fit

/-- **Every exponent of a product is that of a pair.** -/
theorem exists_pair_of_mem_collected {v : Term} (mem : v ∈ (p.collected q).terms) :
    ∃ t ∈ p.terms, ∃ u ∈ q.terms, v.exponent.toNat = t.exponent.toNat + u.exponent.toNat := by
  obtain ⟨⟨w, w_mem, same⟩, _⟩ := mem_terms_collect.mp mem
  obtain ⟨t, t_mem, w_mem⟩ := List.mem_flatMap.mp w_mem
  obtain ⟨u, u_mem, rfl⟩ := List.mem_map.mp w_mem
  have sum := Terms.toNat_exponent_mul fit.inOrder t_mem u_mem
  rw [same] at sum
  rcases Terms.inOrder_cases p.terms q.terms with order | order
  · rw [order] at t_mem u_mem
    exact ⟨t, t_mem, u, u_mem, sum⟩
  · rw [order] at t_mem u_mem
    exact ⟨u, u_mem, t, t_mem, by rw [sum, Nat.add_comm]⟩

/-- **The coefficient of the only pair is one product.**  It is rounded once, and a zero loses its
sign. -/
theorem coeff_collected_of_onlyPair {t u : Term} (t_mem : t ∈ p.terms) (u_mem : u ∈ q.terms)
    (only : Terms.OnlyPair p.terms q.terms t u) {n : UInt32}
    (sum : n.toNat = t.exponent.toNat + u.exponent.toNat) :
    (p.collected q).coeff n = if t.coeff * u.coeff = -0 then 0 else t.coeff * u.coeff := by
  have place : (t * u).exponent = n := by
    rw [← UInt32.toNat_inj, Terms.toNat_exponent_mul fit t_mem u_mem, sum]
  rw [collected, coeff_collect_eq_sumAt, ← place,
    Terms.sumAt_inOrder_of_onlyPair p.canonical q.canonical fit t_mem u_mem only,
    Binary64.zero_add_eq]

end Product

/-! ### The degree -/

/-- Where no exponent is greater, the degree is where the coefficient is not zero. -/
theorem degree?_eq_some_iff {p : Poly} {n : UInt32} (le : ∀ t ∈ p.terms, t.exponent ≤ n) :
    p.degree? = some n ↔ (p.coeff n).isZero = false := by
  rw [← exists_term_iff]
  constructor
  · exact Terms.exists_mem_of_lastExponent?
  · rintro ⟨t, t_mem, rfl⟩
    cases last : p.degree? with
    | none =>
      rw [Terms.eq_nil_of_lastExponent? last] at t_mem
      cases t_mem
    | some m =>
      obtain ⟨u, u_mem, rfl⟩ := Terms.exists_mem_of_lastExponent? last
      exact congrArg some
        (UInt32.le_antisymm (le u u_mem) (p.canonical.exponent_le_last t_mem last))

/-- **The support and both ends of a product.**  Its exponents are sums of an exponent of either
operand, and so there are at most as many terms as pairs and none beyond the sum of the degrees.
There, and at the sum of the lowest exponents, the coefficient is one product, with `0` for a `-0`;
so the degree is the sum of the degrees exactly if the product of the leading coefficients is not
rounded to zero.  Coefficients may be infinite or NaN. -/
theorem product_support_and_degree [Patterns] (p q : Poly) {t u a b : Term}
    (t_leads : p.leadingTerm? = some t) (u_leads : q.leadingTerm? = some u)
    (a_first : p.term? 0 = some a) (b_first : q.term? 0 = some b)
    (fit : t.exponent.toNat + u.exponent.toNat ≤ 4294967295) :
    ∃ r, p.HasProduct q r ∧
      (∀ v ∈ r.terms, ∃ t' ∈ p.terms, ∃ u' ∈ q.terms,
        v.exponent.toNat = t'.exponent.toNat + u'.exponent.toNat) ∧
      r.size ≤ p.size * q.size ∧
      (∀ n ∈ r.degree?, n.toNat ≤ t.exponent.toNat + u.exponent.toNat) ∧
      (∀ n : UInt32, n.toNat = t.exponent.toNat + u.exponent.toNat →
        r.coeff n = (if t.coeff * u.coeff = -0 then 0 else t.coeff * u.coeff) ∧
        (r ≠ 0 ∧ r.degree? = some n ↔ (t.coeff * u.coeff).isZero = false)) ∧
      (∀ n : UInt32, n.toNat = a.exponent.toNat + b.exponent.toNat →
        r.coeff n = if a.coeff * b.coeff = -0 then 0 else a.coeff * b.coeff) := by
  have p_degree : p.degree? = some t.exponent := congrArg (Option.map Term.exponent) t_leads
  have q_degree : q.degree? = some u.exponent := congrArg (Option.map Term.exponent) u_leads
  have lasts : Terms.LastFit p.terms q.terms := by
    intro m m_last n n_last
    cases p_degree.symm.trans m_last
    cases q_degree.symm.trans n_last
    exact Nat.lt_succ_of_le fit
  have pairs := Terms.pairsBelow_of_lastFit p.canonical q.canonical lasts
  have support {v : Term} (mem : v ∈ (p.collected q).terms) :
      v.exponent.toNat ≤ t.exponent.toNat + u.exponent.toNat := by
    obtain ⟨t', t_mem, u', u_mem, sum⟩ := exists_pair_of_mem_collected pairs mem
    have t_le := UInt32.le_iff_toNat_le.mp (p.canonical.exponent_le_last t_mem p_degree)
    have u_le := UInt32.le_iff_toNat_le.mp (q.canonical.exponent_le_last u_mem q_degree)
    omega
  have onlyLast : Terms.OnlyPair p.terms q.terms t u :=
    Terms.onlyPair_of_last p.canonical q.canonical (List.mem_of_getLast? t_leads)
      (List.mem_of_getLast? u_leads)
      (fun v mem => p.canonical.exponent_le_last mem p_degree)
      (fun w mem => q.canonical.exponent_le_last mem q_degree)
  have onlyFirst : Terms.OnlyPair p.terms q.terms a b :=
    Terms.onlyPair_of_first p.canonical q.canonical (List.mem_of_getElem? a_first)
      (List.mem_of_getElem? b_first) (p.canonical.first_le a_first) (q.canonical.first_le b_first)
  refine ⟨p.collected q, hasProduct_of_lastFit lasts, fun v => exists_pair_of_mem_collected pairs,
    size_collected_le, ?degree, ?last, ?first⟩
  case degree =>
    intro n isDegree
    obtain ⟨v, mem, rfl⟩ := Terms.exists_mem_of_lastExponent? isDegree
    exact support mem
  case last =>
    intro n sum
    have coeff := coeff_collected_of_onlyPair pairs (List.mem_of_getLast? t_leads)
      (List.mem_of_getLast? u_leads) onlyLast sum
    have le : ∀ v ∈ (p.collected q).terms, v.exponent ≤ n := fun v mem => by
      rw [UInt32.le_iff_toNat_le, sum]
      exact support mem
    refine ⟨coeff, ?_⟩
    have nonzero : (p.collected q).degree? = some n → p.collected q ≠ 0 := by
      intro isDegree isZero
      rw [isZero] at isDegree
      cases isDegree
    rw [and_iff_right_of_imp nonzero, degree?_eq_some_iff le, coeff, ← Binary64.zero_add_eq,
      Binary64.isZero_zero_add]
  case first =>
    intro n sum
    exact coeff_collected_of_onlyPair pairs (List.mem_of_getElem? a_first)
      (List.mem_of_getElem? b_first) onlyFirst sum

/-- The sum of one and the variable. -/
def onePlusX : Poly := ⟨[⟨0, 1⟩, ⟨1, 1⟩], ⟨by decide, by decide +kernel⟩⟩

/-- The difference of one and the variable. -/
def oneMinusX : Poly := ⟨[⟨0, 1⟩, ⟨1, -1⟩], ⟨by decide, by decide +kernel⟩⟩

/-- The difference of the squares of one and the variable has their ends, whatever becomes of the
two partial products that meet between them. -/
theorem degree_of_difference_of_squares :
    (onePlusX.leadingTerm? = some ⟨1, 1⟩ ∧ oneMinusX.leadingTerm? = some ⟨1, -1⟩ ∧
        onePlusX.term? 0 = some ⟨0, 1⟩ ∧ oneMinusX.term? 0 = some ⟨0, 1⟩) ∧
      ∃ r, @HasProduct .standard onePlusX oneMinusX r ∧ r.size ≤ 4 ∧ r.degree? = some 2 ∧
        r.coeff 2 = -1 ∧ r.coeff 0 = 1 := by
  obtain ⟨r, product, _, size, _, last, first⟩ :=
    @product_support_and_degree .standard onePlusX oneMinusX ⟨1, 1⟩ ⟨1, -1⟩ ⟨0, 1⟩ ⟨0, 1⟩
      rfl rfl rfl rfl (by decide)
  obtain ⟨coeff, degree⟩ := last 2 rfl
  have lowest := first 0 rfl
  rw [Binary64.one_mul] at coeff degree lowest
  refine ⟨⟨rfl, rfl, rfl, rfl⟩, r, product, size, (degree.mpr (by decide +kernel)).2, ?_, ?_⟩
  · rw [coeff, if_neg (by decide +kernel)]
  · rw [lowest, if_neg (by decide +kernel)]

/-- **The sign of a zero is lost.**  The product of two least numbers with opposite signs is `-0`,
but no term is stored for it, and the coefficient that is read is `0`. -/
theorem coeff_of_vanished_product :
    Binary64.least true * Binary64.least false = -0 ∧
      @mul .standard (single 0 (Binary64.least true) rfl) (single 0 (Binary64.least false) rfl) =
        .ok 0 ∧
      (0 : Poly).coeff (0 + 0) ≠ Binary64.least true * Binary64.least false := by
  decide +kernel

end Poly

end SparsePoly
