import SparsePoly.Poly.Basic
import SparsePoly.Terms.DenseSums

/-!
# What collecting terms gives

Terms may be added up in a tree or in a row of slots.  Either way the result is the canonical list
of the sums that are not zero, so that the two ways give one list.  Where terms ascend every sum has
one summand, and collecting them does no more than to drop the zeros; a canonical list is the result
of collecting itself.

## Main statements

* `Poly.mem_terms_collect_iff` - the terms of what is collected in a tree
* `DenseSums.toTerms_addAll?_empty` - a row gives what a tree gives
* `Poly.terms_collect_of_ascending` - what ascending terms add up to
* `Poly.collect_terms` - a polynomial is what its terms add up to
-/

namespace SparsePoly

namespace Terms

/-- An exponent that no term has gets nothing. -/
theorem sumAt_eq_zero {ts : List Term} {n : UInt32} (none_there : ∀ t ∈ ts, t.exponent ≠ n) :
    sumAt ts n = 0 := by
  rw [sumAt, List.filter_eq_nil_iff.mpr (by simpa using none_there)]
  rfl

theorem exists_of_sumAt_nonzero {ts : List Term} {n : UInt32}
    (nonzero : (sumAt ts n).isZero = false) : ∃ t ∈ ts, t.exponent = n := by
  apply Classical.byContradiction
  intro none_there
  rw [sumAt_eq_zero fun t mem eq => none_there ⟨t, mem, eq⟩, Binary64.isZero_zero] at nonzero
  cases nonzero

section Ascending

variable {ts : List Term} (ascending : ts.Pairwise (·.exponent < ·.exponent))
  {t : Term} (mem : t ∈ ts)

include ascending mem

/-- An ascending list gives one coefficient, or none, to an exponent. -/
theorem filter_exponent_of_ascending : ts.filter (·.exponent == t.exponent) = [t] := by
  induction ts with
  | nil => cases mem
  | cons u ts ih =>
    obtain ⟨first, rest⟩ := List.pairwise_cons.mp ascending
    rcases List.mem_cons.mp mem with rfl | later
    · have none_later : ts.filter (·.exponent == t.exponent) = [] := by
        apply List.filter_eq_nil_iff.mpr
        intro u u_mem same
        have lt := first u u_mem
        rw [eq_of_beq same] at lt
        exact UInt32.lt_irrefl _ lt
      rw [List.filter_cons_of_pos (by simp), none_later]
    · have other : u.exponent ≠ t.exponent := UInt32.ne_of_lt (first t later)
      rw [List.filter_cons_of_neg (by simpa using other), ih rest later]

theorem sumAt_of_ascending : sumAt ts t.exponent = 0 + t.coeff := by
  rw [sumAt, filter_exponent_of_ascending ascending mem]
  rfl

end Ascending

theorem Canonical.filter_nonzero {ts : List Term} (h : Canonical ts) :
    ts.filter (! ·.coeff.isZero) = ts :=
  List.filter_eq_self.mpr fun t mem => by simpa using h.nonzero t mem

end Terms

namespace Poly

/-- There is a term where the coefficient is not zero. -/
theorem exists_term_iff {p : Poly} {n : UInt32} :
    (∃ t ∈ p.terms, t.exponent = n) ↔ (p.coeff n).isZero = false := by
  constructor
  · rintro ⟨t, mem, rfl⟩
    rw [coeff_of_mem mem]
    exact p.canonical.nonzero t mem
  · intro nonzero
    exact ⟨⟨n, p.coeff n⟩, mem_terms_iff.mpr ⟨rfl, nonzero⟩, rfl⟩

/-- A coefficient that is not finite has a term. -/
theorem mem_terms_of_not_finite {p : Poly} {n : UInt32}
    (not_finite : (p.coeff n).isFinite = false) : ⟨n, p.coeff n⟩ ∈ p.terms := by
  refine mem_terms_iff.mpr ⟨rfl, ?_⟩
  cases zero : (p.coeff n).isZero with
  | false => rfl
  | true =>
    obtain ⟨negative, eq⟩ := Binary64.isZero_iff.mp zero
    rw [eq] at not_finite
    cases not_finite

/-- What holds of zero holds of all coefficients if it holds of those of the terms. -/
theorem forall_coeff_iff {p : Poly} {P : Binary64 → Prop} (zero : P 0) :
    (∀ n, P (p.coeff n)) ↔ ∀ t ∈ p.terms, P t.coeff := by
  constructor
  · exact fun all t mem => coeff_of_mem mem ▸ all t.exponent
  · intro all n
    by_cases there : ∃ t ∈ p.terms, t.exponent = n
    · obtain ⟨t, mem, rfl⟩ := there
      rw [coeff_of_mem mem]
      exact all t mem
    · have absent : p.coeff n = 0 :=
        Terms.coeff_eq_zero fun t mem here => there ⟨t, mem, here⟩
      rw [absent]
      exact zero

/-- The coefficients are finite if those of the terms are. -/
theorem forall_coeff_isFinite_iff {p : Poly} :
    (∀ n, (p.coeff n).isFinite = true) ↔ ∀ t ∈ p.terms, t.coeff.isFinite = true :=
  forall_coeff_iff (P := (·.isFinite = true)) rfl

/-- **What is collected**, without the exponents that occur: where none does the sum is zero. -/
theorem mem_terms_collect_iff {ts : List Term} {t : Term} :
    t ∈ (collect ts).terms ↔
      Terms.sumAt ts t.exponent = t.coeff ∧ t.coeff.isZero = false := by
  rw [mem_terms_collect]
  exact and_iff_right_of_imp fun ⟨eq, nonzero⟩ => Terms.exists_of_sumAt_nonzero (eq ▸ nonzero)

/-- **Ascending terms stay as they are**, without the zeros among them. -/
theorem terms_collect_of_ascending {ts : List Term}
    (ascending : ts.Pairwise (·.exponent < ·.exponent)) :
    (collect ts).terms = ts.filter (! ·.coeff.isZero) := by
  refine (collect _).canonical.eq_of_mem_iff (Terms.canonical_filter ascending) ?_
  intro t
  rw [mem_terms_collect_iff, List.mem_filter, Bool.not_eq_true']
  refine and_congr_left fun nonzero => ?_
  constructor
  · intro sum
    obtain ⟨u, u_mem, same⟩ := Terms.exists_of_sumAt_nonzero (sum ▸ nonzero)
    rw [← same, Terms.sumAt_of_ascending ascending u_mem] at sum
    have u_nonzero : u.coeff.isZero = false := by
      rw [← Binary64.isZero_zero_add, sum, nonzero]
    rw [Binary64.zero_add_of_nonzero u_nonzero] at sum
    cases t
    cases same
    cases sum
    exact u_mem
  · intro mem
    rw [Terms.sumAt_of_ascending ascending mem, Binary64.zero_add_of_nonzero nonzero]

/-- **A polynomial is what its terms add up to.** -/
theorem collect_terms (p : Poly) : collect p.terms = p := by
  apply ext
  rw [terms_collect_of_ascending p.canonical.ascending, p.canonical.filter_nonzero]

@[simp] theorem collect_nil : collect [] = 0 := collect_terms 0

end Poly

namespace DenseSums

variable {bound : Nat}

/-- The terms of a row are its slots, as far as they are not zero. -/
theorem mem_toTerms {s : DenseSums bound} {t : Term} :
    t ∈ s.toTerms ↔ ∃ le : t.exponent.toNat < bound + 1,
      s.slots[t.exponent.toNat] = t.coeff ∧ t.coeff.isZero = false := by
  have read (i : Nat) : (s.slots.toList.take UInt32.size)[i]? =
      if i < UInt32.size then s.slots.toList[i]? else none := List.getElem?_take
  rw [toTerms, Terms.ofCoefficients, Terms.mem_ofCoefficientsFrom]
  constructor
  · rintro ⟨i, c, found, nonzero, rfl⟩
    obtain ⟨isExponent, found⟩ := Option.ite_none_right_eq_some.mp ((read i).symm.trans found)
    obtain ⟨in_row, slot⟩ := List.getElem?_eq_some_iff.mp found
    rw [Vector.length_toList] at in_row
    have place : (UInt32.ofNat (0 + i)).toNat = i := by
      rw [Nat.zero_add, UInt32.toNat_ofNat_of_lt' isExponent]
    refine ⟨by rw [place]; exact in_row, ?_, nonzero⟩
    simp only [place]
    simpa using slot
  · rintro ⟨in_row, slot, nonzero⟩
    refine ⟨t.exponent.toNat, t.coeff, ?_, nonzero, by simp⟩
    rw [read, if_pos t.exponent.toNat_lt, List.getElem?_eq_some_iff]
    exact ⟨by simpa using in_row, by simpa using slot⟩

/-- **A row gives what a tree gives**, as long as no term lies above its bound. -/
theorem toTerms_addAll?_empty {ts : List Term} {r : DenseSums bound}
    (added : (empty bound).addAll? ts = some r) : r.toTerms = (Poly.collect ts).terms := by
  refine (canonical_toTerms r).eq_of_mem_iff (Poly.collect ts).canonical ?_
  intro t
  rw [mem_toTerms, Poly.mem_terms_collect_iff]
  constructor
  · rintro ⟨in_row, slot, nonzero⟩
    exact ⟨(slots_addAll?_empty added t.exponent in_row).symm.trans slot, nonzero⟩
  · rintro ⟨sum, nonzero⟩
    obtain ⟨u, mem, same⟩ := Terms.exists_of_sumAt_nonzero (sum ▸ nonzero)
    have le := ((empty bound).addAll?_isSome_iff ts).mp (by rw [added]; rfl) u mem
    rw [same] at le
    have in_row : t.exponent.toNat < bound + 1 := Nat.lt_succ_of_le le
    exact ⟨in_row, (slots_addAll?_empty added t.exponent in_row).trans sum, nonzero⟩

end DenseSums

end SparsePoly
