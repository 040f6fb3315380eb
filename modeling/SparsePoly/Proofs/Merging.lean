import SparsePoly.Poly.Arithmetic
import SparsePoly.Proofs.Rounding
import SparsePoly.Proofs.Sums

/-!
# Sums of polynomials, coefficient by coefficient

The merge of two canonical lists has at every exponent the binary64 sum of the two coefficients,
those included that are not there.  Nothing is said apart of what stands in one list alone or of
what cancels, because `0` is neutral for all coefficients that a canonical list has: none is `-0`,
and no sum of such numbers is.

So a merge is one way of collecting the terms of both lists, and whatever is known of collected
terms holds of sums.

## Main statements

* `Terms.coeff_merge`, `Poly.coeff_add` - sums, coefficient by coefficient
* `Terms.mem_merge_iff`, `Terms.occurs_merge_iff` - the terms and the exponents of a merge
* `Poly.coeff_collect_eq_sumAt` - what is collected, coefficient by coefficient
* `Poly.add_eq_collect` - a sum is what the terms of both polynomials add up to
* `Terms.merge_exact` - all of it for lists
-/

namespace SparsePoly

namespace Binary64

/-! ### Sums that are `-0` -/

theorem spacing_le {units : Nat} (nonzero : units ≠ 0) : spacing units ≤ units :=
  Nat.le_trans (Nat.pow_le_pow_right (by decide) (Nat.sub_le _ _)) (Nat.log2_self_le nonzero)

/-- A sum that is not zero is not rounded to zero: there is a grid point below it. -/
theorem roundToGrid_one_ne_zero {units : Nat} (nonzero : units ≠ 0) : roundToGrid units 1 ≠ 0 := by
  have gap_pos := spacing_pos units
  have below : units / spacing units ≠ 0 :=
    Nat.ne_of_gt (Nat.div_pos (spacing_le nonzero) gap_pos)
  rw [roundToGrid, Nat.div_one, Nat.one_mul]
  split
  · exact Nat.mul_ne_zero (Nat.succ_ne_zero _) (Nat.ne_of_gt gap_pos)
  · exact Nat.mul_ne_zero below (Nat.ne_of_gt gap_pos)

/-- **A sum is `-0` only if both summands are.** -/
theorem add_ne_minus_zero {x : Binary64} (ne : x ≠ finite true 0) (y : Binary64) :
    x + y ≠ finite true 0 := by
  intro eq
  cases x with
  | nan => cases eq
  | infinity s => cases y with
    | nan => cases eq
    | infinity t => cases s <;> cases t <;> cases eq
    | finite t b => cases eq
  | finite s a => cases y with
    | nan => cases eq
    | infinity t => cases eq
    | finite t b =>
      rw [finite_add_finite, addFinite] at eq
      split at eq
      · rename_i cancelled
        have signs : s = true ∧ t = true := by simpa using eq
        rw [signs.1, signs.2] at cancelled
        have zero : a.units = 0 := by
          simp only [signedUnits, ↓reduceIte] at cancelled
          omega
        exact ne (by rw [signs.1, show a = 0 from Magnitude.ext zero])
      · rename_i total
        obtain ⟨m, rounded_eq⟩ := isFinite_rounded_iff.mp (congrArg isFinite eq)
        have zero : m = 0 := (Binary64.finite.inj (rounded_eq.symm.trans eq)).2
        rw [zero] at rounded_eq
        exact roundToGrid_one_ne_zero (Int.natAbs_ne_zero.mpr total)
          (rounded_eq_finite_iff.mp rounded_eq)

theorem add_zero_of_ne {x : Binary64} (ne : x ≠ finite true 0) : x + 0 = x := by
  rw [Binary64.add_comm, zero_add_of_ne ne]

/-- Added to what is not `-0`, numbers never come to `-0`. -/
theorem foldl_ne_minus_zero (xs : List Binary64) {start : Binary64} (ne : start ≠ finite true 0) :
    xs.foldl (· + ·) start ≠ finite true 0 := by
  induction xs generalizing start with
  | nil => exact ne
  | cons x xs ih => exact ih (add_ne_minus_zero ne x)

/-- A finite number and its negative cancel. -/
theorem isZero_add_neg {x : Binary64} (finite : x.isFinite = true) : (x + -x).isZero = true := by
  cases x with
  | nan => cases finite
  | infinity s => cases finite
  | finite s m =>
    rw [neg_finite, finite_add_finite, addFinite, signedUnits_not, Int.add_right_neg]
    exact isZero_iff.mpr ⟨s && !s, if_pos rfl⟩

/-- A zero that is not `-0` is `0`. -/
theorem eq_zero_of_isZero {x : Binary64} (zero : x.isZero = true) (ne : x ≠ finite true 0) :
    x = 0 := by
  obtain ⟨negative, rfl⟩ := isZero_iff.mp zero
  cases negative with
  | false => rfl
  | true => exact absurd rfl ne

/-- Added to `0`, a zero of either sign is `0`. -/
theorem zero_add_of_isZero {x : Binary64} (zero : x.isZero = true) : 0 + x = 0 := by
  obtain ⟨negative, rfl⟩ := isZero_iff.mp zero
  cases negative <;> rfl

/-- Added to `0`, a number is itself, but `-0` is `0`. -/
theorem zero_add_eq (x : Binary64) : 0 + x = if x = -0 then 0 else x := by
  split
  · rename_i minus_zero
    rw [minus_zero]
    rfl
  · rename_i ne
    exact zero_add_of_ne ne

end Binary64

namespace Terms

/-! ### Coefficients of lists -/

theorem coeff_cons (t : Term) (ts : List Term) (n : UInt32) :
    coeff (t :: ts) n = if t.exponent = n then t.coeff else coeff ts n := by
  rw [coeff, List.find?_cons]
  by_cases here : t.exponent = n
  · rw [if_pos here, beq_iff_eq.mpr here]
  · rw [if_neg here, beq_eq_false_iff_ne.mpr here]
    rfl

namespace Canonical

variable {ts : List Term}

/-- Up to the first exponent there is nothing behind the first term. -/
theorem coeff_tail {t : Term} (h : Canonical (t :: ts)) {n : UInt32} (le : n ≤ t.exponent) :
    coeff ts n = 0 := by
  refine coeff_eq_zero fun u mem eq => ?_
  have lt := (canonical_cons.mp h).2.1 u mem
  rw [eq] at lt
  exact UInt32.lt_irrefl n (UInt32.lt_of_le_of_lt le lt)

/-- Below the first exponent there is nothing. -/
theorem coeff_of_lt {t : Term} (h : Canonical (t :: ts)) {n : UInt32} (lt : n < t.exponent) :
    coeff (t :: ts) n = 0 := by
  rw [coeff_cons, if_neg (UInt32.ne_of_lt lt).symm, h.coeff_tail (UInt32.le_of_lt lt)]

/-- **No coefficient is `-0`.** -/
theorem coeff_ne_minus_zero (h : Canonical ts) (n : UInt32) : coeff ts n ≠ .finite true 0 := by
  intro eq
  by_cases there : ∃ t ∈ ts, t.exponent = n
  · obtain ⟨t, mem, rfl⟩ := there
    have nonzero := h.nonzero t mem
    rw [← h.coeff_eq mem, Binary64.isZero_iff.mpr ⟨true, eq⟩] at nonzero
    cases nonzero
  · rw [coeff_eq_zero fun t mem eq => there ⟨t, mem, eq⟩] at eq
    cases eq

theorem zero_add_coeff (h : Canonical ts) (n : UInt32) : 0 + coeff ts n = coeff ts n :=
  Binary64.zero_add_of_ne (h.coeff_ne_minus_zero n)

theorem coeff_add_zero (h : Canonical ts) (n : UInt32) : coeff ts n + 0 = coeff ts n :=
  Binary64.add_zero_of_ne (h.coeff_ne_minus_zero n)

end Canonical

/-! ### Merges -/

/-- **A merge adds the coefficients**, those that are not there included. -/
theorem coeff_merge {ts us : List Term} (ht : Canonical ts) (hu : Canonical us) (n : UInt32) :
    coeff (merge ts us) n = coeff ts n + coeff us n := by
  fun_induction merge ts us with
  | case1 us => rw [coeff_nil, hu.zero_add_coeff]
  | case2 t ts => rw [coeff_nil, ht.coeff_add_zero]
  | case3 t ts u us less ih =>
    rw [coeff_cons t (merge ts (u :: us)), ih ht.tail hu]
    by_cases here : t.exponent = n
    · rw [if_pos here, hu.coeff_of_lt (here ▸ less), ht.coeff_add_zero, coeff_cons, if_pos here]
    · rw [if_neg here, coeff_cons t ts, if_neg here]
  | case4 t ts u us _ greater ih =>
    rw [coeff_cons u (merge (t :: ts) us), ih ht hu.tail]
    by_cases here : u.exponent = n
    · rw [if_pos here, ht.coeff_of_lt (here ▸ greater), hu.zero_add_coeff, coeff_cons, if_pos here]
    · rw [if_neg here, coeff_cons u us, if_neg here]
  | case5 t ts u us not_lt not_gt cancelled ih =>
    have same : t.exponent = u.exponent :=
      UInt32.le_antisymm (UInt32.not_lt.mp not_gt) (UInt32.not_lt.mp not_lt)
    rw [ih ht.tail hu.tail, coeff_cons t, coeff_cons u, ← same]
    by_cases here : t.exponent = n
    · have t_there : coeff (t :: ts) n = t.coeff := by rw [coeff_cons, if_pos here]
      have sum := Binary64.add_ne_minus_zero (ht.coeff_ne_minus_zero n) u.coeff
      rw [t_there] at sum
      rw [if_pos here, if_pos here, Binary64.eq_zero_of_isZero cancelled sum,
        ht.coeff_tail (UInt32.le_of_eq here.symm),
        hu.coeff_tail (UInt32.le_of_eq (here.symm.trans same))]
      exact canonical_nil.zero_add_coeff n
    · rw [if_neg here, if_neg here]
  | case6 t ts u us not_lt not_gt _ ih =>
    have same : t.exponent = u.exponent :=
      UInt32.le_antisymm (UInt32.not_lt.mp not_gt) (UInt32.not_lt.mp not_lt)
    rw [coeff_cons, ih ht.tail hu.tail, coeff_cons t, coeff_cons u, ← same]
    by_cases here : t.exponent = n
    · rw [if_pos here, if_pos here, if_pos here]
    · rw [if_neg here, if_neg here, if_neg here]

/-! ### Which terms a merge has -/

/-- Some term has the exponent. -/
def Occurs (ts : List Term) (n : UInt32) : Prop := ∃ t ∈ ts, t.exponent = n

theorem coeff_of_not_occurs {ts : List Term} {n : UInt32} (absent : ¬Occurs ts n) :
    coeff ts n = 0 :=
  coeff_eq_zero fun t mem eq => absent ⟨t, mem, eq⟩

/-- The terms of a canonical list are its coefficients that are not zero. -/
theorem Canonical.mem_iff {ts : List Term} (h : Canonical ts) {t : Term} :
    t ∈ ts ↔ coeff ts t.exponent = t.coeff ∧ t.coeff.isZero = false :=
  @Poly.mem_terms_iff ⟨ts, h⟩ t

section Members

variable {ts us : List Term} (ht : Canonical ts) (hu : Canonical us)

include ht hu

/-- **The terms of a merge**: those of one list that meet none of the other, as they are, and the
sums of those that meet, as far as they do not cancel. -/
theorem mem_merge_iff {v : Term} :
    v ∈ merge ts us ↔
      (v ∈ ts ∧ ¬Occurs us v.exponent) ∨ (v ∈ us ∧ ¬Occurs ts v.exponent) ∨
        ∃ t ∈ ts, ∃ u ∈ us, u.exponent = t.exponent ∧ v = ⟨t.exponent, t.coeff + u.coeff⟩ ∧
          v.coeff.isZero = false := by
  rw [(canonical_merge ht hu).mem_iff, coeff_merge ht hu]
  constructor
  · rintro ⟨sum, nonzero⟩
    by_cases t_there : Occurs ts v.exponent
    · by_cases u_there : Occurs us v.exponent
      · obtain ⟨t, t_mem, t_here⟩ := t_there
        obtain ⟨u, u_mem, u_here⟩ := u_there
        have sum_here : t.coeff + u.coeff = v.coeff := by
          rw [← ht.coeff_eq t_mem, ← hu.coeff_eq u_mem, t_here, u_here, sum]
        refine Or.inr (Or.inr ⟨t, t_mem, u, u_mem, u_here.trans t_here.symm, ?_, nonzero⟩)
        rw [sum_here, t_here]
      · rw [coeff_of_not_occurs u_there, ht.coeff_add_zero] at sum
        exact Or.inl ⟨ht.mem_iff.mpr ⟨sum, nonzero⟩, u_there⟩
    · rw [coeff_of_not_occurs t_there, hu.zero_add_coeff] at sum
      exact Or.inr (Or.inl ⟨hu.mem_iff.mpr ⟨sum, nonzero⟩, t_there⟩)
  · rintro (⟨mem, absent⟩ | ⟨mem, absent⟩ | ⟨t, t_mem, u, u_mem, same, rfl, nonzero⟩)
    · rw [coeff_of_not_occurs absent, ht.coeff_add_zero]
      exact ht.mem_iff.mp mem
    · rw [coeff_of_not_occurs absent, hu.zero_add_coeff]
      exact hu.mem_iff.mp mem
    · have u_coeff : coeff us t.exponent = u.coeff := same ▸ hu.coeff_eq u_mem
      rw [ht.coeff_eq t_mem, u_coeff]
      exact ⟨rfl, nonzero⟩

/-- The exponents of a merge. -/
theorem occurs_merge_iff (n : UInt32) :
    Occurs (merge ts us) n ↔
      (Occurs ts n ∧ ¬Occurs us n) ∨ (Occurs us n ∧ ¬Occurs ts n) ∨
        ∃ t ∈ ts, ∃ u ∈ us, t.exponent = n ∧ u.exponent = n ∧
          (t.coeff + u.coeff).isZero = false := by
  constructor
  · rintro ⟨v, mem, rfl⟩
    rcases (mem_merge_iff ht hu).mp mem with
      ⟨v_mem, absent⟩ | ⟨v_mem, absent⟩ | ⟨t, t_mem, u, u_mem, same, rfl, nonzero⟩
    · exact Or.inl ⟨⟨v, v_mem, rfl⟩, absent⟩
    · exact Or.inr (Or.inl ⟨⟨v, v_mem, rfl⟩, absent⟩)
    · exact Or.inr (Or.inr ⟨t, t_mem, u, u_mem, rfl, same, nonzero⟩)
  · rintro (⟨⟨v, v_mem, rfl⟩, absent⟩ | ⟨⟨v, v_mem, rfl⟩, absent⟩ |
      ⟨t, t_mem, u, u_mem, rfl, same, nonzero⟩)
    · exact ⟨v, (mem_merge_iff ht hu).mpr (Or.inl ⟨v_mem, absent⟩), rfl⟩
    · exact ⟨v, (mem_merge_iff ht hu).mpr (Or.inr (Or.inl ⟨v_mem, absent⟩)), rfl⟩
    · exact ⟨⟨t.exponent, t.coeff + u.coeff⟩,
        (mem_merge_iff ht hu).mpr (Or.inr (Or.inr ⟨t, t_mem, u, u_mem, same, rfl, nonzero⟩)), rfl⟩

end Members

/-! ### Collecting both lists -/

theorem sumAt_append (ts us : List Term) (n : UInt32) :
    sumAt (ts ++ us) n =
      ((us.filter (·.exponent == n)).map Term.coeff).foldl (· + ·) (sumAt ts n) := by
  rw [sumAt, sumAt, Binary64.sum, Binary64.sum, List.filter_append, List.map_append,
    List.foldl_append]

/-- **No sum is `-0`**, since it starts from `0`. -/
theorem sumAt_ne_minus_zero (ts : List Term) (n : UInt32) : sumAt ts n ≠ .finite true 0 :=
  Binary64.foldl_ne_minus_zero _ nofun

/-- A canonical list adds its one coefficient to what was there before. -/
theorem Canonical.sumAt_append {us : List Term} (hu : Canonical us) (ts : List Term) (n : UInt32) :
    sumAt (ts ++ us) n = sumAt ts n + coeff us n := by
  rw [Terms.sumAt_append]
  by_cases there : ∃ u ∈ us, u.exponent = n
  · obtain ⟨u, mem, rfl⟩ := there
    rw [filter_exponent_of_ascending hu.ascending mem, hu.coeff_eq mem]
    rfl
  · have none_there : ∀ u ∈ us, u.exponent ≠ n := fun u mem eq => there ⟨u, mem, eq⟩
    rw [List.filter_eq_nil_iff.mpr (by simpa using none_there), coeff_eq_zero none_there,
      Binary64.add_zero_of_ne (sumAt_ne_minus_zero ts n)]
    rfl

end Terms

namespace Poly

/-- **A sum has the sums of the coefficients.** -/
theorem coeff_add (p q : Poly) (n : UInt32) : (p + q).coeff n = p.coeff n + q.coeff n :=
  Terms.coeff_merge p.canonical q.canonical n

/-- **The coefficients of what is collected are the sums**, also where they are zero. -/
theorem coeff_collect_eq_sumAt (ts : List Term) (n : UInt32) :
    (collect ts).coeff n = Terms.sumAt ts n := by
  rw [coeff_collect]
  split
  · rename_i zero
    exact (Binary64.eq_zero_of_isZero zero (Terms.sumAt_ne_minus_zero ts n)).symm
  · rfl

/-- **Collecting goes on with the terms of a polynomial** as if that were added at the end. -/
theorem collect_append_terms (ts : List Term) (q : Poly) :
    collect (ts ++ q.terms) = collect ts + q := by
  apply ext_coeff
  intro n
  rw [coeff_collect_eq_sumAt, q.canonical.sumAt_append, coeff_add, coeff_collect_eq_sumAt]
  rfl

/-- **A sum is what the terms of both polynomials add up to.** -/
theorem add_eq_collect (p q : Poly) : p + q = collect (p.terms ++ q.terms) := by
  rw [collect_append_terms, collect_terms]

end Poly

namespace Terms

/-- A merge is what a tree holds that was given the terms of the one list and then of the other. -/
theorem merge_eq_toTerms {ts us : List Term} (ht : Canonical ts) (hu : Canonical us) :
    merge ts us = ((SparseSums.empty.addAll ts).addAll us).toTerms := by
  have sum : merge ts us = (Poly.collect (ts ++ us)).terms :=
    congrArg Poly.terms (Poly.add_eq_collect ⟨ts, ht⟩ ⟨us, hu⟩)
  have both : SparseSums.empty.addAll (ts ++ us) = (SparseSums.empty.addAll ts).addAll us :=
    List.foldl_append
  rw [sum, ← both]
  rfl

/-- **Merging is exact, coefficient by coefficient.**  Infinities and NaN take part like all other
coefficients: what stands in one list alone is kept to the last bit, what meets is added once, and
only sums that are zero are left out.  Adding up all terms in a tree gives the same list. -/
theorem merge_exact {ts us : List Term} (ht : Canonical ts) (hu : Canonical us) :
    Canonical (merge ts us) ∧
      (∀ n, Occurs (merge ts us) n ↔
        (Occurs ts n ∧ ¬Occurs us n) ∨ (Occurs us n ∧ ¬Occurs ts n) ∨
          ∃ t ∈ ts, ∃ u ∈ us, t.exponent = n ∧ u.exponent = n ∧
            (t.coeff + u.coeff).isZero = false) ∧
      (∀ v, v ∈ merge ts us ↔
        (v ∈ ts ∧ ¬Occurs us v.exponent) ∨ (v ∈ us ∧ ¬Occurs ts v.exponent) ∨
          ∃ t ∈ ts, ∃ u ∈ us, u.exponent = t.exponent ∧ v = ⟨t.exponent, t.coeff + u.coeff⟩ ∧
            v.coeff.isZero = false) ∧
      merge ts us = ((SparseSums.empty.addAll ts).addAll us).toTerms :=
  ⟨canonical_merge ht hu, occurs_merge_iff ht hu, fun _ => mem_merge_iff ht hu,
    merge_eq_toTerms ht hu⟩

/-- The sum of `1 + x` and `-1`: the constants meet and cancel, and the variable is kept. -/
theorem merge_of_cancelling :
    ¬Occurs (merge [⟨0, 1⟩, ⟨1, 1⟩] [⟨0, -1⟩]) 0 ∧ ⟨1, 1⟩ ∈ merge [⟨0, 1⟩, ⟨1, 1⟩] [⟨0, -1⟩] := by
  have ht : Canonical [⟨0, 1⟩, ⟨1, 1⟩] :=
    canonical_cons.mpr ⟨Binary64.isZero_one, by simp, canonical_singleton.mpr Binary64.isZero_one⟩
  have hu : Canonical [⟨0, -1⟩] := canonical_singleton.mpr (by simp)
  have cancelled : ((1 : Binary64) + -1).isZero = true := Binary64.isZero_add_neg rfl
  obtain ⟨_, exponents, terms, _⟩ := merge_exact ht hu
  constructor
  · rw [exponents]
    simp [Occurs, cancelled]
  · rw [terms]
    simp [Occurs]

end Terms

end SparsePoly
