import SparsePoly.Proofs.Integers
import SparsePoly.Proofs.Merging

/-!
# Coefficients determine the polynomial

The coefficient at an exponent is that of the one term there, and zero where there is none.  Terms
ascend, so a search may look for the exponent, and which search that is does not matter as long as
it finds what is there (`Terms.IsSearch`).

Polynomials are compared term by term, with the coefficients compared as numbers.  That is the same
as to compare the coefficients at all exponents.  No term is hidden there, because no coefficient of
a term is zero; and two coefficients are equal as numbers only if they are the same number, because
no coefficient is `-0` (`Binary64.equal_iff_of_ne`).  What is left is NaN, which either comparison
takes for unequal to itself.

## Main statements

* `Terms.lookup_eq_coeff` - what a search finds
* `Poly.coeff_eq_iff` - the coefficient at an exponent
* `Poly.equal_iff_eq` - equal polynomials are the same one, and have no NaN
* `Poly.coeff_determines` - comparing polynomials is comparing coefficients
-/

namespace SparsePoly

namespace Binary64

/-- **Equal numbers are the same number**, if neither is `-0`; only NaN is unequal to itself. -/
theorem equal_iff_of_ne {x y : Binary64} (x_ne : x ≠ finite true 0) (y_ne : y ≠ finite true 0) :
    x.equal y = true ↔ x = y ∧ x ≠ nan := by
  rw [equal_iff]
  constructor
  · rintro ⟨same, there⟩
    obtain ⟨place, x_place⟩ := Option.ne_none_iff_exists'.mp there
    refine ⟨eq_of_rank_eq x_place (same ▸ x_place) x_ne y_ne, ?_⟩
    rintro rfl
    cases x_place
  · rintro ⟨rfl, number⟩
    refine ⟨rfl, ?_⟩
    cases x with
    | nan => exact absurd rfl number
    | infinity s => exact nofun
    | finite s m => exact nofun

theorem ne_minus_zero_of_nonzero {x : Binary64} (nonzero : x.isZero = false) :
    x ≠ finite true 0 := by
  rintro rfl
  cases nonzero

end Binary64

/-! ### Searches -/

namespace Terms

/-- **A search for an exponent in ascending terms.**  It answers with a place where the exponent
stands, and has an answer if there is one.  Where terms do not ascend it may answer anything. -/
structure IsSearch (search : List Term → UInt32 → Option Nat) : Prop where
  /-- What is found is there. -/
  found : ∀ {ts : List Term}, ts.Pairwise (·.exponent < ·.exponent) →
    ∀ {n i}, search ts n = some i → ∃ t, ts[i]? = some t ∧ t.exponent = n
  /-- What is there is found. -/
  finds : ∀ {ts : List Term}, ts.Pairwise (·.exponent < ·.exponent) →
    ∀ t ∈ ts, search ts t.exponent ≠ none

/-- The coefficient where a search finds the exponent, and zero where it does not. -/
def lookup (search : List Term → UInt32 → Option Nat) (ts : List Term) (n : UInt32) : Binary64 :=
  match search ts n with
  | some i => (ts[i]?.map Term.coeff).getD 0
  | none => 0

/-- **Every search finds the coefficients.** -/
theorem lookup_eq_coeff {search : List Term → UInt32 → Option Nat} (isSearch : IsSearch search)
    {ts : List Term} (h : Canonical ts) (n : UInt32) : lookup search ts n = coeff ts n := by
  rw [lookup]
  cases answer : search ts n with
  | some i =>
    obtain ⟨t, place, rfl⟩ := isSearch.found h.ascending answer
    rw [h.coeff_eq (List.mem_of_getElem? place)]
    show (ts[i]?.map Term.coeff).getD 0 = t.coeff
    rw [place]
    rfl
  | none =>
    refine (coeff_eq_zero fun t mem here => ?_).symm
    subst here
    exact isSearch.finds h.ascending t mem answer

/-- From the front, place by place, terms can be searched whether they ascend or not. -/
theorem isSearch_findIdx? : IsSearch fun ts n => ts.findIdx? (·.exponent == n) where
  found := by
    intro ts _ n i answer
    obtain ⟨lt, here, _⟩ := List.findIdx?_eq_some_iff_getElem.mp answer
    exact ⟨ts[i], List.getElem?_eq_getElem lt, eq_of_beq here⟩
  finds := by
    intro ts _ t mem answer
    have absent := List.findIdx?_eq_none_iff.mp answer t mem
    rw [beq_self_eq_true] at absent
    cases absent

end Terms

/-! ### Comparing term by term -/

/-- Equal terms are the same term, if neither coefficient is zero. -/
theorem Term.equal_iff_of_nonzero {t u : Term} (t_nonzero : t.coeff.isZero = false)
    (u_nonzero : u.coeff.isZero = false) : t.equal u = true ↔ t = u ∧ t.coeff ≠ .nan := by
  have coeffs := Binary64.equal_iff_of_ne (Binary64.ne_minus_zero_of_nonzero t_nonzero)
    (Binary64.ne_minus_zero_of_nonzero u_nonzero)
  rw [Term.equal, Bool.and_eq_true, coeffs, beq_iff_eq, ← and_assoc, Term.mk.injEq]

namespace Terms

/-- **Equal lists are the same list**, if no coefficient is zero. -/
theorem isEqv_equal_iff {ts us : List Term} (ts_nonzero : ∀ t ∈ ts, t.coeff.isZero = false)
    (us_nonzero : ∀ u ∈ us, u.coeff.isZero = false) :
    ts.isEqv us Term.equal = true ↔ ts = us ∧ ∀ t ∈ ts, t.coeff ≠ .nan := by
  induction ts generalizing us with
  | nil => cases us <;> simp [List.isEqv]
  | cons t ts ih =>
    cases us with
    | nil => simp [List.isEqv]
    | cons u us =>
      obtain ⟨t_nonzero, ts_nonzero⟩ := List.forall_mem_cons.mp ts_nonzero
      obtain ⟨u_nonzero, us_nonzero⟩ := List.forall_mem_cons.mp us_nonzero
      rw [List.isEqv, Bool.and_eq_true, Term.equal_iff_of_nonzero t_nonzero u_nonzero,
        ih ts_nonzero us_nonzero, List.cons.injEq, List.forall_mem_cons]
      exact and_and_and_comm

end Terms

namespace Poly

/-! ### Comparing coefficients -/

/-- **The coefficient at an exponent** is that of the term there, or zero if there is none. -/
theorem coeff_eq_iff {p : Poly} {n : UInt32} {c : Binary64} :
    p.coeff n = c ↔ ⟨n, c⟩ ∈ p.terms ∨ (∀ t ∈ p.terms, t.exponent ≠ n) ∧ c = 0 := by
  by_cases there : Terms.Occurs p.terms n
  · obtain ⟨t, mem, rfl⟩ := there
    rw [coeff_of_mem mem]
    constructor
    · rintro rfl
      exact Or.inl mem
    · rintro (c_mem | ⟨absent, _⟩)
      · exact (coeff_of_mem mem).symm.trans (coeff_of_mem c_mem)
      · exact absurd rfl (absent t mem)
  · rw [coeff, Terms.coeff_of_not_occurs there]
    constructor
    · rintro rfl
      exact Or.inr ⟨fun t mem here => there ⟨t, mem, here⟩, rfl⟩
    · rintro (c_mem | ⟨_, rfl⟩)
      · exact absurd ⟨_, c_mem, rfl⟩ there
      · rfl

/-- **Equal polynomials are the same one**, and have no NaN. -/
theorem equal_iff_eq {p q : Poly} :
    p.equal q = true ↔ p = q ∧ ∀ t ∈ p.terms, t.coeff ≠ .nan := by
  rw [equal, Terms.isEqv_equal_iff p.canonical.nonzero q.canonical.nonzero]
  exact and_congr_left' ⟨ext, congrArg terms⟩

/-- Polynomials with equal coefficients are the same one, and have no NaN. -/
theorem forall_coeff_equal_iff {p q : Poly} :
    (∀ n, (p.coeff n).equal (q.coeff n) = true) ↔ p = q ∧ ∀ t ∈ p.terms, t.coeff ≠ .nan := by
  have coeffs (n : UInt32) :
      (p.coeff n).equal (q.coeff n) = true ↔ p.coeff n = q.coeff n ∧ p.coeff n ≠ .nan :=
    Binary64.equal_iff_of_ne (p.canonical.coeff_ne_minus_zero n)
      (q.canonical.coeff_ne_minus_zero n)
  rw [forall_congr' coeffs, forall_and, forall_coeff_iff (P := (· ≠ .nan)) nofun]
  exact and_congr_left' ⟨ext_coeff, fun same n => same ▸ rfl⟩

/-- **Coefficients determine the polynomial.**  The coefficient at an exponent is that of the one
term there, and zero if there is none; a search for the exponent leads to it.  Polynomials are equal
exactly if all of their coefficients are equal as numbers, and exactly if they are the same one and
have no NaN. -/
theorem coeff_determines :
    (∀ (p : Poly) n c,
      p.coeff n = c ↔ ⟨n, c⟩ ∈ p.terms ∨ (∀ t ∈ p.terms, t.exponent ≠ n) ∧ c = 0) ∧
    (∀ search, Terms.IsSearch search →
      ∀ (p : Poly) n, Terms.lookup search p.terms n = p.coeff n) ∧
    ∀ p q : Poly,
      (p.equal q = true ↔ ∀ n, (p.coeff n).equal (q.coeff n) = true) ∧
      (p.equal q = true ↔ p = q ∧ ∀ t ∈ p.terms, t.coeff ≠ .nan) :=
  ⟨fun _ _ _ => coeff_eq_iff,
    fun _ isSearch p n => Terms.lookup_eq_coeff isSearch p.canonical n,
    fun _ _ => ⟨equal_iff_eq.trans forall_coeff_equal_iff.symm, equal_iff_eq⟩⟩

/-- A polynomial with NaN for a coefficient. -/
def nanLine : Poly := single 1 .nan rfl

/-- The search finds the NaN, and the polynomial is not equal to itself. -/
theorem coeff_determines_of_nan :
    Terms.lookup (fun ts n => ts.findIdx? (·.exponent == n)) nanLine.terms 1 = .nan ∧
      Terms.lookup (fun ts n => ts.findIdx? (·.exponent == n)) nanLine.terms 0 = 0 ∧
      nanLine.equal nanLine = false := by
  obtain ⟨coeffs, searches, comparisons⟩ := coeff_determines
  obtain ⟨_, same⟩ := comparisons nanLine nanLine
  have mem : ⟨1, .nan⟩ ∈ nanLine.terms := List.mem_cons_self
  have absent : ∀ t ∈ nanLine.terms, t.exponent ≠ 0 := by decide
  refine ⟨?_, ?_, ?_⟩
  · rw [searches _ Terms.isSearch_findIdx?, coeffs]
    exact Or.inl mem
  · rw [searches _ Terms.isSearch_findIdx?, coeffs]
    exact Or.inr ⟨absent, rfl⟩
  · rw [Bool.eq_false_iff, Ne, same]
    exact fun ⟨_, numbers⟩ => numbers _ mem rfl

end Poly

end SparsePoly
