import SparsePoly.Proofs.Fallible
import SparsePoly.Proofs.Merging

/-!
# Polynomials from explicit terms

Explicit terms are pairs of an integer and a coefficient, in any order.  Three things are said of
them apart from how they are collected:

* which pairs are terms (`IsTerm`), and what is wrong with any other (`PairFault`); the first pair
  at fault decides the error, whatever comes behind it;
* which coefficients are given to an exponent, as a list in the order of the pairs (`givenAt`);
* that nothing else is stored: the coefficient at an exponent is the sum of that list, and how the
  pairs of different exponents are interleaved leaves no trace.

## Main statements

* `Poly.mapM_termOfPair_eq_ok_iff` - pairs that make terms are the pairs of those terms
* `Poly.ofTerms_eq_ok_iff`, `Poly.ofTerms_eq_error_iff` - the two answers
* `Poly.ofTerms_decides_and_sums` - all of it
-/

namespace SparsePoly

/-- The term as a pair of an integer and a coefficient. -/
def Term.pair (t : Term) : Int × Binary64 := (t.exponent.toNat, t.coeff)

/-- The integers that are exponents: those of 32 bits without sign. -/
def IsExponent (e : Int) : Prop := 0 ≤ e ∧ e ≤ 4294967295

/-- A pair that is a term: an exponent and a finite coefficient. -/
structure IsTerm (pair : Int × Binary64) : Prop where
  exponent : IsExponent pair.1
  coefficient : pair.2.isFinite = true

/-- What is wrong with a pair.  The coefficient counts only if the exponent is one. -/
inductive PairFault : Int × Binary64 → ConstructionError → Prop
  | exponent {e : Int} {c : Binary64} (outside : ¬IsExponent e) :
      PairFault (e, c) (.exponentOutOfRange e)
  | coefficient {e : Int} {c : Binary64} (inside : IsExponent e) (not_finite : c.isFinite = false) :
      PairFault (e, c) (.nonFiniteCoefficient c)

/-- **The coefficients that are given to an exponent**, in the order of the pairs. -/
def givenAt (pairs : List (Int × Binary64)) (n : UInt32) : List Binary64 :=
  (pairs.filter (·.1 == (n.toNat : Int))).map Prod.snd

/-! ### One pair -/

theorem isExponent_iff {e : Int} : IsExponent e ↔ 0 ≤ e ∧ e < UInt32.size :=
  and_congr_right fun _ => Int.lt_add_one_iff.symm

theorem isExponent_toNat (n : UInt32) : IsExponent n.toNat :=
  isExponent_iff.mpr ⟨Int.natCast_nonneg _, Int.ofNat_lt.mpr n.toNat_lt⟩

namespace Poly

variable {pair : Int × Binary64} {pairs : List (Int × Binary64)}

theorem termOfPair_eq_ok_iff {t : Term} :
    termOfPair pair = .ok t ↔ t.pair = pair ∧ t.coeff.isFinite = true := by
  obtain ⟨e, c⟩ := pair
  rw [termOfPair]
  constructor
  · intro made
    split at made
    · rename_i inside
      have small : e.toNat < UInt32.size := by omega
      split at made
      · rename_i finite
        cases made
        refine ⟨?_, finite⟩
        rw [Term.pair, UInt32.toNat_ofNat_of_lt' small, Int.toNat_of_nonneg inside.1]
      · cases made
    · cases made
  · rintro ⟨eq, finite⟩
    cases eq
    rw [if_pos (isExponent_iff.mp (isExponent_toNat _)), if_pos finite]
    simp

theorem termOfPair_eq_error_iff {e : ConstructionError} :
    termOfPair pair = .error e ↔ PairFault pair e := by
  obtain ⟨exponent, c⟩ := pair
  rw [termOfPair]
  constructor
  · intro refused
    split at refused
    · rename_i inside
      split at refused
      · cases refused
      · rename_i infinite
        cases refused
        exact .coefficient (isExponent_iff.mpr inside) (by simpa using infinite)
    · rename_i outside
      cases refused
      exact .exponent (mt isExponent_iff.mp outside)
  · intro fault
    cases fault with
    | exponent outside => exact if_neg (mt isExponent_iff.mpr outside)
    | coefficient inside not_finite =>
      rw [if_pos (isExponent_iff.mp inside), if_neg (by simp [not_finite])]

/-- The pairs that are terms are those that make one. -/
theorem exists_termOfPair_iff : (∃ t, termOfPair pair = .ok t) ↔ IsTerm pair := by
  constructor
  · rintro ⟨t, made⟩
    obtain ⟨rfl, finite⟩ := termOfPair_eq_ok_iff.mp made
    exact ⟨isExponent_toNat _, finite⟩
  · intro isTerm
    cases made : termOfPair pair with
    | ok t => exact ⟨t, rfl⟩
    | error e =>
      cases termOfPair_eq_error_iff.mp made with
      | exponent outside => exact absurd isTerm.exponent outside
      | coefficient _ not_finite => cases not_finite.symm.trans isTerm.coefficient

/-! ### Rows of pairs -/

/-- **Pairs that make terms** are the pairs of those terms, which are finite. -/
theorem mapM_termOfPair_eq_ok_iff {ts : List Term} :
    pairs.mapM termOfPair = .ok ts ↔
      ts.map Term.pair = pairs ∧ ∀ t ∈ ts, t.coeff.isFinite = true := by
  induction pairs generalizing ts with
  | nil =>
    rw [List.map_eq_nil_iff]
    constructor
    · intro made
      cases made
      exact ⟨rfl, nofun⟩
    · rintro ⟨rfl, _⟩
      rfl
  | cons pair pairs ih =>
    rw [mapM_cons_eq_ok_iff]
    constructor
    · rintro ⟨t, us, first, others, rfl⟩
      obtain ⟨rfl, t_finite⟩ := termOfPair_eq_ok_iff.mp first
      obtain ⟨rfl, us_finite⟩ := ih.mp others
      exact ⟨rfl, List.forall_mem_cons.mpr ⟨t_finite, us_finite⟩⟩
    · rintro ⟨split, finite⟩
      obtain ⟨t, us, rfl, rfl, rfl⟩ := List.map_eq_cons_iff.mp split
      obtain ⟨t_finite, us_finite⟩ := List.forall_mem_cons.mp finite
      exact ⟨t, us, termOfPair_eq_ok_iff.mpr ⟨rfl, t_finite⟩, ih.mpr ⟨rfl, us_finite⟩, rfl⟩

theorem ofTerms_eq_ok_iff {p : Poly} :
    ofTerms pairs = .ok p ↔ ∃ ts, ts.map Term.pair = pairs ∧
      (∀ t ∈ ts, t.coeff.isFinite = true) ∧ collect ts = p := by
  rw [ofTerms]
  constructor
  · intro built
    cases made : pairs.mapM termOfPair with
    | error e =>
      rw [made] at built
      cases built
    | ok ts =>
      rw [made] at built
      cases built
      obtain ⟨same, finite⟩ := mapM_termOfPair_eq_ok_iff.mp made
      exact ⟨ts, same, finite, rfl⟩
  · rintro ⟨ts, same, finite, rfl⟩
    rw [mapM_termOfPair_eq_ok_iff.mpr ⟨same, finite⟩]
    rfl

/-- **The error is that of the first pair at fault.** -/
theorem ofTerms_eq_error_iff {e : ConstructionError} :
    ofTerms pairs = .error e ↔ ∃ front pair back, pairs = front ++ pair :: back ∧
      (∀ other ∈ front, IsTerm other) ∧ PairFault pair e := by
  simp only [← exists_termOfPair_iff, ← termOfPair_eq_error_iff, ← mapM_eq_error_iff]
  rw [ofTerms]
  cases pairs.mapM termOfPair with
  | error d => exact ⟨fun eq => congrArg _ (Except.error.inj eq), fun eq => congrArg _ eq⟩
  | ok ts => exact iff_of_false nofun nofun

/-- Pairs are accepted if all of them are terms. -/
theorem exists_ofTerms_iff :
    (∃ p, ofTerms pairs = .ok p) ↔ ∀ pair ∈ pairs, IsTerm pair := by
  simp only [← exists_termOfPair_iff, ← exists_mapM_eq_ok_iff, ofTerms]
  cases pairs.mapM termOfPair with
  | error e => exact iff_of_false nofun nofun
  | ok ts => exact iff_of_true ⟨_, rfl⟩ ⟨_, rfl⟩

/-! ### What is stored -/

theorem givenAt_map_pair (ts : List Term) (n : UInt32) :
    givenAt (ts.map Term.pair) n = (ts.filter (·.exponent == n)).map Term.coeff := by
  have same : ∀ t : Term, (t.pair.1 == (n.toNat : Int)) = (t.exponent == n) := by
    intro t
    rw [Bool.eq_iff_iff, beq_iff_eq, beq_iff_eq, ← UInt32.toNat_inj]
    exact Int.ofNat_inj
  rw [givenAt, List.filter_map, List.map_map]
  congr 1
  exact List.filter_congr fun t _ => same t

/-- **What is stored** is the sum of what is given, in the order of the pairs. -/
theorem coeff_of_ofTerms {p : Poly} (built : ofTerms pairs = .ok p) (n : UInt32) :
    p.coeff n = Binary64.sum (givenAt pairs n) := by
  obtain ⟨ts, rfl, _, rfl⟩ := ofTerms_eq_ok_iff.mp built
  rw [coeff_collect_eq_sumAt, givenAt_map_pair]
  rfl

/-- **The order of pairs with different exponents does not matter.** -/
theorem ofTerms_eq_of_givenAt_eq {others : List (Int × Binary64)}
    (valid : ∀ pair ∈ pairs, IsTerm pair) (others_valid : ∀ pair ∈ others, IsTerm pair)
    (same : ∀ n, givenAt pairs n = givenAt others n) : ofTerms pairs = ofTerms others := by
  obtain ⟨p, built⟩ := exists_ofTerms_iff.mpr valid
  obtain ⟨q, others_built⟩ := exists_ofTerms_iff.mpr others_valid
  rw [built, others_built]
  refine congrArg _ (ext_coeff fun n => ?_)
  rw [coeff_of_ofTerms built, coeff_of_ofTerms others_built, same]

/-- **Explicit terms are decided and added up exactly.**  Pairs are accepted if all of them are
terms; otherwise the error is that of the first one that is none.  Then the coefficient at every
exponent is the sum, from left to right and starting from zero, of what is given to it, and there is
a term exactly where that is not zero.  So pairs that give the same to every exponent make one
polynomial, however they are interleaved. -/
theorem ofTerms_decides_and_sums (pairs : List (Int × Binary64)) :
    ((∃ p, ofTerms pairs = .ok p) ↔ ∀ pair ∈ pairs, IsTerm pair) ∧
      (∀ e, ofTerms pairs = .error e ↔ ∃ front pair back, pairs = front ++ pair :: back ∧
        (∀ other ∈ front, IsTerm other) ∧ PairFault pair e) ∧
      (∀ p, ofTerms pairs = .ok p → ∀ n, p.coeff n = Binary64.sum (givenAt pairs n) ∧
        ((∃ t ∈ p.terms, t.exponent = n) ↔ (Binary64.sum (givenAt pairs n)).isZero = false)) ∧
      ∀ others, (∀ pair ∈ pairs, IsTerm pair) → (∀ pair ∈ others, IsTerm pair) →
        (∀ n, givenAt pairs n = givenAt others n) →
          ∃ p, ofTerms pairs = .ok p ∧ ofTerms others = .ok p := by
  refine ⟨exists_ofTerms_iff, fun _ => ofTerms_eq_error_iff, ?_, ?_⟩
  · intro p built n
    have sum := coeff_of_ofTerms built n
    exact ⟨sum, sum ▸ exists_term_iff⟩
  · intro others valid others_valid same
    obtain ⟨p, built⟩ := exists_ofTerms_iff.mpr valid
    exact ⟨p, built, (ofTerms_eq_of_givenAt_eq valid others_valid same).symm.trans built⟩

/-- A negative exponent counts before its coefficient and before all that follows; and `1 + x - 1`
is the variable, wherever that is given. -/
theorem ofTerms_of_cancelling :
    ofTerms [(0, 1), (-1, .nan), (0, .nan)] = .error (.exponentOutOfRange (-1)) ∧
      ∃ p, ofTerms [(0, 1), (1, 1), (0, -1)] = .ok p ∧ ofTerms [(1, 1), (0, 1), (0, -1)] = .ok p ∧
        p.coeff 1 = 1 ∧ ∀ t ∈ p.terms, t.exponent ≠ 0 := by
  have one : IsTerm (0, 1) := ⟨isExponent_toNat 0, rfl⟩
  have unit : IsTerm (1, 1) := ⟨isExponent_toNat 1, rfl⟩
  have minus_one : IsTerm (0, -1) := ⟨isExponent_toNat 0, rfl⟩
  have same (n : UInt32) :
      givenAt [(0, 1), (1, 1), (0, -1)] n = givenAt [(1, 1), (0, 1), (0, -1)] n := by
    rw [givenAt, givenAt]
    generalize (n.toNat : Int) = exponent
    by_cases constant : exponent = 0
    · rw [constant]
      rfl
    · simp [List.filter_cons, Ne.symm constant]
  obtain ⟨_, errors, _⟩ := ofTerms_decides_and_sums [(0, 1), (-1, .nan), (0, .nan)]
  obtain ⟨_, _, stored, interleaved⟩ := ofTerms_decides_and_sums [(0, 1), (1, 1), (0, -1)]
  obtain ⟨p, built, others_built⟩ := interleaved _ (by simp [one, unit, minus_one])
    (by simp [one, unit, minus_one]) same
  refine ⟨(errors _).mpr ⟨[_], _, [_], rfl, by simp [one], .exponent (by simp [IsExponent])⟩,
    p, built, others_built, ?_, ?_⟩
  · exact (stored p built 1).1.trans (Binary64.zero_add_of_ne nofun)
  · have cancelled : (0 + 1 + -1 : Binary64).isZero = true := by
      rw [Binary64.zero_add_of_nonzero Binary64.isZero_one, Binary64.isZero_add_neg rfl]
    intro t mem constant
    cases ((stored p built 0).2.mp ⟨t, mem, constant⟩).symm.trans cancelled

end Poly

end SparsePoly
