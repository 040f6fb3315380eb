import SparsePoly.Proofs.OppositeInfinities

/-!
# Values ascend with the argument

A polynomial with positive coefficients ascends on the numbers that are not negative.  So do its
binary64 values, rounded as they are at every step: rounding to nearest keeps the order of exact
results (`roundToGrid_mono`), sums and products of what is not negative keep the order of their
operands, and so the two runs of any computation stay in order from step to step.

What could spoil it is a step without a result, the product of a zero and an infinity.  Powers of
a base up to one never become infinite, those of a base from one on never become zero, and a
coefficient is neither.  Bases on both sides of one are compared through the powers of one itself.

Long exponents are left out.  Their powers are not found by multiplication, and nothing is said here
about the order of what is.

## Main statements

* `Binary64.roundToGrid_mono` - rounding to nearest keeps the order
* `Binary64.Ascends.add`, `Binary64.Ascends.mul`, `Binary64.Ascends.pow` - sums, products and short
  powers keep it
* `Poly.ascends_eval`, `Poly.eval_monotone` - values keep it
-/

namespace SparsePoly

namespace Binary64

/-- The IEEE comparison that admits equality: a NaN is not at most anything. -/
def atMost (x y : Binary64) : Bool :=
  match x.rank, y.rank with
  | some a, some b => decide (a ≤ b)
  | _, _ => false

theorem atMost_iff {x y : Binary64} :
    x.atMost y = true ↔ ∃ a b, x.rank = some a ∧ y.rank = some b ∧ a ≤ b := by
  rw [atMost]
  cases x.rank <;> cases y.rank <;> simp

theorem rank_zero : (0 : Binary64).rank = some 0 := rfl

theorem rank_one : (1 : Binary64).rank = some (unitsPerOne : Int) := rfl

/-! ### Rounding keeps the order -/

/-- **Rounding to nearest is monotone.**  Were two results reversed, both quotients would have to
lie midway between them. -/
theorem roundToGrid_mono {num num' den : Nat} (positive : 0 < den) (le : num ≤ num') :
    roundToGrid num den ≤ roundToGrid num' den := by
  refine Nat.le_of_not_lt fun reversed => ?_
  have lower := @isNearest_roundToGrid num den positive
  have upper := @isNearest_roundToGrid num' den positive
  have lower_closer := lower.closest _ upper.onGrid
  have upper_closer := upper.closest _ lower.onGrid
  have apart := Nat.mul_lt_mul_of_pos_right reversed positive
  rw [distance, distance] at lower_closer upper_closer
  obtain rfl : num = num' := by omega
  exact Nat.lt_irrefl _ reversed

/-- The place of a quotient that is rounded, which may be that of the infinity. -/
def roundedPlace (num den : Nat) : Nat := min (roundToGrid num den) unitLimit

theorem roundedPlace_mono {num num' den : Nat} (positive : 0 < den) (le : num ≤ num') :
    roundedPlace num den ≤ roundedPlace num' den := by
  have rounded_le := roundToGrid_mono positive le
  rw [roundedPlace, roundedPlace]
  omega

theorem roundedPlace_le (num den : Nat) : roundedPlace num den ≤ unitLimit := Nat.min_le_right _ _

@[simp] theorem roundedPlace_zero (den : Nat) : roundedPlace 0 den = 0 := by
  rw [roundedPlace, roundToGrid_zero, Nat.zero_min]

/-- From the limit on, a quotient is rounded to the infinity. -/
theorem roundedPlace_of_unitLimit_le {num : Nat} (le : unitLimit ≤ num) :
    roundedPlace num 1 = unitLimit := by
  refine Nat.min_eq_right (le_roundToGrid Nat.zero_lt_one (onGrid_two_pow _) ?_)
  rwa [Nat.mul_one]

theorem rank_rounded (negative : Bool) (num den : Nat) :
    (rounded negative num den).rank = some (signedUnits negative (roundedPlace num den)) := by
  rw [rounded, Magnitude.round?, roundedPlace]
  by_cases below : roundToGrid num den < unitLimit
  · rw [dif_pos below, Nat.min_eq_left (Nat.le_of_lt below)]
    rfl
  · rw [dif_neg below, Nat.min_eq_right (Nat.le_of_not_lt below)]
    rfl

/-! ### Numbers that are not negative -/

/-- **What stands at a place that is not negative**: the infinity, or a magnitude, which has a sign
only if it is zero. -/
theorem eq_of_place {x : Binary64} {a : Nat} (place : x.rank = some (a : Int)) :
    x = infinity false ∧ a = unitLimit ∨
      ∃ s m, x = finite s m ∧ m.units = a ∧ (s = true → a = 0) := by
  have limit := unitLimit_pos
  cases x with
  | nan => cases place
  | infinity s =>
    have here : signedUnits s unitLimit = a := Option.some.inj place
    cases s with
    | false => exact Or.inl ⟨rfl, (Int.ofNat.inj here).symm⟩
    | true =>
      simp only [signedUnits, if_true] at here
      omega
  | finite s m =>
    have here : signedUnits s m.units = a := Option.some.inj place
    refine Or.inr ⟨s, m, rfl, ?_⟩
    cases s with
    | false => exact ⟨Int.ofNat.inj here, fun negative => absurd negative Bool.false_ne_true⟩
    | true =>
      simp only [signedUnits, if_true] at here
      omega

theorem place_le_unitLimit {x : Binary64} {a : Nat} (place : x.rank = some (a : Int)) :
    a ≤ unitLimit := by
  rcases eq_of_place place with ⟨rfl, rfl⟩ | ⟨s, m, rfl, rfl, _⟩
  · exact Nat.le_refl _
  · exact Nat.le_of_lt m.lt_limit

/-- The sign of a zero is no part of its place. -/
theorem signedUnits_eq_self {s : Bool} {a : Nat} (zero : s = true → a = 0) :
    signedUnits s a = a := by
  cases s with
  | false => rfl
  | true => rw [zero rfl]; rfl

/-- **The place of a sum.** -/
theorem rank_add {x y : Binary64} {a b : Nat} (x_place : x.rank = some (a : Int))
    (y_place : y.rank = some (b : Int)) :
    (x + y).rank = some (roundedPlace (a + b) 1 : Int) := by
  have infinite : unitLimit ≤ a + b →
      (infinity false).rank = some (roundedPlace (a + b) 1 : Int) := by
    intro le
    rw [roundedPlace_of_unitLimit_le le]
    rfl
  rcases eq_of_place x_place with ⟨rfl, rfl⟩ | ⟨s, m, rfl, rfl, m_sign⟩
  · have sum : infinity false + y = infinity false := by
      rcases eq_of_place y_place with ⟨rfl, _⟩ | ⟨t, n, rfl, _⟩ <;> rfl
    rw [sum]
    exact infinite (Nat.le_add_right _ _)
  · rcases eq_of_place y_place with ⟨rfl, rfl⟩ | ⟨t, n, rfl, rfl, n_sign⟩
    · exact infinite (Nat.le_add_left _ _)
    · rw [finite_add_finite, addFinite, signedUnits_eq_self m_sign,
        signedUnits_eq_self n_sign, ← Int.natCast_add, Int.natAbs_natCast]
      split
      · rename_i zero
        rw [Int.ofNat.inj zero, roundedPlace_zero]
        exact congrArg some (signedUnits_eq_zero.mpr rfl)
      · rw [decide_eq_false (Int.not_lt.mpr (Int.natCast_nonneg _)), rank_rounded]
        rfl

/-- The place of a product, from those of the factors. -/
def productPlace (a b : Nat) : Nat :=
  if a = unitLimit ∨ b = unitLimit then unitLimit else roundedPlace (a * b) unitsPerOne

theorem productPlace_mono {a a' b b' : Nat} (a_le : a ≤ a') (b_le : b ≤ b')
    (a'_le : a' ≤ unitLimit) (b'_le : b' ≤ unitLimit) :
    productPlace a b ≤ productPlace a' b' := by
  rw [productPlace, productPlace]
  by_cases infinite : a' = unitLimit ∨ b' = unitLimit
  · rw [if_pos infinite]
    split
    · exact Nat.le_refl _
    · exact roundedPlace_le _ _
  · rw [if_neg infinite, if_neg (by omega)]
    exact roundedPlace_mono unitsPerOne_pos (Nat.mul_le_mul a_le b_le)

/-- **The place of a product**, unless it is one of a zero and an infinity. -/
theorem rank_mul {x y : Binary64} {a b : Nat} (x_place : x.rank = some (a : Int))
    (y_place : y.rank = some (b : Int)) (number : x * y ≠ nan) :
    (x * y).rank = some (productPlace a b : Int) := by
  have infinite : a = unitLimit ∨ b = unitLimit →
      (infinity false).rank = some (productPlace a b : Int) := by
    intro limit
    rw [productPlace, if_pos limit]
    rfl
  have plus {s : Bool} {m : Magnitude} (sign : s = true → m.units = 0) (nonzero : m.units ≠ 0) :
      s = false :=
    Bool.eq_false_iff.mpr fun negative => nonzero (sign negative)
  rcases eq_of_place x_place with ⟨rfl, rfl⟩ | ⟨s, m, rfl, rfl, m_sign⟩ <;>
    rcases eq_of_place y_place with ⟨rfl, rfl⟩ | ⟨t, n, rfl, rfl, n_sign⟩
  · exact infinite (Or.inl rfl)
  · rw [infinity_mul_finite] at number ⊢
    by_cases zero : n.units = 0
    · exact absurd (if_pos zero) number
    · rw [if_neg zero, plus n_sign zero]
      exact infinite (Or.inl rfl)
  · rw [finite_mul_infinity] at number ⊢
    by_cases zero : m.units = 0
    · exact absurd (if_pos zero) number
    · rw [if_neg zero, plus m_sign zero]
      exact infinite (Or.inr rfl)
  · have finite : ¬(m.units = unitLimit ∨ n.units = unitLimit) := by
      have := m.lt_limit
      have := n.lt_limit
      omega
    have sign : (s ^^ t) = true → roundedPlace (m.units * n.units) unitsPerOne = 0 := by
      intro negative
      have zero : m.units = 0 ∨ n.units = 0 := by
        cases s with
        | true => exact Or.inl (m_sign rfl)
        | false => exact Or.inr (n_sign ((Bool.false_xor t).symm.trans negative))
      rw [Nat.mul_eq_zero.mpr zero, roundedPlace_zero]
    rw [finite_mul_finite, mulFinite, rank_rounded, signedUnits_eq_self sign, productPlace,
      if_neg finite]

/-! ### Two numbers in order -/

/-- **In ascending order**: neither number is NaN or negative, and the first is at most the
second.  `-0` is not negative. -/
def Ascends (x y : Binary64) : Prop :=
  ∃ a b : Nat, x.rank = some (a : Int) ∧ y.rank = some (b : Int) ∧ a ≤ b

/-- The order as the IEEE comparisons have it. -/
theorem ascends_iff {x y : Binary64} :
    Ascends x y ↔ atMost 0 x = true ∧ x.atMost y = true := by
  rw [atMost_iff, atMost_iff]
  constructor
  · rintro ⟨a, b, x_place, y_place, le⟩
    exact ⟨⟨0, a, rank_zero, x_place, Int.natCast_nonneg a⟩,
      ⟨a, b, x_place, y_place, Int.ofNat_le.mpr le⟩⟩
  · rintro ⟨⟨zero, i, zero_place, x_place, nonnegative⟩, ⟨i', j, x_place', y_place, le⟩⟩
    obtain rfl : 0 = zero := Option.some.inj zero_place
    obtain rfl : i = i' := Option.some.inj (x_place.symm.trans x_place')
    obtain ⟨a, rfl⟩ := Int.eq_ofNat_of_zero_le nonnegative
    obtain ⟨b, rfl⟩ := Int.eq_ofNat_of_zero_le (Int.le_trans nonnegative le)
    exact ⟨a, b, x_place, y_place, Int.ofNat_le.mp le⟩

namespace Ascends

variable {x x' y y' z : Binary64}

theorem left_ne_nan (h : Ascends x y) : x ≠ nan := by
  rintro rfl
  obtain ⟨a, b, place, _⟩ := h
  cases place

theorem right_ne_nan (h : Ascends x y) : y ≠ nan := by
  rintro rfl
  obtain ⟨a, b, _, place, _⟩ := h
  cases place

theorem trans (h : Ascends x y) (h' : Ascends y z) : Ascends x z := by
  obtain ⟨a, b, x_place, y_place, le⟩ := h
  obtain ⟨b', c, y_place', z_place, le'⟩ := h'
  obtain rfl : b = b' := Int.ofNat.inj (Option.some.inj (y_place.symm.trans y_place'))
  exact ⟨a, c, x_place, z_place, Nat.le_trans le le'⟩

/-- **Sums keep the order.** -/
theorem add (h : Ascends x x') (h' : Ascends y y') : Ascends (x + y) (x' + y') := by
  obtain ⟨a, a', x_place, x'_place, a_le⟩ := h
  obtain ⟨b, b', y_place, y'_place, b_le⟩ := h'
  exact ⟨_, _, rank_add x_place y_place, rank_add x'_place y'_place,
    roundedPlace_mono Nat.zero_lt_one (Nat.add_le_add a_le b_le)⟩

/-- **Products keep the order**, where there are any. -/
theorem mul (h : Ascends x x') (h' : Ascends y y') (number : x * y ≠ nan)
    (number' : x' * y' ≠ nan) : Ascends (x * y) (x' * y') := by
  obtain ⟨a, a', x_place, x'_place, a_le⟩ := h
  obtain ⟨b, b', y_place, y'_place, b_le⟩ := h'
  exact ⟨_, _, rank_mul x_place y_place number, rank_mul x'_place y'_place number',
    productPlace_mono a_le b_le (place_le_unitLimit x'_place) (place_le_unitLimit y'_place)⟩

end Ascends

/-! ### Short powers keep the order -/

theorem ascends_one : Ascends 1 1 := ⟨_, _, rank_one, rank_one, Nat.le_refl _⟩

theorem within_of_place {x : Binary64} {a : Nat} (place : x.rank = some (a : Int))
    (le : a ≤ unitsPerOne) : x.Within 0 := by
  have limit := unitsPerOne_lt_unitLimit
  rcases eq_of_place place with ⟨_, rfl⟩ | ⟨s, m, rfl, rfl, _⟩
  · omega
  · exact Nat.le_trans le (Nat.le_of_eq (Nat.one_mul _).symm)

theorem atLeastOne_of_place {x : Binary64} {a : Nat} (place : x.rank = some (a : Int))
    (le : unitsPerOne ≤ a) : x.AtLeastOne := by
  rcases eq_of_place place with ⟨rfl, _⟩ | ⟨s, m, rfl, rfl, _⟩
  · trivial
  · exact le

/-- **A side of one**: a property of numbers that one has and NaN does not have, and that products
keep. -/
structure IsSide (P : Binary64 → Prop) : Prop where
  one : P 1
  mul : ∀ {x y : Binary64}, P x → P y → P (x * y)
  ne_nan : ∀ {x : Binary64}, P x → x ≠ nan

theorem isSide_within : IsSide (Within 0) :=
  ⟨within_one, fun hx hy => hx.mul hy (by decide), Within.ne_nan⟩

theorem isSide_atLeastOne : IsSide AtLeastOne :=
  ⟨Nat.le_refl unitsPerOne, AtLeastOne.mul, AtLeastOne.ne_nan⟩

/-- In order, and both on one side. -/
structure AscendsOn (P : Binary64 → Prop) (x y : Binary64) : Prop where
  ascends : Ascends x y
  left : P x
  right : P y

section Powers

variable {P : Binary64 → Prop} (side : IsSide P) {x x' y y' : Binary64}

include side

theorem AscendsOn.mul (h : AscendsOn P x x') (h' : AscendsOn P y y') :
    AscendsOn P (x * y) (x' * y') := by
  have left := side.mul h.left h'.left
  have right := side.mul h.right h'.right
  exact ⟨h.ascends.mul h'.ascends (side.ne_nan left) (side.ne_nan right), left, right⟩

theorem AscendsOn.pow (h : AscendsOn P x y) {exponent : UInt32}
    (short : exponent.toNat ≤ longestShortPower) :
    AscendsOn P (x.pow exponent) (y.pow exponent) := by
  have one : AscendsOn P 1 1 := ⟨ascends_one, side.one, side.one⟩
  rw [Binary64.pow, Binary64.pow, if_pos short, if_pos short]
  exact powerBySquaring_related (fun _ _ _ _ => AscendsOn.mul side) one h _

end Powers

/-- **Short powers keep the order.**  Where one lies between the bases, its powers lie between
theirs. -/
theorem Ascends.pow {x y : Binary64} (h : Ascends x y) {exponent : UInt32}
    (short : exponent.toNat ≤ longestShortPower) : Ascends (x.pow exponent) (y.pow exponent) := by
  have ⟨a, b, x_place, y_place, le⟩ := h
  rcases Nat.le_total b unitsPerOne with b_le | le_b
  · have below : AscendsOn (Within 0) x y :=
      ⟨h, within_of_place x_place (Nat.le_trans le b_le), within_of_place y_place b_le⟩
    exact (below.pow isSide_within short).ascends
  · have y_above := atLeastOne_of_place y_place le_b
    rcases Nat.le_total unitsPerOne a with le_a | a_le
    · have above : AscendsOn AtLeastOne x y := ⟨h, atLeastOne_of_place x_place le_a, y_above⟩
      exact (above.pow isSide_atLeastOne short).ascends
    · have below : AscendsOn (Within 0) x 1 :=
        ⟨⟨a, _, x_place, rank_one, a_le⟩, within_of_place x_place a_le, isSide_within.one⟩
      have above : AscendsOn AtLeastOne 1 y :=
        ⟨⟨_, b, rank_one, y_place, le_b⟩, isSide_atLeastOne.one, y_above⟩
      exact (below.pow isSide_within short).ascends.trans
        (above.pow isSide_atLeastOne short).ascends

/-- A positive number is in order with itself. -/
theorem ascends_self_of_positive {c : Binary64} (positive : less 0 c = true) : Ascends c c := by
  obtain ⟨zero, i, zero_place, place, lt⟩ := less_iff.mp positive
  obtain rfl : 0 = zero := Option.some.inj zero_place
  obtain ⟨a, rfl⟩ := Int.eq_ofNat_of_zero_le (Int.le_of_lt lt)
  exact ⟨a, a, place, place, Nat.le_refl a⟩

/-- Clearing the sign moves nothing that is not negative. -/
theorem rank_abs {x : Binary64} {a : Nat} (place : x.rank = some (a : Int)) :
    x.abs.rank = some (a : Int) := by
  rcases eq_of_place place with ⟨rfl, rfl⟩ | ⟨s, m, rfl, rfl, _⟩ <;> rfl

/-- What lies above the greater number lies above the smaller. -/
theorem Ascends.abs_less {x y z : Binary64} (h : Ascends x y) (below : y.abs.less z = true) :
    x.abs.less z = true := by
  obtain ⟨a, b, x_place, y_place, le⟩ := h
  obtain ⟨b', c, abs_place, z_place, lt⟩ := less_iff.mp below
  obtain rfl : (b : Int) = b' := Option.some.inj ((rank_abs y_place).symm.trans abs_place)
  exact less_iff.mpr
    ⟨a, c, rank_abs x_place, z_place, Int.lt_of_le_of_lt (Int.ofNat_le.mpr le) lt⟩

end Binary64

open Binary64

/-- **Values of a term keep the order**: the coefficient is positive and finite, and the exponent
short. -/
theorem Term.ascends_eval {t : Term} (finite : t.coeff.isFinite = true)
    (positive : Binary64.less 0 t.coeff = true) (short : t.exponent.toNat ≤ longestShortPower)
    {x y : Binary64} (h : Ascends x y) : Ascends (t.eval x) (t.eval y) := by
  have coeff := ascends_self_of_positive positive
  have nonzero : t.coeff.isZero = false := by
    refine Bool.eq_false_iff.mpr fun zero => ?_
    obtain ⟨negative, eq⟩ := isZero_iff.mp zero
    rw [eq] at positive
    cases negative <;> cases positive
  have powers := h.pow short
  exact coeff.mul powers (mul_ne_nan finite nonzero powers.left_ne_nan)
    (mul_ne_nan finite nonzero powers.right_ne_nan)

/-- **Sums of values keep the order**, added up from what is in order. -/
theorem Terms.ascends_foldl {ts : List Term} {x y : Binary64}
    (values : ∀ t ∈ ts, Ascends (t.eval x) (t.eval y)) {start start' : Binary64}
    (h : Ascends start start') :
    Ascends ((ts.map (·.eval x)).foldl (· + ·) start)
      ((ts.map (·.eval y)).foldl (· + ·) start') := by
  induction ts generalizing start start' with
  | nil => exact h
  | cons t ts ih =>
    obtain ⟨first, rest⟩ := List.forall_mem_cons.mp values
    exact ih rest (h.add first)

namespace Poly

section Positive

variable {p : Poly} (finite : ∀ t ∈ p.terms, t.coeff.isFinite = true)
  (positive : ∀ t ∈ p.terms, Binary64.less 0 t.coeff = true)
  (short : ∀ t ∈ p.terms, t.exponent.toNat ≤ longestShortPower)

include finite positive short

/-- **Values keep the order.** -/
theorem ascends_eval {x y : Binary64} (h : Ascends x y) : Ascends (p.eval x) (p.eval y) := by
  have zero : Ascends 0 0 := ⟨0, 0, rfl, rfl, Nat.le_refl 0⟩
  exact Terms.ascends_foldl
    (fun t mem => Term.ascends_eval (finite t mem) (positive t mem) (short t mem) h) zero

/-- **Evaluation is monotone** on the numbers that are not negative, the infinity among them, if all
coefficients are finite and positive and all exponents short.  There the values are numbers, and in
the order of the arguments.  So whatever is smaller than an approximate root is one as well, with
the same tolerance. -/
theorem eval_monotone {x y : Binary64} (nonnegative : atMost 0 x = true)
    (le : x.atMost y = true) :
    p.eval x ≠ .nan ∧ p.eval y ≠ .nan ∧ (p.eval x).atMost (p.eval y) = true ∧
      ∀ tolerance, p.hasRootWithin y tolerance = true → p.hasRootWithin x tolerance = true := by
  have values := ascends_eval finite positive short (ascends_iff.mpr ⟨nonnegative, le⟩)
  exact ⟨values.left_ne_nan, values.right_ne_nan, (ascends_iff.mp values).2,
    fun _ root => values.abs_less root⟩

end Positive

/-- The sum of one and the square. -/
def squarePlusOne : Poly :=
  ⟨[⟨0, 1⟩, ⟨2, 1⟩], by simp [Terms.canonical_cons, Terms.canonical_nil]⟩

/-- From `-0` to the infinity the value rises from one to the infinity. -/
theorem eval_monotone_of_infinity :
    squarePlusOne.eval (-0) ≠ .nan ∧ squarePlusOne.eval (.infinity false) ≠ .nan ∧
      (squarePlusOne.eval (-0)).atMost (squarePlusOne.eval (.infinity false)) = true ∧
      ∀ tolerance, squarePlusOne.hasRootWithin (.infinity false) tolerance = true →
        squarePlusOne.hasRootWithin (-0) tolerance = true :=
  eval_monotone (by decide) (by decide +kernel) (by decide +kernel) (by decide +kernel)
    (by decide +kernel)

end Poly

end SparsePoly
