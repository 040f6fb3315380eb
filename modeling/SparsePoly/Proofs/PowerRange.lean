import Mathlib.Tactic.Ring
import SparsePoly.Binary64.Power
import SparsePoly.Proofs.Bounds

/-!
# Powers of finite numbers are numbers

A power of a finite number may overflow, and is an infinity then; it is never NaN.  The two ways to
a power need different reasons.

Squaring multiplies only, and a product of numbers is NaN only where a zero meets an infinity.  The
two never meet: of a base that is at most one all products are at most one, of any other all are at
least one, and rounding keeps both properties.

With a long exponent there are sums and differences, and an infinity among their operands could
spoil everything.  There is none: up to the last scaling by a power of two all numbers are within
coarse bounds that stay below `2 ^ 1024`.

## Main statements

* `Binary64.powerBySquaring_related`, `Binary64.powerBySquaring_of_closed` - squaring keeps what
  products keep, in two runs and in one
* `Binary64.within_logNearOne`, `Binary64.exp_ne_nan` - logarithms and exponentials do not overflow
  on the way
* `Binary64.pow_ne_nan` - powers of finite numbers, for every exponent
-/

namespace SparsePoly

namespace Binary64

theorem within_one : (1 : Binary64).Within 0 :=
  Nat.le_of_eq (Nat.one_mul _).symm

/-! ### Logarithms near one -/

theorem within_logConstants : minusHalf.Within 0 ∧ ∀ i : Fin 6, logCoefficients[i].Within 1 := by
  decide +kernel

/-- **The logarithm** of a number of at most two. -/
theorem within_logNearOne {x : Binary64} (hx : x.Within 1) : (logNearOne x).Within 22 24 := by
  obtain ⟨half, a⟩ := within_logConstants
  -- The leading terms.
  have r := hx.sub within_one (k := 2) (by decide)
  have square := Twofold.within_ofProduct (k := 4) (half.mul r (k := 2) (by decide)) r (by decide)
  have leading := Twofold.within_ofSum (k := 5) r square.head (by decide)
  -- The later terms.
  have s := square.head
  have pairs := fun i j => r.mulAdd (k := 4) (a i) (a j) (by decide)
  have higher := (pairs 5 4).mulAdd (k := 9) s (pairs 3 2) (by decide)
  have series := s.mulAdd (k := 14) higher (pairs 1 0) (by decide)
  have losses := square.tail.add leading.tail (k := 8) (by decide)
  have later := (r.mul s (k := 6) (by decide)).mulAdd (k := 21) series losses (by decide)
  exact Twofold.within_ofSum leading.head later (by decide)

/-! ### Roots of powers of two -/

/-- A root of a power of two below one more doubling has as many bits as it is asked for. -/
theorem binaryRoot_range {degree step : Nat} (lt : step < degree) (bits : Nat) :
    2 ^ bits ≤ binaryRoot degree step bits ∧ binaryRoot degree step bits ≤ 2 ^ (bits + 1) := by
  obtain ⟨below, above⟩ := binaryRoot_bounds lt bits
  have there : degree ≠ 0 := Nat.ne_of_gt (Nat.zero_lt_of_lt lt)
  constructor
  · refine Nat.le_of_lt_succ ((Nat.pow_lt_pow_iff_left there).mp (Nat.lt_of_le_of_lt ?_ above))
    rw [← Nat.pow_mul, Nat.mul_comm]
    exact Nat.pow_le_pow_right (by decide) (Nat.le_add_right _ _)
  · refine Nat.le_of_lt ((Nat.pow_lt_pow_iff_left there).mp (Nat.lt_of_le_of_lt below ?_))
    rw [← Nat.pow_mul, Nat.mul_comm (bits + 1), Nat.mul_succ]
    exact Nat.pow_lt_pow_right (by decide) (Nat.add_lt_add_left lt _)

/-- A root that is rounded lies between one and two. -/
theorem roundToGrid_root_range {exact : Nat} (lower : 2 ^ rootBits ≤ exact)
    (upper : exact ≤ 2 ^ (rootBits + 1)) :
    unitsPerOne ≤ roundToGrid (exact * unitsPerOne) (2 ^ rootBits) ∧
      roundToGrid (exact * unitsPerOne) (2 ^ rootBits) ≤ 2 * unitsPerOne := by
  have positive := Nat.two_pow_pos rootBits
  constructor
  · refine le_roundToGrid positive (onGrid_two_pow _) ?_
    rw [Nat.mul_comm]
    exact Nat.mul_le_mul_right _ lower
  · refine roundToGrid_le positive (onGrid_mul_two_pow (by decide) unitExponent) ?_
    rw [Nat.pow_succ, Nat.mul_comm _ 2] at upper
    rw [Nat.mul_right_comm]
    exact Nat.mul_le_mul_right _ upper

/-- A fraction that is at most a power of two. -/
theorem within_nearest {k den : Nat} (small : k < 1024) (positive : 0 < den) {num : Int}
    (le : num.natAbs ≤ 2 ^ k * den) : (nearest num den).Within k := by
  refine within_rounded small positive _ ?_
  rw [Nat.mul_right_comm]
  exact Nat.mul_le_mul_right _ le

/-- **A root and its loss.**  What is lost is at most the value itself. -/
theorem within_root {step : Nat} (lt : step < stepsPerDoubling) :
    (root step).value.Within 1 ∧ (root step).loss.Within 0 := by
  obtain ⟨lower, upper⟩ := binaryRoot_range lt rootBits
  obtain ⟨one_le, le_two⟩ := roundToGrid_root_range lower upper
  rw [root]
  generalize binaryRoot stepsPerDoubling step rootBits = exact at *
  generalize roundToGrid (exact * unitsPerOne) (2 ^ rootBits) = units at *
  have positive := unitsPerOne_pos
  constructor
  · refine within_nearest (by decide) positive ?_
    rwa [Int.natAbs_natCast, Nat.pow_one]
  · refine within_nearest (by decide) (Nat.mul_pos (by omega) (Nat.two_pow_pos _)) ?_
    have doubled : exact * unitsPerOne ≤ 2 * (units * 2 ^ rootBits) := calc
      exact * unitsPerOne ≤ 2 ^ (rootBits + 1) * units := Nat.mul_le_mul upper one_le
      _ = 2 * (units * 2 ^ rootBits) := by
        rw [Nat.pow_succ]
        ac_rfl
    have product : (units : Int) * 2 ^ rootBits = (units * 2 ^ rootBits : Nat) := by
      rw [Int.natCast_mul, Int.natCast_pow]
      rfl
    rw [product, Nat.pow_zero, Nat.one_mul]
    omega

/-! ### Exponentials -/

theorem within_stepDown : stepDown.head.Within 0 ∧ stepDown.tail.Within 0 := by decide +kernel

theorem within_expCoefficients : ∀ i : Fin 4, expCoefficients[i].Within 0 := by decide +kernel

/-- The number of steps in a unit lies between `2 ^ 7` and `2 ^ 8`. -/
theorem stepsPerUnit_range :
    stepsPerUnit.Within 8 ∧ (128 * unitsPerOne : Int) ≤ stepsPerUnit.rank.getD 0 := by
  decide +kernel

section Nearest

variable {num : Int} {den : Nat} (positive : 0 < den)

include positive

theorem nearestInt_le {bound : Int} (le : num ≤ bound * den) : nearestInt num den ≤ bound := by
  have upper := (nearestInt_bounds num positive).2
  apply Int.le_of_lt_add_one
  apply lt_of_mul_lt_mul_left (a := (den : Int)) _ (Int.natCast_nonneg den)
  rw [Int.mul_add, Int.mul_one, Int.mul_comm den bound]
  omega

theorem le_nearestInt {bound : Int} (le : bound * den ≤ num) : bound ≤ nearestInt num den := by
  have lower := (nearestInt_bounds num positive).1
  apply Int.le_of_sub_one_lt
  apply lt_of_mul_lt_mul_left (a := (den : Int)) _ (Int.natCast_nonneg den)
  rw [Int.mul_sub, Int.mul_one, Int.mul_comm den bound]
  omega

theorem natAbs_nearestInt_le {bound : Nat} (le : num.natAbs ≤ bound * den) :
    (nearestInt num den).natAbs ≤ bound := by
  have at_most : nearestInt num den ≤ bound := nearestInt_le positive (by omega)
  have at_least : -(bound : Int) ≤ nearestInt num den := by
    refine le_nearestInt positive ?_
    rw [Int.neg_mul]
    omega
  omega

end Nearest

theorem natAbs_rank_le {k : Nat} {x : Binary64} (hx : x.Within k) :
    (x.rank.getD 0).natAbs ≤ 2 ^ k * unitsPerOne := by
  obtain ⟨s, m, rfl, le⟩ := hx.exists_magnitude
  rw [rank, Option.getD_some, natAbs_signedUnits]
  exact le

/-- There are fewer than `2 ^ 8` steps to a unit. -/
theorem natAbs_stepsOf_le {k : Nat} {x : Binary64} (hx : x.Within k) :
    (stepsOf x).natAbs ≤ 2 ^ (k + 8) := by
  refine natAbs_nearestInt_le (Nat.mul_pos unitsPerOne_pos unitsPerOne_pos) ?_
  rw [Int.natAbs_mul, ← Nat.mul_assoc]
  exact mul_le_two_pow_mul (natAbs_rank_le hx) (natAbs_rank_le stepsPerUnit_range.1) (Nat.le_refl _)

/-- The rest after whole steps.  It is at most half a step, but for this bound any steps will
do. -/
theorem within_restOf {t : Twofold} (ht : t.Within 56 57) {steps : Int}
    (le : steps.natAbs ≤ 2 ^ 64) : (restOf t steps).Within 67 := by
  obtain ⟨head, tail⟩ := within_stepDown
  have count := within_ofInt (by decide) le
  have after_head := count.mulAdd (k := 65) head ht.head (by decide)
  exact ht.tail.add (count.mulAdd (k := 66) tail after_head (by decide)) (by decide)

theorem within_excess {loss r : Binary64} (hl : loss.Within 0) (hr : r.Within 67) :
    (excess loss r).Within 337 := by
  have a := within_expCoefficients
  have square := hr.mul hr (k := 134) (by decide)
  have fourth := square.mul square (k := 268) (by decide)
  have first := hl.add hr (k := 68) (by decide)
  have lower := ((a 1).mulAdd (k := 68) hr (a 0) (by decide)).mulAdd (k := 203) square first
    (by decide)
  exact (hr.mulAdd (k := 68) (a 3) (a 2) (by decide)).mulAdd fourth lower (by decide)

theorem rounded_ne_nan (negative : Bool) (num den : Nat) : rounded negative num den ≠ nan := by
  rw [rounded]
  split <;> exact Binary64.noConfusion

/-- What is scaled may become infinite. -/
theorem scaleB_ne_nan {x : Binary64} (finite : x.isFinite = true) (exponent : Int) :
    x.scaleB exponent ≠ nan := by
  obtain ⟨s, m, rfl⟩ := exists_of_isFinite finite
  exact rounded_ne_nan _ _ _

/-- **Near the subnormal range** the result is scaled down, and its operands up by less than
`2 ^ 512`. -/
theorem nearSubnormal_ne_nan {value extra : Binary64} (hv : value.Within 1) (he : extra.Within 337)
    {doublings : Int} (low : doublings ≤ -512) : nearSubnormal value extra doublings ≠ nan := by
  have scaled : (value.scaleB (doublings - leastNormalExponent)).Within 511 := by
    refine hv.scaleB ?_ (by decide)
    rw [leastNormalExponent]
    omega
  have product := Twofold.within_ofSum (k := 849) scaled (he.mul scaled (k := 848) (by decide))
    (by decide)
  have lifted := Twofold.within_ofSum (k := 850) within_one product.head (by decide)
  have tails := lifted.tail.add product.tail (k := 853) (by decide)
  have lowered := (tails.add lifted.head (k := 854) (by decide)).sub within_one (k := 855)
    (by decide)
  rw [nearSubnormal]
  refine scaleB_ne_nan ?_ _
  split
  · exact lowered.isFinite
  · exact product.head.isFinite

/-- **Low exponents halve often**: from `-512` down at least `512` times. -/
theorem doublings_le {x : Binary64} (finite : x.isFinite = true)
    (low : (ofInt (-512)).less x = false) : stepsOf x / stepsPerDoubling ≤ -512 := by
  obtain ⟨place, here⟩ : ∃ place, x.rank = some place := by
    obtain ⟨s, m, rfl⟩ := exists_of_isFinite finite
    exact ⟨_, rfl⟩
  have limit := (isInt_ofInt (n := -512) (by decide)).rank_eq
  have le : place ≤ (-512 * unitsPerOne : Int) := by
    rw [less, limit, here] at low
    simpa using low
  obtain ⟨_, many⟩ := stepsPerUnit_range
  have one : (0 : Int) < unitsPerOne := Int.natCast_pos.mpr unitsPerOne_pos
  have product := calc
    place * stepsPerUnit.rank.getD 0
      ≤ (-512 * unitsPerOne : Int) * stepsPerUnit.rank.getD 0 :=
        Int.mul_le_mul_of_nonneg_right le (by omega)
    _ ≤ (-512 * unitsPerOne : Int) * (128 * unitsPerOne : Int) :=
        Int.mul_le_mul_of_nonpos_left (by omega) many
    _ = -65536 * (unitsPerOne * unitsPerOne : Nat) := by
        rw [Int.natCast_mul]
        ring
  have steps : stepsOf x ≤ -65536 := by
    rw [stepsOf, here, Option.getD_some]
    exact nearestInt_le (Nat.mul_pos unitsPerOne_pos unitsPerOne_pos) product
  rw [stepsPerDoubling]
  omega

/-- **Exponentials are numbers**, or infinite. -/
theorem exp_ne_nan {t : Twofold} (ht : t.Within 56 57) : exp t ≠ nan := by
  have steps := natAbs_stepsOf_le ht.head
  have step_lt : (stepsOf t.head % stepsPerDoubling).toNat < stepsPerDoubling := by
    rw [stepsPerDoubling]
    omega
  obtain ⟨value, loss⟩ := within_root step_lt
  have extra := within_excess loss (within_restOf ht steps)
  have outcome : exp t = if (ofInt (-512)).less t.head then _ else _ := rfl
  rw [outcome]
  split
  · exact scaleB_ne_nan (value.mulAdd extra value (k := 339) (by decide)).isFinite _
  · rename_i low
    exact nearSubnormal_ne_nan value extra
      (doublings_le ht.head.isFinite (Bool.eq_false_iff.mpr low))

/-! ### Short powers -/

/-- **Squaring keeps how products are related**, step by step in two runs with one exponent. -/
theorem powerBySquaring_related {α β : Type} {mul : α → α → α} {mul' : β → β → β}
    {R : α → β → Prop} (closed : ∀ a a' b b', R a a' → R b b' → R (mul a b) (mul' a' b'))
    {product square : α} {product' square' : β} (hp : R product product') (hs : R square square')
    (exponent : Nat) :
    R (powerBySquaring mul product square exponent)
      (powerBySquaring mul' product' square' exponent) := by
  induction exponent using Nat.strongRecOn generalizing product square product' square' with
  | ind exponent ih =>
    have next : R (if exponent % 2 = 1 then mul product square else product)
        (if exponent % 2 = 1 then mul' product' square' else product') := by
      split
      · exact closed product product' square square' hp hs
      · exact hp
    rw [powerBySquaring_eq, powerBySquaring_eq mul' product']
    split
    · exact next
    · exact ih (exponent / 2) (by omega) next (closed square square' square square' hs hs)

/-- **Squaring keeps what products keep.** -/
theorem powerBySquaring_of_closed {α : Type} {mul : α → α → α} {P : α → Prop}
    (closed : ∀ a b, P a → P b → P (mul a b)) {product square : α} (hp : P product) (hs : P square)
    (exponent : Nat) : P (powerBySquaring mul product square exponent) :=
  -- The same run twice, with nothing asked of the second.
  @powerBySquaring_related α α mul mul (fun a _ => P a) (fun a _ b _ => closed a b) product square
    product square hp hs exponent

/-- An infinity, or at least one in absolute value. -/
def AtLeastOne : Binary64 → Prop
  | nan => False
  | infinity _ => True
  | finite _ m => unitsPerOne ≤ m.units

theorem AtLeastOne.ne_nan {x : Binary64} (hx : x.AtLeastOne) : x ≠ nan := by
  rintro rfl
  exact hx

/-- **Products of such numbers**: no factor is zero, and rounding does not pass one. -/
theorem AtLeastOne.mul {x y : Binary64} (hx : x.AtLeastOne) (hy : y.AtLeastOne) :
    (x * y).AtLeastOne := by
  have positive := unitsPerOne_pos
  cases x with
  | nan => exact hx.elim
  | infinity s =>
    cases y with
    | nan => exact hy.elim
    | infinity t => trivial
    | finite t b =>
      have nonzero : b.units ≠ 0 := Nat.ne_of_gt (Nat.lt_of_lt_of_le positive hy)
      rw [infinity_mul_finite, if_neg nonzero]
      trivial
  | finite s a =>
    cases y with
    | nan => exact hy.elim
    | infinity t =>
      have nonzero : a.units ≠ 0 := Nat.ne_of_gt (Nat.lt_of_lt_of_le positive hx)
      rw [finite_mul_infinity, if_neg nonzero]
      trivial
    | finite t b =>
      have one_le : unitsPerOne ≤ roundToGrid (a.units * b.units) unitsPerOne :=
        le_roundToGrid positive (onGrid_two_pow _) (Nat.mul_le_mul hx hy)
      rw [finite_mul_finite, mulFinite, rounded, Magnitude.round?]
      by_cases below : roundToGrid (a.units * b.units) unitsPerOne < unitLimit
      · rw [dif_pos below]
        exact one_le
      · rw [dif_neg below]
        trivial

/-- Short powers of finite numbers. -/
theorem powerBySquaring_finite_ne_nan (s : Bool) (m : Magnitude) (exponent : Nat) :
    powerBySquaring (· * ·) 1 (finite s m) exponent ≠ nan := by
  rcases Nat.le_total m.units unitsPerOne with le_one | one_le
  · have base : (finite s m).Within 0 := Nat.le_trans le_one (Nat.le_of_eq (Nat.one_mul _).symm)
    exact (powerBySquaring_of_closed (P := Within 0) (fun _ _ hx hy => hx.mul hy (by decide))
      within_one base exponent).ne_nan
  · have base : (finite s m).AtLeastOne := one_le
    have one : (1 : Binary64).AtLeastOne := Nat.le_refl unitsPerOne
    exact (powerBySquaring_of_closed (fun _ _ hx hy => hx.mul hy) one base exponent).ne_nan

/-! ### Long powers -/

/-- Long powers of magnitudes: where anything is computed, the base is at most two. -/
theorem longPowMagnitude_ne_nan (exponent : UInt32) (m : Magnitude) :
    longPowMagnitude exponent m ≠ nan := by
  rw [longPowMagnitude]
  split
  · exact Binary64.noConfusion
  · split
    · exact Binary64.noConfusion
    · rename_i below _
      have base : (finite false m).Within 1 := by
        have reach : reachUnits ≤ unitsPerOne := Nat.div_le_self _ _
        show m.units ≤ 2 ^ 1 * unitsPerOne
        omega
      have count : (ofInt exponent.toNat).Within 32 :=
        within_ofInt (by decide) (Nat.le_of_lt exponent.toNat_lt)
      exact exp_ne_nan (Twofold.within_mulLeft count (within_logNearOne base) (by decide))

theorem withSign_ne_nan {negative : Bool} {x : Binary64} (number : x ≠ nan) :
    withSign negative x ≠ nan := by
  rw [withSign]
  split
  · cases x with
    | nan => exact absurd rfl number
    | infinity s => exact Binary64.noConfusion
    | finite s m => exact Binary64.noConfusion
  · exact number

/-- **Powers of finite numbers are numbers**, or infinite. -/
theorem pow_ne_nan {x : Binary64} (finite : x.isFinite = true) (exponent : UInt32) :
    x.pow exponent ≠ nan := by
  obtain ⟨s, m, rfl⟩ := exists_of_isFinite finite
  rw [pow]
  split
  · exact powerBySquaring_finite_ne_nan s m exponent.toNat
  · exact withSign_ne_nan (longPowMagnitude_ne_nan exponent m)

end Binary64

end SparsePoly
