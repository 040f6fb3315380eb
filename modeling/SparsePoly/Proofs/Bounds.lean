import SparsePoly.Binary64.Twofold
import SparsePoly.Proofs.Integers
import SparsePoly.Proofs.Nearest

/-!
# Numbers within a power of two

`x.Within k` says that a number is finite and at most `2 ^ k` in absolute value.  A grid point that
bounds an exact result bounds the rounded one too, and the powers of two are grid points.  So each
operation has a bound that is found by adding exponents, without an error term: a product of numbers
within `2 ^ i` and `2 ^ j` is within `2 ^ (i + j)`, and a sum costs one power.  As long as the
bounds stay below `2 ^ 1024`, nothing overflows.

These bounds are coarse, and are meant for that question only.  A rule lets the bound of its result
be chosen, and `fits` says that the choice is large enough and below `2 ^ 1024`.

## Main statements

* `Binary64.roundToGrid_le`, `Binary64.le_roundToGrid` - rounding does not pass a grid point
* `Binary64.Within.add`, `Binary64.Within.mul`, `Binary64.Within.mulAdd` - the operations
* `Binary64.Twofold.within_ofSum`, `Binary64.Twofold.within_ofProduct` - those of twofold numbers
-/

namespace SparsePoly

namespace Binary64

/-! ### Rounding does not pass a grid point -/

section Rounding

variable {num den g : Nat} (positive : 0 < den) (grid : OnGrid g)

include positive grid

theorem roundToGrid_le (le : num ≤ g * den) : roundToGrid num den ≤ g := by
  have below := @pointBelow_le num den
  have above := @lt_pointAbove num den positive
  rcases le_pointBelow_or_pointAbove_le num den grid with g_le | le_g
  · -- The quotient is the grid point itself.
    have exact : num = g * den :=
      Nat.le_antisymm le (Nat.le_trans (Nat.mul_le_mul_right den g_le) below)
    rw [exact, roundToGrid_of_onGrid positive grid]
  · have ordered : pointBelow num den ≤ pointAbove num den := by
      rw [pointBelow, pointAbove]
      exact Nat.mul_le_mul_right _ (Nat.le_succ _)
    rcases @roundToGrid_cases num den positive with ⟨eq, _⟩ | ⟨eq, _⟩
    · rw [eq]
      exact le_g
    · rw [eq]
      exact Nat.le_trans ordered le_g

theorem le_roundToGrid (le : g * den ≤ num) : g ≤ roundToGrid num den := by
  have above := @lt_pointAbove num den positive
  have ordered : pointBelow num den ≤ pointAbove num den := by
    rw [pointBelow, pointAbove]
    exact Nat.mul_le_mul_right _ (Nat.le_succ _)
  have g_le : g ≤ pointBelow num den := by
    rcases le_pointBelow_or_pointAbove_le num den grid with g_le | le_g
    · exact g_le
    · have := Nat.mul_le_mul_right den le_g
      omega
  rcases @roundToGrid_cases num den positive with ⟨eq, _⟩ | ⟨eq, _⟩
  · rw [eq]
    exact Nat.le_trans g_le ordered
  · rw [eq]
    exact g_le

end Rounding

/-! ### Numbers within a power of two -/

/-- A finite number of at most `2 ^ k` in absolute value. -/
def Within (k : Nat) : Binary64 → Prop
  | finite _ m => m.units ≤ 2 ^ k * unitsPerOne
  | _ => False

instance (k : Nat) : (x : Binary64) → Decidable (x.Within k)
  | finite _ m => inferInstanceAs (Decidable (m.units ≤ 2 ^ k * unitsPerOne))
  | infinity _ => inferInstanceAs (Decidable False)
  | nan => inferInstanceAs (Decidable False)

theorem two_pow_mul_unitsPerOne (k : Nat) : 2 ^ k * unitsPerOne = 2 ^ (k + unitExponent) :=
  (Nat.pow_add ..).symm

theorem two_pow_mul_unitsPerOne_lt {k : Nat} (small : k < 1024) :
    2 ^ k * unitsPerOne < unitLimit := by
  rw [two_pow_mul_unitsPerOne]
  refine Nat.pow_lt_pow_right (by decide) ?_
  unfold unitExponent limitExponent
  omega

/-- **What is within a power of two before rounding is so after it.** -/
theorem within_rounded {k num den : Nat} (small : k < 1024) (positive : 0 < den) (negative : Bool)
    (le : num ≤ 2 ^ k * unitsPerOne * den) : (rounded negative num den).Within k := by
  have bound : roundToGrid num den ≤ 2 ^ k * unitsPerOne := by
    refine roundToGrid_le positive ?_ le
    rw [two_pow_mul_unitsPerOne]
    exact onGrid_two_pow _
  have lt := Nat.lt_of_le_of_lt bound (two_pow_mul_unitsPerOne_lt small)
  have eq : rounded negative num den =
      finite negative ⟨roundToGrid num den, onGrid_roundToGrid num den, lt⟩ :=
    rounded_eq_finite_iff.mpr rfl
  rw [eq]
  exact bound

/-- The same of a sum with a sign, which may be zero. -/
theorem within_total {k den : Nat} (small : k < 1024) (positive : 0 < den) (negative : Bool)
    {total : Int} (le : total.natAbs ≤ 2 ^ k * unitsPerOne * den) :
    (if total = 0 then finite negative 0
      else rounded (decide (total < 0)) total.natAbs den).Within k := by
  split
  · exact Nat.zero_le _
  · exact within_rounded small positive _ le

/-- An integer. -/
theorem within_ofInt {k : Nat} (small : k < 1024) {n : Int} (le : n.natAbs ≤ 2 ^ k) :
    (ofInt n).Within k := by
  refine within_rounded small Nat.zero_lt_one _ ?_
  rw [Nat.mul_one]
  exact Nat.mul_le_mul_right _ le

/-- A sum, each summand of which has at most half of the bound. -/
theorem add_le_two_pow_mul {i j k a b c : Nat} (ha : a ≤ 2 ^ i * c) (hb : b ≤ 2 ^ j * c)
    (i_lt : i < k) (j_lt : j < k) : a + b ≤ 2 ^ k * c := by
  obtain ⟨half, rfl⟩ := Nat.exists_eq_add_one_of_ne_zero (Nat.ne_of_gt (Nat.zero_lt_of_lt i_lt))
  have a_half : 2 ^ i * c ≤ 2 ^ half * c :=
    Nat.mul_le_mul_right c (Nat.pow_le_pow_right (by decide) (Nat.le_of_lt_succ i_lt))
  have b_half : 2 ^ j * c ≤ 2 ^ half * c :=
    Nat.mul_le_mul_right c (Nat.pow_le_pow_right (by decide) (Nat.le_of_lt_succ j_lt))
  rw [Nat.pow_succ, Nat.mul_right_comm]
  omega

/-- A product, the factors of which have powers that add up to that of the bound. -/
theorem mul_le_two_pow_mul {i j k a b c : Nat} (ha : a ≤ 2 ^ i * c) (hb : b ≤ 2 ^ j * c)
    (le : i + j ≤ k) : a * b ≤ 2 ^ k * c * c := by
  calc
    a * b ≤ 2 ^ i * c * (2 ^ j * c) := Nat.mul_le_mul ha hb
    _ = 2 ^ (i + j) * c * c := by
      rw [Nat.pow_add]
      ac_rfl
    _ ≤ 2 ^ k * c * c :=
      Nat.mul_le_mul_right c (Nat.mul_le_mul_right c (Nat.pow_le_pow_right (by decide) le))

namespace Within

variable {i j l k : Nat} {x y z : Binary64}

theorem exists_magnitude (hx : x.Within i) :
    ∃ s m, x = finite s m ∧ m.units ≤ 2 ^ i * unitsPerOne := by
  cases x with
  | nan => exact hx.elim
  | infinity s => exact hx.elim
  | finite s m => exact ⟨s, m, rfl, hx⟩

theorem isFinite (hx : x.Within i) : x.isFinite = true := by
  obtain ⟨s, m, rfl, _⟩ := hx.exists_magnitude
  rfl

theorem ne_nan (hx : x.Within i) : x ≠ nan := by
  rintro rfl
  exact hx

theorem mono (hx : x.Within i) (le : i ≤ k) : x.Within k := by
  obtain ⟨s, m, rfl, bound⟩ := hx.exists_magnitude
  exact Nat.le_trans bound (Nat.mul_le_mul_right _ (Nat.pow_le_pow_right (by decide) le))

theorem neg (hx : x.Within i) : (-x).Within i := by
  obtain ⟨s, m, rfl, le⟩ := hx.exists_magnitude
  exact le

/-- **A sum** costs one power. -/
theorem add (hx : x.Within i) (hy : y.Within j) (fits : i < k ∧ j < k ∧ k < 1024) :
    (x + y).Within k := by
  obtain ⟨s, a, rfl, ha⟩ := hx.exists_magnitude
  obtain ⟨t, b, rfl, hb⟩ := hy.exists_magnitude
  obtain ⟨i_lt, j_lt, small⟩ := fits
  refine within_total small Nat.zero_lt_one _ ?_
  refine Nat.le_trans (Int.natAbs_add_le _ _) ?_
  rw [natAbs_signedUnits, natAbs_signedUnits, Nat.mul_one]
  exact add_le_two_pow_mul ha hb i_lt j_lt

theorem sub (hx : x.Within i) (hy : y.Within j) (fits : i < k ∧ j < k ∧ k < 1024) :
    (x - y).Within k :=
  hx.add hy.neg fits

/-- **A product** adds the powers. -/
theorem mul (hx : x.Within i) (hy : y.Within j) (fits : i + j ≤ k ∧ k < 1024) :
    (x * y).Within k := by
  obtain ⟨s, a, rfl, ha⟩ := hx.exists_magnitude
  obtain ⟨t, b, rfl, hb⟩ := hy.exists_magnitude
  exact within_rounded fits.2 unitsPerOne_pos _ (mul_le_two_pow_mul ha hb fits.1)

/-- **The fused operation** is bounded like a sum of a product. -/
theorem mulAdd (hx : x.Within i) (hy : y.Within j) (hz : z.Within l)
    (fits : i + j < k ∧ l < k ∧ k < 1024) : (x.mulAdd y z).Within k := by
  obtain ⟨s, a, rfl, ha⟩ := hx.exists_magnitude
  obtain ⟨t, b, rfl, hb⟩ := hy.exists_magnitude
  obtain ⟨u, c, rfl, hc⟩ := hz.exists_magnitude
  obtain ⟨product_lt, l_lt, small⟩ := fits
  refine within_total small unitsPerOne_pos _ ?_
  refine Nat.le_trans (Int.natAbs_add_le _ _) ?_
  rw [natAbs_signedUnits, natAbs_signedUnits, Nat.mul_assoc]
  refine add_le_two_pow_mul ?_ ?_ product_lt l_lt
  · rw [← Nat.mul_assoc]
    exact mul_le_two_pow_mul ha hb (Nat.le_refl _)
  · rw [← Nat.mul_assoc]
    exact Nat.mul_le_mul_right _ hc

/-- **The product with a power of two**, which may also be a small one. -/
theorem scaleB (hx : x.Within i) {exponent : Int} (le : i + exponent.toNat ≤ k) (small : k < 1024) :
    (x.scaleB exponent).Within k := by
  obtain ⟨s, a, rfl, ha⟩ := hx.exists_magnitude
  refine within_rounded small (Nat.two_pow_pos _) _ ?_
  calc
    a.units * 2 ^ exponent.toNat ≤ 2 ^ i * unitsPerOne * 2 ^ exponent.toNat :=
      Nat.mul_le_mul_right _ ha
    _ = 2 ^ (i + exponent.toNat) * unitsPerOne := by
      rw [Nat.pow_add]
      ac_rfl
    _ ≤ 2 ^ k * unitsPerOne :=
      Nat.mul_le_mul_right _ (Nat.pow_le_pow_right (by decide) le)
    _ ≤ 2 ^ k * unitsPerOne * 2 ^ (-exponent).toNat :=
      Nat.le_mul_of_pos_right _ (Nat.two_pow_pos _)

end Within

/-! ### Twofold numbers -/

namespace Twofold

/-- Both parts of a twofold number are bounded. -/
structure Within (i j : Nat) (t : Twofold) : Prop where
  /-- The head. -/
  head : t.head.Within i
  /-- The tail. -/
  tail : t.tail.Within j

variable {i j l k : Nat} {x y : Binary64}

/-- A sum and its loss. -/
theorem within_ofSum (hx : x.Within i) (hy : y.Within j)
    (fits : i < k ∧ j < k ∧ k + 2 < 1024) : (ofSum x y).Within k (k + 2) := by
  have total : (x + y).Within k := hx.add hy (by omega)
  have left : (x - (x + y)).Within (k + 1) := hx.sub total (by omega)
  exact ⟨total, left.add hy (by omega)⟩

/-- A product and its loss. -/
theorem within_ofProduct (hx : x.Within i) (hy : y.Within j)
    (fits : i + j ≤ k ∧ k + 1 < 1024) : (ofProduct x y).Within k (k + 1) := by
  have product : (x * y).Within k := hx.mul hy (by omega)
  exact ⟨product, hx.mulAdd hy product.neg (by omega)⟩

/-- The product with a number. -/
theorem within_mulLeft {t : Twofold} (hx : x.Within i) (ht : t.Within j l)
    (fits : i + j < k ∧ i + l ≤ k ∧ k + 1 < 1024) : (mulLeft x t).Within k (k + 1) := by
  have leading := within_ofProduct (k := i + j) hx ht.head (by omega)
  have head := leading.head.mono (Nat.le_of_lt fits.1)
  exact ⟨head, hx.mulAdd ht.tail leading.tail (by omega)⟩

end Twofold

end Binary64

end SparsePoly
