import SparsePoly.Binary64.Arithmetic
import SparsePoly.Decimal.Shortest

/-!
# The interval that rounds to a magnitude

`Interval.ofUnits` claims to be the set of real numbers that round to a magnitude.  This module
proves that it is a set of such numbers: whatever quotient lies in it, `roundToGrid` answers with
the magnitude.

The proof counts in steps of the grid *around the quotient*, which need not be the grid around the
magnitude: below a power of two the steps are half as wide, and the interval reaches down there.
Everything else is one fact about division, `roundToGrid_of_nearMultiple`.

## Main statements

* `roundToGrid_mul` - only the value of a quotient matters
* `roundToGrid_of_contains` - a quotient in the interval of a magnitude rounds to it
-/

namespace SparsePoly

/-- Membership, with the ends as an exception of open intervals. -/
theorem Interval.contains_iff {i : Interval} {point : Nat} :
    i.contains point = true ↔
      i.lower ≤ point ∧ point ≤ i.upper ∧
        (i.closed = false → point ≠ i.lower ∧ point ≠ i.upper) := by
  rw [Interval.contains]
  cases i.closed with
  | true => simp
  | false =>
    simp only [Bool.false_eq_true, ↓reduceIte, decide_eq_true_iff, true_implies]
    omega

namespace Binary64

/-! ### Rounding, counted in steps -/

/-- `num` is within half a step of the multiple `k * step`, and midway between two multiples only
if `k` is even. -/
structure NearMultiple (num step k : Nat) : Prop where
  not_above : 2 * num ≤ 2 * (k * step) + step
  not_below : 2 * (k * step) ≤ 2 * num + step
  even_of_tie : 2 * num = 2 * (k * step) + step ∨ 2 * (k * step) = 2 * num + step → k % 2 = 0

/-- **Rounding takes the near multiple.**  The quotient `num / step` is `k` from above and `k - 1`
from below, and then the remainder is at least half a step. -/
theorem roundToGrid_of_nearMultiple {num den k : Nat} (positive : 0 < den)
    (near : NearMultiple num (den * spacing (num / den)) k) :
    roundToGrid num den = k * spacing (num / den) := by
  rw [roundToGrid]
  generalize spacing_eq : spacing (num / den) = gap at near ⊢
  have gap_pos : 0 < gap := spacing_eq ▸ spacing_pos _
  generalize step_eq : den * gap = step at near ⊢
  have step_pos : 0 < step := step_eq ▸ Nat.mul_pos positive gap_pos
  obtain ⟨not_above, not_below, even_of_tie⟩ := near
  have division := Nat.div_add_mod num step
  by_cases above : k * step ≤ num
  · have quotient : num / step = k :=
      Nat.div_eq_of_lt_le above (by rw [Nat.succ_mul]; omega)
    rw [quotient, Nat.mul_comm step k] at division
    rw [quotient, if_neg (by omega)]
  · -- There is a multiple below, so `k` is not zero.
    obtain ⟨j, rfl⟩ : ∃ j, k = j + 1 := ⟨k - 1, by
      have : k ≠ 0 := by rintro rfl; omega
      omega⟩
    rw [Nat.add_mul, Nat.one_mul] at not_above not_below even_of_tie above
    have quotient : num / step = j :=
      Nat.div_eq_of_lt_le (by omega) (by rw [Nat.add_mul, Nat.one_mul]; omega)
    rw [quotient, Nat.mul_comm step j] at division
    rw [quotient, if_pos (by omega)]

/-- **Only the value of a quotient matters.** -/
theorem roundToGrid_mul {num den c : Nat} (positive : 0 < c) :
    roundToGrid (num * c) (den * c) = roundToGrid num den := by
  have value : num * c / (den * c) = num / den := Nat.mul_div_mul_right num den positive
  have step : den * c * spacing (num / den) = den * spacing (num / den) * c :=
    Nat.mul_right_comm ..
  rw [roundToGrid, roundToGrid, value]
  simp only [step, Nat.mul_div_mul_right _ _ positive, Nat.mul_mod_mul_right, ← Nat.mul_assoc,
    Nat.mul_lt_mul_right positive, Nat.mul_left_inj (Nat.ne_of_gt positive)]

/-- A quotient is rounded to a number exactly if its grid point is below the overflow limit. -/
theorem rounded_eq_finite_iff {negative : Bool} {num den : Nat} {m : Magnitude} :
    rounded negative num den = finite negative m ↔ roundToGrid num den = m.units := by
  rw [rounded, Magnitude.round?]
  by_cases below : roundToGrid num den < unitLimit
  · rw [dif_pos below]
    simp [Magnitude.ext_iff]
  · rw [dif_neg below]
    have := m.lt_limit
    simp only [reduceCtorEq, false_iff]
    omega

/-- What is rounded keeps its sign, so a finite result is one of that sign. -/
theorem isFinite_rounded_iff {negative : Bool} {num den : Nat} :
    (rounded negative num den).isFinite = true ↔
      ∃ m, rounded negative num den = finite negative m := by
  rw [rounded]
  cases Magnitude.round? num den with
  | none => simp [isFinite]
  | some m => exact ⟨fun _ => ⟨m, rfl⟩, fun _ => rfl⟩

/-! ### Spacings next to a grid point -/

/-- The spacing is constant between two powers of two. -/
theorem spacing_of_binade {q bits : Nat} (lower : 2 ^ bits ≤ q) (upper : q < 2 ^ (bits + 1)) :
    spacing q = 2 ^ (bits - 52) := by
  have nonzero : q ≠ 0 := Nat.ne_of_gt (Nat.lt_of_lt_of_le (Nat.two_pow_pos bits) lower)
  rw [spacing, (Nat.log2_eq_iff nonzero).mpr ⟨lower, upper⟩]

/-- Two multiples of a number differ by at least that number. -/
theorem add_le_of_dvd {a b gap : Nat} (ha : gap ∣ a) (hb : gap ∣ b) (lt : a < b) :
    a + gap ≤ b := by
  obtain ⟨i, rfl⟩ := ha
  obtain ⟨j, rfl⟩ := hb
  have : i < j := Nat.lt_of_mul_lt_mul_left lt
  calc gap * i + gap = gap * (i + 1) := (Nat.mul_succ gap i).symm
    _ ≤ gap * j := Nat.mul_le_mul_left gap this

section Spacing

variable {units q : Nat} (nonzero : units ≠ 0) (grid : OnGrid units)
include nonzero grid

/-- Up to the next grid point the spacing is that of the grid point. -/
theorem spacing_above (le : units ≤ q) (lt : q < units + spacing units) :
    spacing q = spacing units := by
  have lower : 2 ^ units.log2 ≤ units := Nat.log2_self_le nonzero
  have next : units + spacing units ≤ 2 ^ (units.log2 + 1) :=
    add_le_of_dvd grid (Nat.pow_dvd_pow 2 (by omega)) Nat.lt_log2_self
  exact spacing_of_binade (Nat.le_trans lower le) (Nat.lt_of_lt_of_le lt next)

/-- So it is down to the previous grid point, unless that is in the binade below. -/
theorem spacing_below (inside : units ≠ 2 ^ units.log2 ∨ spacing units = 1) (lt : q < units)
    (le : units ≤ q + spacing units) : spacing q = spacing units := by
  rcases inside with inside | dense
  · have lower : 2 ^ units.log2 < units :=
      Nat.lt_of_le_of_ne (Nat.log2_self_le nonzero) (Ne.symm inside)
    have previous : 2 ^ units.log2 + spacing units ≤ units :=
      add_le_of_dvd (Nat.pow_dvd_pow 2 (Nat.sub_le ..)) grid lower
    exact spacing_of_binade (by omega) (Nat.lt_trans lt Nat.lt_log2_self)
  · have bits : units.log2 - 52 = 0 := by
      apply Nat.eq_zero_of_not_pos
      intro positive
      have := Nat.one_lt_two_pow (Nat.ne_of_gt positive)
      rw [spacing] at dense
      omega
    have small : units < 2 ^ 53 :=
      Nat.lt_of_lt_of_le Nat.lt_log2_self (Nat.pow_le_pow_right (by decide) (by omega))
    rw [dense, spacing_eq_one (Nat.lt_trans lt small)]

omit nonzero grid in
/-- Below a power of two the spacing is half as wide. -/
theorem spacing_below_two_pow (power : units = 2 ^ units.log2) (wide : 1 < spacing units)
    (lt : q < units) (le : units ≤ q + spacing units / 2) :
    2 * spacing q = spacing units := by
  have bits : 52 < units.log2 := by
    apply Nat.lt_of_not_le
    intro few
    rw [spacing, Nat.sub_eq_zero_of_le few] at wide
    exact Nat.lt_irrefl _ wide
  obtain ⟨b, eq⟩ : ∃ b, units.log2 = b + 1 := ⟨units.log2 - 1, by omega⟩
  have double : spacing units = 2 * 2 ^ (b - 52) := by
    rw [spacing, eq, ← Nat.pow_succ', Nat.succ_eq_add_one, Nat.sub_add_comm (by omega)]
  rw [eq] at power
  have gap_le : 2 ^ (b - 52) ≤ 2 ^ b := Nat.pow_le_pow_right (by decide) (Nat.sub_le ..)
  rw [@spacing_of_binade _ b (by rw [Nat.pow_succ] at power; omega) (power ▸ lt), double]

end Spacing

/-! ### The interval -/

/-- The distance of the previous grid point, as `Interval.ofUnits` has it. -/
def gapBelow (units : Nat) : Nat :=
  if units = 2 ^ units.log2 ∧ 1 < spacing units then spacing units / 2 else spacing units

theorem gapBelow_le (units : Nat) : gapBelow units ≤ spacing units := by
  rw [gapBelow]
  split
  · exact Nat.div_le_self ..
  · exact Nat.le_refl _

section Interval

variable {units num den : Nat} (nonzero : units ≠ 0) (grid : OnGrid units)
include nonzero grid

/-- The interval without its quarter units: half a gap to either side, and the ends only for an
even significand. -/
theorem contains_ofUnits_iff :
    ((Interval.ofUnits units).scale den).contains (4 * num) = true ↔
      2 * num ≤ 2 * (units * den) + den * spacing units ∧
        2 * (units * den) ≤ 2 * num + den * gapBelow units ∧
          (units / spacing units % 2 ≠ 0 →
            2 * num ≠ 2 * (units * den) + den * spacing units ∧
              2 * (units * den) ≠ 2 * num + den * gapBelow units) := by
  have lower : ((Interval.ofUnits units).scale den).lower =
      4 * (units * den) - 2 * (den * gapBelow units) := by
    show (4 * units - 2 * gapBelow units) * den = _
    rw [Nat.sub_mul, Nat.mul_assoc, Nat.mul_assoc, Nat.mul_comm den]
  have upper : ((Interval.ofUnits units).scale den).upper =
      4 * (units * den) + 2 * (den * spacing units) := by
    show (4 * units + 2 * spacing units) * den = _
    rw [Nat.add_mul, Nat.mul_assoc, Nat.mul_assoc, Nat.mul_comm den]
  have closed : ((Interval.ofUnits units).scale den).closed = false ↔
      units / spacing units % 2 ≠ 0 := decide_eq_false_iff_not
  -- The subtraction in the lower end does not cut off.
  have fits : den * gapBelow units ≤ units * den := by
    rw [Nat.mul_comm units]
    exact Nat.mul_le_mul_left den (Nat.le_trans (gapBelow_le units)
      (Nat.le_of_dvd (Nat.pos_of_ne_zero nonzero) grid))
  rw [Interval.contains_iff, lower, upper, closed]
  refine ⟨fun ⟨ge, le, ends⟩ => ⟨by omega, by omega, fun odd => ?_⟩,
    fun ⟨le, ge, ends⟩ => ⟨by omega, by omega, fun odd => ?_⟩⟩
  · have := ends odd
    omega
  · have := ends odd
    omega

omit nonzero in
/-- The magnitude as a number of steps. -/
theorem units_mul_eq : units * den = units / spacing units * (den * spacing units) := by
  calc units * den = units / spacing units * spacing units * den := by rw [Nat.div_mul_cancel grid]
    _ = units / spacing units * (den * spacing units) := by
      rw [Nat.mul_assoc, Nat.mul_comm (spacing units)]

omit nonzero in
/-- Where the grid around the quotient is that around the magnitude, the steps are counted in it. -/
theorem roundToGrid_of_same_spacing (positive : 0 < den)
    (around : spacing (num / den) = spacing units)
    (near : NearMultiple num (den * spacing units) (units / spacing units)) :
    roundToGrid num den = units := by
  rw [roundToGrid_of_nearMultiple positive (around.symm ▸ near), around, Nat.div_mul_cancel grid]

omit nonzero in
/-- Where it is twice as fine there are twice as many steps, and the magnitude wins every tie. -/
theorem roundToGrid_of_half_spacing (positive : 0 < den)
    (around : 2 * spacing (num / den) = spacing units)
    (not_above : num ≤ units * den)
    (not_below : 2 * (units * den) ≤ 2 * num + den * spacing (num / den)) :
    roundToGrid num den = units := by
  have double : units * den = 2 * (units / spacing units) * (den * spacing (num / den)) := by
    calc units * den = units / spacing units * (den * spacing units) := units_mul_eq grid
      _ = units / spacing units * (den * (2 * spacing (num / den))) := by rw [around]
      _ = 2 * (units / spacing units) * (den * spacing (num / den)) := by ac_rfl
  have near : NearMultiple num (den * spacing (num / den)) (2 * (units / spacing units)) := by
    rw [double] at not_above not_below
    exact ⟨by omega, not_below, fun _ => Nat.mul_mod_right 2 _⟩
  rw [roundToGrid_of_nearMultiple positive near, Nat.mul_right_comm, around, Nat.mul_comm,
    Nat.div_mul_cancel grid]

/-- **A quotient in the interval of a magnitude rounds to it.**  From above the grid around the
quotient is that of the magnitude.  From below it is that too or, under a power of two, one twice
as fine. -/
theorem roundToGrid_of_contains (positive : 0 < den)
    (inside : ((Interval.ofUnits units).scale den).contains (4 * num) = true) :
    roundToGrid num den = units := by
  obtain ⟨not_above, not_below, ends⟩ := (contains_ofUnits_iff nonzero grid).mp inside
  have steps := @units_mul_eq units den grid
  by_cases above : units * den ≤ num
  · have around : spacing (num / den) = spacing units := by
      refine spacing_above nonzero grid ((Nat.le_div_iff_mul_le positive).mpr above) ?_
      rw [Nat.div_lt_iff_lt_mul positive, Nat.add_mul, Nat.mul_comm (spacing units)]
      have := Nat.mul_pos positive (spacing_pos units)
      omega
    have below_le := Nat.mul_le_mul_left den (gapBelow_le units)
    rw [steps] at not_above not_below ends above
    exact roundToGrid_of_same_spacing grid positive around
      ⟨not_above, by omega, fun _ => by omega⟩
  · have lt : num / den < units := (Nat.div_lt_iff_lt_mul positive).mpr (Nat.lt_of_not_le above)
    have previous : units ≤ num / den + gapBelow units := by
      refine Nat.le_of_lt_succ (Nat.lt_of_mul_lt_mul_left (a := den) ?_)
      have division := Nat.div_add_mod num den
      have remainder := Nat.mod_lt num positive
      rw [Nat.succ_eq_add_one, Nat.mul_add, Nat.mul_add, Nat.mul_one, Nat.mul_comm den units]
      have gap_le := Nat.mul_le_mul_left den (gapBelow_le units)
      omega
    by_cases power : units = 2 ^ units.log2 ∧ 1 < spacing units
    · have half : gapBelow units = spacing units / 2 := if_pos power
      rw [half] at previous not_below
      have around := spacing_below_two_pow power.1 power.2 lt previous
      rw [← around, Nat.mul_div_cancel_left _ (by decide)] at not_below
      exact roundToGrid_of_half_spacing grid positive around (Nat.le_of_not_le above) not_below
    · have whole : gapBelow units = spacing units := if_neg power
      rw [whole] at previous not_below ends
      have inside : units ≠ 2 ^ units.log2 ∨ spacing units = 1 := by
        have := spacing_pos units
        omega
      have around := spacing_below nonzero grid inside lt previous
      rw [steps] at not_above not_below ends above
      exact roundToGrid_of_same_spacing grid positive around
        ⟨not_above, not_below, fun _ => by omega⟩

end Interval

end Binary64

end SparsePoly
