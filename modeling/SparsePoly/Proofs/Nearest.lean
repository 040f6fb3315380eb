import SparsePoly.Decimal.Numeral
import SparsePoly.Proofs.Rounding

/-!
# Rounding is to the nearest

`IsNearest` says what rounding to nearest, ties to even, has to achieve, with no word on how:
among *all* grid points the answer is the closest one, and if it is not the only closest one its
significand is even.  `roundToGrid` is the one function that does.

A quotient lies between two multiples of the spacing around it, and no other grid point lies
between those (`le_pointBelow_or_pointAbove_le`).  So only the two compete, and a tie is decided
by the parity of the lower multiple.

## Main statements

* `roundToGrid_eq_iff` - `roundToGrid` answers with the nearest grid point, and only with it
* `Numeral.value_eq_finite_iff` - the value of a numeral is the number nearest to its fraction
-/

namespace SparsePoly

namespace Binary64

/-- The distance of the grid point `g` from `num / den`, times `den`. -/
def distance (num den g : Nat) : Nat := ((num : Int) - (g * den : Nat)).natAbs

/-- **The nearest grid point**: no other is closer, and if another is as close the significand is
even. -/
structure IsNearest (num den r : Nat) : Prop where
  onGrid : OnGrid r
  closest : ∀ g, OnGrid g → distance num den r ≤ distance num den g
  even_of_tie : ∀ g, OnGrid g → g ≠ r → distance num den r = distance num den g →
    r / spacing r % 2 = 0

/-! ### The two grid points around a quotient -/

/-- How many spacings lie below a quotient. -/
def stepsBelow (num den : Nat) : Nat := num / (den * spacing (num / den))

/-- The neighbour below a quotient. -/
def pointBelow (num den : Nat) : Nat := stepsBelow num den * spacing (num / den)

/-- The neighbour above it. -/
def pointAbove (num den : Nat) : Nat := (stepsBelow num den + 1) * spacing (num / den)

section Around

variable {num den : Nat}

theorem stepsBelow_eq : stepsBelow num den = num / den / spacing (num / den) :=
  (Nat.div_div_eq_div_mul ..).symm

/-- A quotient below `2 ^ 53` is among the whole numbers; above, both of its neighbours lie in its
binade, the upper one perhaps at its end. -/
theorem spacing_one_or_binade (q : Nat) :
    spacing q = 1 ∧ q < 2 ^ 53 ∨
      ∃ bits, spacing q = 2 ^ (bits - 52) ∧ 52 < bits ∧
        2 ^ bits ≤ q / spacing q * spacing q ∧
          (q / spacing q + 1) * spacing q ≤ 2 ^ (bits + 1) := by
  rcases Nat.lt_or_ge q (2 ^ 53) with small | large
  · exact Or.inl ⟨spacing_eq_one small, small⟩
  · have nonzero : q ≠ 0 := Nat.ne_of_gt (Nat.lt_of_lt_of_le (by decide) large)
    have bits : 53 ≤ q.log2 := (Nat.le_log2 nonzero).mpr large
    refine Or.inr ⟨q.log2, rfl, bits, ?_, ?_⟩
    · obtain ⟨k, eq⟩ : spacing q ∣ 2 ^ q.log2 := Nat.pow_dvd_pow 2 (Nat.sub_le ..)
      have le : k ≤ q / spacing q := by
        rw [Nat.le_div_iff_mul_le (spacing_pos q), Nat.mul_comm, ← eq]
        exact Nat.log2_self_le nonzero
      rw [eq, Nat.mul_comm]
      exact Nat.mul_le_mul_right _ le
    · rw [Nat.add_mul, Nat.one_mul]
      refine add_le_of_dvd (Nat.dvd_mul_left ..) (Nat.pow_dvd_pow 2 (by omega)) ?_
      exact Nat.lt_of_le_of_lt (Nat.div_mul_le_self ..) Nat.lt_log2_self

/-- **Neighbours.**  No grid point lies between the two multiples of the spacing around a
quotient. -/
theorem le_pointBelow_or_pointAbove_le (num den : Nat) {g : Nat} (grid : OnGrid g) :
    g ≤ pointBelow num den ∨ pointAbove num den ≤ g := by
  rw [pointBelow, pointAbove, stepsBelow_eq]
  generalize num / den = q
  rcases spacing_one_or_binade q with ⟨dense, _⟩ | ⟨bits, gap, _, lower, upper⟩
  · rw [dense]
    omega
  · refine Classical.or_iff_not_imp_left.mpr ?_
    intro above
    by_cases inside : g < 2 ^ (bits + 1)
    · have same : spacing g = spacing q := by
        rw [gap]
        exact spacing_of_binade (by omega) inside
      rw [Nat.add_mul, Nat.one_mul]
      exact add_le_of_dvd (Nat.dvd_mul_left ..) (same ▸ grid) (Nat.lt_of_not_le above)
    · exact Nat.le_trans upper (Nat.le_of_not_lt inside)

/-- The significand of the lower neighbour. -/
theorem significand_pointBelow :
    pointBelow num den / spacing (pointBelow num den) = stepsBelow num den := by
  have same : spacing (pointBelow num den) = spacing (num / den) := by
    rw [pointBelow, stepsBelow_eq]
    generalize num / den = q
    have le := Nat.div_mul_le_self q (spacing q)
    rcases spacing_one_or_binade q with ⟨dense, small⟩ | ⟨bits, gap, _, lower, upper⟩
    · rw [dense] at le ⊢
      exact spacing_eq_one (Nat.lt_of_le_of_lt le small)
    · rw [Nat.add_mul, Nat.one_mul] at upper
      have := spacing_pos q
      rw [spacing_of_binade lower (by omega), gap]
  rw [same, pointBelow, Nat.mul_div_cancel _ (spacing_pos _)]

/-- The significand of the upper neighbour has the parity of its number of steps, because at the
end of a binade both are powers of two. -/
theorem significand_pointAbove_mod_two :
    pointAbove num den / spacing (pointAbove num den) % 2 = (stepsBelow num den + 1) % 2 := by
  rw [pointAbove, stepsBelow_eq]
  generalize num / den = q
  have gap_pos := spacing_pos q
  have two_pow (e : Nat) : 2 ^ (e + 1) % 2 = 0 := by rw [Nat.pow_succ, Nat.mul_mod_left]
  rcases spacing_one_or_binade q with ⟨dense, small⟩ | ⟨bits, gap, wide, lower, upper⟩
  · rw [dense, Nat.div_one, Nat.mul_one]
    rcases Nat.lt_or_ge (q + 1) (2 ^ 53) with inside | last
    · rw [spacing_eq_one inside, Nat.div_one]
    · rw [show q + 1 = 2 ^ 53 by omega]
      decide +kernel
  · rcases Nat.lt_or_eq_of_le upper with inside | last
    · have same : spacing ((q / spacing q + 1) * spacing q) = spacing q := by
        rw [Nat.add_mul, Nat.one_mul] at inside ⊢
        rw [@spacing_of_binade _ bits (by omega) inside, gap]
      rw [same, Nat.mul_div_cancel _ gap_pos]
    · have steps : q / spacing q + 1 = 2 ^ (52 + 1) := by
        refine Nat.eq_of_mul_eq_mul_right gap_pos ?_
        rw [last, gap, ← Nat.pow_add]
        congr 1
        omega
      have double : spacing (2 ^ (bits + 1)) = 2 ^ (bits + 1 - 52) := by
        rw [spacing, Nat.log2_two_pow]
      rw [last, double, Nat.pow_div (by omega) (by decide), steps, two_pow,
        show bits + 1 - (bits + 1 - 52) = 51 + 1 by omega, two_pow]

end Around

/-! ### The nearest of the two -/

section Nearest

variable {num den : Nat}

theorem distance_of_le {g : Nat} (le : g * den ≤ num) : distance num den g = num - g * den := by
  rw [distance]
  omega

theorem distance_of_ge {g : Nat} (ge : num ≤ g * den) : distance num den g = g * den - num := by
  rw [distance]
  omega

theorem pointBelow_mul :
    pointBelow num den * den = stepsBelow num den * (den * spacing (num / den)) := by
  rw [pointBelow]
  ac_rfl

theorem pointAbove_mul :
    pointAbove num den * den = (stepsBelow num den + 1) * (den * spacing (num / den)) := by
  rw [pointAbove]
  ac_rfl

theorem pointBelow_le : pointBelow num den * den ≤ num := by
  rw [pointBelow_mul, stepsBelow]
  exact Nat.div_mul_le_self ..

variable (positive : 0 < den)
include positive

theorem lt_pointAbove : num < pointAbove num den * den := by
  rw [pointAbove_mul, stepsBelow, Nat.add_mul, Nat.one_mul]
  exact Nat.lt_div_mul_add (Nat.mul_pos positive (spacing_pos _))

/-- Beyond the neighbours the distance grows. -/
theorem distance_lt_of_lt_pointBelow {g : Nat} (lt : g < pointBelow num den) :
    distance num den (pointBelow num den) < distance num den g := by
  have le := @pointBelow_le num den
  have closer := Nat.mul_lt_mul_of_pos_right lt positive
  rw [distance_of_le le, distance_of_le (by omega)]
  omega

theorem distance_lt_of_pointAbove_lt {g : Nat} (lt : pointAbove num den < g) :
    distance num den (pointAbove num den) < distance num den g := by
  have le := @lt_pointAbove num den positive
  have closer := Nat.mul_lt_mul_of_pos_right lt positive
  rw [distance_of_ge (Nat.le_of_lt le), distance_of_ge (by omega)]
  omega

/-- **Rounding compares two distances**, and in a tie looks at the number of steps. -/
theorem roundToGrid_eq_nearer :
    roundToGrid num den =
      if distance num den (pointAbove num den) < distance num den (pointBelow num den) ∨
          (distance num den (pointAbove num den) = distance num den (pointBelow num den) ∧
            stepsBelow num den % 2 = 1) then
        pointAbove num den
      else
        pointBelow num den := by
  have division := Nat.div_add_mod num (den * spacing (num / den))
  rw [distance_of_ge (Nat.le_of_lt (lt_pointAbove positive)), distance_of_le pointBelow_le,
    pointAbove_mul, pointBelow_mul, roundToGrid]
  show (if _ < 2 * (num % _) ∨ 2 * (num % _) = _ ∧ stepsBelow num den % 2 = 1 then
    pointAbove num den else pointBelow num den) = _
  rw [← stepsBelow, Nat.mul_comm] at division
  rw [Nat.add_mul, Nat.one_mul]
  refine ite_congr (propext ?_) (fun _ => rfl) fun _ => rfl
  omega

/-- Every other grid point is farther than one of the neighbours. -/
theorem neighbour_or_farther {g : Nat} (grid : OnGrid g) :
    (g = pointBelow num den ∨ distance num den (pointBelow num den) < distance num den g) ∨
      g = pointAbove num den ∨ distance num den (pointAbove num den) < distance num den g := by
  rcases le_pointBelow_or_pointAbove_le num den grid with le | ge
  · refine Or.inl ((Nat.lt_or_eq_of_le le).symm.imp_right ?_)
    intro lt
    exact distance_lt_of_lt_pointBelow positive lt
  · refine Or.inr ((Nat.lt_or_eq_of_le ge).symm.imp Eq.symm ?_)
    intro lt
    exact distance_lt_of_pointAbove_lt positive lt

/-- The point that is answered, with its distance and the parity that lets it win a tie. -/
theorem roundToGrid_cases :
    (roundToGrid num den = pointAbove num den ∧
        distance num den (pointAbove num den) ≤ distance num den (pointBelow num den) ∧
          (distance num den (pointAbove num den) = distance num den (pointBelow num den) →
            stepsBelow num den % 2 = 1)) ∨
      roundToGrid num den = pointBelow num den ∧
        distance num den (pointBelow num den) ≤ distance num den (pointAbove num den) ∧
          (distance num den (pointAbove num den) = distance num den (pointBelow num den) →
            stepsBelow num den % 2 = 0) := by
  rw [roundToGrid_eq_nearer positive]
  split
  · exact Or.inl ⟨rfl, by omega, fun _ => by omega⟩
  · exact Or.inr ⟨rfl, by omega, fun _ => by omega⟩

theorem isNearest_roundToGrid : IsNearest num den (roundToGrid num den) := by
  have farther := fun g => @neighbour_or_farther num den positive g
  have below := @significand_pointBelow num den
  have above := @significand_pointAbove_mod_two num den
  rcases @roundToGrid_cases num den positive with ⟨eq, le, tie⟩ | ⟨eq, le, tie⟩
  · refine ⟨onGrid_roundToGrid num den, fun g grid => ?_, fun g grid other same => ?_⟩ <;>
      rw [eq] at * <;>
      rcases farther g grid with (rfl | far) | (rfl | far)
    · exact le
    · omega
    · exact Nat.le_refl _
    · omega
    · have := tie same
      omega
    · omega
    · exact absurd rfl other
    · omega
  · refine ⟨onGrid_roundToGrid num den, fun g grid => ?_, fun g grid other same => ?_⟩ <;>
      rw [eq] at * <;>
      rcases farther g grid with (rfl | far) | (rfl | far)
    · exact Nat.le_refl _
    · omega
    · exact le
    · omega
    · exact absurd rfl other
    · omega
    · rw [below]
      exact tie same.symm
    · omega

/-- Two nearest points would be neighbours with even significands. -/
theorem eq_roundToGrid_of_isNearest {r : Nat} (near : IsNearest num den r) :
    roundToGrid num den = r := by
  apply Classical.byContradiction
  intro ne
  have answer := @isNearest_roundToGrid num den positive
  have same : distance num den (roundToGrid num den) = distance num den r :=
    Nat.le_antisymm (answer.closest r near.onGrid) (near.closest _ answer.onGrid)
  have even := answer.even_of_tie r near.onGrid (Ne.symm ne) same
  have even' := near.even_of_tie _ answer.onGrid ne same.symm
  have below := @significand_pointBelow num den
  have above := @significand_pointAbove_mod_two num den
  rcases @roundToGrid_cases num den positive with ⟨eq, le, _⟩ | ⟨eq, le, _⟩ <;>
    rw [eq] at ne same even <;>
    rcases @neighbour_or_farther num den positive _ near.onGrid with (rfl | far) | (rfl | far)
  · rw [below] at even'
    omega
  · omega
  · exact ne rfl
  · omega
  · exact ne rfl
  · omega
  · rw [below] at even
    omega
  · omega

/-- **`roundToGrid` answers with the nearest grid point, and only with it.** -/
theorem roundToGrid_eq_iff {r : Nat} : roundToGrid num den = r ↔ IsNearest num den r := by
  refine ⟨?_, eq_roundToGrid_of_isNearest positive⟩
  rintro rfl
  exact isNearest_roundToGrid positive

end Nearest

end Binary64

open Binary64

/-- The magnitude nearest to the fraction of a numeral. -/
def Numeral.RoundsTo (n : Numeral) (m : Magnitude) : Prop :=
  IsNearest (n.digits * unitsPerOne) (10 ^ n.places) m.units

theorem Numeral.isFinite_value_iff {n : Numeral} :
    n.value.isFinite = true ↔ ∃ m, n.value = .finite false m := by
  rw [Numeral.value]
  exact isFinite_rounded_iff

/-- **The value of a numeral** is the number nearest to its fraction, if there is one. -/
theorem Numeral.value_eq_finite_iff {n : Numeral} {m : Magnitude} :
    n.value = .finite false m ↔ n.RoundsTo m := by
  rw [Numeral.value, rounded_eq_finite_iff]
  exact roundToGrid_eq_iff (Nat.pow_pos (by decide))

end SparsePoly
