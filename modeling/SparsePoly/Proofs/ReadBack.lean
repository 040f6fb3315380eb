import SparsePoly.Decimal.Text
import SparsePoly.Proofs.Rounding

/-!
# Numbers read back

The text of a finite number, without its sign, is a numeral with the number for its value.  Two
facts meet here:

* the search for the shortest decimal ends inside the interval of the magnitude, because the finest
  grid has a point there (`onGrid?_finestStep_isSome`);
* positional notation loses nothing: the text of a decimal is a numeral for the same fraction
  (`read?_text`).

## Main statements

* `Binary64.Magnitude.read?_text` - the text of a magnitude is a numeral whose value is it
-/

namespace SparsePoly

open Binary64

namespace Decimal

/-! ### The search ends in the interval -/

theorem contains_of_onGrid? {i : Interval} {centre step digits : Nat}
    (hit : onGrid? i centre step = some digits) : i.contains (digits * step) = true := by
  rw [onGrid?] at hit
  cases below : i.contains (centre / step * step) <;>
    cases above : i.contains ((centre / step + 1) * step) <;>
    simp only [below, above, reduceCtorEq, Option.some.injEq] at hit
  · rwa [← hit]
  · rwa [← hit]
  · rw [← hit]
    split
    · exact below
    · exact above

/-- If the finest grid meets the interval, the point that is found lies in it, whichever grid it
comes from. -/
theorem contains_search {i : Interval} {centre : Nat}
    (finest : (onGrid? i centre finestStep).isSome = true) (coarsest : Nat) :
    ∃ k : Nat, (search i centre coarsest).exponent = k - (finestPlaces : Int) ∧
      i.contains ((search i centre coarsest).digits * (finestStep * 10 ^ k)) = true := by
  induction coarsest with
  | zero =>
    obtain ⟨digits, hit⟩ := Option.isSome_iff_exists.mp finest
    refine ⟨0, by simp [search], ?_⟩
    rw [search, hit, Nat.pow_zero, Nat.mul_one]
    exact contains_of_onGrid? hit
  | succ k ih =>
    rw [search]
    split
    · rename_i digits hit
      exact ⟨k + 1, rfl, contains_of_onGrid? hit⟩
    · exact ih

/-- Two steps of the finest grid are less than one unit. -/
theorem two_mul_unitsPerOne_lt : 2 * unitsPerOne < 10 ^ finestPlaces := by
  rw [unitsPerOne, unitExponent, finestPlaces]
  decide +kernel

/-- **The finest grid meets every interval**, in its first point above the magnitude. -/
theorem onGrid?_finestStep_isSome {units : Nat} (nonzero : units ≠ 0) (grid : OnGrid units) :
    (onGrid? ((Interval.ofUnits units).scale (10 ^ finestPlaces)) (4 * units * 10 ^ finestPlaces)
      finestStep).isSome = true := by
  have fine := two_mul_unitsPerOne_lt
  have positive := unitsPerOne_pos
  have gap_pos := spacing_pos units
  generalize 10 ^ finestPlaces = den at fine ⊢
  have division := Nat.div_add_mod (4 * units * den) finestStep
  have step_pos : 0 < finestStep := Nat.mul_pos (by decide) positive
  have remainder := Nat.mod_lt (4 * units * den) step_pos
  have hit : ((Interval.ofUnits units).scale den).contains
      ((4 * units * den / finestStep + 1) * finestStep) = true := by
    generalize 4 * units * den / finestStep = k at division ⊢
    generalize 4 * units * den % finestStep = rest at division remainder
    have point : (k + 1) * finestStep = 4 * ((k + 1) * unitsPerOne) := by
      rw [finestStep]
      ac_rfl
    rw [point, contains_ofUnits_iff nonzero grid]
    have wide : den ≤ den * spacing units := Nat.le_mul_of_pos_right den gap_pos
    have expand : (k + 1) * unitsPerOne = k * unitsPerOne + unitsPerOne := by
      rw [Nat.add_mul, Nat.one_mul]
    rw [finestStep, Nat.mul_assoc 4, Nat.mul_comm unitsPerOne] at division
    rw [finestStep] at remainder
    rw [Nat.mul_assoc] at division
    exact ⟨by omega, by omega, fun _ => by omega⟩
  rw [onGrid?, hit]
  generalize 4 * units * den / finestStep * finestStep = below
  cases ((Interval.ofUnits units).scale den).contains below <;> rfl

/-! ### Positional notation -/

private theorem isDigit_toDigits (n : Nat) : ∀ c ∈ Nat.toDigits 10 n, c.isDigit = true :=
  fun _ mem => Nat.isDigit_of_mem_toDigits (by decide) (by decide) mem

private theorem isDigit_zeros (count : Nat) :
    ∀ c ∈ List.replicate count '0', c.isDigit = true := by
  intro c mem
  rw [List.eq_of_mem_replicate mem]
  rfl

/-- Digits with leading zeros: which number they denote, how many there are. -/
theorem paddedDigits_spec (width n : Nat) :
    Numeral.natOfDigits (paddedDigits width n) = n ∧ width ≤ (paddedDigits width n).length ∧
      ∀ c ∈ paddedDigits width n, c.isDigit = true := by
  refine ⟨?_, ?_, fun c mem => ?_⟩
  · rw [paddedDigits, Numeral.natOfDigits, Nat.ofDigitChars_append, Nat.ofDigitChars_replicate_zero,
      Nat.mul_zero]
    exact Numeral.natOfDigits_toDigits n
  · rw [paddedDigits, List.length_append, List.length_replicate]
    omega
  · rcases List.mem_append.mp mem with mem | mem
    · exact isDigit_zeros _ c mem
    · exact isDigit_toDigits n c mem

/-- A numeral and a decimal are the same fraction. -/
def Denotes (d : Decimal) (n : Numeral) : Prop :=
  n.digits * 10 ^ (-d.exponent).toNat = d.digits * 10 ^ d.exponent.toNat * 10 ^ n.places

/-- **Positional notation is a numeral for the same fraction.** -/
theorem read?_text (d : Decimal) : ∃ n, Numeral.read? d.text = some n ∧ d.Denotes n := by
  obtain ⟨digits, exponent⟩ := d
  cases exponent with
  | ofNat zeros =>
    have all : ∀ c ∈ Nat.toDigits 10 digits ++ List.replicate zeros '0', c.isDigit = true :=
      fun c mem => (List.mem_append.mp mem).elim (isDigit_toDigits digits c) (isDigit_zeros zeros c)
    have nonempty : Nat.toDigits 10 digits ++ List.replicate zeros '0' ≠ [] := by
      simp [Nat.toDigits_ne_nil]
    refine ⟨_, Numeral.read?_digits nonempty all, ?_⟩
    have negative : (-(zeros : Int)).toNat = 0 := by omega
    show Nat.ofDigitChars 10 (Nat.toDigits 10 digits ++ List.replicate zeros '0') 0 *
      10 ^ (-(zeros : Int)).toNat = digits * 10 ^ zeros * 10 ^ 0
    rw [negative, Nat.ofDigitChars_append, Nat.ofDigitChars_replicate_zero,
      Nat.ofDigitChars_ten_toDigits, Nat.mul_comm digits]
  | negSucc k =>
    obtain ⟨denoted, long, all⟩ := paddedDigits_spec (k + 2) digits
    have read : Numeral.read? (text ⟨digits, .negSucc k⟩) = _ :=
      @Numeral.read?_point ((paddedDigits (k + 2) digits).take _)
        ((paddedDigits (k + 2) digits).drop _)
        (by rw [List.take_append_drop]; exact List.ne_nil_of_length_pos (by omega))
        (fun c mem => all c (List.mem_of_mem_take mem))
        (fun c mem => all c (List.mem_of_mem_drop mem))
    rw [List.take_append_drop, denoted, List.length_drop] at read
    refine ⟨_, read, ?_⟩
    have places : (paddedDigits (k + 2) digits).length -
        ((paddedDigits (k + 2) digits).length - (k + 1)) = k + 1 := by omega
    rw [places]
    show digits * 10 ^ (k + 1) = digits * 10 ^ 0 * 10 ^ (k + 1)
    rw [Nat.pow_zero, Nat.mul_one]

end Decimal

/-! ### The value -/

/-- A decimal in the interval of a magnitude has it for its value, in every numeral. -/
private theorem value_eq_finite {m : Magnitude} (nonzero : m.units ≠ 0) {d : Decimal} {n : Numeral}
    {k : Nat} (same : d.Denotes n) (exponent : d.exponent = k - (Decimal.finestPlaces : Int))
    (inside : ((Interval.ofUnits m.units).scale (10 ^ Decimal.finestPlaces)).contains
      (d.digits * (Decimal.finestStep * 10 ^ k)) = true) :
    n.value = finite false m := by
  have ten_pos (e : Nat) : 0 < 10 ^ e := Nat.pow_pos (by decide)
  -- The two exponents that the decimal splits into, up to a common summand.
  obtain ⟨r, finest, grid⟩ : ∃ r : Nat,
      Decimal.finestPlaces = (-d.exponent).toNat + r ∧ k = d.exponent.toNat + r :=
    ⟨k - d.exponent.toNat, by omega, by omega⟩
  have scaled : n.digits * 10 ^ Decimal.finestPlaces = d.digits * 10 ^ k * 10 ^ n.places := by
    calc n.digits * 10 ^ Decimal.finestPlaces
        = n.digits * 10 ^ (-d.exponent).toNat * 10 ^ r := by rw [finest, Nat.pow_add, Nat.mul_assoc]
      _ = d.digits * 10 ^ d.exponent.toNat * 10 ^ n.places * 10 ^ r := by rw [same]
      _ = d.digits * 10 ^ k * 10 ^ n.places := by
        rw [grid, Nat.pow_add, Nat.mul_right_comm, Nat.mul_assoc d.digits]
  refine rounded_eq_finite_iff.mpr ?_
  calc roundToGrid (n.digits * unitsPerOne) (10 ^ n.places)
      = roundToGrid (n.digits * unitsPerOne * 10 ^ Decimal.finestPlaces)
          (10 ^ n.places * 10 ^ Decimal.finestPlaces) := (roundToGrid_mul (ten_pos _)).symm
    _ = roundToGrid (d.digits * unitsPerOne * 10 ^ k * 10 ^ n.places)
          (10 ^ Decimal.finestPlaces * 10 ^ n.places) := by
        rw [Nat.mul_right_comm, scaled, Nat.mul_comm (10 ^ n.places)]
        congr 1
        ac_rfl
    _ = roundToGrid (d.digits * unitsPerOne * 10 ^ k) (10 ^ Decimal.finestPlaces) :=
        roundToGrid_mul (ten_pos _)
    _ = m.units := by
        refine roundToGrid_of_contains nonzero m.onGrid (ten_pos _) ?_
        rw [← inside, Decimal.finestStep]
        congr 1
        ac_rfl

/-- **The text of a magnitude is a numeral whose value is it.** -/
theorem Binary64.Magnitude.read?_text (m : Magnitude) :
    ∃ n, Numeral.read? m.text = some n ∧ n.value = finite false m := by
  rw [Magnitude.text]
  by_cases zero : m.units = 0
  · rw [if_pos zero]
    refine ⟨⟨0, 0⟩, rfl, ?_⟩
    rw [Numeral.value, Nat.zero_mul, rounded_zero]
    exact congrArg (finite false) (Magnitude.ext zero.symm)
  · rw [if_neg zero]
    obtain ⟨n, read, same⟩ := (Decimal.shortest m).read?_text
    obtain ⟨k, exponent, inside⟩ :=
      Decimal.contains_search (Decimal.onGrid?_finestStep_isSome zero m.onGrid) _
    exact ⟨n, read, value_eq_finite zero same exponent inside⟩

end SparsePoly
