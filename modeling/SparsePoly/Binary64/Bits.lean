import SparsePoly.Binary64.Basic

/-!
# Bit patterns of binary64 numbers

The interchange format: a sign bit, eleven exponent bits and fifty-two fraction bits, from the
most significant down.  `Binary64.ofBits` reads every word, all NaN patterns as the one NaN;
`Binary64.toBits` writes the word of a number, a NaN as the quiet one without sign or payload.

## Main statements

* `Binary64.ofBits_toBits` - reading undoes writing, for every number
-/

namespace SparsePoly

namespace Binary64

/-! ### Words and their fields -/

/-- The magnitude with a biased exponent below `2047` and a fraction of 52 bits.  Exponent zero is
the subnormal range; above it a leading bit is implied and each step doubles the unit. -/
def Magnitude.ofFields (exponent fraction : Nat) (exponent_lt : exponent < 2047)
    (fraction_lt : fraction < 2 ^ 52) : Magnitude :=
  if exponent = 0 then
    { units := fraction
      onGrid := by
        have grid := @onGrid_mul_two_pow fraction (by omega) 0
        rwa [Nat.pow_zero, Nat.mul_one] at grid
      lt_limit := Nat.lt_trans fraction_lt
        (Nat.pow_lt_pow_right (by decide) (by unfold limitExponent; decide)) }
  else
    { units := (2 ^ 52 + fraction) * 2 ^ (exponent - 1)
      onGrid := onGrid_mul_two_pow (by omega) _
      lt_limit := by
        have le : 53 + (exponent - 1) ≤ limitExponent := by unfold limitExponent; omega
        have lt : (2 ^ 52 + fraction) * 2 ^ (exponent - 1) < 2 ^ 53 * 2 ^ (exponent - 1) :=
          Nat.mul_lt_mul_of_pos_right (by omega) (Nat.two_pow_pos _)
        rw [← Nat.pow_add] at lt
        exact Nat.lt_of_lt_of_le lt (Nat.pow_le_pow_right (by decide) le) }

/-- The sign bit of a word. -/
def signField (word : UInt64) : Bool := decide (2 ^ 63 ≤ word.toNat)

/-- The eleven exponent bits of a word. -/
def exponentField (word : UInt64) : Nat := word.toNat / 2 ^ 52 % 2048

/-- The fifty-two fraction bits of a word. -/
def fractionField (word : UInt64) : Nat := word.toNat % 2 ^ 52

theorem fractionField_lt (word : UInt64) : fractionField word < 2 ^ 52 :=
  Nat.mod_lt _ (Nat.two_pow_pos 52)

/-- Reads a word. -/
def ofBits (word : UInt64) : Binary64 :=
  if lt : exponentField word < 2047 then
    finite (signField word) (Magnitude.ofFields _ _ lt (fractionField_lt word))
  else if fractionField word = 0 then
    infinity (signField word)
  else
    nan

/-- The sign bit, in its place. -/
private def signBit (negative : Bool) : Nat := if negative then 2 ^ 63 else 0

/-- The sixty-three bits of a magnitude.  Below `2 ^ 52` units they are the units; above, the
exponent field is one more than the exponent of the spacing, and the leading bit of the
significand carries into it. -/
def Magnitude.toBits (m : Magnitude) : Nat :=
  let shift := m.units.log2 - 52
  shift * 2 ^ 52 + m.units / 2 ^ shift

/-- Writes the word. -/
def toBits : Binary64 → UInt64
  | nan => 0x7ff8000000000000
  | infinity negative => UInt64.ofNat (signBit negative + 2047 * 2 ^ 52)
  | finite negative magnitude => UInt64.ofNat (signBit negative + magnitude.toBits)

/-! ### Reading undoes writing -/

/-- The significand of a magnitude, its number of spacings, has at most 53 bits, and all of them
once the spacing exceeds one. -/
private theorem Magnitude.significand_bounds (m : Magnitude) :
    m.units / 2 ^ (m.units.log2 - 52) < 2 ^ 53 ∧
      (2 ^ 52 ≤ m.units → 2 ^ 52 ≤ m.units / 2 ^ (m.units.log2 - 52)) := by
  constructor
  · rw [Nat.div_lt_iff_lt_mul (Nat.two_pow_pos _), ← Nat.pow_add]
    exact Nat.lt_of_lt_of_le Nat.lt_log2_self (Nat.pow_le_pow_right (by decide) (by omega))
  · intro large
    have nonzero : m.units ≠ 0 := by omega
    have bits : 52 ≤ m.units.log2 := (Nat.le_log2 nonzero).mpr large
    rw [Nat.le_div_iff_mul_le (Nat.two_pow_pos _), ← Nat.pow_add, Nat.add_sub_cancel' bits]
    exact Nat.log2_self_le nonzero

private theorem Magnitude.log2_le (m : Magnitude) : m.units.log2 ≤ 2097 := by
  by_cases zero : m.units = 0
  · simp [zero]
  · have lt := (Nat.log2_lt zero).mpr m.lt_limit
    unfold limitExponent at lt
    omega

theorem Magnitude.toBits_lt (m : Magnitude) : m.toBits < 2047 * 2 ^ 52 := by
  have lt := m.significand_bounds.1
  have le := m.log2_le
  unfold Magnitude.toBits
  simp only
  omega

/-- **The fields of a magnitude give it back.** -/
private theorem Magnitude.ofFields_toBits (m : Magnitude) (exponent_lt : m.toBits / 2 ^ 52 < 2047)
    (fraction_lt : m.toBits % 2 ^ 52 < 2 ^ 52) :
    ofFields (m.toBits / 2 ^ 52) (m.toBits % 2 ^ 52) exponent_lt fraction_lt = m := by
  have ⟨lt, le⟩ := m.significand_bounds
  have whole : m.units / 2 ^ (m.units.log2 - 52) * 2 ^ (m.units.log2 - 52) = m.units :=
    Nat.div_mul_cancel m.onGrid
  apply Magnitude.ext
  by_cases large : 2 ^ 52 ≤ m.units
  · have exponent : m.toBits / 2 ^ 52 = m.units.log2 - 52 + 1 := by
      have := le large
      unfold Magnitude.toBits
      simp only
      omega
    have fraction : 2 ^ 52 + m.toBits % 2 ^ 52 = m.units / 2 ^ (m.units.log2 - 52) := by
      have := le large
      unfold Magnitude.toBits
      simp only
      omega
    unfold ofFields
    rw [if_neg (by omega)]
    simp only
    rw [fraction, exponent, Nat.add_sub_cancel, whole]
  · have bits : m.units.log2 - 52 = 0 := by
      by_cases zero : m.units = 0
      · simp [zero]
      · have := (Nat.log2_lt zero).mpr (Nat.lt_of_not_le large)
        omega
    have units : m.toBits = m.units := by
      unfold Magnitude.toBits
      simp [bits]
    unfold ofFields
    rw [if_pos (by omega)]
    simp only
    omega

/-- **Reading undoes writing.** -/
theorem ofBits_toBits (x : Binary64) : ofBits x.toBits = x := by
  cases x with
  | nan => decide
  | infinity negative => cases negative <;> decide
  | finite negative magnitude =>
    have lt := magnitude.toBits_lt
    have word : (finite negative magnitude).toBits.toNat = signBit negative + magnitude.toBits := by
      change (UInt64.ofNat (signBit negative + magnitude.toBits)).toNat = _
      rw [UInt64.toNat_ofNat']
      exact Nat.mod_eq_of_lt (by cases negative <;> simp [signBit] <;> omega)
    have exponent : exponentField (finite negative magnitude).toBits = magnitude.toBits / 2 ^ 52 := by
      unfold exponentField
      rw [word]
      cases negative <;> simp [signBit] <;> omega
    have fraction : fractionField (finite negative magnitude).toBits = magnitude.toBits % 2 ^ 52 := by
      unfold fractionField
      rw [word]
      cases negative <;> simp [signBit]
      all_goals omega
    have sign : signField (finite negative magnitude).toBits = negative := by
      unfold signField
      rw [word]
      cases negative with
      | false =>
        simp only [signBit, Bool.false_eq_true, ↓reduceIte, decide_eq_false_iff_not]
        omega
      | true => simp [signBit]
    unfold ofBits
    rw [dif_pos (by omega), sign]
    simp only [exponent, fraction, Magnitude.ofFields_toBits]

end Binary64

end SparsePoly
