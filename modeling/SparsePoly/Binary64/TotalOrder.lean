import SparsePoly.Binary64.Bits

/-!
# The total order of bit patterns

The IEEE total order compares words and not numbers: by the sign and the bits below it, so that it
tells all words apart.  On the words of numbers it refines the order of the number line, with `-0`
just before `0`.  A NaN stands beyond all numbers, on the side of its sign; among the NaNs of one
sign the payload decides.

## Main definitions

* `Binary64.wordKey` - the place of a word
* `Binary64.totalOrder` - the order

## Main statements

* `Binary64.wordKey_injective` - words at one place are one word
* `Binary64.totalOrder_of_less`, `Binary64.totalOrder_of_nan` - the places of numbers and of NaNs
* `Binary64.eq_of_ofBits_eq` - only NaN has several words
-/

namespace SparsePoly

namespace Binary64

/-! ### The order -/

/-- A natural number with a sign, where the negatives start below zero: `-0` comes just before
`0`. -/
def signedKey (negative : Bool) (key : Nat) : Int :=
  if negative then -(key : Int) - 1 else key

/-- The sign and the number can be told from the key. -/
theorem signedKey_injective {s t : Bool} {a b : Nat} (eq : signedKey s a = signedKey t b) :
    s = t ∧ a = b := by
  cases s <;> cases t <;> simp [signedKey] at eq ⊢ <;> omega

/-- The sixty-three bits below the sign. -/
def magnitudeField (word : UInt64) : Nat := word.toNat % 2 ^ 63

/-- The place in the total order: by the sign and the bits below it. -/
def wordKey (word : UInt64) : Int := signedKey (signField word) (magnitudeField word)

/-- **The IEEE total order.** -/
def totalOrder (a b : UInt64) : Ordering := compare (wordKey a) (wordKey b)

/-- A word is its sign and the bits below it. -/
theorem eq_of_fields {a b : UInt64} (sign : signField a = signField b)
    (magnitude : magnitudeField a = magnitudeField b) : a = b := by
  have a_lt := a.toNat_lt
  have b_lt := b.toNat_lt
  rw [signField, signField, decide_eq_decide] at sign
  rw [magnitudeField, magnitudeField] at magnitude
  apply UInt64.toNat_inj.mp
  omega

/-- **The total order tells all words apart.** -/
theorem wordKey_injective {a b : UInt64} (eq : wordKey a = wordKey b) : a = b :=
  eq_of_fields (signedKey_injective eq).1 (signedKey_injective eq).2

/-! ### Magnitudes in ascending order -/

/-- The units of a magnitude with these bits, also for the bits of an infinity. -/
def unitsOfBits (bits : Nat) : Nat :=
  if bits / 2 ^ 52 = 0 then bits % 2 ^ 52 else (2 ^ 52 + bits % 2 ^ 52) * 2 ^ (bits / 2 ^ 52 - 1)

/-- The units lie within the range of their exponent. -/
theorem unitsOfBits_bounds (bits : Nat) :
    unitsOfBits bits < 2 ^ 52 * 2 ^ (bits / 2 ^ 52) ∧
      (bits / 2 ^ 52 ≠ 0 → 2 ^ 52 * 2 ^ (bits / 2 ^ 52 - 1) ≤ unitsOfBits bits) := by
  have fraction := Nat.mod_lt bits (Nat.two_pow_pos 52)
  rw [unitsOfBits]
  by_cases subnormal : bits / 2 ^ 52 = 0
  · rw [if_pos subnormal, subnormal]
    exact ⟨by omega, fun normal => absurd rfl normal⟩
  · rw [if_neg subnormal]
    have double : 2 ^ 52 * 2 ^ (bits / 2 ^ 52) = 2 ^ 53 * 2 ^ (bits / 2 ^ 52 - 1) := by
      rw [← Nat.pow_add, ← Nat.pow_add]
      congr 1
      omega
    rw [double]
    exact ⟨Nat.mul_lt_mul_of_pos_right (by omega) (Nat.two_pow_pos _),
      fun _ => Nat.mul_le_mul_right _ (by omega)⟩

/-- **More bits are more units.** -/
theorem unitsOfBits_lt {a b : Nat} (lt : a < b) : unitsOfBits a < unitsOfBits b := by
  -- With one exponent the fraction decides; with two, the ranges of the exponents are apart.
  by_cases same : a / 2 ^ 52 = b / 2 ^ 52
  · have fraction : a % 2 ^ 52 < b % 2 ^ 52 := by omega
    rw [unitsOfBits, unitsOfBits, same]
    split
    · exact fraction
    · exact Nat.mul_lt_mul_of_pos_right (Nat.add_lt_add_left fraction _) (Nat.two_pow_pos _)
  · have exponent : a / 2 ^ 52 ≤ b / 2 ^ 52 - 1 := by omega
    calc unitsOfBits a
        < 2 ^ 52 * 2 ^ (a / 2 ^ 52) := (unitsOfBits_bounds a).1
      _ ≤ 2 ^ 52 * 2 ^ (b / 2 ^ 52 - 1) :=
          Nat.mul_le_mul_left _ (Nat.pow_le_pow_right (by decide) exponent)
      _ ≤ unitsOfBits b := (unitsOfBits_bounds b).2 (by omega)

theorem lt_of_unitsOfBits_lt {a b : Nat} (lt : unitsOfBits a < unitsOfBits b) : a < b := by
  apply Nat.lt_of_not_le
  intro le
  rcases Nat.eq_or_lt_of_le le with rfl | greater
  · exact Nat.lt_irrefl _ lt
  · exact Nat.lt_asymm lt (unitsOfBits_lt greater)

theorem unitsOfBits_injective {a b : Nat} (eq : unitsOfBits a = unitsOfBits b) : a = b := by
  rcases Nat.lt_trichotomy a b with less | same | greater
  · exact absurd eq (Nat.ne_of_lt (unitsOfBits_lt less))
  · exact same
  · exact absurd eq.symm (Nat.ne_of_lt (unitsOfBits_lt greater))

/-! ### Numbers and NaNs -/

/-- The bits of an infinity: the greatest exponent and no fraction. -/
def infiniteField : Nat := 2047 * 2 ^ 52

/-- **What a word is**, by the bits below its sign. -/
theorem ofBits_cases (word : UInt64) :
    magnitudeField word < infiniteField ∧
        (∃ m : Magnitude, m.units = unitsOfBits (magnitudeField word) ∧
          ofBits word = finite (signField word) m) ∨
      magnitudeField word = infiniteField ∧ ofBits word = infinity (signField word) ∨
      infiniteField < magnitudeField word ∧ ofBits word = nan := by
  have exponent : exponentField word = magnitudeField word / 2 ^ 52 := by
    rw [exponentField, magnitudeField]
    omega
  have fraction : fractionField word = magnitudeField word % 2 ^ 52 := by
    rw [fractionField, magnitudeField]
    omega
  have below : magnitudeField word < 2 ^ 63 := Nat.mod_lt _ (Nat.two_pow_pos 63)
  rw [infiniteField, ofBits]
  by_cases lt : exponentField word < 2047
  · refine Or.inl ⟨by omega, _, ?_, dif_pos lt⟩
    simp only [Magnitude.ofFields, unitsOfBits, exponent, fraction]
    split <;> rfl
  · rw [dif_neg lt]
    by_cases none : fractionField word = 0
    · exact Or.inr (Or.inl ⟨by omega, if_pos none⟩)
    · exact Or.inr (Or.inr ⟨by omega, if_neg none⟩)

/-- The place of a number on the number line, from its bits. -/
theorem rank_ofBits {word : UInt64} (number : ofBits word ≠ nan) : (ofBits word).rank =
    some (signedUnits (signField word) (unitsOfBits (magnitudeField word))) := by
  rcases ofBits_cases word with ⟨_, m, units, isFinite⟩ | ⟨bits, isInfinite⟩ | ⟨_, isNaN⟩
  · rw [isFinite, rank, units]
  · have limit : unitsOfBits infiniteField = unitLimit := by
      unfold unitLimit limitExponent
      decide +kernel
    rw [isInfinite, rank, bits, limit]
  · exact absurd isNaN number

/-- **The total order refines that of the number line.** -/
theorem totalOrder_of_less {a b : UInt64} (less : (ofBits a).less (ofBits b) = true) :
    totalOrder a b = .lt := by
  obtain ⟨m, n, m_place, n_place, lt⟩ := less_iff.mp less
  have a_number : ofBits a ≠ nan := fun isNaN => by rw [isNaN] at m_place; cases m_place
  have b_number : ofBits b ≠ nan := fun isNaN => by rw [isNaN] at n_place; cases n_place
  rw [rank_ofBits a_number] at m_place
  rw [rank_ofBits b_number] at n_place
  cases m_place
  cases n_place
  rw [totalOrder, Std.compare_eq_lt, wordKey, wordKey]
  -- With two signs the negative one is first; among the negatives the order turns round.
  cases a_sign : signField a <;> cases b_sign : signField b <;> rw [a_sign, b_sign] at lt <;>
    simp only [signedUnits, signedKey, Bool.false_eq_true, ↓reduceIte] at lt ⊢
  · have := @lt_of_unitsOfBits_lt (magnitudeField a) (magnitudeField b) (by omega)
    omega
  · omega
  · omega
  · have := @lt_of_unitsOfBits_lt (magnitudeField b) (magnitudeField a) (by omega)
    omega

/-- **A NaN stands beyond all numbers**, on the side of its sign. -/
theorem totalOrder_of_nan {a b : UInt64} (isNaN : ofBits a = nan) (number : ofBits b ≠ nan) :
    totalOrder a b = if signField a then .lt else .gt := by
  have a_beyond : infiniteField < magnitudeField a := by
    rcases ofBits_cases a with ⟨_, m, _, isFinite⟩ | ⟨_, isInfinite⟩ | ⟨beyond, _⟩
    · cases isNaN.symm.trans isFinite
    · cases isNaN.symm.trans isInfinite
    · exact beyond
  have b_within : magnitudeField b ≤ infiniteField := by
    rcases ofBits_cases b with ⟨below, _⟩ | ⟨same, _⟩ | ⟨_, eq⟩
    · exact Nat.le_of_lt below
    · exact Nat.le_of_eq same
    · exact absurd eq number
  rw [totalOrder, wordKey, wordKey]
  cases a_sign : signField a with
  | false =>
    rw [if_neg Bool.false_ne_true, Std.compare_eq_gt]
    cases signField b <;> simp only [signedKey, Bool.false_eq_true, ↓reduceIte] <;> omega
  | true =>
    rw [if_pos rfl, Std.compare_eq_lt]
    cases signField b <;> simp only [signedKey, Bool.false_eq_true, ↓reduceIte] <;> omega

/-- **Only NaN has several words.** -/
theorem eq_of_ofBits_eq {a b : UInt64} (eq : ofBits a = ofBits b) (number : ofBits a ≠ nan) :
    a = b := by
  rcases ofBits_cases a with ⟨_, m, a_units, a_finite⟩ | ⟨a_bits, a_infinite⟩ | ⟨_, isNaN⟩
  · rcases ofBits_cases b with ⟨_, n, b_units, b_eq⟩ | ⟨_, b_eq⟩ | ⟨_, b_eq⟩ <;>
      rw [a_finite, b_eq] at eq
    · obtain ⟨sign, rfl⟩ := finite.inj eq
      exact eq_of_fields sign (unitsOfBits_injective (a_units.symm.trans b_units))
    · cases eq
    · cases eq
  · rcases ofBits_cases b with ⟨_, n, _, b_eq⟩ | ⟨b_bits, b_eq⟩ | ⟨_, b_eq⟩ <;>
      rw [a_infinite, b_eq] at eq
    · cases eq
    · exact eq_of_fields (infinity.inj eq) (a_bits.trans b_bits.symm)
    · cases eq
  · exact absurd isNaN number

end Binary64

end SparsePoly
