import SparsePoly.Terms.Canonical

/-!
# Running sums by exponent, in a row

Collects terms whose exponents have a known bound: slot `i` of the row is the sum of all
coefficients given to the exponent `i`, in the order in which they come, starting from zero.  The
bound need not be an exponent: slots beyond the greatest exponent stay zero, and give no terms.

## Main definitions

* `DenseSums` - the slots `0, ..., bound`
* `DenseSums.add?`, `DenseSums.addAll?` - one more term, a list of terms; a term above the bound
  has no slot and is refused
* `DenseSums.toTerms` - the canonical list of the slots that are not zero

## Main statements

* `DenseSums.slots_addAll?_empty` - a slot holds `Terms.sumAt` of the terms added
* `DenseSums.addAll?_isSome_iff` - no term is refused exactly if none lies above the bound
* `DenseSums.canonical_toTerms` - the form of the list

## Design decisions

* The bound is part of the type, so that the number of slots is a fact and not a field.
-/

namespace SparsePoly

/-- A running sum for every exponent up to a bound. -/
structure DenseSums (bound : Nat) where
  /-- The sums, by exponent. -/
  slots : Vector Binary64 (bound + 1)

namespace DenseSums

variable {bound : Nat}

/-- All sums zero. -/
def empty (bound : Nat) : DenseSums bound := ⟨Vector.replicate _ 0⟩

/-- The number of slots. -/
def size (s : DenseSums bound) : Nat := s.slots.size

/-- **Adds a term** to the sum in its slot; `none` if it has no slot. -/
def add? (s : DenseSums bound) (t : Term) : Option (DenseSums bound) :=
  if le : t.exponent.toNat < bound + 1 then
    some ⟨s.slots.set t.exponent.toNat (s.slots[t.exponent.toNat] + t.coeff)⟩
  else
    none

/-- Adds terms one after another; `none` at the first one without a slot. -/
def addAll? (s : DenseSums bound) : List Term → Option (DenseSums bound)
  | [] => some s
  | t :: ts =>
    match s.add? t with
    | some s => s.addAll? ts
    | none => none

/-- **The terms of the slots** that belong to exponents, in ascending order and without zeros. -/
def toTerms (s : DenseSums bound) : List Term :=
  Terms.ofCoefficients (s.slots.toList.take UInt32.size)

/-! ### What the slots hold -/

/-- A term is added exactly if it does not lie above the bound. -/
theorem add?_isSome_iff (s : DenseSums bound) (t : Term) :
    (s.add? t).isSome = true ↔ t.exponent.toNat ≤ bound := by
  unfold add?
  split
  · simp; omega
  · simp; omega

/-- **Refusal.**  All terms are added exactly if none lies above the bound. -/
theorem addAll?_isSome_iff (s : DenseSums bound) (ts : List Term) :
    (s.addAll? ts).isSome = true ↔ ∀ t ∈ ts, t.exponent.toNat ≤ bound := by
  induction ts generalizing s with
  | nil => simp [addAll?]
  | cons t ts ih =>
    have here := s.add?_isSome_iff t
    unfold addAll?
    cases added : s.add? t with
    | none =>
      rw [added] at here
      simp only [Option.isSome_none, Bool.false_eq_true, false_iff] at here
      simp [here]
    | some r =>
      rw [added] at here
      simp only [Option.isSome_some, true_iff] at here
      simp [ih, here]

/-- Terms that do not lie above the bound can be added. -/
theorem exists_addAll? (s : DenseSums bound) {ts : List Term}
    (below : ∀ t ∈ ts, t.exponent.toNat ≤ bound) : ∃ r, s.addAll? ts = some r :=
  Option.isSome_iff_exists.mp ((s.addAll?_isSome_iff ts).mpr below)

private theorem slots_add? {s r : DenseSums bound} {t : Term} (added : s.add? t = some r)
    (i : Nat) (lt : i < bound + 1) :
    r.slots[i] = if t.exponent.toNat = i then s.slots[i] + t.coeff else s.slots[i] := by
  unfold add? at added
  split at added
  · cases added
    simp only [Vector.getElem_set]
    split
    · rename_i eq
      subst eq
      rfl
    · rfl
  · cases added

private theorem slots_addAll? {s r : DenseSums bound} {ts : List Term}
    (added : s.addAll? ts = some r) (i : Nat) (lt : i < bound + 1) :
    r.slots[i] =
      ((ts.filter (·.exponent.toNat == i)).map Term.coeff).foldl (· + ·) s.slots[i] := by
  induction ts generalizing s with
  | nil =>
    cases added
    rfl
  | cons t ts ih =>
    unfold addAll? at added
    cases first : s.add? t with
    | none => rw [first] at added; cases added
    | some q =>
      rw [first] at added
      rw [ih added, slots_add? first i lt]
      by_cases here : t.exponent.toNat = i <;> simp [here]

/-- **What a slot holds**: the sum of all that was given to its exponent, in the order of the
additions. -/
theorem slots_addAll?_empty {r : DenseSums bound} {ts : List Term}
    (added : (empty bound).addAll? ts = some r) (n : UInt32) (lt : n.toNat < bound + 1) :
    r.slots[n.toNat] = Terms.sumAt ts n := by
  rw [slots_addAll? added]
  have start : (empty bound).slots[n.toNat] = 0 := by simp [empty]
  have same (t : Term) : (t.exponent.toNat == n.toNat) = (t.exponent == n) := by
    rw [Bool.eq_iff_iff]
    simp [UInt32.toNat_inj]
  rw [start]
  simp only [same]
  rfl

/-- **The list is canonical**, whatever has been added. -/
theorem canonical_toTerms (s : DenseSums bound) : Terms.Canonical s.toTerms := by
  apply Terms.canonical_ofCoefficients
  exact List.length_take_le _ _

end DenseSums

end SparsePoly
