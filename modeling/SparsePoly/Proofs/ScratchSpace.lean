import Mathlib.Data.Finset.Card
import SparsePoly.Proofs.Sums

/-!
# One specification for both kinds of scratch space

A row of slots starts with a zero at every exponent up to its bound, and a tree starts with nothing.
They differ in what they count: a row has its slots, whatever is added, and a tree has the exponents
that have occurred.  An exponent whose terms have cancelled counts there, and one that has not
occurred does not, although both have the sum zero.

In the list of terms the difference is gone.  Either list has the sums that are not zero, each added
up from zero in the order of the additions, and that is so after every addition.  Nor does it matter
that a tree keeps its exponents in order: a map without order gives the same list by sorting.

## Main statements

* `SparseSums.size_addAll_empty` - a tree counts the exponents that have occurred
* `Terms.HeldBy` - what a tree and a row hold
* `Terms.heldBy_addAll` - they hold it after every addition
-/

namespace SparsePoly

namespace SparseSums

/-! ### What a tree counts -/

/-- There is a sum exactly at the exponents that have occurred. -/
theorem isSome_sum?_addAll_empty {ts : List Term} {n : UInt32} :
    ((empty.addAll ts).sum? n).isSome = true ↔ n ∈ ts.map Term.exponent := by
  have occurs : ts.any (·.exponent == n) = true ↔ n ∈ ts.map Term.exponent := by simp
  rw [sum?_addAll_empty, ← occurs]
  split <;> simp [*]

/-- **A tree counts the exponents that have occurred.**  The induction is on the last addition: it
counts if its exponent is new, and an exponent that is there stays there. -/
theorem size_addAll_empty (ts : List Term) :
    (empty.addAll ts).size = (ts.map Term.exponent).toFinset.card := by
  induction ts using List.reverseRecOn with
  | nil => simp
  | append_singleton ts t ih =>
    have more : ((ts ++ [t]).map Term.exponent).toFinset =
        insert t.exponent (ts.map Term.exponent).toFinset := by
      rw [List.map_append, List.toFinset_append, Finset.union_comm]
      rfl
    rw [addAll_append_singleton, size_add, more, ih]
    by_cases there : t.exponent ∈ ts.map Term.exponent
    · rw [if_pos (isSome_sum?_addAll_empty.mpr there),
        Finset.insert_eq_of_mem (List.mem_toFinset.mpr there)]
    · rw [if_neg (mt isSome_sum?_addAll_empty.mp there),
        Finset.card_insert_of_notMem (mt List.mem_toFinset.mp there)]

end SparseSums

namespace Terms

/-! ### What both hold -/

/-- **What scratch space holds** once terms have been added, in a tree and in a row. -/
structure HeldBy {bound : Nat} (ts : List Term) (tree : SparseSums) (row : DenseSums bound) :
    Prop where
  /-- Both give one list. -/
  agree : row.toTerms = tree.toTerms
  /-- It ascends. -/
  ascending : tree.toTerms.Pairwise (·.exponent < ·.exponent)
  /-- It has the sums that are not zero, each added up from zero in the order of the terms. -/
  mem_iff : ∀ t, t ∈ tree.toTerms ↔ sumAt ts t.exponent = t.coeff ∧ t.coeff.isZero = false
  /-- A map that lists the same sums in any order gives that list too, once it is sorted. -/
  sorted : ∀ entries, tree.IsListing entries → ∀ us : List Term,
    us.Perm (SparseSums.listedTerms entries) → us.Pairwise (·.exponent ≤ ·.exponent) →
      us = tree.toTerms
  /-- The tree counts the exponents of the terms, also where the sum is zero. -/
  tree_size : tree.size = (ts.map Term.exponent).toFinset.card
  /-- The row counts its slots. -/
  row_size : row.size = bound + 1

/-- **One specification.**  Of terms that do not lie above the bound a row refuses none, and after
each of them the row and the tree hold the sums of the terms so far. -/
theorem heldBy_addAll (ts : List Term) (bound : Nat) (below : ∀ t ∈ ts, t.exponent.toNat ≤ bound) :
    ∀ front, front <+: ts → ∃ row, (DenseSums.empty bound).addAll? front = some row ∧
      HeldBy front (SparseSums.empty.addAll front) row := by
  intro front isFront
  have front_below : ∀ t ∈ front, t.exponent.toNat ≤ bound :=
    fun t mem => below t (isFront.subset mem)
  obtain ⟨row, added⟩ := (DenseSums.empty bound).exists_addAll? front_below
  refine ⟨row, added, ?_⟩
  constructor
  case agree => exact DenseSums.toTerms_addAll?_empty added
  case ascending => exact (SparseSums.canonical_toTerms _).ascending
  case mem_iff => exact fun _ => Poly.mem_terms_collect_iff
  case sorted => exact fun _ listing _ perm ascends =>
    SparseSums.eq_toTerms_of_sorted listing perm ascends
  case tree_size => exact SparseSums.size_addAll_empty front
  case row_size => rfl

/-- Two of three terms cancel: their exponent counts in the tree, and has no term in the list. -/
theorem heldBy_of_cancelling :
    ∃ row, (DenseSums.empty 4).addAll? [⟨4, 1⟩, ⟨2, 1⟩, ⟨4, -1⟩] = some row ∧
      row.toTerms = [⟨2, 1⟩] ∧ row.size = 5 ∧
      (SparseSums.empty.addAll [⟨4, 1⟩, ⟨2, 1⟩, ⟨4, -1⟩]).toTerms = [⟨2, 1⟩] ∧
      (SparseSums.empty.addAll [⟨4, 1⟩, ⟨2, 1⟩, ⟨4, -1⟩]).size = 2 := by
  obtain ⟨row, added, held⟩ := heldBy_addAll [⟨4, 1⟩, ⟨2, 1⟩, ⟨4, -1⟩] 4 (by decide) _
    (List.prefix_refl _)
  have list : (SparseSums.empty.addAll [⟨4, 1⟩, ⟨2, 1⟩, ⟨4, -1⟩]).toTerms = [⟨2, 1⟩] := by
    decide +kernel
  exact ⟨row, added, held.agree.trans list, held.row_size, list, held.tree_size.trans (by decide)⟩

end Terms

end SparsePoly
