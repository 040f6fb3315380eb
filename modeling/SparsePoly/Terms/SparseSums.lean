import Std.Data.TreeMap
import SparsePoly.Terms.Canonical

/-!
# Running sums by exponent, in a tree

Collects terms in any order: the coefficients given to one exponent are added in the order in
which they come, each exponent starting from zero.  Only the exponents that occur take room, so
that it suits terms of which nothing is known, such as those of a text.

## Main definitions

* `SparseSums` - the sums so far, by exponent
* `SparseSums.add`, `SparseSums.addAll` - one more term, a list of terms
* `SparseSums.sum?` - the view: what is stored at an exponent
* `SparseSums.toTerms` - the canonical list of the sums that are not zero
* `SparseSums.IsListing` - the sums in any order, as a map without order lists them

## Main statements

* `SparseSums.sum?_addAll_empty` - what is stored is `Terms.sumAt`, at the exponents that occur
* `SparseSums.size_add` - which terms count
* `SparseSums.mem_toTerms`, `SparseSums.canonical_toTerms` - what the list holds, and its form
* `SparseSums.eq_toTerms_of_sorted` - any listing gives that list, once it is sorted

## Design decisions

* The tree lists its sums in ascending order, so that nothing has to be sorted.  Nothing else
  depends on that order: a map that lists its entries in any order will do, if they are sorted.
* An exponent whose sum is zero stays stored and counts in `size`; only `toTerms` drops it.
-/

namespace SparsePoly

/-- A running sum for every exponent that has occurred. -/
structure SparseSums where
  /-- The sums, by exponent. -/
  sums : Std.TreeMap UInt32 Binary64

namespace SparseSums

/-- No term yet. -/
def empty : SparseSums := ⟨∅⟩

/-- **Adds a term** to the sum at its exponent, to zero if it is the first one there. -/
def add (s : SparseSums) (t : Term) : SparseSums :=
  ⟨s.sums.alter t.exponent fun sum => some (sum.getD 0 + t.coeff)⟩

/-- Adds terms one after another. -/
def addAll (s : SparseSums) (ts : List Term) : SparseSums := ts.foldl add s

/-- The number of exponents that have occurred. -/
def size (s : SparseSums) : Nat := s.sums.size

/-- No term has been added. -/
def isEmpty (s : SparseSums) : Bool := s.sums.isEmpty

/-- The sum at an exponent, if it has occurred. -/
def sum? (s : SparseSums) (n : UInt32) : Option Binary64 := s.sums[n]?

/-- **The terms of the sums**, in ascending order and without zeros. -/
def toTerms (s : SparseSums) : List Term :=
  (s.sums.toList.map fun (n, c) => Term.mk n c).filter (! ·.coeff.isZero)

/-! ### What is stored -/

@[simp] theorem sum?_empty (n : UInt32) : empty.sum? n = none := by
  simp [empty, sum?]

theorem sum?_add (s : SparseSums) (t : Term) (n : UInt32) :
    (s.add t).sum? n =
      if t.exponent = n then some ((s.sum? n).getD 0 + t.coeff) else s.sum? n := by
  unfold add sum?
  rw [Std.TreeMap.getElem?_alter]
  by_cases eq : t.exponent = n
  · subst eq; simp
  · simp [eq]

@[simp] theorem addAll_nil (s : SparseSums) : s.addAll [] = s := rfl

@[simp] theorem addAll_cons (s : SparseSums) (t : Term) (ts : List Term) :
    s.addAll (t :: ts) = (s.add t).addAll ts := rfl

/-- The last term is added last. -/
theorem addAll_append_singleton (s : SparseSums) (ts : List Term) (t : Term) :
    s.addAll (ts ++ [t]) = (s.addAll ts).add t := by
  rw [addAll, List.foldl_append]
  rfl

@[simp] theorem size_empty : empty.size = 0 := rfl

/-- **A term makes the tree larger** exactly if its exponent is new. -/
theorem size_add (s : SparseSums) (t : Term) :
    (s.add t).size = if (s.sum? t.exponent).isSome then s.size else s.size + 1 := by
  unfold add sum? size
  by_cases there : t.exponent ∈ s.sums
  · rw [if_pos (Std.TreeMap.isSome_getElem?_iff_mem.mpr there)]
    exact Std.TreeMap.size_alter_eq_self_of_mem there rfl
  · rw [if_neg (mt Std.TreeMap.isSome_getElem?_iff_mem.mp there)]
    exact Std.TreeMap.size_alter_eq_add_one there rfl

/-- What is stored after more terms, which go on from what is stored before. -/
private theorem sum?_addAll (s : SparseSums) (ts : List Term) (n : UInt32) :
    (s.addAll ts).sum? n =
      if ts.any (·.exponent == n) then
        some (((ts.filter (·.exponent == n)).map Term.coeff).foldl (· + ·) ((s.sum? n).getD 0))
      else
        s.sum? n := by
  induction ts generalizing s with
  | nil => simp
  | cons t ts ih =>
    rw [addAll_cons, ih, sum?_add]
    by_cases here : t.exponent = n
    · by_cases later : ts.any (·.exponent == n) = true
      · simp [here, later]
      · have none_later : ts.filter (·.exponent == n) = [] := by simpa using later
        simp [here, later, none_later]
    · simp [here]

/-- **What is stored.**  An exponent that has occurred has the sum of all that was given to it,
in the order of the additions. -/
theorem sum?_addAll_empty (ts : List Term) (n : UInt32) :
    (empty.addAll ts).sum? n =
      if ts.any (·.exponent == n) then some (Terms.sumAt ts n) else none := by
  rw [sum?_addAll, sum?_empty]
  rfl

/-! ### The list of terms -/

/-- **What the list holds**: the sums that are not zero. -/
theorem mem_toTerms {s : SparseSums} {t : Term} :
    t ∈ s.toTerms ↔ s.sum? t.exponent = some t.coeff ∧ t.coeff.isZero = false := by
  unfold toTerms sum?
  rw [List.mem_filter, List.mem_map]
  constructor
  · rintro ⟨⟨⟨n, c⟩, mem, rfl⟩, nonzero⟩
    exact ⟨Std.TreeMap.mem_toList_iff_getElem?_eq_some.mp mem, by simpa using nonzero⟩
  · rintro ⟨found, nonzero⟩
    exact ⟨⟨(t.exponent, t.coeff), Std.TreeMap.mem_toList_iff_getElem?_eq_some.mpr found, rfl⟩,
      by simpa using nonzero⟩

/-- **The list is canonical**, whatever has been added. -/
theorem canonical_toTerms (s : SparseSums) : Terms.Canonical s.toTerms := by
  apply Terms.canonical_filter
  rw [List.pairwise_map]
  exact Std.TreeMap.ordered_keys_toList.imp fun lt => Std.compare_eq_lt.mp lt

/-! ### Listings in any order -/

/-- **A listing of the sums**, in any order. -/
structure IsListing (s : SparseSums) (entries : List (UInt32 × Binary64)) : Prop where
  /-- No exponent is listed twice. -/
  distinct : (entries.map Prod.fst).Nodup
  /-- What is stored is listed, and nothing else. -/
  mem_iff : ∀ n c, (n, c) ∈ entries ↔ s.sum? n = some c

/-- The tree's own listing. -/
theorem isListing_toList (s : SparseSums) : s.IsListing s.sums.toList where
  distinct := List.pairwise_map.mpr
    (Std.TreeMap.distinct_keys_toList.imp fun apart => mt Std.compare_eq_iff_eq.mpr apart)
  mem_iff _ _ := Std.TreeMap.mem_toList_iff_getElem?_eq_some

/-- The terms of a listing, without zeros. -/
def listedTerms (entries : List (UInt32 × Binary64)) : List Term :=
  (entries.filter (! ·.2.isZero)).map fun (n, c) => ⟨n, c⟩

/-- **Any listing will do.**  Without zeros and sorted by exponent, by whatever way of sorting, it
is the list of the tree. -/
theorem eq_toTerms_of_sorted {s : SparseSums} {entries : List (UInt32 × Binary64)}
    (listing : s.IsListing entries) {ts : List Term} (perm : ts.Perm (listedTerms entries))
    (sorted : ts.Pairwise (·.exponent ≤ ·.exponent)) : ts = s.toTerms := by
  -- No exponent is listed twice, so that a list that is sorted ascends strictly.
  have distinct : (ts.map Term.exponent).Nodup := by
    rw [(perm.map Term.exponent).nodup_iff, listedTerms, List.map_map]
    exact listing.distinct.sublist (List.filter_sublist.map Prod.fst)
  have apart : ts.Pairwise (·.exponent ≠ ·.exponent) := List.pairwise_map.mp distinct
  have mem_iff (t : Term) : t ∈ ts ↔ t ∈ s.toTerms := by
    rw [perm.mem_iff, mem_toTerms, ← listing.mem_iff, listedTerms, List.mem_map]
    constructor
    · rintro ⟨⟨n, c⟩, mem, rfl⟩
      simpa using List.mem_filter.mp mem
    · rintro ⟨mem, nonzero⟩
      exact ⟨(t.exponent, t.coeff), List.mem_filter.mpr ⟨mem, by simp [nonzero]⟩, rfl⟩
  have canonical : Terms.Canonical ts :=
    { ascending := (sorted.and apart).imp fun ⟨le, ne⟩ => UInt32.lt_of_le_of_ne le ne
      nonzero := fun t mem => (mem_toTerms.mp ((mem_iff t).mp mem)).2 }
  exact canonical.eq_of_mem_iff s.canonical_toTerms mem_iff

end SparseSums

end SparsePoly
