import Mathlib.Data.List.DropRight
import Mathlib.Data.List.Induction
import SparsePoly.Poly.Dense
import SparsePoly.Proofs.ExplicitTerms

/-!
# Dense rows and sparse terms

A row of coefficients and a list of terms hold the same polynomial in two forms.  Each can be had
from the other:

* the row of a polynomial holds all its coefficients up to the degree, zeros included
  (`Poly.toDense_eq_map`), and leads back to the polynomial if all of them are finite;
* a row is a list of explicit terms, each entry with its place for an exponent (`rowPairs`), so that
  both ways of building a polynomial accept and refuse the same and store the same
  (`Poly.ofDense_eq_ofTerms`);
* what a row leads to has that row again, without the zeros at its end and with `0` for `-0`
  (`Poly.toDense_of_ofDense`).

The last needs an induction from the end of the row: a zero there changes nothing, and anything else
is the leading coefficient, behind which the row is complete.

## Main statements

* `Terms.coeff_collect_ofRow` - the coefficients of what the entries of a row add up to
* `Poly.ofDense_eq_ok_iff`, `Poly.ofDense_eq_error_iff` - the answers to a row
* `Poly.dense_sparse_round_trips` - all conversions
-/

namespace SparsePoly

/-- The entries of a row, each with its place. -/
def rowPairs (cs : List Binary64) : List (Int × Binary64) :=
  cs.zipIdx.map fun (c, i) => ((i : Int), c)

theorem rowPairs_append_cons (front : List Binary64) (c : Binary64) (back : List Binary64) :
    rowPairs (front ++ c :: back) = rowPairs front ++ ((front.length : Int), c) ::
      (back.zipIdx (front.length + 1)).map fun (c, i) => ((i : Int), c) := by
  rw [rowPairs, List.zipIdx_append, List.map_append, List.zipIdx_cons, List.map_cons, Nat.zero_add]
  rfl

namespace Terms

/-! ### The length of a row -/

/-- **The length of the row**: one more than the degree, and nothing for the zero polynomial. -/
def width (ts : List Term) : Nat := (lastExponent? ts).elim 0 (·.toNat + 1)

namespace Canonical

variable {ts : List Term}

theorem width_cons {t : Term} (h : Canonical (t :: ts)) :
    width (t :: ts) = max (t.exponent.toNat + 1) (width ts) := by
  cases ts with
  | nil => rfl
  | cons u us =>
    -- The last term is still the last, and stands behind `t`.
    have last :
        width (u :: us) = ((u :: us).getLast (List.cons_ne_nil u us)).exponent.toNat + 1 := by
      rw [width, lastExponent?, List.getLast?_eq_some_getLast (List.cons_ne_nil u us)]
      rfl
    have less := (canonical_cons.mp h).2.1 _ (List.getLast_mem (List.cons_ne_nil u us))
    rw [UInt32.lt_iff_toNat_lt] at less
    have same : width (t :: u :: us) = width (u :: us) := by
      rw [width, lastExponent?, List.getLast?_cons_cons]
      rfl
    rw [same, last]
    omega

/-- The row has places for all terms, and no more. -/
theorem width_le_iff (h : Canonical ts) {n : Nat} :
    width ts ≤ n ↔ ∀ t ∈ ts, t.exponent.toNat < n := by
  induction ts with
  | nil => exact iff_of_true (Nat.zero_le n) nofun
  | cons t ts ih =>
    rw [h.width_cons, Nat.max_le, ih h.tail, List.forall_mem_cons]
    rfl

theorem toNat_lt_width (h : Canonical ts) {t : Term} (mem : t ∈ ts) :
    t.exponent.toNat < width ts :=
  h.width_le_iff.mp le_rfl t mem

theorem width_le_size (h : Canonical ts) : width ts ≤ UInt32.size :=
  h.width_le_iff.mpr fun t _ => t.exponent.toNat_lt

end Canonical

/-! ### The entries of a row as terms -/

/-- The entries of a row as terms, the zeros among them included. -/
def ofRow (cs : List Binary64) : List Term := cs.zipIdx.map fun (c, i) => ⟨UInt32.ofNat i, c⟩

variable {cs : List Binary64}

theorem mem_ofRow {t : Term} :
    t ∈ ofRow cs ↔ ∃ i, cs[i]? = some t.coeff ∧ UInt32.ofNat i = t.exponent := by
  rw [ofRow, List.mem_map]
  constructor
  · rintro ⟨⟨c, i⟩, mem, rfl⟩
    exact ⟨i, List.mk_mem_zipIdx_iff_getElem?.mp mem, rfl⟩
  · rintro ⟨i, found, place⟩
    refine ⟨(t.coeff, i), List.mk_mem_zipIdx_iff_getElem?.mpr found, ?_⟩
    exact congrArg (Term.mk · t.coeff) place

/-- The terms of a row are its entries, without the zeros. -/
theorem ofCoefficientsFrom_eq_filter (first : Nat) (cs : List Binary64) :
    ofCoefficientsFrom first cs =
      ((cs.zipIdx first).map fun (c, i) => ⟨UInt32.ofNat i, c⟩).filter (! ·.coeff.isZero) := by
  induction cs generalizing first with
  | nil => rfl
  | cons c cs ih =>
    rw [ofCoefficientsFrom, List.zipIdx_cons, List.map_cons, List.filter_cons, ← ih]
    cases c.isZero <;> rfl

section Fits

variable (fits : cs.length ≤ UInt32.size)

include fits

theorem toNat_place {i : Nat} (lt : i < cs.length) : (UInt32.ofNat i).toNat = i :=
  UInt32.toNat_ofNat_of_lt' (Nat.lt_of_lt_of_le lt fits)

/-- Places ascend as long as they are exponents. -/
theorem ofRow_ascending : (ofRow cs).Pairwise (·.exponent < ·.exponent) := by
  rw [List.pairwise_iff_getElem]
  intro i j i_lt j_lt less
  simp only [ofRow, List.length_map, List.length_zipIdx] at i_lt j_lt
  simp only [ofRow, List.getElem_map, List.getElem_zipIdx, Nat.zero_add]
  rw [UInt32.lt_iff_toNat_lt, toNat_place fits i_lt, toNat_place fits j_lt]
  exact less

/-- The terms that a row leads to are what its entries add up to. -/
theorem ofCoefficients_eq_collect : ofCoefficients cs = (Poly.collect (ofRow cs)).terms := by
  rw [Poly.terms_collect_of_ascending (ofRow_ascending fits)]
  exact ofCoefficientsFrom_eq_filter 0 cs

/-- Places are exponents, and have entries of the row. -/
theorem mem_rowPairs {pair : Int × Binary64} (mem : pair ∈ rowPairs cs) :
    IsExponent pair.1 ∧ pair.2 ∈ cs := by
  obtain ⟨⟨c, i⟩, entry, rfl⟩ := List.mem_map.mp mem
  have entry := List.mk_mem_zipIdx_iff_getElem?.mp entry
  refine ⟨?_, List.mem_of_getElem? entry⟩
  show IsExponent i
  rw [← toNat_place fits (List.getElem?_eq_some_iff.mp entry).1]
  exact isExponent_toNat _

theorem map_pair_ofRow : (ofRow cs).map Term.pair = rowPairs cs := by
  rw [ofRow, rowPairs, List.map_map]
  refine List.map_congr_left fun (c, i) mem => ?_
  have lt := (List.getElem?_eq_some_iff.mp (List.mk_mem_zipIdx_iff_getElem?.mp mem)).1
  show (((UInt32.ofNat i).toNat : Int), c) = _
  rw [toNat_place fits lt]

/-- **What the entries of a row add up to** has these entries for coefficients, with `0` for
`-0`. -/
theorem coeff_collect_ofRow (n : UInt32) :
    (Poly.collect (ofRow cs)).coeff n = 0 + (cs[n.toNat]?).getD 0 := by
  rw [Poly.coeff_collect_eq_sumAt]
  cases found : cs[n.toNat]? with
  | some c =>
    have mem : ⟨n, c⟩ ∈ ofRow cs := mem_ofRow.mpr ⟨n.toNat, found, UInt32.ofNat_toNat⟩
    exact sumAt_of_ascending (ofRow_ascending fits) mem
  | none =>
    refine sumAt_eq_zero fun t mem same => ?_
    obtain ⟨i, entry, place⟩ := mem_ofRow.mp mem
    have lt := (List.getElem?_eq_some_iff.mp entry).1
    rw [← same, ← place, toNat_place fits lt, entry] at found
    cases found

end Fits

end Terms

namespace Poly

/-! ### From a row -/

section Row

variable {cs : List Binary64}

/-- **A row is accepted** if it is not too long and all its entries are finite, and then it leads to
what these add up to. -/
theorem ofDense_eq_ok_iff {p : Poly} :
    ofDense cs = .ok p ↔ (∀ c ∈ cs, c.isFinite = true) ∧ cs.length ≤ UInt32.size ∧
      collect (Terms.ofRow cs) = p := by
  have same (fits : cs.length ≤ UInt32.size) :
      ⟨Terms.ofCoefficients cs, Terms.canonical_ofCoefficients fits⟩ = collect (Terms.ofRow cs) :=
    ext (Terms.ofCoefficients_eq_collect fits)
  rw [ofDense]
  constructor
  · intro built
    split at built
    · cases built
    · rename_i none_found
      split at built
      · rename_i fits
        cases built
        exact ⟨by simpa using none_found, fits, (same fits).symm⟩
      · cases built
  · rintro ⟨finite, fits, rfl⟩
    rw [List.find?_eq_none.mpr (by simpa using finite), ← same fits]
    exact dif_pos fits

/-- **The error of a row** that is not too long is its first entry that is not finite. -/
theorem ofDense_eq_error_iff (fits : cs.length ≤ UInt32.size) {e : ConstructionError} :
    ofDense cs = .error e ↔
      ∃ c, cs.find? (! ·.isFinite) = some c ∧ e = .nonFiniteCoefficient c := by
  rw [ofDense]
  cases cs.find? (! ·.isFinite) with
  | some c => simp [eq_comm]
  | none => simp [fits]

end Row

/-! ### A row as explicit terms -/

/-- **A row is a list of explicit terms**: both are accepted, with the same result, or refused for
the same reason. -/
theorem ofDense_eq_ofTerms {cs : List Binary64} (fits : cs.length ≤ UInt32.size) :
    ofDense cs = ofTerms (rowPairs cs) := by
  cases found : cs.find? (! ·.isFinite) with
  | none =>
    have finite : ∀ c ∈ cs, c.isFinite = true := by simpa using found
    rw [ofDense_eq_ok_iff.mpr ⟨finite, fits, rfl⟩]
    refine (ofTerms_eq_ok_iff.mpr ⟨_, Terms.map_pair_ofRow fits, fun t mem => ?_, rfl⟩).symm
    obtain ⟨i, entry, _⟩ := Terms.mem_ofRow.mp mem
    exact finite _ (List.mem_of_getElem? entry)
  | some c =>
    rw [(ofDense_eq_error_iff fits).mpr ⟨c, found, rfl⟩]
    obtain ⟨not_finite, front, back, rfl, before⟩ := List.find?_eq_some_iff_append.mp found
    have split := rowPairs_append_cons front c back
    have here : ((front.length : Int), c) ∈ rowPairs (front ++ c :: back) := by simp [split]
    obtain ⟨exponent, _⟩ := Terms.mem_rowPairs fits here
    refine (ofTerms_eq_error_iff.mpr ⟨_, _, _, split, fun other mem => ?_,
      .coefficient exponent (by simpa using not_finite)⟩).symm
    have front_fits := (List.prefix_append front (c :: back)).length_le.trans fits
    obtain ⟨isExponent, entry⟩ := Terms.mem_rowPairs front_fits mem
    exact ⟨isExponent, by simpa using before _ entry⟩

/-! ### To a row -/

/-- The row of a canonical list from a place on that no term comes before.  The induction is that of
`denseFrom`: up to the first term there are zeros, and behind it the row of the others. -/
private theorem denseFrom_eq_map {first : Nat} {ts : List Term} (h : Terms.Canonical ts)
    (behind : ∀ t ∈ ts, first ≤ t.exponent.toNat) :
    denseFrom first ts = (List.range' first (Terms.width ts - first)).map fun i =>
      Terms.coeff ts (UInt32.ofNat i) := by
  induction ts generalizing first with
  | nil =>
    rw [show Terms.width [] = 0 from rfl, Nat.zero_sub]
    rfl
  | cons t ts ih =>
    have rest := h.tail
    have less : ∀ u ∈ ts, t.exponent.toNat + 1 ≤ u.exponent.toNat := fun u mem =>
      UInt32.lt_iff_toNat_lt.mp ((Terms.canonical_cons.mp h).2.1 u mem)
    have t_behind := behind t List.mem_cons_self
    have length : Terms.width (t :: ts) - first =
        t.exponent.toNat - first + (Terms.width ts - (t.exponent.toNat + 1) + 1) := by
      rw [h.width_cons]
      omega
    rw [denseFrom, length, ← List.range'_append_1, List.map_append,
      Nat.add_sub_cancel' t_behind, List.range'_succ, List.map_cons]
    congr 1
    -- The gap up to `t`, and then `t` with what comes behind it.
    · refine (List.eq_replicate_iff.mpr ⟨by simp, fun c mem => ?_⟩).symm
      obtain ⟨i, place, rfl⟩ := List.mem_map.mp mem
      have ⟨_, i_lt⟩ := List.mem_range'_1.mp place
      have t_lt := t.exponent.toNat_lt_size
      refine h.coeff_of_lt (UInt32.lt_iff_toNat_lt.mpr ?_)
      rw [UInt32.toNat_ofNat_of_lt' (by omega)]
      omega
    · rw [UInt32.ofNat_toNat, Terms.coeff_cons, if_pos rfl, ih rest less]
      congr 1
      refine List.map_congr_left fun i place => ?_
      have ⟨i_ge, i_lt⟩ := List.mem_range'_1.mp place
      have fits := rest.width_le_size
      have apart : t.exponent ≠ UInt32.ofNat i := by
        rw [ne_eq, ← UInt32.toNat_inj, UInt32.toNat_ofNat_of_lt' (by omega)]
        omega
      rw [Terms.coeff_cons, if_neg apart]

/-- **The row of a polynomial** holds its coefficients, in order and up to the degree. -/
theorem toDense_eq_map (p : Poly) :
    p.toDense = (List.range (Terms.width p.terms)).map fun i => p.coeff (UInt32.ofNat i) := by
  rw [List.range_eq_range']
  exact denseFrom_eq_map p.canonical fun _ _ => Nat.zero_le _

theorem length_toDense (p : Poly) : p.toDense.length = Terms.width p.terms := by
  rw [toDense_eq_map, List.length_map, List.length_range]

theorem length_toDense_le (p : Poly) : p.toDense.length ≤ UInt32.size :=
  p.length_toDense.trans_le p.canonical.width_le_size

theorem getElem?_toDense {p : Poly} {n : UInt32} (lt : n.toNat < p.toDense.length) :
    p.toDense[n.toNat]? = some (p.coeff n) := by
  rw [length_toDense] at lt
  rw [toDense_eq_map, List.getElem?_map, List.getElem?_range lt, Option.map_some,
    UInt32.ofNat_toNat]

/-- Beyond the row there is nothing. -/
theorem coeff_of_length_le {p : Poly} {n : UInt32} (le : p.toDense.length ≤ n.toNat) :
    p.coeff n = 0 := by
  rw [length_toDense] at le
  refine Terms.coeff_eq_zero fun t mem same => ?_
  have lt := p.canonical.width_le_iff.mp le t mem
  rw [same] at lt
  exact Nat.lt_irrefl _ lt

/-! ### To a row and back -/

/-- The entries of the row are finite if the terms are. -/
theorem forall_mem_toDense_isFinite_iff {p : Poly} :
    (∀ c ∈ p.toDense, c.isFinite = true) ↔ ∀ t ∈ p.terms, t.coeff.isFinite = true := by
  constructor
  · intro finite t mem
    have place : t.exponent.toNat < p.toDense.length := by
      rw [length_toDense]
      exact p.canonical.toNat_lt_width mem
    exact coeff_of_mem mem ▸ finite _ (List.mem_of_getElem? (getElem?_toDense place))
  · intro finite c mem
    rw [toDense_eq_map] at mem
    obtain ⟨i, _, rfl⟩ := List.mem_map.mp mem
    exact forall_coeff_isFinite_iff.mpr finite _

/-- What the entries of the row add up to. -/
theorem collect_ofRow_toDense (p : Poly) : collect (Terms.ofRow p.toDense) = p := by
  apply ext_coeff
  intro n
  rw [Terms.coeff_collect_ofRow p.length_toDense_le]
  rcases Nat.lt_or_ge n.toNat p.toDense.length with lt | ge
  · rw [getElem?_toDense lt]
    exact p.canonical.zero_add_coeff n
  · rw [List.getElem?_eq_none ge, coeff_of_length_le ge]
    rfl

/-- **The row of a polynomial leads back to it** if all of its coefficients are finite. -/
theorem ofDense_toDense_eq_ok_iff {p : Poly} :
    ofDense p.toDense = .ok p ↔ ∀ t ∈ p.terms, t.coeff.isFinite = true := by
  rw [ofDense_eq_ok_iff, collect_ofRow_toDense, forall_mem_toDense_isFinite_iff]
  exact and_iff_left ⟨p.length_toDense_le, rfl⟩

/-- The first entry that is not finite belongs to the first such term. -/
theorem find?_toDense_eq_some_iff {p : Poly} {c : Binary64} :
    p.toDense.find? (! ·.isFinite) = some c ↔ ∃ t ∈ p.terms, t.coeff.isFinite = false ∧
      (∀ u ∈ p.terms, u.exponent < t.exponent → u.coeff.isFinite = true) ∧ t.coeff = c := by
  have width_le := p.canonical.width_le_size
  simp only [toDense_eq_map, List.find?_map, Option.map_eq_some_iff, List.find?_range_eq_some,
    Function.comp_apply, Bool.not_eq_true', Bool.not_not, List.mem_range]
  constructor
  · rintro ⟨i, ⟨not_finite, i_lt, before⟩, rfl⟩
    refine ⟨_, mem_terms_of_not_finite not_finite, not_finite, fun u mem less => ?_, rfl⟩
    rw [UInt32.lt_iff_toNat_lt, UInt32.toNat_ofNat_of_lt' (by omega)] at less
    have finite := before _ less
    rwa [UInt32.ofNat_toNat, coeff_of_mem mem] at finite
  · rintro ⟨t, mem, not_finite, before, rfl⟩
    have here : p.coeff (UInt32.ofNat t.exponent.toNat) = t.coeff := by
      rw [UInt32.ofNat_toNat, coeff_of_mem mem]
    have place := p.canonical.toNat_lt_width mem
    refine ⟨t.exponent.toNat, ⟨here ▸ not_finite, place, fun j less => ?_⟩, here⟩
    cases entry : (p.coeff (UInt32.ofNat j)).isFinite with
    | true => rfl
    | false =>
      refine entry.symm.trans (before _ (mem_terms_of_not_finite entry) ?_)
      rwa [UInt32.lt_iff_toNat_lt, UInt32.toNat_ofNat_of_lt' (by omega)]

/-- **Otherwise it is refused** for the coefficient with the least exponent that is not finite. -/
theorem ofDense_toDense_eq_error_iff {p : Poly} {e : ConstructionError} :
    ofDense p.toDense = .error e ↔ ∃ t ∈ p.terms, t.coeff.isFinite = false ∧
      (∀ u ∈ p.terms, u.exponent < t.exponent → u.coeff.isFinite = true) ∧
        e = .nonFiniteCoefficient t.coeff := by
  rw [ofDense_eq_error_iff p.length_toDense_le]
  simp only [find?_toDense_eq_some_iff]
  constructor
  · rintro ⟨_, ⟨t, mem, not_finite, before, rfl⟩, rfl⟩
    exact ⟨t, mem, not_finite, before, rfl⟩
  · rintro ⟨t, mem, not_finite, before, rfl⟩
    exact ⟨_, ⟨t, mem, not_finite, before, rfl⟩, rfl⟩

/-! ### From a row and back -/

section Row

variable {front : List Binary64} {c : Binary64} (fits : (front ++ [c]).length ≤ UInt32.size)

include fits

/-- A zero at the end of a row adds nothing. -/
theorem collect_ofRow_concat_of_isZero (zero : c.isZero = true) :
    collect (Terms.ofRow (front ++ [c])) = collect (Terms.ofRow front) := by
  have front_fits := (List.prefix_append front [c]).length_le.trans fits
  apply ext_coeff
  intro n
  rw [Terms.coeff_collect_ofRow fits, Terms.coeff_collect_ofRow front_fits]
  rcases Nat.lt_trichotomy n.toNat front.length with less | here | greater
  · rw [List.getElem?_append_left less]
  · rw [here, List.getElem?_concat_length, List.getElem?_eq_none le_rfl]
    exact Binary64.zero_add_of_isZero zero
  · have beyond : (front ++ [c]).length ≤ n.toNat := by
      rwa [List.length_append, List.length_singleton]
    rw [List.getElem?_eq_none beyond, List.getElem?_eq_none greater.le]

/-- Anything else there is the leading coefficient. -/
theorem width_collect_ofRow_concat (nonzero : c.isZero = false) :
    Terms.width (collect (Terms.ofRow (front ++ [c]))).terms = front.length + 1 := by
  have canonical := (collect (Terms.ofRow (front ++ [c]))).canonical
  apply Nat.le_antisymm
  · refine canonical.width_le_iff.mpr fun t mem => ?_
    obtain ⟨⟨u, u_mem, same⟩, _⟩ := mem_terms_collect.mp mem
    obtain ⟨i, entry, place⟩ := Terms.mem_ofRow.mp u_mem
    have lt := (List.getElem?_eq_some_iff.mp entry).1
    rw [← same, ← place, Terms.toNat_place fits lt]
    simpa using lt
  · have place : (UInt32.ofNat front.length).toNat = front.length :=
      Terms.toNat_place fits (by simp)
    have leading :
        ⟨UInt32.ofNat front.length, c⟩ ∈ (collect (Terms.ofRow (front ++ [c]))).terms := by
      refine mem_terms_iff.mpr ⟨?_, nonzero⟩
      rw [Terms.coeff_collect_ofRow fits, place, List.getElem?_concat_length]
      exact Binary64.zero_add_of_nonzero nonzero
    have lt := canonical.toNat_lt_width leading
    rwa [place] at lt

/-- Then the row is complete. -/
theorem toDense_collect_ofRow_concat (nonzero : c.isZero = false) :
    (collect (Terms.ofRow (front ++ [c]))).toDense = (front ++ [c]).map (0 + ·) := by
  have width := width_collect_ofRow_concat fits nonzero
  refine List.ext_getElem ?_ fun i _ lt => ?_
  · rw [length_toDense, width, List.length_map, List.length_append, List.length_singleton]
  · rw [List.length_map] at lt
    simp only [toDense_eq_map, List.getElem_map, List.getElem_range]
    rw [Terms.coeff_collect_ofRow fits, Terms.toNat_place fits lt, List.getElem?_eq_getElem lt]
    rfl

end Row

/-- **What a row adds up to has that row again**, without the zeros at its end and with `0` for
`-0`. -/
theorem toDense_collect_ofRow {cs : List Binary64} (fits : cs.length ≤ UInt32.size) :
    (collect (Terms.ofRow cs)).toDense = (cs.map (0 + ·)).rdropWhile Binary64.isZero := by
  induction cs using List.reverseRecOn with
  | nil => rfl
  | append_singleton front c ih =>
    rw [List.map_append, List.map_singleton]
    cases zero : c.isZero with
    | true =>
      rw [Binary64.zero_add_of_isZero zero, List.rdropWhile_concat_pos _ _ _ Binary64.isZero_zero,
        collect_ofRow_concat_of_isZero fits zero]
      exact ih ((List.prefix_append front [c]).length_le.trans fits)
    | false =>
      rw [Binary64.zero_add_of_nonzero zero, List.rdropWhile_concat_neg _ _ _ (by simp [zero]),
        toDense_collect_ofRow_concat fits zero, List.map_append, List.map_singleton,
        Binary64.zero_add_of_nonzero zero]

/-- **What a row leads to has that row again**, without the zeros at its end and with `0` for
`-0`. -/
theorem toDense_of_ofDense {cs : List Binary64} {p : Poly} (built : ofDense cs = .ok p) :
    p.toDense = (cs.map fun c => if c = -0 then 0 else c).rdropWhile Binary64.isZero := by
  obtain ⟨_, fits, rfl⟩ := ofDense_eq_ok_iff.mp built
  simp only [toDense_collect_ofRow fits, Binary64.zero_add_eq]

/-- **Dense rows and polynomials lead to each other.**  The row of a polynomial has an entry for
every exponent up to the degree, which is the coefficient there.  It leads back to the polynomial if
all coefficients are finite, and is refused for the first one that is not otherwise.  A row that is
not too long is treated as the list of explicit terms that it stands for, and what it leads to has
the same row with `0` for `-0` and without the zeros at the end. -/
theorem dense_sparse_round_trips :
    (∀ p : Poly, p.toDense.length = p.degree?.elim 0 (·.toNat + 1) ∧
      (∀ n, n.toNat < p.toDense.length → p.toDense[n.toNat]? = some (p.coeff n)) ∧
      (ofDense p.toDense = .ok p ↔ ∀ t ∈ p.terms, t.coeff.isFinite = true) ∧
      ∀ e, ofDense p.toDense = .error e ↔ ∃ t ∈ p.terms, t.coeff.isFinite = false ∧
        (∀ u ∈ p.terms, u.exponent < t.exponent → u.coeff.isFinite = true) ∧
          e = .nonFiniteCoefficient t.coeff) ∧
    ∀ cs : List Binary64, cs.length ≤ UInt32.size →
      ofDense cs = ofTerms (rowPairs cs) ∧
      ∀ p, ofDense cs = .ok p →
        p.toDense = (cs.map fun c => if c = -0 then 0 else c).rdropWhile Binary64.isZero :=
  ⟨fun p => ⟨p.length_toDense, fun _ => getElem?_toDense, ofDense_toDense_eq_ok_iff,
    fun _ => ofDense_toDense_eq_error_iff⟩,
    fun _ fits => ⟨ofDense_eq_ofTerms fits, fun _ => toDense_of_ofDense⟩⟩

/-- A row with zeros of both signs, in it and at its end. -/
theorem dense_sparse_of_zeros :
    ∃ p, ofDense [-0, 1, 0, -0] = .ok p ∧ ofTerms [(0, -0), (1, 1), (2, 0), (3, -0)] = .ok p ∧
      p.toDense = [0, 1] := by
  obtain ⟨_, rows⟩ := dense_sparse_round_trips
  obtain ⟨same, row_of⟩ := rows [-0, 1, 0, -0] (by decide)
  have built : ofDense [-0, 1, 0, -0] = .ok _ := ofDense_eq_ok_iff.mpr ⟨by decide, by decide, rfl⟩
  exact ⟨_, built, same.symm.trans built, (row_of _ built).trans (by decide +kernel)⟩

end Poly

end SparsePoly
