import SparsePoly.Terms.Canonical

/-!
# Merging two lists of terms

The sum of two polynomials is a merge of their terms: the term with the lesser exponent comes
first, and two terms that meet at one exponent are added, and dropped if they cancel.  One pass over
both lists is enough because both ascend.

## Main definitions

* `Terms.merge` - the merge, defined on all lists

## Main statements

* `Terms.canonical_merge` - the merge of canonical lists is canonical
-/

namespace SparsePoly

namespace Terms

/-- **The merge.**  Only the heads are compared, so what comes out of lists that do not ascend is
fixed by the same rules. -/
def merge : List Term → List Term → List Term
  | [], us => us
  | t :: ts, [] => t :: ts
  | t :: ts, u :: us =>
    if t.exponent < u.exponent then
      t :: merge ts (u :: us)
    else if u.exponent < t.exponent then
      u :: merge (t :: ts) us
    else if (t.coeff + u.coeff).isZero then
      merge ts us
    else
      ⟨t.exponent, t.coeff + u.coeff⟩ :: merge ts us
termination_by ts us => ts.length + us.length

@[simp] theorem nil_merge (us : List Term) : merge [] us = us := by
  cases us <;> simp [merge]

@[simp] theorem merge_nil (ts : List Term) : merge ts [] = ts := by
  cases ts <;> simp [merge]

/-- Every exponent of a merge is an exponent of one of the lists. -/
theorem exponent_of_mem_merge {ts us : List Term} {v : Term} (mem : v ∈ merge ts us) :
    (∃ t ∈ ts, v.exponent = t.exponent) ∨ ∃ u ∈ us, v.exponent = u.exponent := by
  fun_induction merge ts us with
  | case1 us => exact Or.inr ⟨v, mem, rfl⟩
  | case2 t ts => exact Or.inl ⟨v, mem, rfl⟩
  | case3 t ts u us less ih =>
    rcases List.mem_cons.mp mem with rfl | mem
    · exact Or.inl ⟨v, List.mem_cons_self, rfl⟩
    · exact (ih mem).imp_left fun ⟨w, w_mem, eq⟩ => ⟨w, List.mem_cons_of_mem _ w_mem, eq⟩
  | case4 t ts u us _ greater ih =>
    rcases List.mem_cons.mp mem with rfl | mem
    · exact Or.inr ⟨v, List.mem_cons_self, rfl⟩
    · exact (ih mem).imp_right fun ⟨w, w_mem, eq⟩ => ⟨w, List.mem_cons_of_mem _ w_mem, eq⟩
  | case5 t ts u us _ _ cancelled ih =>
    -- The heads are gone, so everything comes from the tails.
    exact (ih mem).imp (fun ⟨w, w_mem, eq⟩ => ⟨w, List.mem_cons_of_mem _ w_mem, eq⟩)
      fun ⟨w, w_mem, eq⟩ => ⟨w, List.mem_cons_of_mem _ w_mem, eq⟩
  | case6 t ts u us _ _ _ ih =>
    rcases List.mem_cons.mp mem with rfl | mem
    · exact Or.inl ⟨t, List.mem_cons_self, rfl⟩
    · exact (ih mem).imp (fun ⟨w, w_mem, eq⟩ => ⟨w, List.mem_cons_of_mem _ w_mem, eq⟩)
        fun ⟨w, w_mem, eq⟩ => ⟨w, List.mem_cons_of_mem _ w_mem, eq⟩

/-- What lies below the exponents of both lists lies below those of their merge. -/
private theorem lt_of_mem_merge {ts us : List Term} {n : UInt32}
    (below_ts : ∀ t ∈ ts, n < t.exponent) (below_us : ∀ u ∈ us, n < u.exponent) :
    ∀ v ∈ merge ts us, n < v.exponent := by
  intro v mem
  rcases exponent_of_mem_merge mem with ⟨t, t_mem, eq⟩ | ⟨u, u_mem, eq⟩
  · rw [eq]; exact below_ts t t_mem
  · rw [eq]; exact below_us u u_mem

/-- Two exponents of which neither is less are equal. -/
private theorem exponent_eq_of_not_lt {a b : UInt32} (not_lt : ¬a < b) (not_gt : ¬b < a) : a = b :=
  UInt32.le_antisymm (UInt32.not_lt.mp not_gt) (UInt32.not_lt.mp not_lt)

/-- **The merge of canonical lists is canonical.** -/
theorem canonical_merge {ts us : List Term} (ht : Canonical ts) (hu : Canonical us) :
    Canonical (merge ts us) := by
  fun_induction merge ts us with
  | case1 us => exact hu
  | case2 t ts => exact ht
  | case3 t ts u us less ih =>
    have ⟨nonzero, first, rest⟩ := canonical_cons.mp ht
    have ⟨_, u_first, _⟩ := canonical_cons.mp hu
    refine canonical_cons.mpr ⟨nonzero, lt_of_mem_merge first fun w mem => ?_, ih rest hu⟩
    rcases List.mem_cons.mp mem with rfl | mem
    · exact less
    · exact UInt32.lt_trans less (u_first w mem)
  | case4 t ts u us _ greater ih =>
    have ⟨nonzero, first, rest⟩ := canonical_cons.mp hu
    have ⟨_, t_first, _⟩ := canonical_cons.mp ht
    refine canonical_cons.mpr ⟨nonzero, lt_of_mem_merge (fun w mem => ?_) first, ih ht rest⟩
    rcases List.mem_cons.mp mem with rfl | mem
    · exact greater
    · exact UInt32.lt_trans greater (t_first w mem)
  | case5 t ts u us _ _ _ ih => exact ih ht.tail hu.tail
  | case6 t ts u us not_lt not_gt kept ih =>
    have ⟨_, t_first, t_rest⟩ := canonical_cons.mp ht
    have ⟨_, u_first, u_rest⟩ := canonical_cons.mp hu
    rw [← exponent_eq_of_not_lt not_lt not_gt] at u_first
    exact canonical_cons.mpr
      ⟨by simpa using kept, lt_of_mem_merge t_first u_first, ih t_rest u_rest⟩

end Terms

end SparsePoly
