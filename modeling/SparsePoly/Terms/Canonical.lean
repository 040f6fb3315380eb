import SparsePoly.Term

/-!
# Canonical lists of terms

A polynomial has one list of terms: ascending exponents, each at most once, and no coefficient
that is zero.  The zero polynomial is the empty list.

## Main definitions

* `Terms.Canonical` - that form
* `Terms.coeff` - the coefficient that a list has at an exponent
* `Terms.sumAt` - the sum of all coefficients that an arbitrary list gives to an exponent
* `Terms.ofCoefficients` - the canonical terms of a dense row of coefficients

## Main statements

* `Terms.Canonical.eq_of_mem_iff` - a canonical list is determined by its members
* `Terms.Canonical.coeff_eq` - in a canonical list the coefficient at an exponent is the one of
  the only term there
* `Terms.canonical_ofCoefficients` - dense rows lead to canonical lists
-/

namespace SparsePoly

namespace Terms

/-! ### The canonical form -/

/-- Strictly ascending exponents and no zero coefficient. -/
structure Canonical (ts : List Term) : Prop where
  /-- The exponents ascend strictly. -/
  ascending : ts.Pairwise (·.exponent < ·.exponent)
  /-- No coefficient is a zero of either sign. -/
  nonzero : ∀ t ∈ ts, t.coeff.isZero = false

theorem canonical_nil : Canonical [] := ⟨List.Pairwise.nil, by simp⟩

theorem canonical_cons {t : Term} {ts : List Term} :
    Canonical (t :: ts) ↔
      t.coeff.isZero = false ∧ (∀ u ∈ ts, t.exponent < u.exponent) ∧ Canonical ts := by
  constructor
  · intro h
    have ⟨first, rest⟩ := List.pairwise_cons.mp h.ascending
    exact ⟨h.nonzero t List.mem_cons_self, first, rest,
      fun u mem => h.nonzero u (List.mem_cons_of_mem t mem)⟩
  · intro ⟨nonzero, first, rest⟩
    refine ⟨List.pairwise_cons.mpr ⟨first, rest.ascending⟩, fun u mem => ?_⟩
    rcases List.mem_cons.mp mem with rfl | mem
    · exact nonzero
    · exact rest.nonzero u mem

theorem canonical_singleton {t : Term} : Canonical [t] ↔ t.coeff.isZero = false := by
  simp [canonical_cons, canonical_nil]

namespace Canonical

variable {ts us : List Term}

theorem tail {t : Term} (h : Canonical (t :: ts)) : Canonical ts := (canonical_cons.mp h).2.2

/-- Two terms of a canonical list with one exponent are one term. -/
theorem eq_of_exponent_eq (h : Canonical ts) {t u : Term} (ht : t ∈ ts) (hu : u ∈ ts)
    (eq : t.exponent = u.exponent) : t = u := by
  induction ts with
  | nil => simp at ht
  | cons v ts ih =>
    have ⟨_, first, rest⟩ := canonical_cons.mp h
    rcases List.mem_cons.mp ht with t_head | t_tail <;>
      rcases List.mem_cons.mp hu with u_head | u_tail
    · rw [t_head, u_head]
    · have lt := first u u_tail
      rw [← t_head, eq] at lt
      exact absurd lt (UInt32.lt_irrefl _)
    · have lt := first t t_tail
      rw [← u_head, eq] at lt
      exact absurd lt (UInt32.lt_irrefl _)
    · exact ih rest t_tail u_tail

/-- **A canonical list is determined by its members.** -/
theorem eq_of_mem_iff (ht : Canonical ts) (hu : Canonical us) (same : ∀ t, t ∈ ts ↔ t ∈ us) :
    ts = us := by
  induction ts generalizing us with
  | nil =>
    cases us with
    | nil => rfl
    | cons u us => exact absurd ((same u).mpr List.mem_cons_self) (by simp)
  | cons t ts ih =>
    cases us with
    | nil => exact absurd ((same t).mp List.mem_cons_self) (by simp)
    | cons u us =>
      have ⟨_, t_first, t_rest⟩ := canonical_cons.mp ht
      have ⟨_, u_first, u_rest⟩ := canonical_cons.mp hu
      have head : t = u := by
        rcases List.mem_cons.mp ((same t).mp List.mem_cons_self) with eq | t_mem
        · exact eq
        · rcases List.mem_cons.mp ((same u).mpr List.mem_cons_self) with eq | u_mem
          · exact eq.symm
          · exact absurd (UInt32.lt_trans (t_first u u_mem) (u_first t t_mem))
              (UInt32.lt_irrefl _)
      subst head
      refine congrArg _ (ih t_rest u_rest fun v => ?_)
      have iff := same v
      simp only [List.mem_cons] at iff
      constructor
      · intro mem
        rcases iff.mp (Or.inr mem) with rfl | mem'
        · exact absurd (t_first v mem) (UInt32.lt_irrefl _)
        · exact mem'
      · intro mem
        rcases iff.mpr (Or.inr mem) with rfl | mem'
        · exact absurd (u_first v mem) (UInt32.lt_irrefl _)
        · exact mem'

/-- Terms with the same exponents and no zero among them are canonical. -/
theorem map_of_exponent (h : Canonical ts) (f : Term → Term)
    (exponent : ∀ t, (f t).exponent = t.exponent)
    (nonzero : ∀ t ∈ ts, (f t).coeff.isZero = false) : Canonical (ts.map f) := by
  refine ⟨List.pairwise_map.mpr (h.ascending.imp fun lt => ?_), fun t mem => ?_⟩
  · rwa [exponent, exponent]
  · obtain ⟨u, u_mem, rfl⟩ := List.mem_map.mp mem
    exact nonzero u u_mem

end Canonical

/-- Ascending terms without the zeros among them are canonical. -/
theorem canonical_filter {ts : List Term} (ascending : ts.Pairwise (·.exponent < ·.exponent)) :
    Canonical (ts.filter (! ·.coeff.isZero)) :=
  ⟨ascending.filter _, fun t mem => by simpa using (List.mem_filter.mp mem).2⟩

/-- The last exponent of a list of terms, which for a canonical one is its degree. -/
def lastExponent? (ts : List Term) : Option UInt32 := ts.getLast?.map Term.exponent

/-! ### Coefficients -/

/-- The coefficient at an exponent: that of the first term there, zero if there is none. -/
def coeff (ts : List Term) (n : UInt32) : Binary64 :=
  match ts.find? (·.exponent == n) with
  | some t => t.coeff
  | none => 0

@[simp] theorem coeff_nil (n : UInt32) : coeff [] n = 0 := rfl

/-- **The coefficient is that of the only term.** -/
theorem Canonical.coeff_eq {ts : List Term} (h : Canonical ts) {t : Term} (mem : t ∈ ts) :
    coeff ts t.exponent = t.coeff := by
  unfold coeff
  cases found : ts.find? (·.exponent == t.exponent) with
  | none => exact absurd (List.find?_eq_none.mp found t mem) (by simp)
  | some u =>
    have same : u.exponent = t.exponent := by simpa using List.find?_some found
    exact congrArg Term.coeff (h.eq_of_exponent_eq (List.mem_of_find?_eq_some found) mem same)

/-- Where there is no term the coefficient is zero. -/
theorem coeff_eq_zero {ts : List Term} {n : UInt32} (none_there : ∀ t ∈ ts, t.exponent ≠ n) :
    coeff ts n = 0 := by
  unfold coeff
  rw [List.find?_eq_none.mpr (by simpa using none_there)]

/-- **What a list gives to an exponent.**  The coefficients there are added in list order,
starting from zero; this is what any way of collecting the list must store. -/
def sumAt (ts : List Term) (n : UInt32) : Binary64 :=
  Binary64.sum ((ts.filter (·.exponent == n)).map Term.coeff)

@[simp] theorem sumAt_nil (n : UInt32) : sumAt [] n = 0 := rfl

theorem sumAt_append_singleton (ts : List Term) (t : Term) (n : UInt32) :
    sumAt (ts ++ [t]) n = if t.exponent = n then sumAt ts n + t.coeff else sumAt ts n := by
  unfold sumAt
  by_cases eq : t.exponent = n <;> simp [List.filter_append, eq]

/-! ### Dense rows -/

/-- The nonzero entries of a row, the first of which belongs to the exponent `first`. -/
def ofCoefficientsFrom (first : Nat) : List Binary64 → List Term
  | [] => []
  | c :: cs =>
    if c.isZero then
      ofCoefficientsFrom (first + 1) cs
    else
      ⟨UInt32.ofNat first, c⟩ :: ofCoefficientsFrom (first + 1) cs

/-- **The terms of a dense row.**  Entry `i` is the coefficient at exponent `i`; zeros give no
term. -/
def ofCoefficients (cs : List Binary64) : List Term := ofCoefficientsFrom 0 cs

/-- What comes out of a row stands at one of its places, and is its entry there. -/
theorem mem_ofCoefficientsFrom {first : Nat} {cs : List Binary64} {t : Term} :
    t ∈ ofCoefficientsFrom first cs ↔
      ∃ i c, cs[i]? = some c ∧ c.isZero = false ∧ t = ⟨UInt32.ofNat (first + i), c⟩ := by
  induction cs generalizing first with
  | nil => simp [ofCoefficientsFrom]
  | cons d cs ih =>
    have shift : (∃ i c, (d :: cs)[i]? = some c ∧ c.isZero = false ∧
        t = ⟨UInt32.ofNat (first + i), c⟩) ↔
        (d.isZero = false ∧ t = ⟨UInt32.ofNat first, d⟩) ∨
          ∃ i c, cs[i]? = some c ∧ c.isZero = false ∧
            t = ⟨UInt32.ofNat (first + 1 + i), c⟩ := by
      constructor
      · rintro ⟨i, c, found, nonzero, rfl⟩
        cases i with
        | zero =>
          simp only [List.getElem?_cons_zero, Option.some.injEq] at found
          subst found
          exact Or.inl ⟨nonzero, rfl⟩
        | succ i =>
          refine Or.inr ⟨i, c, by simpa using found, nonzero, ?_⟩
          rw [Nat.add_assoc, Nat.add_comm 1 i]
      · rintro (⟨nonzero, rfl⟩ | ⟨i, c, found, nonzero, rfl⟩)
        · exact ⟨0, d, rfl, nonzero, rfl⟩
        · exact ⟨i + 1, c, by simpa using found, nonzero, by rw [Nat.add_assoc, Nat.add_comm 1 i]⟩
    rw [shift]
    unfold ofCoefficientsFrom
    by_cases zero : d.isZero = true
    · simp [zero, ih]
    · simp [zero, ih]

/-- A row that ends within the range of exponents gives ascending terms from its first place on. -/
private theorem canonical_ofCoefficientsFrom {first : Nat} {cs : List Binary64}
    (fits : first + cs.length ≤ UInt32.size) :
    Canonical (ofCoefficientsFrom first cs) := by
  induction cs generalizing first with
  | nil => exact canonical_nil
  | cons c cs ih =>
    have fits' : first + 1 + cs.length ≤ UInt32.size := by
      simp only [List.length_cons] at fits
      omega
    unfold ofCoefficientsFrom
    by_cases zero : c.isZero = true
    · rw [if_pos zero]
      exact ih fits'
    · rw [if_neg zero]
      refine canonical_cons.mpr ⟨by simpa using zero, fun t mem => ?_, ih fits'⟩
      obtain ⟨i, d, found, _, rfl⟩ := mem_ofCoefficientsFrom.mp mem
      have lt : i < cs.length := (List.getElem?_eq_some_iff.mp found).1
      rw [UInt32.lt_iff_toNat_lt, UInt32.toNat_ofNat_of_lt' (by omega),
        UInt32.toNat_ofNat_of_lt' (by omega)]
      omega

/-- **Dense rows lead to canonical lists.** -/
theorem canonical_ofCoefficients {cs : List Binary64} (fits : cs.length ≤ UInt32.size) :
    Canonical (ofCoefficients cs) :=
  canonical_ofCoefficientsFrom (by omega)

end Terms

end SparsePoly
