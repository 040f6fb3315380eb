import Mathlib.Data.List.Basic
import SparsePoly.Proofs.Sums
import SparsePoly.Terms.Product

/-!
# One product for every scratch space

`Terms.productCoeff` is the coefficient of a product as two nested loops over the operands: the
exponents are added as natural numbers, and a pair either hits the exponent in question or leaves
the sum alone.  It knows no words, no scratch space and no bound.

Canonical operands ascend, so no pair lies above the sum of the last exponents.  If that is an
exponent, then adding words is adding numbers, every partial product has a slot, and the row and
the tree collect the same partial products in the same order.

## Main statements

* `Terms.sumAt_partialProducts` - what the partial products give to an exponent
* `Terms.productIn_eq_collected` - either scratch space holds what the partial products add up to
* `Terms.product_eq_productCoeff` - the product is the list of the coefficients that are not zero
-/

namespace SparsePoly

namespace Terms

/-- **The coefficient of a product**: the outer list first, each sum starting from zero. -/
def productCoeff (ts us : List Term) (n : Nat) : Binary64 :=
  ts.foldl (fun sum t => us.foldl (fun sum u =>
    if t.exponent.toNat + u.exponent.toNat = n then sum + t.coeff * u.coeff else sum) sum) 0

/-- The exponents of every pair of terms add up to less than a limit. -/
def PairsBelow (limit : Nat) (ts us : List Term) : Prop :=
  ∀ t ∈ ts, ∀ u ∈ us, t.exponent.toNat + u.exponent.toNat < limit

/-! ### What the partial products give to an exponent -/

/-- The sum at an exponent as one loop over all terms. -/
theorem sumAt_eq_foldl (ts : List Term) (n : UInt32) :
    sumAt ts n = ts.foldl (fun sum t => if t.exponent = n then sum + t.coeff else sum) 0 := by
  rw [sumAt, Binary64.sum, List.foldl_map, List.foldl_filter]
  simp only [beq_iff_eq]

section Pairs

variable {ts us : List Term} (fit : PairsBelow UInt32.size ts us)

include fit

/-- Words are added like numbers if the sum is a word. -/
theorem toNat_exponent_mul {t u : Term} (ht : t ∈ ts) (hu : u ∈ us) :
    (t * u).exponent.toNat = t.exponent.toNat + u.exponent.toNat := by
  show (t.exponent + u.exponent).toNat = _
  rw [UInt32.toNat_add]
  exact Nat.mod_eq_of_lt (fit t ht u hu)

/-- **The partial products** give the nested loops to an exponent. -/
theorem sumAt_partialProducts (n : UInt32) :
    sumAt (partialProducts ts us) n = productCoeff ts us n.toNat := by
  rw [sumAt_eq_foldl, partialProducts, List.foldl_flatMap, productCoeff]
  apply List.foldl_ext
  intro sum t ht
  rw [List.foldl_map]
  apply List.foldl_ext
  intro sum u hu
  exact if_congr (by rw [← UInt32.toNat_inj, toNat_exponent_mul fit ht hu]) rfl rfl

/-- No pair contributes to what is no exponent. -/
theorem productCoeff_of_size_le {n : Nat} (beyond : UInt32.size ≤ n) :
    productCoeff ts us n = 0 := by
  have inner (sum : Binary64) (t : Term) (ht : t ∈ ts) :
      us.foldl (fun sum u => if t.exponent.toNat + u.exponent.toNat = n then
        sum + t.coeff * u.coeff else sum) sum = sum := by
    rw [List.foldl_ext _ (fun sum _ => sum) _ fun sum u hu =>
      if_neg (Nat.ne_of_lt (Nat.lt_of_lt_of_le (fit t ht u hu) beyond))]
    exact List.foldl_fixed' (fun _ => rfl) us
  rw [productCoeff, List.foldl_ext _ (fun sum _ => sum) _ inner]
  exact List.foldl_fixed' (fun _ => rfl) ts

/-- Partial products lie where their pairs do. -/
theorem exponent_le_of_mem_partialProducts {bound : Nat} (below : PairsBelow (bound + 1) ts us) :
    ∀ v ∈ partialProducts ts us, v.exponent.toNat ≤ bound := by
  intro v mem
  obtain ⟨t, ht, mem⟩ := List.mem_flatMap.mp mem
  obtain ⟨u, hu, rfl⟩ := List.mem_map.mp mem
  rw [toNat_exponent_mul fit ht hu]
  exact Nat.le_of_lt_succ (below t ht u hu)

end Pairs

/-! ### The degree bound -/

/-- The order of the operands does not matter to their pairs. -/
theorem PairsBelow.inOrder [Patterns] {limit : Nat} {ts us : List Term}
    (below : PairsBelow limit ts us) :
    PairsBelow limit (inOrder ts us).1 (inOrder ts us).2 := by
  rw [Terms.inOrder]
  split
  · intro u hu t ht
    rw [Nat.add_comm]
    exact below t ht u hu
  · exact below

/-- No term of a canonical list lies above the last one. -/
theorem Canonical.exponent_le_last {ts : List Term} (h : Canonical ts) {t : Term} (mem : t ∈ ts)
    {m : UInt32} (isLast : lastExponent? ts = some m) : t.exponent ≤ m := by
  obtain ⟨u, last, rfl⟩ := Option.map_eq_some_iff.mp isLast
  obtain ⟨front, rfl⟩ := List.getLast?_eq_some_iff.mp last
  rcases List.mem_append.mp mem with in_front | is_last
  · have pairs := List.pairwise_append.mp h.ascending
    exact UInt32.le_of_lt (pairs.2.2 t in_front u List.mem_cons_self)
  · rw [List.mem_singleton.mp is_last]
    exact UInt32.le_refl _

theorem eq_nil_of_lastExponent? {ts : List Term} (isLast : lastExponent? ts = none) : ts = [] :=
  List.getLast?_eq_none_iff.mp (Option.map_eq_none_iff.mp isLast)

/-- No pair lies above the last terms. -/
theorem pairsBelow_last {ts us : List Term} (ht : Canonical ts) (hu : Canonical us) {m n : UInt32}
    (t_last : lastExponent? ts = some m) (u_last : lastExponent? us = some n) :
    PairsBelow (m.toNat + n.toNat + 1) ts us := by
  intro t t_mem u u_mem
  have t_le := UInt32.le_iff_toNat_le.mp (ht.exponent_le_last t_mem t_last)
  have u_le := UInt32.le_iff_toNat_le.mp (hu.exponent_le_last u_mem u_last)
  omega

/-! ### The product -/

/-- The last exponents of two lists, if both have one, add up to an exponent. -/
def LastFit (ts us : List Term) : Prop :=
  ∀ m ∈ lastExponent? ts, ∀ n ∈ lastExponent? us, m.toNat + n.toNat < UInt32.size

theorem lastFit_nil_left (ts : List Term) : LastFit [] ts := nofun

theorem lastFit_nil_right (ts : List Term) : LastFit ts [] := fun _ _ _ last => nomatch last

/-- What the partial products of the ordered operands add up to. -/
def collected [Patterns] (ts us : List Term) : List Term :=
  (Poly.collect (partialProducts (inOrder ts us).1 (inOrder ts us).2)).terms

theorem collected_of_empty [Patterns] {ts us : List Term} (empty : ts = [] ∨ us = []) :
    collected ts us = [] := by
  have no_products : partialProducts (inOrder ts us).1 (inOrder ts us).2 = [] := by
    rw [inOrder]
    rcases empty with rfl | rfl <;> split <;> simp [partialProducts]
  rw [collected, no_products, Poly.collect_nil, Poly.terms_zero]

section Product

variable {ts us : List Term} (ht : Canonical ts) (hu : Canonical us) (fit : LastFit ts us)

include ht hu fit

/-- **If the last exponents fit then all pairs do.** -/
theorem pairsBelow_of_lastFit : PairsBelow UInt32.size ts us := by
  cases t_last : lastExponent? ts with
  | none => simp [PairsBelow, eq_nil_of_lastExponent? t_last]
  | some m =>
    cases u_last : lastExponent? us with
    | none => simp [PairsBelow, eq_nil_of_lastExponent? u_last]
    | some n =>
      intro t t_mem u u_mem
      have below := pairsBelow_last ht hu t_last u_last t t_mem u u_mem
      exact Nat.lt_of_lt_of_le below (fit m t_last n u_last)

theorem pairsBelow_size [Patterns] : PairsBelow UInt32.size (inOrder ts us).1 (inOrder ts us).2 :=
  (pairsBelow_of_lastFit ht hu fit).inOrder

/-- The degree bound is that of both lists, or one of them is empty. -/
theorem degreeBound_cases :
    degreeBound ts us = .ok none ∧ (ts = [] ∨ us = []) ∨
      ∃ bound, degreeBound ts us = .ok (some bound) ∧ PairsBelow (bound.toNat + 1) ts us := by
  rw [degreeBound]
  cases t_last : lastExponent? ts with
  | none => exact Or.inl ⟨rfl, Or.inl (eq_nil_of_lastExponent? t_last)⟩
  | some m =>
    cases u_last : lastExponent? us with
    | none => exact Or.inl ⟨rfl, Or.inr (eq_nil_of_lastExponent? u_last)⟩
    | some n =>
      have lt := fit m t_last n u_last
      have whole : (m + n).toNat = m.toNat + n.toNat := by
        rw [UInt32.toNat_add]
        exact Nat.mod_eq_of_lt lt
      refine Or.inr ⟨m + n, if_pos lt, ?_⟩
      rw [whole]
      exact pairsBelow_last ht hu t_last u_last

/-- **Either scratch space** holds what the partial products add up to. -/
theorem productIn_eq_collected [Patterns] (scratch : Scratch) :
    productIn scratch ts us = .ok (collected ts us) := by
  rw [productIn]
  rcases degreeBound_cases ht hu fit with ⟨noBound, empty⟩ | ⟨bound, isBound, below⟩
  · rw [noBound, collected_of_empty empty]
  · rw [isBound]
    cases scratch with
    | sparse => rfl
    | dense =>
      have slots := exponent_le_of_mem_partialProducts (pairsBelow_size ht hu fit) below.inOrder
      obtain ⟨sums, added⟩ := (DenseSums.empty bound.toNat).exists_addAll? slots
      simp only [added]
      rw [DenseSums.toTerms_addAll?_empty added]
      rfl

/-- So it does not matter which one is chosen. -/
theorem product_eq_collected [Patterns] : product ts us = .ok (collected ts us) := by
  rw [product, chooseScratch]
  rcases degreeBound_cases ht hu fit with ⟨noBound, empty⟩ | ⟨bound, isBound, _⟩
  · rw [noBound, collected_of_empty empty]
  · rw [isBound]
    by_cases small : bound.toNat < slotsPerProduct * (ts.length * us.length)
    · simp only [if_pos small]
      exact productIn_eq_collected ht hu fit .dense
    · simp only [if_neg small]
      exact productIn_eq_collected ht hu fit .sparse

/-- The coefficients of the product. -/
theorem mem_collected_iff [Patterns] (n : Nat) (c : Binary64) :
    (∃ t ∈ collected ts us, t.exponent.toNat = n ∧ t.coeff = c) ↔
      productCoeff (inOrder ts us).1 (inOrder ts us).2 n = c ∧ c.isZero = false := by
  have fits := pairsBelow_size ht hu fit
  constructor
  · rintro ⟨t, mem, rfl, rfl⟩
    rw [← sumAt_partialProducts fits]
    exact Poly.mem_terms_collect_iff.mp mem
  · rintro ⟨sum, nonzero⟩
    have isExponent : n < UInt32.size := by
      apply Nat.lt_of_not_le
      intro beyond
      rw [productCoeff_of_size_le fits beyond] at sum
      rw [← sum, Binary64.isZero_zero] at nonzero
      cases nonzero
    have place := UInt32.toNat_ofNat_of_lt' isExponent
    refine ⟨⟨UInt32.ofNat n, c⟩, Poly.mem_terms_collect_iff.mpr ⟨?_, nonzero⟩, place, rfl⟩
    rw [sumAt_partialProducts fits, place]
    exact sum

end Product

/-- **The product, whatever scratch space is used.**  Canonical operands whose last exponents fit
have one product, the same in either scratch space and in the one chosen: in ascending order, the
coefficients of the ordered operands that are not zero. -/
theorem product_eq_productCoeff [Patterns] {ts us : List Term} (ht : Canonical ts)
    (hu : Canonical us) (fit : LastFit ts us) :
    ∃ vs, (∀ scratch, productIn scratch ts us = .ok vs) ∧ product ts us = .ok vs ∧
      vs.Pairwise (·.exponent < ·.exponent) ∧
      (∀ n c, (∃ t ∈ vs, t.exponent.toNat = n ∧ t.coeff = c) ↔
        productCoeff (inOrder ts us).1 (inOrder ts us).2 n = c ∧ c.isZero = false) ∧
      (ts = [] ∨ us = [] → vs = []) :=
  ⟨collected ts us, productIn_eq_collected ht hu fit, product_eq_collected ht hu fit,
    (Poly.canonical _).ascending, mem_collected_iff ht hu fit, collected_of_empty⟩

/-- One, the variable and a multiple of its square, which is large. -/
def largeSquare : List Term := [⟨0, 1⟩, ⟨1, 1⟩, ⟨2, .ofInt (2 ^ 53)⟩]

/-- One, the variable and its square. -/
def plainSquare : List Term := [⟨0, 1⟩, ⟨1, 1⟩, ⟨2, 1⟩]

/-- Three partial products meet at the exponent two.  The greater operand is given first and becomes
the inner one, so that the large product comes first and the two ones after it are lost.  In the
order in which the operands are given they would not be. -/
theorem product_of_lost_ones :
    Canonical largeSquare ∧ Canonical plainSquare ∧ LastFit largeSquare plainSquare ∧
      productCoeff largeSquare plainSquare 2 = .ofInt (2 ^ 53 + 2) ∧
      ∃ vs, (∀ scratch, @productIn .standard scratch largeSquare plainSquare = .ok vs) ∧
        @product .standard largeSquare plainSquare = .ok vs ∧
        ∃ t ∈ vs, t.exponent.toNat = 2 ∧ t.coeff = .ofInt (2 ^ 53) := by
  have large : (Binary64.ofInt (2 ^ 53)).isZero = false := by decide +kernel
  have large_canonical : Canonical largeSquare := ⟨by decide, by decide +kernel⟩
  have plain_canonical : Canonical plainSquare := ⟨by decide, by decide +kernel⟩
  have fit : LastFit largeSquare plainSquare := by
    rintro m ⟨⟩ n ⟨⟩
    decide
  have swapped : @inOrder .standard largeSquare plainSquare = (plainSquare, largeSquare) := by
    decide +kernel
  have sum : productCoeff plainSquare largeSquare 2 = .ofInt (2 ^ 53) := by decide +kernel
  obtain ⟨vs, inScratch, chosen, _, coeffs, _⟩ :=
    @product_eq_productCoeff .standard _ _ large_canonical plain_canonical fit
  refine ⟨large_canonical, plain_canonical, fit, by decide +kernel, vs, inScratch, chosen,
    (coeffs 2 _).mpr ⟨?_, large⟩⟩
  rw [swapped]
  exact sum

end Terms

end SparsePoly
