import SparsePoly.Proofs.ExplicitTerms
import SparsePoly.Proofs.RoundTrip

/-!
# Collected terms that leave the finite range

What a polynomial is built from is checked term by term: every coefficient that is given must be
finite.  What is stored are sums, and those are not checked again.  A sum of finite numbers may be
rounded to an infinity, and from there nothing that is added leads back: a finite number does not
change an infinity, and infinities that could cancel to NaN are not given.

So a polynomial is built with finite coefficients exactly if no running sum on the way is infinite.
If one is, the first such sum is what is stored, and the text of the polynomial is refused.

## Main statements

* `Binary64.foldl_infinity`, `Binary64.foldl_ne_nan` - what finite numbers make of an infinity, and
  that they make no NaN
* `Poly.collectedFrom_collect` - what is stored for finite terms
* `Poly.built_finite_iff` - so it is with explicit terms and with texts
* `Poly.built_infinite` - two terms whose sum is infinite
-/

namespace SparsePoly

open Grammar

/-! ### Additions of finite numbers -/

namespace Binary64

/-- A finite number makes no NaN of what is none. -/
theorem add_ne_nan {x y : Binary64} (x_number : x ≠ nan) (y_finite : y.isFinite = true) :
    x + y ≠ nan := by
  obtain ⟨t, b, rfl⟩ := exists_of_isFinite y_finite
  cases x with
  | nan => exact absurd rfl x_number
  | infinity s =>
    intro eq
    cases eq
  | finite s a =>
    intro eq
    rw [finite_add_finite, addFinite, rounded] at eq
    split at eq
    · cases eq
    · split at eq <;> cases eq

section Sums

variable {xs : List Binary64} (finite : ∀ x ∈ xs, x.isFinite = true)

include finite

/-- **No NaN** comes out of finite numbers. -/
theorem foldl_ne_nan {start : Binary64} (number : start ≠ nan) :
    xs.foldl (· + ·) start ≠ nan := by
  induction xs generalizing start with
  | nil => exact number
  | cons x xs ih =>
    obtain ⟨x_finite, xs_finite⟩ := List.forall_mem_cons.mp finite
    exact ih xs_finite (add_ne_nan number x_finite)

/-- **An infinity stays**, whatever finite numbers are added to it. -/
theorem foldl_infinity (s : Bool) : xs.foldl (· + ·) (infinity s) = infinity s := by
  induction xs with
  | nil => rfl
  | cons x xs ih =>
    obtain ⟨x_finite, xs_finite⟩ := List.forall_mem_cons.mp finite
    obtain ⟨t, b, rfl⟩ := exists_of_isFinite x_finite
    rw [List.foldl_cons, infinity_add_finite]
    exact ih xs_finite

end Sums

/-- What is rounded to the limit or beyond is infinite. -/
theorem rounded_eq_infinity {negative : Bool} {num den : Nat}
    (beyond : unitLimit ≤ roundToGrid num den) : rounded negative num den = infinity negative := by
  rw [rounded, Magnitude.round?, dif_neg (Nat.not_lt.mpr beyond)]

theorem limitExponent_pos : 0 < limitExponent :=
  Nat.lt_of_le_of_lt (Nat.zero_le _) unitExponent_lt_limitExponent

/-- The greatest power of two that is a number, `2 ^ 1023`. -/
def greatestPower : Binary64 :=
  .finite false ⟨2 ^ (limitExponent - 1), onGrid_two_pow _,
    Nat.pow_lt_pow_right (by decide) (Nat.sub_lt limitExponent_pos Nat.zero_lt_one)⟩

/-- Twice the greatest power of two is no number. -/
theorem greatestPower_add_greatestPower : greatestPower + greatestPower = infinity false := by
  have total : signedUnits false (2 ^ (limitExponent - 1)) +
      signedUnits false (2 ^ (limitExponent - 1)) = (unitLimit : Int) :=
    congrArg Int.ofNat (Nat.two_pow_pred_add_two_pow_pred limitExponent_pos)
  have nonzero : (unitLimit : Int) ≠ 0 := Int.natCast_ne_zero.mpr (Nat.ne_of_gt unitLimit_pos)
  have not_negative : ¬(unitLimit : Int) < 0 := Int.not_lt.mpr (Int.natCast_nonneg _)
  have onLimit : roundToGrid unitLimit 1 = unitLimit := by
    have kept := roundToGrid_of_onGrid Nat.zero_lt_one (onGrid_two_pow limitExponent)
    rwa [Nat.mul_one] at kept
  rw [greatestPower, finite_add_finite, addFinite, total, if_neg nonzero,
    decide_eq_false not_negative, Int.natAbs_natCast]
  exact rounded_eq_infinity (Nat.le_of_eq onLimit.symm)

end Binary64

namespace Terms

/-! ### Running sums -/

/-- Some running sum of the terms, at some exponent, is infinite. -/
def RunsOver (ts : List Term) : Prop :=
  ∃ front, front <+: ts ∧ ∃ n s, sumAt front n = .infinity s

section Finite

variable {ts : List Term} (finite : ∀ t ∈ ts, t.coeff.isFinite = true) (n : UInt32)

include finite

theorem isFinite_of_mem_at : ∀ c ∈ (ts.filter (·.exponent == n)).map Term.coeff,
    c.isFinite = true := by
  intro c mem
  obtain ⟨t, t_mem, rfl⟩ := List.mem_map.mp mem
  exact finite t (List.mem_filter.mp t_mem).1

theorem sumAt_ne_nan : sumAt ts n ≠ .nan :=
  Binary64.foldl_ne_nan (isFinite_of_mem_at finite n) nofun

/-- **A sum is infinite exactly if it has been so on the way**, and then it is the same infinity. -/
theorem sumAt_eq_infinity_iff (s : Bool) :
    sumAt ts n = .infinity s ↔ ∃ front, front <+: ts ∧ sumAt front n = .infinity s := by
  constructor
  · exact fun eq => ⟨ts, List.prefix_refl ts, eq⟩
  · rintro ⟨front, ⟨back, rfl⟩, eq⟩
    have back_finite := (List.forall_mem_append.mp finite).2
    rw [sumAt_append, eq]
    exact Binary64.foldl_infinity (isFinite_of_mem_at back_finite n) s

end Finite

end Terms

/-! ### What is stored for finite terms -/

namespace Poly

/-- **A polynomial that finite terms have been collected to.**  Whether its coefficients are finite
can be seen from the running sums of the terms. -/
structure CollectedFrom (p : Poly) (ts : List Term) : Prop where
  /-- A coefficient is the first infinity that the sum at its exponent came to, if any. -/
  infinite_iff : ∀ n s, p.coeff n = .infinity s ↔
    ∃ front, front <+: ts ∧ Terms.sumAt front n = .infinity s
  /-- No coefficient is NaN. -/
  number : ∀ n, p.coeff n ≠ .nan
  /-- All coefficients are finite if no running sum is infinite. -/
  finite_iff : (∀ t ∈ p.terms, t.coeff.isFinite = true) ↔ ¬Terms.RunsOver ts
  /-- Only then is the text of the polynomial one of the grammar. -/
  reads_back_iff : parse p.render = .ok p ↔ ¬Terms.RunsOver ts

section Collect

variable {ts : List Term} (finite : ∀ t ∈ ts, t.coeff.isFinite = true)

include finite

theorem coeff_collect_eq_infinity_iff (n : UInt32) (s : Bool) :
    (collect ts).coeff n = .infinity s ↔
      ∃ front, front <+: ts ∧ Terms.sumAt front n = .infinity s := by
  rw [← Terms.sumAt_eq_infinity_iff finite, coeff_collect_eq_sumAt]

theorem coeff_collect_ne_nan (n : UInt32) : (collect ts).coeff n ≠ .nan := by
  rw [coeff_collect_eq_sumAt]
  exact Terms.sumAt_ne_nan finite n

/-- The coefficients are finite if no running sum is infinite. -/
theorem isFinite_collect_iff :
    (∀ t ∈ (collect ts).terms, t.coeff.isFinite = true) ↔ ¬Terms.RunsOver ts := by
  constructor
  · rintro all_finite ⟨front, isFront, n, s, eq⟩
    have coeff := (coeff_collect_eq_infinity_iff finite n s).mpr ⟨front, isFront, eq⟩
    have mem : ⟨n, .infinity s⟩ ∈ (collect ts).terms :=
      mem_terms_iff.mpr ⟨coeff, Binary64.isZero_infinity s⟩
    cases all_finite _ mem
  · intro within t mem
    have coeff := coeff_of_mem mem
    cases value : t.coeff with
    | nan => exact absurd (coeff.trans value) (coeff_collect_ne_nan finite _)
    | infinity s =>
      obtain ⟨front, isFront, eq⟩ :=
        (coeff_collect_eq_infinity_iff finite t.exponent s).mp (coeff.trans value)
      exact absurd ⟨front, isFront, _, s, eq⟩ within
    | finite s m => rfl

/-- **What is stored for finite terms.** -/
theorem collectedFrom_collect : (collect ts).CollectedFrom ts where
  infinite_iff := coeff_collect_eq_infinity_iff finite
  number := coeff_collect_ne_nan finite
  finite_iff := isFinite_collect_iff finite
  reads_back_iff := by
    rw [← isFinite_collect_iff finite]
    constructor
    · intro read t mem
      cases isFinite : t.coeff.isFinite with
      | true => rfl
      | false =>
        obtain ⟨e, refused⟩ := parse_render_of_not_finite mem isFinite
        rw [refused] at read
        cases read
    · exact parse_render_of_finite

end Collect

end Poly

/-! ### What is given is finite -/

namespace Grammar

theorem Number.isFinite {text : List Char} {magnitude : Binary64}
    (number : Number text magnitude) : magnitude.isFinite = true := by
  cases number with
  | mk _ _ => rfl

theorem Body.isFinite {text : List Char} {t : Term} (body : Body text t) :
    t.coeff.isFinite = true := by
  cases body with
  | constant number => exact number.isFinite
  | monomial coefficient _ =>
    cases coefficient with
    | missing => rfl
    | number number => exact number.isFinite

theorem Signed.isFinite {text : List Char} {ts : List Term} (signed : Signed text ts) :
    ∀ t ∈ ts, t.coeff.isFinite = true := by
  induction signed with
  | nil => nofun
  | cons sign first _ ih =>
    exact List.forall_mem_cons.mpr ⟨(sign.isFinite_apply _).trans first.isFinite, ih⟩

/-- The grammar has finite terms only. -/
theorem Expression.isFinite {text : List Char} {ts : List Term}
    (expression : Expression text ts) : ∀ t ∈ ts, t.coeff.isFinite = true := by
  cases expression with
  | signed sign first others => exact (Signed.cons sign first others).isFinite
  | unsigned first others => exact List.forall_mem_cons.mpr ⟨first.isFinite, others.isFinite⟩

end Grammar

namespace Poly

/-- Explicit terms that are not refused are finite. -/
theorem isFinite_of_mapM {pairs : List (Int × Binary64)} {ts : List Term}
    (made : pairs.mapM termOfPair = .ok ts) : ∀ t ∈ ts, t.coeff.isFinite = true :=
  (mapM_termOfPair_eq_ok_iff.mp made).2

/-! ### Built polynomials -/

/-- **When explicit terms and texts give finite coefficients**: if no running sum of their terms is
infinite.  In any case what is stored is no NaN, and it reads back exactly if it is finite. -/
theorem built_finite_iff (p : Poly) :
    (∀ pairs, ofTerms pairs = .ok p →
      ∃ ts, pairs.mapM termOfPair = .ok ts ∧ p.CollectedFrom ts) ∧
    ∀ text, parse text = .ok p →
      ∃ ts, Expression (Text.trim text) ts ∧ p.CollectedFrom ts := by
  constructor
  · intro pairs built
    rw [ofTerms] at built
    cases made : pairs.mapM termOfPair with
    | error e =>
      rw [made] at built
      cases built
    | ok ts =>
      rw [made] at built
      cases built
      exact ⟨ts, rfl, collectedFrom_collect (isFinite_of_mapM made)⟩
  · intro text read
    obtain ⟨ts, expression, rfl⟩ := parse_eq_ok_iff.mp read
    exact ⟨ts, expression, collectedFrom_collect expression.isFinite⟩

/-- **Finite terms with an infinite sum.**  The greatest power of two, given twice as a constant, is
built without an error, from terms and from a text. -/
theorem built_infinite :
    ∃ p : Poly, ofTerms [(0, Binary64.greatestPower), (0, Binary64.greatestPower)] = .ok p ∧
      parse (Binary64.greatestPower.text ++ '+' :: Binary64.greatestPower.text) = .ok p ∧
      ⟨0, .infinity false⟩ ∈ p.terms ∧ ∃ e, parse p.render = .error e := by
  have kept : 0 + Binary64.greatestPower = Binary64.greatestPower := Binary64.zero_add_of_ne nofun
  have sum : Terms.sumAt [⟨0, Binary64.greatestPower⟩, ⟨0, Binary64.greatestPower⟩] 0 =
      .infinity false := by
    show 0 + Binary64.greatestPower + Binary64.greatestPower = _
    rw [kept]
    exact Binary64.greatestPower_add_greatestPower
  have infinite : ⟨0, .infinity false⟩ ∈
      (collect [⟨0, Binary64.greatestPower⟩, ⟨0, Binary64.greatestPower⟩]).terms :=
    mem_terms_collect_iff.mpr ⟨sum, Binary64.isZero_infinity false⟩
  have constant : Body Binary64.greatestPower.text ⟨0, Binary64.greatestPower⟩ :=
    .constant (.text _)
  have expression := Expression.unsigned constant (.cons .plus constant .nil)
  rw [List.append_nil] at expression
  exact ⟨_, rfl, parse_of_expression expression, infinite, parse_render_of_not_finite infinite rfl⟩

end Poly

end SparsePoly
