import SparsePoly.Expression.Parser
import SparsePoly.Poly.Arithmetic
import SparsePoly.Poly.Dense

/-!
# Sessions on unproven lists of terms

A polynomial carries the proof that its terms are canonical.  Here the same operations run on lists
of terms that carry nothing: a session is a list of calls, each applied to results of earlier calls,
and where a list is built by a merge, a product or by collecting, the canonical form is *checked*.
A list that fails the check ends the session.

The two run in step (`Call.outcome_map_terms`): given the terms of polynomials, a call comes to the
terms of the polynomial that the proven operation gives.  So no session is ended, and the canonical
form holds of every list in it.

## Main definitions

* `Terms.isCanonical` - the check of the canonical form
* `Call`, `Call.outcome` - the operations, on lists of terms
* `Call.poly?` - the operations, on polynomials
* `Session.run`, `Session.polys` - a session on lists of terms and on polynomials

## Main statements

* `Session.run_canonical` - no session ends with a failed check, and all its lists are canonical
-/

namespace SparsePoly

/-! ### The check -/

namespace Terms

/-- **The check of the canonical form**: every exponent is less than the next, and no coefficient
is a zero. -/
def isCanonical (ts : List Term) : Bool :=
  (ts.zip ts.tail).all (fun (t, u) => t.exponent < u.exponent) && ts.all (! ·.coeff.isZero)

theorem isCanonical_cons_cons (t u : Term) (ts : List Term) :
    isCanonical (t :: u :: ts) = true ↔
      t.exponent < u.exponent ∧ t.coeff.isZero = false ∧ isCanonical (u :: ts) = true := by
  simp [isCanonical, and_assoc, and_left_comm]

theorem isCanonical_iff {ts : List Term} : isCanonical ts = true ↔ Canonical ts := by
  induction ts with
  | nil => exact iff_of_true rfl canonical_nil
  | cons t ts ih =>
    cases ts with
    | nil => simp [isCanonical, canonical_singleton]
    | cons u us =>
      rw [isCanonical_cons_cons, ih, @canonical_cons t]
      constructor
      · rintro ⟨less, nonzero, rest⟩
        refine ⟨nonzero, fun v mem => ?_, rest⟩
        rcases List.mem_cons.mp mem with rfl | later
        · exact less
        · exact UInt32.lt_trans less ((canonical_cons.mp rest).2.1 v later)
      · rintro ⟨nonzero, first, rest⟩
        exact ⟨first u List.mem_cons_self, nonzero, rest⟩

/-- **The zero polynomial is the empty list**, in every disguise. -/
theorem Canonical.eq_nil_iff {ts : List Term} (h : Canonical ts) :
    ts = [] ↔ ∀ n, (coeff ts n).isZero = true := by
  constructor
  · rintro rfl n
    exact Binary64.isZero_zero
  · intro zero
    cases ts with
    | nil => rfl
    | cons t ts =>
      have nonzero := h.nonzero t List.mem_cons_self
      rw [← h.coeff_eq List.mem_cons_self, zero] at nonzero
      cases nonzero

end Terms

/-! ### Calls -/

/-- The operations that give a polynomial.  Polynomials among the arguments are named by their
places among the earlier results.  Each product has its own words for the NaNs of its operands. -/
inductive Call where
  | zero
  | one
  | x
  | constant (c : Binary64)
  | monomial (c : Binary64) (n : UInt32)
  | ofTerms (pairs : List (Int × Binary64))
  | ofDense (cs : List Binary64)
  | parse (text : List Char)
  | add (i j : Nat)
  | sub (i j : Nat)
  | neg (i : Nat)
  | mul (patterns : Patterns) (i j : Nat)
  | scale (i : Nat) (c : Binary64)

/-- What a call comes to. -/
inductive Outcome where
  /-- No result: the operation refuses its arguments, or there is no such place. -/
  | refused
  /-- A result. -/
  | result (ts : List Term)
  /-- A list that fails the check. -/
  | failed (ts : List Term)

namespace Outcome

/-- A result, after the check. -/
def checked (ts : List Term) : Outcome :=
  if Terms.isCanonical ts then result ts else failed ts

/-- The result of collecting terms, after the check. -/
def collected (ts : List Term) : Outcome := checked (SparseSums.empty.addAll ts).toTerms

/-- A single term, of which nothing is checked. -/
def monomial (c : Binary64) (n : UInt32) : Outcome :=
  if c.isFinite then if c.isZero then result [] else result [⟨n, c⟩] else refused

/-- What an operation on one earlier result comes to. -/
def onOne (memory : List (List Term)) (i : Nat) (f : List Term → Outcome) : Outcome :=
  memory[i]?.elim refused f

/-- What an operation on two earlier results comes to. -/
def onTwo (memory : List (List Term)) (i j : Nat) (f : List Term → List Term → Outcome) :
    Outcome :=
  onOne memory i fun ts => onOne memory j (f ts)

/-- The outcome of an operation on polynomials. -/
def ofPoly? (p : Option Poly) : Outcome := p.elim refused fun p => result p.terms

end Outcome

/-- The terms that a text denotes, before they are added up. -/
def Text.terms? (text : List Char) : Option (List Term) :=
  if (trim text).isEmpty ∨ (firstBlank? (trim text)).isSome then none
  else (Poly.readTerms (trim text)).toOption

namespace Call

/-- **A call on lists of terms.**  What is merged, multiplied, collected or cut from a row is
checked. -/
def outcome (memory : List (List Term)) : Call → Outcome
  | zero => .result []
  | one => .monomial 1 0
  | x => .monomial 1 1
  | constant c => .monomial c 0
  | monomial c n => .monomial c n
  | ofTerms pairs => (pairs.mapM Poly.termOfPair).toOption.elim .refused .collected
  | ofDense cs =>
    if cs.all (·.isFinite) ∧ cs.length ≤ UInt32.size then .checked (Terms.ofCoefficients cs)
    else .refused
  | parse text => (Text.terms? text).elim .refused .collected
  | add i j => .onTwo memory i j fun ts us => .checked (Terms.merge ts us)
  | sub i j => .onTwo memory i j fun ts us => .checked (Terms.merge ts (us.map Term.neg))
  | neg i => .onOne memory i fun ts => .result (ts.map Term.neg)
  | mul _ i j =>
    .onTwo memory i j fun ts us => (Terms.product ts us).toOption.elim .refused .checked
  | scale i c =>
    .onOne memory i fun ts =>
      if c.isFinite then
        if c.isZero then .result []
        else .result ((ts.map (·.scale c)).filter (! ·.coeff.isZero))
      else .refused

/-- **A call on polynomials.** -/
def poly? (memory : List Poly) : Call → Option Poly
  | zero => some 0
  | one => some 1
  | x => some Poly.x
  | constant c => (Poly.constant c).toOption
  | monomial c n => (Poly.monomial c n).toOption
  | ofTerms pairs => (Poly.ofTerms pairs).toOption
  | ofDense cs => (Poly.ofDense cs).toOption
  | parse text => (Poly.parse text).toOption
  | add i j => memory[i]?.bind fun p => memory[j]?.bind fun q => some (p + q)
  | sub i j => memory[i]?.bind fun p => memory[j]?.bind fun q => some (p - q)
  | neg i => memory[i]?.bind fun p => some (-p)
  | mul _ i j => memory[i]?.bind fun p => memory[j]?.bind fun q => (p.mul q).toOption
  | scale i c => memory[i]?.bind fun p => (p.scale c).toOption

end Call

/-! ### One call -/

namespace Outcome

/-- The check passes for the terms of a polynomial. -/
@[simp] theorem checked_terms (p : Poly) : checked p.terms = result p.terms :=
  if_pos (Terms.isCanonical_iff.mpr p.canonical)

@[simp] theorem collected_eq (ts : List Term) : collected ts = result (Poly.collect ts).terms :=
  checked_terms (Poly.collect ts)

@[simp] theorem ofPoly?_none : ofPoly? none = refused := rfl

@[simp] theorem ofPoly?_some (p : Poly) : ofPoly? (some p) = result p.terms := rfl

/-- If an operation runs in step on all polynomials, it does so on an earlier result. -/
theorem onOne_map_terms {memory : List Poly} {i : Nat} {f : List Term → Outcome}
    {g : Poly → Option Poly} (inStep : ∀ p : Poly, f p.terms = ofPoly? (g p)) :
    onOne (memory.map Poly.terms) i f = ofPoly? (memory[i]?.bind g) := by
  rw [onOne, List.getElem?_map]
  cases memory[i]? with
  | none => rfl
  | some p => exact inStep p

theorem onTwo_map_terms {memory : List Poly} {i j : Nat} {f : List Term → List Term → Outcome}
    {g : Poly → Poly → Option Poly} (inStep : ∀ p q : Poly, f p.terms q.terms = ofPoly? (g p q)) :
    onTwo (memory.map Poly.terms) i j f =
      ofPoly? (memory[i]?.bind fun p => memory[j]?.bind (g p)) :=
  onOne_map_terms fun p => onOne_map_terms (inStep p)

theorem monomial_eq (c : Binary64) (n : UInt32) :
    monomial c n = ofPoly? (Poly.monomial c n).toOption := by
  rw [monomial, Poly.monomial]
  by_cases finite : c.isFinite = true
  · rw [if_pos finite, if_pos finite]
    by_cases nonzero : c.isZero = false
    · rw [dif_pos nonzero, nonzero]
      rfl
    · rw [dif_neg nonzero, if_pos (by simpa using nonzero)]
      rfl
  · rw [if_neg finite, if_neg finite]
    rfl

/-- One and the variable are built like any other monomial. -/
theorem monomial_one (n : UInt32) : monomial 1 n = result [⟨n, 1⟩] := by
  have finite : (1 : Binary64).isFinite = true := rfl
  rw [monomial, if_pos finite, Binary64.isZero_one]
  rfl

theorem ofTerms_eq (pairs : List (Int × Binary64)) :
    (pairs.mapM Poly.termOfPair).toOption.elim refused collected =
      ofPoly? (Poly.ofTerms pairs).toOption := by
  rw [Poly.ofTerms]
  cases pairs.mapM Poly.termOfPair with
  | error e => rfl
  | ok ts => exact collected_eq ts

theorem ofDense_eq (cs : List Binary64) :
    (if cs.all (·.isFinite) ∧ cs.length ≤ UInt32.size then checked (Terms.ofCoefficients cs)
      else refused) = ofPoly? (Poly.ofDense cs).toOption := by
  rw [Poly.ofDense]
  cases found : cs.find? (! ·.isFinite) with
  | some c =>
    have not_all : ¬cs.all (·.isFinite) = true := by
      intro all
      have not_finite := List.find?_some found
      rw [List.all_eq_true.mp all c (List.mem_of_find?_eq_some found)] at not_finite
      cases not_finite
    rw [if_neg fun both => not_all both.1]
    rfl
  | none =>
    have all : cs.all (·.isFinite) = true := by simpa using found
    by_cases fits : cs.length ≤ UInt32.size
    · simp only [if_pos (And.intro all fits), dif_pos fits]
      exact checked_terms ⟨_, Terms.canonical_ofCoefficients fits⟩
    · simp only [if_neg fun both : _ ∧ _ => fits both.2, dif_neg fits]
      rfl

theorem parse_eq (text : List Char) :
    (Text.terms? text).elim refused collected = ofPoly? (Poly.parse text).toOption := by
  rw [Text.terms?, Poly.parse]
  by_cases empty : (Text.trim text).isEmpty = true
  · simp only [if_pos empty, if_pos (Or.inl empty)]
    rfl
  · cases blank : Text.firstBlank? (Text.trim text) with
    | some offset => simp [empty, Except.toOption]
    | none =>
      cases Poly.readTerms (Text.trim text) with
      | error e => simp [empty, Except.toOption, Except.map]
      | ok ts => simp [empty, Except.toOption, Except.map]

theorem product_eq [Patterns] (p q : Poly) :
    (Terms.product p.terms q.terms).toOption.elim refused checked =
      ofPoly? (p.mul q).toOption := by
  rw [Poly.mul]
  split <;> rename_i eq
  · exact (congrArg (·.toOption.elim refused checked) eq).trans
      (checked_terms ⟨_, Terms.canonical_product eq⟩)
  · exact congrArg (·.toOption.elim refused checked) eq

theorem scale_eq (p : Poly) (c : Binary64) :
    (if c.isFinite then
      if c.isZero then result [] else result ((p.terms.map (·.scale c)).filter (! ·.coeff.isZero))
    else refused) = ofPoly? (p.scale c).toOption := by
  rw [Poly.scale]
  cases c.isFinite with
  | false => rfl
  | true => cases c.isZero <;> rfl

end Outcome

/-- **One call runs in step**: on the terms of polynomials it comes to the terms of what the
operation on polynomials gives. -/
theorem Call.outcome_map_terms (memory : List Poly) (call : Call) :
    call.outcome (memory.map Poly.terms) = .ofPoly? (call.poly? memory) := by
  cases call with
  | zero => rfl
  | one => exact Outcome.monomial_one 0
  | x => exact Outcome.monomial_one 1
  | constant c => exact Outcome.monomial_eq c 0
  | monomial c n => exact Outcome.monomial_eq c n
  | ofTerms pairs => exact Outcome.ofTerms_eq pairs
  | ofDense cs => exact Outcome.ofDense_eq cs
  | parse text => exact Outcome.parse_eq text
  | add i j => exact Outcome.onTwo_map_terms fun p q => Outcome.checked_terms (p + q)
  | sub i j => exact Outcome.onTwo_map_terms fun p q => Outcome.checked_terms (p - q)
  | neg i => exact Outcome.onOne_map_terms fun _ => rfl
  | mul patterns i j => exact Outcome.onTwo_map_terms Outcome.product_eq
  | scale i c => exact Outcome.onOne_map_terms fun p => Outcome.scale_eq p c

/-! ### Whole sessions -/

namespace Session

/-- One call more: a result is stored behind the earlier ones, a failed check ends the session. -/
def step (memory : List (List Term)) (call : Call) : Except (List Term) (List (List Term)) :=
  match call.outcome memory with
  | .refused => .ok memory
  | .result ts => .ok (memory ++ [ts])
  | .failed ts => .error ts

/-- **A session on lists of terms.** -/
def run (calls : List Call) : Except (List Term) (List (List Term)) := calls.foldlM step []

/-- One call more, on polynomials. -/
def polyStep (memory : List Poly) (call : Call) : List Poly :=
  memory ++ (call.poly? memory).toList

/-- **A session on polynomials.** -/
def polys (calls : List Call) : List Poly := calls.foldl polyStep []

theorem step_map_terms (memory : List Poly) (call : Call) :
    step (memory.map Poly.terms) call = .ok ((polyStep memory call).map Poly.terms) := by
  rw [step, call.outcome_map_terms, polyStep]
  cases call.poly? memory <;> simp

theorem foldlM_step_map_terms (calls : List Call) (memory : List Poly) :
    calls.foldlM step (memory.map Poly.terms) =
      .ok ((calls.foldl polyStep memory).map Poly.terms) := by
  induction calls generalizing memory with
  | nil => rfl
  | cons call calls ih =>
    rw [List.foldlM_cons, step_map_terms, List.foldl_cons]
    exact ih (polyStep memory call)

/-- A session on lists of terms is one on polynomials. -/
theorem run_eq (calls : List Call) : run calls = .ok ((polys calls).map Poly.terms) :=
  foldlM_step_map_terms calls []

/-- **The canonical form is an invariant.**  Whatever is called in whatever order, no check fails,
every list that is stored has the canonical form, the zero polynomial is the empty list, and what is
stored are the terms of the polynomials that the operations give. -/
theorem run_canonical (calls : List Call) :
    ∃ memory, run calls = .ok memory ∧ memory = (polys calls).map Poly.terms ∧
      ∀ ts ∈ memory, Terms.isCanonical ts = true ∧
        ts.Pairwise (·.exponent < ·.exponent) ∧ (∀ t ∈ ts, t.coeff.isZero = false) ∧
          (ts = [] ↔ ∀ n, (Terms.coeff ts n).isZero = true) := by
  refine ⟨_, run_eq calls, rfl, ?_⟩
  intro ts mem
  obtain ⟨p, _, rfl⟩ := List.mem_map.mp mem
  exact ⟨Terms.isCanonical_iff.mpr p.canonical, p.canonical.ascending, p.canonical.nonzero,
    p.canonical.eq_nil_iff⟩

end Session

end SparsePoly
