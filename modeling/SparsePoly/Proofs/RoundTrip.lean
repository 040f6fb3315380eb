import SparsePoly.Expression.Printer
import SparsePoly.Proofs.ReadBack
import SparsePoly.Proofs.Reading

/-!
# Written polynomials read back

The text of a polynomial with finite coefficients is an expression for its own terms: a positive
coefficient is a number of the grammar, a negative one has the same text after its minus sign, and
the joints put a sign between any two terms.  Collecting the terms changes none of them, since each
sum is zero plus one coefficient that is not zero.

An infinity or a NaN leaves letters in the text that no expression has.

## Main statements

* `Poly.expression_render` - the text is an expression for the terms
* `Poly.parse_render` - a polynomial is read back exactly if all its coefficients are finite
-/

namespace SparsePoly

open Grammar

/-! ### Terms with a positive coefficient -/

/-- The text of a magnitude is a number, of that value. -/
theorem Grammar.Number.text (m : Binary64.Magnitude) : Number m.text (.finite false m) := by
  obtain ⟨n, read, value⟩ := m.read?_text
  exact .mk (Numeral.read?_eq_some_iff.mp read) (Numeral.value_eq_finite_iff.mp value)

namespace Term

variable (e : UInt32) (m : Binary64.Magnitude)

theorem coefficient_coefficientText :
    Coefficient (coefficientText ⟨e, .finite false m⟩) (.finite false m) := by
  have positive : Binary64.finite false m ≠ -1 := nofun
  rw [coefficientText, if_neg positive]
  by_cases one : Binary64.finite false m = 1
  · rw [if_pos one]
    exact one ▸ .missing
  · rw [if_neg one]
    exact .number (.text m)

theorem exponent_eq_one {e : UInt32} (variable_there : e ≠ 0) (not_greater : ¬1 < e) : e = 1 := by
  rw [UInt32.lt_iff_toNat_lt] at not_greater
  rw [Ne, ← UInt32.toNat_inj] at variable_there
  rw [← UInt32.toNat_inj]
  simp only [UInt32.toNat_one, UInt32.toNat_zero] at *
  omega

theorem exponent_exponentText {e : UInt32} (variable_there : e ≠ 0) (c : Binary64) :
    Exponent (exponentText ⟨e, c⟩) e := by
  rw [exponentText]
  by_cases greater : 1 < e
  · have power : Exponent (Nat.toDigits 10 e.toNat) (UInt32.ofNat _) :=
      .digits Nat.toDigits_ne_nil
        (fun _ mem => Nat.isDigit_of_mem_toDigits (by decide) (by decide) mem)
        (by rw [Numeral.natOfDigits_toDigits]; exact e.toNat_lt)
    rw [Numeral.natOfDigits_toDigits, UInt32.ofNat_toNat] at power
    rw [if_pos greater]
    exact power
  · rw [if_neg greater, exponent_eq_one variable_there greater]
    exact .missing

theorem pieces_constant (c : Binary64) : pieces ⟨0, c⟩ = [c.text] := rfl

theorem pieces_variable {e : UInt32} (variable_there : e ≠ 0) (c : Binary64) :
    pieces ⟨e, c⟩ = [coefficientText ⟨e, c⟩, ['x'], exponentText ⟨e, c⟩] := by
  have not_constant : isConstant ⟨e, c⟩ = false := by simpa [isConstant] using variable_there
  rw [pieces, not_constant]
  rfl

/-- A term with a positive coefficient is written as a body. -/
theorem body_pieces :
    Body (pieces ⟨e, .finite false m⟩).flatten ⟨e, .finite false m⟩ := by
  by_cases constant : e = 0
  · have text : [(Binary64.finite false m).text].flatten = m.text := List.append_nil _
    rw [constant, pieces_constant, text]
    exact .constant (.text m)
  · have body := Body.monomial (coefficient_coefficientText e m)
      (exponent_exponentText constant (.finite false m))
    rw [pieces_variable constant]
    simpa using body

/-- **A negative coefficient** puts a minus sign in front of the text and changes nothing else. -/
theorem pieces_negative :
    (pieces ⟨e, .finite true m⟩).flatten = '-' :: (pieces ⟨e, .finite false m⟩).flatten := by
  have sign : coefficientText ⟨e, .finite true m⟩ =
      '-' :: coefficientText ⟨e, .finite false m⟩ := by
    have positive : Binary64.finite false m ≠ -1 := nofun
    have negative : Binary64.finite true m ≠ 1 := nofun
    have one : Binary64.finite true m = -1 ↔ Binary64.finite false m = 1 := by
      rw [Binary64.one_def, Binary64.neg_finite]
      simp
    rw [coefficientText, coefficientText, if_neg positive, if_neg negative]
    by_cases eq : Binary64.finite false m = 1
    · rw [if_pos eq, if_pos (one.mpr eq)]
    · rw [if_neg eq, if_neg (mt one.mp eq)]
      rfl
  by_cases constant : e = 0
  · rw [constant, pieces_constant, pieces_constant]
    rfl
  · rw [pieces_variable constant, pieces_variable constant, sign]
    rfl

end Term

/-! ### Rows of terms -/

namespace Term

variable {t : Term}

/-- A coefficient that is finite and not zero is a positive one with a sign. -/
theorem exists_signed (finite : t.coeff.isFinite = true) (nonzero : t.coeff.isZero = false) :
    ∃ (s : Sign) (e : UInt32) (m : Binary64.Magnitude),
      m.units ≠ 0 ∧ t = s.signed ⟨e, .finite false m⟩ := by
  obtain ⟨e, c⟩ := t
  obtain ⟨negative, m, rfl⟩ := Binary64.exists_of_isFinite finite
  have positive : m.units ≠ 0 := by simpa [Binary64.isZero_finite] using nonzero
  cases negative with
  | true => exact ⟨.minus, e, m, positive, rfl⟩
  | false => exact ⟨.plus, e, m, positive, rfl⟩

/-- Behind other terms, a term is written as its sign and what its positive is written as. -/
theorem joint_pieces_signed (s : Sign) (e : UInt32) {m : Binary64.Magnitude}
    (positive : m.units ≠ 0) :
    joint (s.signed ⟨e, .finite false m⟩) ++ (pieces (s.signed ⟨e, .finite false m⟩)).flatten =
      s.toChar :: (pieces ⟨e, .finite false m⟩).flatten := by
  cases s with
  | minus =>
    have joint : joint ⟨e, .finite true m⟩ = [] := by
      rw [joint, if_neg]
      simp [Binary64.less, Binary64.rank, Binary64.signedUnits]
    show Term.joint ⟨e, .finite true m⟩ ++ (pieces ⟨e, .finite true m⟩).flatten = _
    rw [joint, pieces_negative]
    rfl
  | plus =>
    have joint : joint ⟨e, .finite false m⟩ = ['+'] := by
      rw [joint, if_pos]
      simpa [Binary64.less, Binary64.rank, Binary64.signedUnits, Binary64.zero_def]
        using Nat.pos_of_ne_zero positive
    show Term.joint ⟨e, .finite false m⟩ ++ (pieces ⟨e, .finite false m⟩).flatten = _
    rw [joint]
    rfl

/-- Behind other terms, a term is written as its sign and a body. -/
theorem signed_pieces (finite : t.coeff.isFinite = true) (nonzero : t.coeff.isZero = false) :
    ∃ (s : Sign) (body : List Char) (v : Term),
      t.joint ++ t.pieces.flatten = s.toChar :: body ∧ Body body v ∧ s.signed v = t := by
  obtain ⟨s, e, m, positive, rfl⟩ := exists_signed finite nonzero
  exact ⟨s, _, _, joint_pieces_signed s e positive, body_pieces e m, rfl⟩

end Term

/-- The terms after the first are written as a row of signed terms. -/
theorem Grammar.Signed.pieces {ts : List Term} (finite : ∀ t ∈ ts, t.coeff.isFinite = true)
    (nonzero : ∀ t ∈ ts, t.coeff.isZero = false) :
    Signed (ts.flatMap fun u => u.joint :: u.pieces).flatten ts := by
  induction ts with
  | nil => exact .nil
  | cons t ts ih =>
    have others := ih (fun u mem => finite u (List.mem_cons_of_mem t mem))
      fun u mem => nonzero u (List.mem_cons_of_mem t mem)
    obtain ⟨s, body, v, text, first, rfl⟩ :=
      t.signed_pieces (finite t List.mem_cons_self) (nonzero t List.mem_cons_self)
    rw [List.flatMap_cons, List.flatten_append, List.flatten_cons, text, List.cons_append]
    exact .cons s first others

namespace Poly

/-- **The text is an expression for the terms**; that of the zero polynomial, which has none, is
an expression for a constant that adds nothing. -/
theorem expression_render {p : Poly} (finite : ∀ t ∈ p.terms, t.coeff.isFinite = true) :
    Expression p.render (if p.terms = [] then [⟨0, 0⟩] else p.terms) := by
  have nonzero := p.canonical.nonzero
  rw [render, pieces]
  cases terms : p.terms with
  | nil => exact .unsigned (.constant (.text 0)) .nil
  | cons t ts =>
    rw [terms] at finite nonzero
    have others := Signed.pieces (fun u mem => finite u (List.mem_cons_of_mem t mem))
      fun u mem => nonzero u (List.mem_cons_of_mem t mem)
    rw [if_neg (List.cons_ne_nil t ts)]
    obtain ⟨e, c⟩ := t
    obtain ⟨negative, m, rfl⟩ := Binary64.exists_of_isFinite (finite _ List.mem_cons_self)
    show Expression (Term.pieces ⟨e, .finite negative m⟩ ++ ts.flatMap _).flatten _
    rw [List.flatten_append]
    cases negative with
    | true =>
      rw [Term.pieces_negative]
      exact .signed .minus (Term.body_pieces e m) others
    | false => exact .unsigned (Term.body_pieces e m) others

end Poly

/-- A constant zero adds nothing. -/
theorem Poly.collect_zero_constant : Poly.collect [⟨0, 0⟩] = 0 := by
  apply Poly.ext_coeff
  intro n
  have zero : (Terms.sumAt [⟨0, 0⟩] n).isZero = true := by
    by_cases constant : n = 0
    · subst constant
      exact Binary64.isZero_iff.mpr ⟨false, Binary64.zero_add_of_ne nofun⟩
    · rw [Terms.sumAt_eq_zero (by simpa using Ne.symm constant), Binary64.isZero_zero]
  rw [Poly.coeff_collect, if_pos zero, Poly.coeff_zero]

/-! ### Letters that no expression has -/

theorem Text.mem_trimStart {text : List Char} {c : Char} (mem : c ∈ text)
    (visible : isBlank c = false) : c ∈ trimStart text := by
  rw [← List.takeWhile_append_dropWhile (p := isBlank) (l := text)] at mem
  rcases List.mem_append.mp mem with blank | kept
  · have blank := List.all_eq_true.mp List.all_takeWhile c blank
    rw [visible] at blank
    cases blank
  · exact kept

/-- Trimming takes blanks only. -/
theorem Text.mem_trim {text : List Char} {c : Char} (mem : c ∈ text)
    (visible : isBlank c = false) : c ∈ trim text :=
  List.mem_reverse.mpr (mem_trimStart (List.mem_reverse.mpr (mem_trimStart mem visible)) visible)

/-- The names of what is not finite have letters that no expression has. -/
theorem Binary64.exists_foreign_letter {x : Binary64} (not_finite : x.isFinite = false) :
    ∃ c ∈ x.text, Text.isBlank c = false ∧ ¬InAlphabet c := by
  have foreign (c : Char) (digit : c.isDigit = false) (point : c ≠ '.') (letter : c ≠ 'x')
      (plus : c ≠ '+') (minus : c ≠ '-') : ¬InAlphabet c := by
    rintro (isDigit | isPoint | isVariable | ⟨s, isSign⟩)
    · rw [digit] at isDigit
      cases isDigit
    · exact point isPoint
    · exact letter isVariable
    · cases s
      · exact plus isSign
      · exact minus isSign
  cases x with
  | nan => exact ⟨'N', List.mem_cons_self, rfl, foreign 'N' rfl (by decide) (by decide) (by decide)
      (by decide)⟩
  | infinity negative =>
    exact ⟨'i', List.mem_append_right _ List.mem_cons_self, rfl,
      foreign 'i' rfl (by decide) (by decide) (by decide) (by decide)⟩
  | finite negative m => cases not_finite

/-- The text of a coefficient that is not finite is part of the text of its term. -/
theorem Term.text_mem_pieces {t : Term} (not_finite : t.coeff.isFinite = false) :
    t.coeff.text ∈ t.pieces := by
  have not_one : t.coeff ≠ 1 := fun one => by rw [one] at not_finite; cases not_finite
  have not_minus_one : t.coeff ≠ -1 := fun one => by rw [one] at not_finite; cases not_finite
  rw [pieces, coefficientText, if_neg not_minus_one, if_neg not_one]
  split
  · exact List.mem_cons_self
  · exact List.mem_cons_self

namespace Poly

theorem pieces_subset {p : Poly} {t : Term} (mem : t ∈ p.terms) : t.pieces ⊆ p.pieces := by
  rw [pieces]
  cases terms : p.terms with
  | nil =>
    rw [terms] at mem
    cases mem
  | cons u us =>
    rw [terms] at mem
    rcases List.mem_cons.mp mem with rfl | later
    · exact List.subset_append_left _ _
    · intro piece piece_mem
      exact List.mem_append_right _
        (List.mem_flatMap.mpr ⟨t, later, List.mem_cons_of_mem _ piece_mem⟩)

/-! ### The round trip -/

theorem parse_render_of_finite {p : Poly} (finite : ∀ t ∈ p.terms, t.coeff.isFinite = true) :
    parse p.render = .ok p := by
  rw [parse_of_expression (expression_render finite)]
  by_cases zero : p.terms = []
  · rw [if_pos zero, collect_zero_constant]
    exact congrArg Except.ok (ext zero.symm)
  · rw [if_neg zero, collect_terms]

/-- What is not finite leaves a letter in the text that no expression has. -/
theorem parse_render_of_not_finite {p : Poly} {t : Term} (mem : t ∈ p.terms)
    (not_finite : t.coeff.isFinite = false) : ∃ e, parse p.render = .error e := by
  obtain ⟨c, c_mem, visible, foreign⟩ := Binary64.exists_foreign_letter not_finite
  have in_text : c ∈ p.render :=
    List.mem_flatten.mpr ⟨_, pieces_subset mem (Term.text_mem_pieces not_finite), c_mem⟩
  cases result : parse p.render with
  | error e => exact ⟨e, rfl⟩
  | ok q =>
    obtain ⟨ts, expression, _⟩ := parse_eq_ok_iff.mp result
    exact absurd (expression.plain.alphabet c (Text.mem_trim in_text visible)) foreign

/-- **The round trip, with its exact domain.**  What a polynomial is written as reads back to the
same polynomial if all coefficients are finite, and to an error if not. -/
theorem parse_render (p : Poly) :
    (parse p.render = .ok p ↔ ∀ t ∈ p.terms, t.coeff.isFinite = true) ∧
      ((∃ e, parse p.render = .error e) ↔ ∃ t ∈ p.terms, t.coeff.isFinite = false) := by
  by_cases finite : ∀ t ∈ p.terms, t.coeff.isFinite = true
  · have read := parse_render_of_finite finite
    refine ⟨iff_of_true read finite, iff_of_false ?_ ?_⟩
    · rintro ⟨e, failed⟩
      rw [read] at failed
      cases failed
    · rintro ⟨t, mem, not_finite⟩
      rw [finite t mem] at not_finite
      cases not_finite
  · obtain ⟨t, mem, not_finite⟩ : ∃ t ∈ p.terms, t.coeff.isFinite = false := by
      simpa using finite
    obtain ⟨e, failed⟩ := parse_render_of_not_finite mem not_finite
    refine ⟨iff_of_false ?_ finite, iff_of_true ⟨e, failed⟩ ⟨t, mem, not_finite⟩⟩
    rw [failed]
    exact nofun

end Poly

end SparsePoly
