import SparsePoly.Expression.Parser
import SparsePoly.Proofs.Fallible
import SparsePoly.Proofs.Grammar
import SparsePoly.Proofs.Sums

/-!
# The parser reads the grammar

Every reader on the way from a text to a polynomial accepts exactly one relation of the grammar:
numerals are literals, the terms of tokens are signed bodies, and the rows of tokens that `items`
cuts are expressions.

## Main statements

* `Token.term_eq_ok_iff` - the term of a token
* `Cursor.terms_start_eq_ok_iff` - the terms of a whole text
* `Poly.parse_eq_ok_iff` - a text denotes what the terms of its trimmed form add up to
* `Poly.parse_accepts_grammar` - the same without the parser's own way of adding, and the form of
  all accepted texts
-/

namespace SparsePoly

open Grammar

/-! ### Numerals and exponents -/

theorem Numeral.read?_eq_some_iff {text : List Char} {n : Numeral} :
    Numeral.read? text = some n ↔ Literal text n := by
  constructor
  · intro read
    have digits : ∀ c ∈ text.takeWhile Char.isDigit, c.isDigit = true :=
      fun c mem => List.all_eq_true.mp List.all_takeWhile c mem
    have whole := @List.takeWhile_append_dropWhile _ Char.isDigit text
    rw [Numeral.read?] at read
    generalize text.takeWhile Char.isDigit = front at read digits whole
    generalize text.dropWhile Char.isDigit = back at read whole
    subst whole
    cases back with
    | nil =>
      simp only [Option.ite_none_left_eq_some, Option.some.injEq] at read
      obtain ⟨nonempty, rfl⟩ := read
      rw [List.append_nil]
      exact .whole (by simpa using nonempty) digits
    | cons point fraction =>
      simp only [Option.ite_none_right_eq_some, Option.some.injEq] at read
      obtain ⟨⟨rfl, all, nonempty⟩, rfl⟩ := read
      exact .point (by simpa using nonempty) digits (List.all_eq_true.mp all)
  · intro literal
    cases literal with
    | whole nonempty all => exact Numeral.read?_digits nonempty all
    | point nonempty whole_all fraction_all =>
      exact Numeral.read?_point nonempty whole_all fraction_all

theorem readCoefficient_eq_ok_iff {text : List Char} {offset : Nat} {magnitude : Binary64} :
    readCoefficient text offset = .ok magnitude ↔ Number text magnitude := by
  rw [readCoefficient]
  constructor
  · intro read
    split at read
    · cases read
    · rename_i n literal
      split at read
      · rename_i finite
        obtain ⟨m, value⟩ := Numeral.isFinite_value_iff.mp finite
        rw [value] at read
        cases read
        exact .mk (Numeral.read?_eq_some_iff.mp literal) (Numeral.value_eq_finite_iff.mp value)
      · cases read
  · intro number
    cases number with
    | mk literal rounds =>
      have value := Numeral.value_eq_finite_iff.mpr rounds
      rw [Numeral.read?_eq_some_iff.mpr literal]
      simp only [value]
      rfl

theorem readExponent_eq_ok_iff {text : List Char} {offset : Nat} {exponent : UInt32}
    (nonempty : text ≠ []) :
    readExponent text offset = .ok exponent ↔ Exponent text exponent := by
  rw [readExponent]
  constructor
  · intro read
    split at read
    · rename_i accepted
      cases read
      exact .digits nonempty (List.all_eq_true.mp accepted.1) accepted.2.2
    · cases read
  · intro power
    cases power with
    | missing => exact absurd rfl nonempty
    | digits nonempty all fits =>
      rw [if_pos ⟨List.all_eq_true.mpr all, by simpa using nonempty, fits⟩]

/-- The coefficient before a variable, which may be missing. -/
theorem coefficient_eq_ok_iff {text : List Char} {offset : Nat} {magnitude : Binary64} :
    (if text.isEmpty then .ok 1 else readCoefficient text offset) = .ok magnitude ↔
      Coefficient text magnitude := by
  constructor
  · intro read
    split at read
    · rename_i empty
      cases read
      rw [List.isEmpty_iff.mp empty]
      exact .missing
    · exact .number (readCoefficient_eq_ok_iff.mp read)
  · intro coefficient
    cases coefficient with
    | missing => rfl
    | number number =>
      rw [if_neg (by simpa using number.nonempty)]
      exact readCoefficient_eq_ok_iff.mpr number

/-- The exponent after a variable, which may be missing. -/
theorem exponent_eq_ok_iff {text : List Char} {offset : Nat} {exponent : UInt32} :
    (if text.isEmpty then .ok 1 else readExponent text offset) = .ok exponent ↔
      Exponent text exponent := by
  by_cases empty : text = []
  · subst empty
    constructor
    · intro read
      cases read
      exact .missing
    · intro power
      cases power with
      | missing => rfl
      | digits nonempty _ _ => exact absurd rfl nonempty
  · rw [if_neg (by simpa using empty)]
    exact readExponent_eq_ok_iff empty

/-! ### Terms -/

namespace Token

variable {t : Token}

private theorem ne_variableChar {text : List Char} (noVariable : ∀ c ∈ text, c ≠ 'x') :
    ∀ c ∈ text, (c != variableChar) = true := by
  simpa [variableChar] using noVariable

/-- The term of a token without variable. -/
theorem term_of_constant (constant : ∀ c ∈ t.body, c ≠ 'x') :
    t.term = do
      let magnitude ← readCoefficient t.body t.offset
      return ⟨0, t.sign.apply magnitude⟩ := by
  have taken := @List.takeWhile_append_of_pos _ _ t.body [] (ne_variableChar constant)
  have dropped := @List.dropWhile_append_of_pos _ _ t.body [] (ne_variableChar constant)
  simp only [List.append_nil, List.takeWhile_nil, List.dropWhile_nil] at taken dropped
  rw [term, dropped, taken]

/-- The term of a token, cut at its first variable. -/
theorem term_of_variable {front back : List Char} (body : t.body = front ++ 'x' :: back)
    (first : ∀ c ∈ front, c ≠ 'x') :
    t.term =
      (if front.isEmpty then .ok 1 else readCoefficient front t.offset) >>= fun magnitude =>
        (if back.isEmpty then .ok 1 else
          readExponent back (t.offset + Text.byteLength front + variableChar.utf8Size)) >>=
            fun exponent => .ok ⟨exponent, t.sign.apply magnitude⟩ := by
  have stop : ('x' != variableChar) = false := rfl
  rw [term, body, List.takeWhile_append_of_pos (ne_variableChar first),
    List.dropWhile_append_of_pos (ne_variableChar first)]
  simp only [List.takeWhile_cons, List.dropWhile_cons, stop, Bool.false_eq_true, ↓reduceIte,
    List.append_nil]
  split <;> split <;> rfl

/-- **The term of a token** is that of its body, with the sign of the token. -/
theorem term_eq_ok_iff {u : Term} :
    t.term = .ok u ↔ ∃ v, Body t.body v ∧ t.sign.signed v = u := by
  constructor
  · intro read
    by_cases variable_there : 'x' ∈ t.body
    · obtain ⟨front, back, body, first⟩ := List.eq_append_cons_of_mem variable_there
      rw [term_of_variable body fun c mem eq => first (eq ▸ mem)] at read
      obtain ⟨magnitude, coefficient, read⟩ := bind_eq_ok_iff.mp read
      obtain ⟨exponent, power, read⟩ := bind_eq_ok_iff.mp read
      cases read
      rw [body]
      exact ⟨_, .monomial (coefficient_eq_ok_iff.mp coefficient) (exponent_eq_ok_iff.mp power), rfl⟩
    · rw [term_of_constant fun c mem eq => variable_there (eq ▸ mem)] at read
      obtain ⟨magnitude, coefficient, read⟩ := bind_eq_ok_iff.mp read
      cases read
      exact ⟨_, .constant (readCoefficient_eq_ok_iff.mp coefficient), rfl⟩
  · rintro ⟨v, body, rfl⟩
    generalize text : t.body = body_text at body
    cases body with
    | constant number =>
      have noVariable := Coefficient.ne_variable (.number number)
      rw [term_of_constant fun c mem => noVariable c (text ▸ mem), text]
      exact bind_eq_ok_iff.mpr ⟨_, readCoefficient_eq_ok_iff.mpr number, rfl⟩
    | monomial coefficient power =>
      rw [term_of_variable text coefficient.ne_variable]
      exact bind_eq_ok_iff.mpr ⟨_, coefficient_eq_ok_iff.mpr coefficient,
        bind_eq_ok_iff.mpr ⟨_, exponent_eq_ok_iff.mpr power, rfl⟩⟩

end Token

/-! ### Rows of terms -/

namespace Cursor

/-- The terms from a place on. -/
def terms (c : Cursor) : Except ParseError (List Term) :=
  c.items.mapM fun item => item.bind Token.term

theorem terms_of_end {c : Cursor} (empty : c.rest = []) : c.terms = .ok [] := by
  rw [terms, items_of_end empty]
  rfl

theorem terms_of_step {c d : Cursor} {t : Token} (step : Step c t d) :
    c.terms = do
      let u ← t.term
      let us ← d.terms
      return u :: us := by
  rw [terms, items_of_step step, List.mapM_cons]
  rfl

theorem terms_of_error {c : Cursor} {e : ParseError} (next : c.next? = some (.error e)) :
    c.terms = .error e := by
  rw [terms, items_of_error next]
  rfl

/-- A row of signed terms is read from every offset. -/
theorem terms_of_signed {text : List Char} {ts : List Term} (signed : Signed text ts) :
    ∀ offset, terms ⟨text, offset⟩ = .ok ts := by
  induction signed with
  | nil => exact fun offset => terms_of_end rfl
  | cons sign first others ih =>
    intro offset
    rw [terms_of_step (.signed sign offset first.isBody others.atBoundary)]
    exact bind_eq_ok_iff.mpr ⟨_, Token.term_eq_ok_iff.mpr ⟨_, first, rfl⟩,
      bind_eq_ok_iff.mpr ⟨_, ih _, rfl⟩⟩

theorem terms_of_expression {text : List Char} {ts : List Term}
    (expression : Expression text ts) (offset : Nat) : terms ⟨text, offset⟩ = .ok ts := by
  cases expression with
  | signed sign first others => exact terms_of_signed (.cons sign first others) offset
  | unsigned first others =>
    rw [terms_of_step (.unsigned offset first.isBody others.atBoundary)]
    exact bind_eq_ok_iff.mpr ⟨_, Token.term_eq_ok_iff.mpr ⟨_, first, rfl⟩,
      bind_eq_ok_iff.mpr ⟨_, terms_of_signed others _, rfl⟩⟩

/-- What is read is the end or an expression.  After a step the text stands at a boundary, and an
expression there is a row of signed terms. -/
theorem expression_of_terms {c : Cursor} {ts : List Term} (read : c.terms = .ok ts) :
    c.rest = [] ∧ ts = [] ∨ Expression c.rest ts := by
  induction c using Cursor.items.induct generalizing ts with
  | case1 c next =>
    have empty := next?_eq_none_iff.mp next
    rw [terms_of_end empty] at read
    cases read
    exact Or.inl ⟨empty, rfl⟩
  | case2 c e next =>
    rw [terms_of_error next] at read
    cases read
  | case3 c t d next ih =>
    have step := next?_eq_ok_iff.mp next
    rw [terms_of_step step] at read
    obtain ⟨u, term, read⟩ := bind_eq_ok_iff.mp read
    obtain ⟨us, others, read⟩ := bind_eq_ok_iff.mp read
    obtain ⟨v, body, rfl⟩ := Token.term_eq_ok_iff.mp term
    cases read
    have signed (boundary : AtBoundary d.rest) : Signed d.rest us := by
      rcases ih others with ⟨empty, rfl⟩ | expression
      · rw [empty]
        exact .nil
      · exact expression.signed_of_atBoundary boundary
    cases step with
    | signed sign offset _ boundary => exact Or.inr (.signed sign body (signed boundary))
    | unsigned offset _ boundary => exact Or.inr (.unsigned body (signed boundary))

/-- **The terms from the start on** are those of an expression. -/
theorem terms_start_eq_ok_iff {text : List Char} {ts : List Term} (nonempty : text ≠ []) :
    (start text).terms = .ok ts ↔ Expression text ts := by
  constructor
  · intro read
    exact (expression_of_terms read).resolve_left fun ⟨empty, _⟩ => nonempty empty
  · exact fun expression => terms_of_expression expression 0

end Cursor

/-! ### Texts -/

/-- **An expression denotes one row of terms**: that which is read from its text. -/
theorem Grammar.Expression.unambiguous {text : List Char} {ts us : List Term}
    (ht : Expression text ts) (hu : Expression text us) : ts = us := by
  have read := Cursor.terms_of_expression ht 0
  rw [Cursor.terms_of_expression hu 0] at read
  cases read
  rfl

/-- No letter of an expression is blank. -/
theorem Grammar.InAlphabet.isBlank {c : Char} (letter : InAlphabet c) :
    Text.isBlank c = false := by
  rcases letter with digit | rfl | rfl | ⟨s, rfl⟩
  · simp only [Char.isDigit, Bool.and_eq_true, decide_eq_true_eq] at digit
    obtain ⟨low, high⟩ := digit
    have low : 48 ≤ c.toNat := low
    have high : c.toNat ≤ 57 := high
    simp [Text.isBlank, Text.blankRanges]
    omega
  · rfl
  · rfl
  · cases s <;> rfl

namespace Poly

/-- The terms of a trimmed text. -/
theorem readTerms_eq_ok_iff {text : List Char} {ts : List Term} (nonempty : text ≠ []) :
    readTerms text = .ok ts ↔ Expression text ts :=
  Cursor.terms_start_eq_ok_iff nonempty

/-- **A text denotes a polynomial** exactly if its trimmed form is an expression, and then what the
terms of that add up to. -/
theorem parse_eq_ok_iff {text : List Char} {p : Poly} :
    parse text = .ok p ↔ ∃ ts, Expression (Text.trim text) ts ∧ collect ts = p := by
  rw [parse]
  constructor
  · intro read
    split at read
    · cases read
    · rename_i nonempty
      split at read
      · cases read
      · cases terms : readTerms (Text.trim text) with
        | error e =>
          rw [terms] at read
          cases read
        | ok ts =>
          rw [terms] at read
          cases read
          exact ⟨ts, (readTerms_eq_ok_iff (by simpa using nonempty)).mp terms, rfl⟩
  · rintro ⟨ts, expression, rfl⟩
    have nonempty := expression.nonempty
    have noBlank : Text.firstBlank? (Text.trim text) = none :=
      Text.firstBlank?_eq_none.mpr fun c mem => (expression.plain.alphabet c mem).isBlank
    rw [if_neg (by simpa using nonempty), noBlank]
    simp only [(readTerms_eq_ok_iff nonempty).mpr expression]
    rfl

/-- An expression without blanks around it is read as what its terms add up to. -/
theorem parse_of_expression {text : List Char} {ts : List Term} (expression : Expression text ts) :
    parse text = .ok (collect ts) := by
  have trimmed : Text.trim text = text :=
    Text.trim_of_visible fun c mem => (expression.plain.alphabet c mem).isBlank
  exact parse_eq_ok_iff.mpr ⟨ts, trimmed.symm ▸ expression, rfl⟩

/-- **The texts that are read, and what they denote.**  A text is read exactly if its trimmed form
is an expression; it denotes the sums, at each exponent from left to right and starting from zero,
of the terms of that, without the sums that are zero; and what is not plain is not read. -/
theorem parse_accepts_grammar (text : List Char) :
    ((∃ p, parse text = .ok p) ↔ ∃ ts, Expression (Text.trim text) ts) ∧
      (∀ p ts, parse text = .ok p → Expression (Text.trim text) ts →
        Terms.Canonical p.terms ∧ ∀ t, t ∈ p.terms ↔
          Terms.sumAt ts t.exponent = t.coeff ∧ t.coeff.isZero = false) ∧
      ∀ p, parse text = .ok p → Plain (Text.trim text) := by
  refine ⟨⟨?_, ?_⟩, ?_, ?_⟩
  · rintro ⟨p, read⟩
    obtain ⟨ts, expression, _⟩ := parse_eq_ok_iff.mp read
    exact ⟨ts, expression⟩
  · rintro ⟨ts, expression⟩
    exact ⟨collect ts, parse_eq_ok_iff.mpr ⟨ts, expression, rfl⟩⟩
  · intro p ts read expression
    obtain ⟨us, other, rfl⟩ := parse_eq_ok_iff.mp read
    obtain rfl := other.unambiguous expression
    exact ⟨(collect us).canonical, fun _ => mem_terms_collect_iff⟩
  · intro p read
    obtain ⟨ts, expression, _⟩ := parse_eq_ok_iff.mp read
    exact expression.plain

end Poly

end SparsePoly
