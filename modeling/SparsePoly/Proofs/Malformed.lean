import SparsePoly.Proofs.Reading

/-!
# Where a text is malformed

What is wrong with a text that is no expression, as relations between texts and errors.  Like the
grammar they put texts together: everything before the fault is composed of what can be read, and
the fault is the first thing that cannot.

* `Grammar.CoefficientFault`, `Grammar.BodyFault` - what is wrong with a term without its sign
* `Grammar.TokenFault` - what is wrong with the first token of a text
* `Grammar.Fault` - what is wrong with a text

Offsets are those of the whole text, so that every relation but the last has the offset at which
its text starts.  `ParseError.PointsInto` says that an error quotes what stands at its offset.

## Main statements

* `Token.term_eq_error_iff`, `Cursor.terms_eq_error_iff` - the errors of a token and of a row
* `Poly.parse_eq_error_iff` - the error of a text
-/

namespace SparsePoly

/-- A part of a text stands at a byte offset. -/
def Text.StandsAt (text : List Char) (offset : Nat) (part : List Char) : Prop :=
  ∃ front back, text = front ++ part ++ back ∧ byteLength front = offset

/-- **An error points at what it quotes**, which is not empty. -/
def ParseError.PointsInto (text : List Char) : ParseError → Prop
  | empty => text = []
  | blank offset => ∃ c, Text.isBlank c = true ∧ Text.StandsAt text offset [c]
  | straySign sign offset => Text.StandsAt text offset [sign]
  | invalidCoefficient fragment offset => fragment ≠ [] ∧ Text.StandsAt text offset fragment
  | invalidExponent fragment offset => fragment ≠ [] ∧ Text.StandsAt text offset fragment
  | coefficientTooLarge fragment offset => fragment ≠ [] ∧ Text.StandsAt text offset fragment

namespace Grammar

/-- What is wrong with a coefficient: it is no literal, or one that is nearest to no magnitude. -/
inductive CoefficientFault (offset : Nat) : List Char → ParseError → Prop
  | malformed {text : List Char} (no_literal : ∀ n, ¬Literal text n) :
      CoefficientFault offset text (.invalidCoefficient text offset)
  | tooLarge {text : List Char} {n : Numeral} (literal : Literal text n)
      (beyond : ∀ m, ¬n.RoundsTo m) :
      CoefficientFault offset text (.coefficientTooLarge text offset)

/-- What is wrong with a term without its sign: its coefficient, which ends before the first
variable, or if that can be read its exponent, which is all that comes behind. -/
inductive BodyFault (offset : Nat) : List Char → ParseError → Prop
  | constant {body : List Char} {e : ParseError} (no_variable : ∀ c ∈ body, c ≠ 'x')
      (fault : CoefficientFault offset body e) : BodyFault offset body e
  | coefficient {front back : List Char} {e : ParseError} (first : ∀ c ∈ front, c ≠ 'x')
      (nonempty : front ≠ []) (fault : CoefficientFault offset front e) :
      BodyFault offset (front ++ 'x' :: back) e
  | exponent {front back : List Char} {magnitude : Binary64}
      (coefficient : Coefficient front magnitude) (nonempty : back ≠ [])
      (malformed : (∃ c ∈ back, c.isDigit = false) ∨
        UInt32.size ≤ Numeral.natOfDigits back) :
      BodyFault offset (front ++ 'x' :: back)
        (.invalidExponent back (offset + Text.byteLength front + 1))

/-- What is wrong with the first token of a text: its sign is stray, or its body is at fault. -/
inductive TokenFault (offset : Nat) : List Char → ParseError → Prop
  | stray (sign : Sign) {rest : List Char} (boundary : AtBoundary rest) :
      TokenFault offset (sign.toChar :: rest) (.straySign sign.toChar offset)
  | signed (sign : Sign) {body rest : List Char} {e : ParseError} (isBody : IsBody body)
      (boundary : AtBoundary rest) (fault : BodyFault (offset + 1) body e) :
      TokenFault offset (sign.toChar :: (body ++ rest)) e
  | unsigned {body rest : List Char} {e : ParseError} (isBody : IsBody body)
      (boundary : AtBoundary rest) (fault : BodyFault offset body e) :
      TokenFault offset (body ++ rest) e

/-- **What is wrong with a text**: that there is none, its first blank, or the first token behind a
part that is read. -/
inductive Fault : List Char → ParseError → Prop
  | empty : Fault [] .empty
  | blank {front back : List Char} {c : Char} (isBlank : Text.isBlank c = true)
      (first : ∀ d ∈ front, Text.isBlank d = false) :
      Fault (front ++ c :: back) (.blank (Text.byteLength front))
  | token {front back : List Char} {e : ParseError}
      (no_blank : ∀ c ∈ front ++ back, Text.isBlank c = false)
      (read : front = [] ∨ (∃ p, Poly.parse front = .ok p) ∧ AtBoundary back)
      (fault : TokenFault (Text.byteLength front) back e) : Fault (front ++ back) e

end Grammar

open Grammar

/-! ### Coefficients and exponents -/

theorem readCoefficient_eq_error_iff {text : List Char} {offset : Nat} {e : ParseError} :
    readCoefficient text offset = .error e ↔ CoefficientFault offset text e := by
  rw [readCoefficient]
  constructor
  · intro read
    split at read
    · rename_i no_literal
      cases read
      refine .malformed fun n literal => ?_
      rw [Numeral.read?_eq_some_iff.mpr literal] at no_literal
      cases no_literal
    · rename_i n literal
      split at read
      · cases read
      · rename_i infinite
        cases read
        refine .tooLarge (Numeral.read?_eq_some_iff.mp literal) fun m rounds => infinite ?_
        exact Numeral.isFinite_value_iff.mpr ⟨m, Numeral.value_eq_finite_iff.mpr rounds⟩
  · intro fault
    cases fault with
    | malformed no_literal =>
      have unread : Numeral.read? text = none :=
        Option.eq_none_iff_forall_ne_some.mpr fun n read =>
          no_literal n (Numeral.read?_eq_some_iff.mp read)
      rw [unread]
    | tooLarge literal beyond =>
      rw [Numeral.read?_eq_some_iff.mpr literal]
      refine if_neg fun finite => ?_
      obtain ⟨m, value⟩ := Numeral.isFinite_value_iff.mp finite
      exact beyond m (Numeral.value_eq_finite_iff.mp value)

theorem readExponent_eq_error_iff {text : List Char} {offset : Nat} {e : ParseError}
    (nonempty : text ≠ []) :
    readExponent text offset = .error e ↔
      ((∃ c ∈ text, c.isDigit = false) ∨ UInt32.size ≤ Numeral.natOfDigits text) ∧
        .invalidExponent text offset = e := by
  have refused : ¬(text.all Char.isDigit = true ∧ ¬text.isEmpty = true ∧
      Numeral.natOfDigits text < UInt32.size) ↔
        (∃ c ∈ text, c.isDigit = false) ∨ UInt32.size ≤ Numeral.natOfDigits text := by
    rw [Classical.not_and_iff_not_or_not]
    simp [nonempty]
  rw [readExponent, ← refused]
  split
  · rename_i accepted
    refine iff_of_false (fun read => ?_) fun malformed => malformed.1 accepted
    cases read
  · rename_i malformed
    rw [and_iff_right malformed]
    exact ⟨Except.error.inj, congrArg Except.error⟩

/-! ### Terms -/

theorem Token.term_eq_error_iff {t : Token} {e : ParseError} :
    t.term = .error e ↔ BodyFault t.offset t.body e := by
  constructor
  · intro read
    by_cases variable_there : 'x' ∈ t.body
    · obtain ⟨front, back, body, first⟩ := List.eq_append_cons_of_mem variable_there
      have first : ∀ c ∈ front, c ≠ 'x' := fun c mem eq => first (eq ▸ mem)
      rw [term_of_variable body first] at read
      rw [body]
      rcases bind_eq_error_iff.mp read with unread | ⟨magnitude, coefficient, read⟩
      · split at unread
        · cases unread
        · rename_i nonempty
          have fault := readCoefficient_eq_error_iff.mp unread
          exact .coefficient first (by simpa using nonempty) fault
      · rcases bind_eq_error_iff.mp read with unread | ⟨exponent, _, read⟩
        · split at unread
          · cases unread
          · rename_i nonempty
            have nonempty : back ≠ [] := by simpa using nonempty
            obtain ⟨malformed, rfl⟩ := (readExponent_eq_error_iff nonempty).mp unread
            exact .exponent (coefficient_eq_ok_iff.mp coefficient) nonempty malformed
        · cases read
    · have constant : ∀ c ∈ t.body, c ≠ 'x' := fun c mem eq => variable_there (eq ▸ mem)
      rw [term_of_constant constant] at read
      rcases bind_eq_error_iff.mp read with unread | ⟨magnitude, _, read⟩
      · exact .constant constant (readCoefficient_eq_error_iff.mp unread)
      · cases read
  · intro fault
    generalize text : t.body = body_text at fault
    cases fault with
    | constant no_variable fault =>
      rw [term_of_constant (text ▸ no_variable), text]
      exact bind_eq_error_iff.mpr (Or.inl (readCoefficient_eq_error_iff.mpr fault))
    | coefficient first nonempty fault =>
      rw [term_of_variable text first, if_neg (by simpa using nonempty)]
      exact bind_eq_error_iff.mpr (Or.inl (readCoefficient_eq_error_iff.mpr fault))
    | exponent coefficient nonempty malformed =>
      rw [term_of_variable text coefficient.ne_variable]
      refine bind_eq_error_iff.mpr (Or.inr ⟨_, coefficient_eq_ok_iff.mpr coefficient, ?_⟩)
      rw [if_neg (by simpa using nonempty)]
      refine bind_eq_error_iff.mpr (Or.inl ?_)
      exact (readExponent_eq_error_iff nonempty).mpr ⟨malformed, rfl⟩

/-! ### Rows of terms -/

namespace Cursor

theorem terms_of_tokenFault {text : List Char} {offset : Nat} {e : ParseError}
    (fault : TokenFault offset text e) : terms ⟨text, offset⟩ = .error e := by
  cases fault with
  | stray sign boundary =>
    exact terms_of_error (next?_eq_error_iff.mpr ⟨sign, _, rfl, boundary, rfl⟩)
  | signed sign isBody boundary fault =>
    rw [terms_of_step (.signed sign offset isBody boundary)]
    exact bind_eq_error_iff.mpr (Or.inl (Token.term_eq_error_iff.mpr fault))
  | unsigned isBody boundary fault =>
    rw [terms_of_step (.unsigned offset isBody boundary)]
    exact bind_eq_error_iff.mpr (Or.inl (Token.term_eq_error_iff.mpr fault))

/-- The error behind a row of signed terms is that of the whole. -/
theorem terms_append_of_signed {front back : List Char} {ts : List Term} {e : ParseError}
    (signed : Signed front ts) (boundary : AtBoundary back) :
    ∀ offset, terms ⟨back, offset + Text.byteLength front⟩ = .error e →
      terms ⟨front ++ back, offset⟩ = .error e := by
  induction signed with
  | nil => exact fun offset read => read
  | @cons sign body rest _ _ first others ih =>
    intro offset read
    have step := Step.signed sign offset first.isBody (others.atBoundary.append boundary)
    have whole : sign.toChar :: (body ++ rest) ++ back =
        sign.toChar :: (body ++ (rest ++ back)) := by simp
    rw [whole, terms_of_step step]
    refine bind_eq_error_iff.mpr (Or.inr ⟨_, Token.term_eq_ok_iff.mpr ⟨_, first, rfl⟩, ?_⟩)
    refine bind_eq_error_iff.mpr (Or.inl (ih _ ?_))
    rw [← read, Text.byteLength_cons, Text.byteLength_append, sign.utf8Size_toChar]
    congr 2
    omega

theorem terms_append_of_expression {front back : List Char} {ts : List Term} {e : ParseError}
    (expression : Expression front ts) (boundary : AtBoundary back) (offset : Nat)
    (read : terms ⟨back, offset + Text.byteLength front⟩ = .error e) :
    terms ⟨front ++ back, offset⟩ = .error e := by
  cases expression with
  | signed sign first others =>
    exact terms_append_of_signed (.cons sign first others) boundary offset read
  | unsigned first others =>
    have step := Step.unsigned offset first.isBody (others.atBoundary.append boundary)
    rw [List.append_assoc, terms_of_step step]
    refine bind_eq_error_iff.mpr (Or.inr ⟨_, Token.term_eq_ok_iff.mpr ⟨_, first, rfl⟩, ?_⟩)
    refine bind_eq_error_iff.mpr (Or.inl (terms_append_of_signed others boundary _ ?_))
    rw [← read, Text.byteLength_append, Nat.add_assoc]

/-- What is behind a step is signed, as far as it can be read. -/
theorem signed_of_read {front back : List Char} (boundary : AtBoundary (front ++ back))
    (read : front = [] ∨ (∃ ts, Expression front ts) ∧ AtBoundary back) :
    (∃ ts, Signed front ts) ∧ AtBoundary back := by
  rcases read with rfl | ⟨⟨ts, expression⟩, behind⟩
  · exact ⟨⟨[], .nil⟩, boundary⟩
  · exact ⟨⟨ts, expression.signed_of_atBoundary boundary.of_append⟩, behind⟩

/-- The step over a body that can be read goes before any row of signed terms. -/
theorem Step.expression {c d : Cursor} {t : Token} {v : Term} (step : Step c t d)
    (body : Body t.body v) :
    ∃ taken, c.rest = taken ++ d.rest ∧ d.offset = c.offset + Text.byteLength taken ∧
      AtBoundary d.rest ∧ ∀ {text ts}, Signed text ts → ∃ us, Expression (taken ++ text) us := by
  cases step with
  | @signed sign inner rest offset _ boundary =>
    refine ⟨sign.toChar :: inner, rfl, ?_, boundary, fun others => ⟨_, .signed sign body others⟩⟩
    rw [Text.byteLength_cons, sign.utf8Size_toChar, Nat.add_assoc]
  | unsigned offset _ boundary =>
    exact ⟨_, rfl, rfl, boundary, fun others => ⟨_, .unsigned body others⟩⟩

/-- A step over a body at fault. -/
theorem Step.tokenFault {c d : Cursor} {t : Token} {e : ParseError} (step : Step c t d)
    (fault : BodyFault t.offset t.body e) : TokenFault c.offset c.rest e := by
  cases step with
  | signed sign offset isBody boundary => exact .signed sign isBody boundary fault
  | unsigned offset isBody boundary => exact .unsigned isBody boundary fault

theorem tokenFault_of_terms {c : Cursor} {e : ParseError} (read : c.terms = .error e) :
    ∃ front back, c.rest = front ++ back ∧
      (front = [] ∨ (∃ ts, Expression front ts) ∧ AtBoundary back) ∧
      TokenFault (c.offset + Text.byteLength front) back e := by
  induction c using Cursor.items.induct with
  | case1 c next =>
    rw [terms_of_end (next?_eq_none_iff.mp next)] at read
    cases read
  | case2 c f next =>
    rw [terms_of_error next] at read
    cases read
    obtain ⟨s, rest, starts, boundary, rfl⟩ := next?_eq_error_iff.mp next
    exact ⟨[], c.rest, rfl, Or.inl rfl, starts ▸ .stray s boundary⟩
  | case3 c t d next ih =>
    have step := next?_eq_ok_iff.mp next
    rw [terms_of_step step] at read
    rcases bind_eq_error_iff.mp read with unread | ⟨u, term, read⟩
    · exact ⟨[], c.rest, rfl, Or.inl rfl, step.tokenFault (Token.term_eq_error_iff.mp unread)⟩
    · -- The body is read, so the fault is behind it.
      obtain ⟨v, body, _⟩ := Token.term_eq_ok_iff.mp term
      obtain ⟨taken, here, advanced, boundary, extend⟩ := step.expression body
      have unread : d.terms = .error e := by
        rcases bind_eq_error_iff.mp read with unread | ⟨_, _, answered⟩
        · exact unread
        · cases answered
      obtain ⟨front, back, whole, before, fault⟩ := ih unread
      rw [whole] at boundary
      obtain ⟨⟨ts, signed⟩, behind⟩ := signed_of_read boundary before
      refine ⟨taken ++ front, back, ?_, Or.inr ⟨extend signed, behind⟩, ?_⟩
      · rw [here, whole, List.append_assoc]
      · rw [Text.byteLength_append, ← Nat.add_assoc, ← advanced]
        exact fault

/-- **The error of a row** is that of the first token behind a part that can be read. -/
theorem terms_eq_error_iff {text : List Char} {offset : Nat} {e : ParseError} :
    terms ⟨text, offset⟩ = .error e ↔ ∃ front back, text = front ++ back ∧
      (front = [] ∨ (∃ ts, Expression front ts) ∧ AtBoundary back) ∧
      TokenFault (offset + Text.byteLength front) back e := by
  constructor
  · exact tokenFault_of_terms
  · rintro ⟨front, back, rfl, read, fault⟩
    have unread := terms_of_tokenFault fault
    rcases read with rfl | ⟨⟨ts, expression⟩, boundary⟩
    · exact unread
    · exact terms_append_of_expression expression boundary offset unread

end Cursor

/-! ### What an error points at -/

/-- A part of what stands at an offset stands behind what is before it. -/
theorem Text.StandsAt.part {text : List Char} {offset : Nat} (front part back : List Char)
    (stands : StandsAt text offset (front ++ part ++ back)) :
    StandsAt text (offset + byteLength front) part := by
  obtain ⟨before, behind, rfl, rfl⟩ := stands
  exact ⟨before ++ front, back ++ behind, by simp, byteLength_append before front⟩

namespace Grammar

variable {text part : List Char} {offset : Nat} {e : ParseError}

theorem CoefficientFault.pointsInto (fault : CoefficientFault offset part e)
    (nonempty : part ≠ []) (stands : Text.StandsAt text offset part) : e.PointsInto text := by
  cases fault with
  | malformed _ => exact ⟨nonempty, stands⟩
  | tooLarge _ _ => exact ⟨nonempty, stands⟩

theorem BodyFault.pointsInto (fault : BodyFault offset part e) (nonempty : part ≠ [])
    (stands : Text.StandsAt text offset part) : e.PointsInto text := by
  cases fault with
  | constant _ fault => exact fault.pointsInto nonempty stands
  | @coefficient front back _ _ present fault =>
    exact fault.pointsInto present (stands.part [] front ('x' :: back))
  | @exponent front back _ _ present _ =>
    have split : front ++ 'x' :: back = (front ++ ['x']) ++ back ++ [] := by simp
    rw [split] at stands
    have place := stands.part
    rw [Text.byteLength_append, ← Nat.add_assoc] at place
    exact ⟨present, place⟩

theorem TokenFault.pointsInto (fault : TokenFault offset part e)
    (stands : Text.StandsAt text offset part) : e.PointsInto text := by
  cases fault with
  | @stray sign rest _ => exact stands.part [] [sign.toChar] rest
  | @signed sign body rest _ isBody _ fault =>
    have place := stands.part [sign.toChar] body rest
    rw [Text.byteLength_cons, sign.utf8Size_toChar] at place
    exact fault.pointsInto isBody.nonempty place
  | @unsigned body rest _ isBody _ fault =>
    exact fault.pointsInto isBody.nonempty (stands.part [] body rest)

theorem TokenFault.nonempty (fault : TokenFault offset part e) : part ≠ [] := by
  cases fault with
  | stray _ _ => exact List.cons_ne_nil _ _
  | signed _ _ _ _ => exact List.cons_ne_nil _ _
  | unsigned isBody _ _ => exact List.append_ne_nil_of_left_ne_nil isBody.nonempty _

theorem Fault.pointsInto (fault : Fault text e) : e.PointsInto text := by
  cases fault with
  | empty => rfl
  | @blank front back c isBlank _ => exact ⟨c, isBlank, front, back, by simp, rfl⟩
  | @token front back _ _ _ fault => exact fault.pointsInto ⟨front, [], by simp, rfl⟩

end Grammar

/-! ### Texts -/

namespace Poly

/-- A text without blanks is read exactly if it is an expression. -/
theorem exists_parse_iff {text : List Char} (no_blank : ∀ c ∈ text, Text.isBlank c = false) :
    (∃ p, parse text = .ok p) ↔ ∃ ts, Expression text ts := by
  simp only [parse_eq_ok_iff, Text.trim_of_visible no_blank]
  exact ⟨fun ⟨_, ts, expression, _⟩ => ⟨ts, expression⟩,
    fun ⟨ts, expression⟩ => ⟨_, ts, expression, rfl⟩⟩

/-- **The error of a text is its first fault**, and points at what it quotes.  The causes exclude
each other: there is no text, or it has a blank and the first one counts, or the part before some
token can be read and that token cannot.  Then the sign is stray, or the coefficient of its body is
no literal or too large, or else its exponent is no number of 32 bits. -/
theorem parse_eq_error_iff (text : List Char) (e : ParseError) :
    parse text = .error e ↔ Fault (Text.trim text) e ∧ e.PointsInto (Text.trim text) := by
  rw [and_iff_left_of_imp Fault.pointsInto, parse]
  generalize Text.trim text = expression
  constructor
  · intro read
    split at read
    · rename_i empty
      cases read
      rw [List.isEmpty_iff.mp empty]
      exact .empty
    · split at read
      · rename_i offset found
        cases read
        obtain ⟨front, c, back, rfl, blank, first, rfl⟩ := Text.firstBlank?_eq_some_iff.mp found
        exact .blank blank first
      · rename_i found
        have no_blank := Text.firstBlank?_eq_none.mp found
        cases terms : readTerms expression with
        | ok ts =>
          rw [terms] at read
          cases read
        | error f =>
          rw [terms] at read
          cases read
          obtain ⟨front, back, rfl, before, fault⟩ := Cursor.terms_eq_error_iff.mp terms
          rw [← exists_parse_iff fun c mem => no_blank c (List.mem_append_left _ mem)] at before
          rw [Nat.zero_add] at fault
          exact .token no_blank before fault
  · intro fault
    cases fault with
    | empty => rfl
    | blank isBlank first =>
      rw [if_neg (by simp), Text.firstBlank?_eq_some_iff.mpr ⟨_, _, _, rfl, isBlank, first, rfl⟩]
    | @token front back _ no_blank before fault =>
      rw [exists_parse_iff fun c mem => no_blank c (List.mem_append_left _ mem)] at before
      have terms : readTerms (front ++ back) = .error e :=
        Cursor.terms_eq_error_iff.mpr ⟨front, back, rfl, before, (Nat.zero_add _).symm ▸ fault⟩
      have nonempty : front ++ back ≠ [] := List.append_ne_nil_of_right_ne_nil front fault.nonempty
      rw [if_neg (by simpa using nonempty), Text.firstBlank?_eq_none.mpr no_blank]
      simp only [terms]
      rfl

end Poly

end SparsePoly
