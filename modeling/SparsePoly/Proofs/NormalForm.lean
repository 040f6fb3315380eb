import Mathlib.Data.List.Forall2
import Mathlib.Data.Set.Function
import SparsePoly.Proofs.RoundTrip

/-!
# The normal form of expressions

Many texts denote one polynomial.  Among those of a polynomial with finite coefficients one is in
normal form: its terms ascend, nothing is written that could be missing, and every numeral is the
text of its number.  `Grammar.Normal` says so by how a text is composed, as the grammar does, and
without the printer.

The printer gives these texts and no others, so that writing is a bijection onto them.  A normal
text is read as the polynomial that it is the text of; a text that is not normal is read as one that
is written differently.

* `Grammar.NormalNumeral`, `Grammar.NormalVariable`, `Grammar.NormalBody` - a term without its sign,
  and its two parts
* `Grammar.NormalRow`, `Grammar.Normal` - rows of terms

## Main statements

* `Numeral.toDigits_natOfDigits` - digits without a leading zero are those of the number they denote
* `Grammar.normalBody_iff`, `Grammar.normalRow_iff` - what is normal is what is written
* `Cursor.items_of_expression` - an expression is cut into a token for each term
* `Poly.render_bijOn_normal` - writing is a bijection, and undoes reading on normal texts only
-/

namespace SparsePoly

open Grammar

namespace Numeral

/-! ### Leading zeros -/

theorem natOfDigits_append_singleton (digits : List Char) (c : Char) :
    natOfDigits (digits ++ [c]) = 10 * natOfDigits digits + (c.toNat - '0'.toNat) := by
  rw [natOfDigits, Nat.ofDigitChars_append, Nat.ofDigitChars_cons, Nat.ofDigitChars_nil]
  rfl

/-- A digit is the character of its value. -/
theorem digitChar_toNat_sub {c : Char} (digit : c.isDigit = true) :
    c.toNat - '0'.toNat < 10 ∧ Nat.digitChar (c.toNat - '0'.toNat) = c := by
  obtain ⟨low, high⟩ := Char.isDigit_iff_toNat.mp digit
  have zero : '0'.toNat = 48 := rfl
  have nine : '9'.toNat = 57 := rfl
  have lt : c.toNat - '0'.toNat < 10 := by omega
  refine ⟨lt, Char.toNat_inj.mp ?_⟩
  rw [Nat.toNat_digitChar_of_lt_ten lt]
  omega

/-- The digits of a positive number do not start with a zero. -/
theorem head?_toDigits {n : Nat} (positive : 0 < n) : (Nat.toDigits 10 n).head? ≠ some '0' := by
  induction n using Nat.strongRecOn with
  | ind n ih =>
    by_cases small : n < 10
    · rw [Nat.toDigits_of_lt_base small, List.head?_cons]
      simpa using Nat.ne_of_gt positive
    · rw [Nat.toDigits_of_base_le (by decide) (Nat.le_of_not_lt small),
        List.head?_append_of_ne_nil _ Nat.toDigits_ne_nil]
      exact ih (n / 10) (by omega) (by omega)

/-- **Digits without a leading zero** are those of the number they denote. -/
theorem toDigits_natOfDigits {digits : List Char} (nonempty : digits ≠ [])
    (all : ∀ c ∈ digits, c.isDigit = true) (noLeadingZero : digits.head? ≠ some '0') :
    Nat.toDigits 10 (natOfDigits digits) = digits := by
  induction digits using List.reverseRecOn with
  | nil => exact absurd rfl nonempty
  | append_singleton front c ih =>
    obtain ⟨lt, char⟩ := digitChar_toNat_sub (all c (by simp))
    have last : Nat.toDigits 10 (c.toNat - '0'.toNat) = [c] := by
      rw [Nat.toDigits_of_lt_base lt, char]
    rw [natOfDigits_append_singleton]
    by_cases single : front = []
    · rw [single, natOfDigits_nil, Nat.mul_zero, Nat.zero_add, last]
      rfl
    · rw [List.head?_append_of_ne_nil _ single] at noLeadingZero
      have front_digits := ih single (fun d mem => all d (List.mem_append_left _ mem)) noLeadingZero
      -- A front that denoted zero would be the one digit of zero.
      have positive : 0 < natOfDigits front := by
        apply Nat.pos_of_ne_zero
        intro zero
        rw [zero, Nat.toDigits_zero] at front_digits
        rw [← front_digits] at noLeadingZero
        exact noLeadingZero rfl
      rw [← Nat.toDigits_append_toDigits (by decide) positive lt, front_digits, last]

end Numeral

namespace Grammar

/-! ### Normal texts -/

/-- The numeral of a coefficient, for a term with a given exponent: the text of its number, which is
missing exactly before the variable and for the number one. -/
inductive NormalNumeral (e : UInt32) : List Char → Binary64.Magnitude → Prop
  | missing (variable_there : e ≠ 0) : NormalNumeral e [] 1
  | written {m : Binary64.Magnitude} (positive : m.units ≠ 0) (needed : m = 1 → e = 0) :
      NormalNumeral e (Binary64.finite false m).text m

/-- What stands behind the numeral: nothing in a constant, else the variable, with the exponent
behind it if that is greater than one, in digits without leading zeros. -/
inductive NormalVariable : List Char → UInt32 → Prop
  | constant : NormalVariable [] 0
  | linear : NormalVariable ['x'] 1
  | power {digits : List Char} {e : UInt32} (greater : 1 < e)
      (all : ∀ c ∈ digits, c.isDigit = true) (noLeadingZero : digits.head? ≠ some '0')
      (denotes : Numeral.natOfDigits digits = e.toNat) : NormalVariable ('x' :: digits) e

/-- A term without its sign. -/
inductive NormalBody : List Char → Term → Prop
  | mk {front back : List Char} {e : UInt32} {m : Binary64.Magnitude}
      (numeral : NormalNumeral e front m) (variable_part : NormalVariable back e) :
      NormalBody (front ++ back) ⟨e, .finite false m⟩

/-- Terms behind the first one, each with its sign. -/
inductive NormalRow : List Char → List Term → Prop
  | nil : NormalRow [] []
  | cons (sign : Sign) {body rest : List Char} {t : Term} {ts : List Term}
      (first : NormalBody body t) (others : NormalRow rest ts) :
      NormalRow (sign.toChar :: (body ++ rest)) (sign.signed t :: ts)

/-- **The texts in normal form**, and the terms that they consist of: zero, or terms that ascend.  A
plus sign of the first term is missing. -/
inductive Normal : List Char → List Term → Prop
  | zero : Normal ['0'] []
  | positive {body rest : List Char} {t : Term} {ts : List Term} (first : NormalBody body t)
      (others : NormalRow rest ts) (ascending : (t :: ts).Pairwise (·.exponent < ·.exponent)) :
      Normal (body ++ rest) (t :: ts)
  | negative {body rest : List Char} {t : Term} {ts : List Term} (first : NormalBody body t)
      (others : NormalRow rest ts)
      (ascending : (Sign.minus.signed t :: ts).Pairwise (·.exponent < ·.exponent)) :
      Normal ('-' :: (body ++ rest)) (Sign.minus.signed t :: ts)

/-! ### Normal terms -/

theorem normalNumeral_zero_iff {text : List Char} {m : Binary64.Magnitude} :
    NormalNumeral 0 text m ↔ m.units ≠ 0 ∧ text = (Binary64.finite false m).text := by
  constructor
  · intro numeral
    cases numeral with
    | missing variable_there => exact absurd rfl variable_there
    | written positive _ => exact ⟨positive, rfl⟩
  · rintro ⟨positive, rfl⟩
    exact .written positive fun _ => rfl

theorem normalNumeral_iff {e : UInt32} (variable_there : e ≠ 0) {text : List Char}
    {m : Binary64.Magnitude} :
    NormalNumeral e text m ↔
      m.units ≠ 0 ∧ text = Term.coefficientText ⟨e, .finite false m⟩ := by
  have not_minus_one : Binary64.finite false m ≠ -1 := nofun
  rw [Term.coefficientText, if_neg not_minus_one]
  constructor
  · intro numeral
    cases numeral with
    | missing => exact ⟨Nat.ne_of_gt Binary64.unitsPerOne_pos, (if_pos rfl).symm⟩
    | written positive needed =>
      have not_one : Binary64.finite false m ≠ 1 := fun one =>
        variable_there (needed (Binary64.finite.inj one).2)
      exact ⟨positive, (if_neg not_one).symm⟩
  · rintro ⟨positive, rfl⟩
    by_cases one : Binary64.finite false m = 1
    · obtain rfl : m = 1 := (Binary64.finite.inj one).2
      rw [if_pos one]
      exact .missing variable_there
    · rw [if_neg one]
      exact .written positive fun eq => absurd (congrArg (Binary64.finite false) eq) one

theorem normalVariable_iff {e : UInt32} (variable_there : e ≠ 0) {text : List Char}
    (c : Binary64) : NormalVariable text e ↔ text = 'x' :: Term.exponentText ⟨e, c⟩ := by
  rw [Term.exponentText]
  constructor
  · intro variable_part
    cases variable_part with
    | constant => exact absurd rfl variable_there
    | linear => rfl
    | power greater all noLeadingZero denotes =>
      rename_i digits
      have nonempty : digits ≠ [] := by
        rintro rfl
        rw [UInt32.lt_iff_toNat_lt, ← denotes] at greater
        exact Nat.not_lt_zero _ greater
      rw [if_pos greater, ← denotes, Numeral.toDigits_natOfDigits nonempty all noLeadingZero]
  · rintro rfl
    by_cases greater : 1 < e
    · have positive : 0 < e.toNat := by
        rw [UInt32.lt_iff_toNat_lt] at greater
        omega
      rw [if_pos greater]
      exact .power greater
        (fun _ mem => Nat.isDigit_of_mem_toDigits (by decide) (by decide) mem)
        (Numeral.head?_toDigits positive) (Numeral.natOfDigits_toDigits _)
    · rw [if_neg greater, Term.exponent_eq_one variable_there greater]
      exact .linear

/-- **A normal term** is what a term with a positive coefficient is written as. -/
theorem normalBody_iff {text : List Char} {t : Term} :
    NormalBody text t ↔
      ∃ (e : UInt32) (m : Binary64.Magnitude), m.units ≠ 0 ∧ t = ⟨e, .finite false m⟩ ∧
        text = (Term.pieces ⟨e, .finite false m⟩).flatten := by
  constructor
  · intro body
    obtain @⟨front, back, e, m, numeral, variable_part⟩ := body
    by_cases constant : e = 0
    · subst constant
      obtain ⟨positive, rfl⟩ := normalNumeral_zero_iff.mp numeral
      cases variable_part with
      | constant => exact ⟨0, m, positive, rfl, rfl⟩
      | power greater _ _ _ => exact absurd greater (by decide)
    · obtain ⟨positive, rfl⟩ := (normalNumeral_iff constant).mp numeral
      obtain rfl := (normalVariable_iff constant (.finite false m)).mp variable_part
      refine ⟨e, m, positive, rfl, ?_⟩
      rw [Term.pieces_variable constant]
      simp
  · rintro ⟨e, m, positive, rfl, rfl⟩
    by_cases constant : e = 0
    · subst constant
      exact .mk (normalNumeral_zero_iff.mpr ⟨positive, rfl⟩) .constant
    · have body := NormalBody.mk ((normalNumeral_iff constant).mpr ⟨positive, rfl⟩)
        ((normalVariable_iff constant (.finite false m)).mpr rfl)
      rw [Term.pieces_variable constant]
      simpa using body

/-! ### Normal rows -/

theorem isFinite_signed (s : Sign) (e : UInt32) (m : Binary64.Magnitude) :
    (s.signed ⟨e, .finite false m⟩).coeff.isFinite = true :=
  s.isFinite_apply _

theorem isZero_signed (s : Sign) (e : UInt32) {m : Binary64.Magnitude} (positive : m.units ≠ 0) :
    (s.signed ⟨e, .finite false m⟩).coeff.isZero = false := by
  rw [Sign.signed, Sign.isZero_apply, Binary64.isZero_finite]
  exact decide_eq_false positive

/-- **A normal row** is what terms behind the first one are written as. -/
theorem normalRow_iff {text : List Char} {ts : List Term} :
    NormalRow text ts ↔
      (∀ t ∈ ts, t.coeff.isFinite = true) ∧ (∀ t ∈ ts, t.coeff.isZero = false) ∧
        text = (ts.flatMap fun u => u.joint :: u.pieces).flatten := by
  constructor
  · intro row
    induction row with
    | nil => exact ⟨nofun, nofun, rfl⟩
    | cons sign first others ih =>
      obtain ⟨finite, nonzero, rfl⟩ := ih
      obtain ⟨e, m, positive, rfl, rfl⟩ := normalBody_iff.mp first
      refine ⟨List.forall_mem_cons.mpr ⟨isFinite_signed sign e m, finite⟩,
        List.forall_mem_cons.mpr ⟨isZero_signed sign e positive, nonzero⟩, ?_⟩
      rw [List.flatMap_cons, List.flatten_append, List.flatten_cons,
        Term.joint_pieces_signed sign e positive, List.cons_append]
  · rintro ⟨finite, nonzero, rfl⟩
    induction ts with
    | nil => exact .nil
    | cons t ts ih =>
      obtain ⟨t_finite, ts_finite⟩ := List.forall_mem_cons.mp finite
      obtain ⟨t_nonzero, ts_nonzero⟩ := List.forall_mem_cons.mp nonzero
      obtain ⟨s, e, m, positive, rfl⟩ := Term.exists_signed t_finite t_nonzero
      rw [List.flatMap_cons, List.flatten_append, List.flatten_cons,
        Term.joint_pieces_signed s e positive, List.cons_append]
      exact .cons s (normalBody_iff.mpr ⟨e, m, positive, rfl, rfl⟩) (ih ts_finite ts_nonzero)

end Grammar

/-! ### Normal texts are the texts of polynomials -/

namespace Poly

theorem render_of_terms {p : Poly} {t : Term} {ts : List Term} (terms : p.terms = t :: ts) :
    p.render = t.pieces.flatten ++ (ts.flatMap fun u => u.joint :: u.pieces).flatten := by
  rw [render, pieces, terms, List.flatten_append]

/-- The text of a polynomial is normal. -/
theorem normal_render {p : Poly} (finite : ∀ t ∈ p.terms, t.coeff.isFinite = true) :
    Normal p.render p.terms := by
  obtain ⟨terms, canonical⟩ := p
  cases terms with
  | nil => exact .zero
  | cons t ts =>
    obtain ⟨t_finite, ts_finite⟩ := List.forall_mem_cons.mp finite
    obtain ⟨t_nonzero, ts_nonzero⟩ := List.forall_mem_cons.mp canonical.nonzero
    have others := normalRow_iff.mpr ⟨ts_finite, ts_nonzero, rfl⟩
    obtain ⟨s, e, m, positive, rfl⟩ := Term.exists_signed t_finite t_nonzero
    have first := normalBody_iff.mpr ⟨e, m, positive, rfl, rfl⟩
    rw [render_of_terms rfl]
    cases s with
    | plus => exact .positive first others canonical.ascending
    | minus =>
      show Normal ((Term.pieces ⟨e, .finite true m⟩).flatten ++ _) _
      rw [Term.pieces_negative]
      exact .negative first others canonical.ascending

/-- A normal text is the text of a polynomial, of the terms that it consists of. -/
theorem exists_of_normal {text : List Char} {ts : List Term} (normal : Normal text ts) :
    ∃ p : Poly, p.terms = ts ∧ (∀ t ∈ p.terms, t.coeff.isFinite = true) ∧ p.render = text := by
  -- The sign of the first term does not matter to the form of the list.
  have whole {body rest : List Char} {t : Term} {ts : List Term} (s : Sign)
      (first : NormalBody body t) (others : NormalRow rest ts)
      (ascending : (s.signed t :: ts).Pairwise (·.exponent < ·.exponent)) :
      ∃ p : Poly, p.terms = s.signed t :: ts ∧ (∀ t ∈ p.terms, t.coeff.isFinite = true) ∧
        p.render = (s.signed t).pieces.flatten ++ rest := by
    obtain ⟨finite, nonzero, rfl⟩ := normalRow_iff.mp others
    obtain ⟨e, m, positive, rfl, rfl⟩ := normalBody_iff.mp first
    exact ⟨⟨_, ascending, List.forall_mem_cons.mpr ⟨isZero_signed s e positive, nonzero⟩⟩, rfl,
      List.forall_mem_cons.mpr ⟨isFinite_signed s e m, finite⟩, render_of_terms rfl⟩
  cases normal with
  | zero => exact ⟨0, rfl, nofun, rfl⟩
  | positive first others ascending =>
    obtain ⟨p, terms, finite, text⟩ := whole .plus first others ascending
    obtain ⟨e, m, _, rfl, rfl⟩ := normalBody_iff.mp first
    exact ⟨p, terms, finite, text⟩
  | negative first others ascending =>
    obtain ⟨p, terms, finite, text⟩ := whole .minus first others ascending
    obtain ⟨e, m, _, rfl, rfl⟩ := normalBody_iff.mp first
    refine ⟨p, terms, finite, text.trans ?_⟩
    show (Term.pieces ⟨e, .finite true m⟩).flatten ++ _ = _
    rw [Term.pieces_negative]
    rfl

end Poly

/-! ### Tokens of an expression -/

namespace Cursor

/-- A row of signed terms is cut into a token for each term. -/
theorem items_of_signed {text : List Char} {ts : List Term} (signed : Signed text ts) :
    ∀ offset, ∃ tokens : List Token, items ⟨text, offset⟩ = tokens.map .ok ∧
      List.Forall₂ (fun token t => token.term = .ok t) tokens ts := by
  induction signed with
  | nil => exact fun offset => ⟨[], items_of_end rfl, .nil⟩
  | cons sign first others ih =>
    intro offset
    obtain ⟨tokens, items, terms⟩ := ih _
    have step := Step.signed sign offset first.isBody others.atBoundary
    exact ⟨_ :: tokens, by rw [items_of_step step, items, List.map_cons],
      .cons (Token.term_eq_ok_iff.mpr ⟨_, first, rfl⟩) terms⟩

/-- **An expression is cut into a token for each term.** -/
theorem items_of_expression {text : List Char} {ts : List Term} (expression : Expression text ts) :
    ∃ tokens : List Token, Token.scan text = tokens.map .ok ∧
      List.Forall₂ (fun token t => token.term = .ok t) tokens ts := by
  cases expression with
  | signed sign first others => exact items_of_signed (.cons sign first others) 0
  | unsigned first others =>
    obtain ⟨tokens, items, terms⟩ := items_of_signed others _
    have step := Step.unsigned 0 first.isBody others.atBoundary
    exact ⟨_ :: tokens, by rw [Token.scan, start, items_of_step step, items, List.map_cons],
      .cons (Token.term_eq_ok_iff.mpr ⟨_, first, rfl⟩) terms⟩

end Cursor

/-- No two signs stand side by side. -/
theorem Grammar.Plain.not_infix_signs {text : List Char} (plain : Plain text) (s t : Sign) :
    ¬[s.toChar, t.toChar] <:+: text := by
  intro signs
  have spaced := List.IsChain.infix plain.spaced signs
  simp at spaced

/-- The first sign of a normal text is a minus. -/
theorem Grammar.Normal.head?_ne_plus {text : List Char} {ts : List Term} (normal : Normal text ts) :
    text.head? ≠ some '+' := by
  cases normal with
  | zero => decide
  | negative _ _ _ => simp
  | positive first _ _ =>
    obtain ⟨e, m, _, _, rfl⟩ := normalBody_iff.mp first
    obtain ⟨nonempty, noSign⟩ := (Term.body_pieces e m).isBody
    rw [List.head?_append_of_ne_nil _ nonempty]
    intro head
    have sign := noSign '+' (List.mem_of_mem_head? head)
    cases sign

namespace Poly

/-- What the text of a polynomial looks like: it starts with no plus, has no plus before a minus,
and has no blanks. -/
theorem render_plain {p : Poly} (finite : ∀ t ∈ p.terms, t.coeff.isFinite = true) :
    p.render.head? ≠ some '+' ∧ ¬['+', '-'] <:+: p.render ∧
      ∀ c ∈ p.render, Text.isBlank c = false := by
  have plain := (expression_render finite).plain
  exact ⟨(normal_render finite).head?_ne_plus, plain.not_infix_signs .plus .minus,
    fun c mem => (plain.alphabet c mem).isBlank⟩

/-- The tokens of a polynomial are its terms; the zero polynomial, which has none, has a token. -/
theorem scan_render {p : Poly} (finite : ∀ t ∈ p.terms, t.coeff.isFinite = true)
    (nonzero : p ≠ 0) :
    ∃ tokens : List Token, Token.scan p.render = tokens.map .ok ∧ tokens.length = p.size ∧
      List.Forall₂ (fun token t => token.term = .ok t) tokens p.terms := by
  have terms_there : p.terms ≠ [] := fun empty => nonzero (ext empty)
  have expression := expression_render finite
  rw [if_neg terms_there] at expression
  obtain ⟨tokens, scanned, terms⟩ := Cursor.items_of_expression expression
  exact ⟨tokens, scanned, terms.length_eq, terms⟩

/-- **Writing is a bijection onto the normal texts, and undoes reading exactly there.**  What is
written for a polynomial other than zero has one token for each term, in the order of the terms; and
there is no plus at its start or before a minus, and no blank in it. -/
theorem render_bijOn_normal :
    Set.BijOn render {p | ∀ t ∈ p.terms, t.coeff.isFinite = true} {text | ∃ ts, Normal text ts} ∧
      (∀ text p, parse text = .ok p → (∀ t ∈ p.terms, t.coeff.isFinite = true) →
        (p.render = text ↔ ∃ ts, Normal text ts)) ∧
      ∀ p : Poly, (∀ t ∈ p.terms, t.coeff.isFinite = true) →
        (p ≠ 0 → ∃ tokens : List Token, Token.scan p.render = tokens.map .ok ∧
          tokens.length = p.size ∧
          List.Forall₂ (fun token t => token.term = .ok t) tokens p.terms) ∧
        p.render.head? ≠ some '+' ∧ ¬['+', '-'] <:+: p.render ∧
          ∀ c ∈ p.render, Text.isBlank c = false := by
  refine ⟨⟨fun p finite => ⟨_, normal_render finite⟩, ?injective, ?surjective⟩, ?undoes,
    fun p finite => ⟨scan_render finite, render_plain finite⟩⟩
  case injective =>
    intro p p_finite q q_finite eq
    have read := parse_render_of_finite p_finite
    rw [eq, parse_render_of_finite q_finite] at read
    exact (Except.ok.inj read).symm
  case surjective =>
    rintro text ⟨ts, normal⟩
    obtain ⟨p, _, finite, written⟩ := exists_of_normal normal
    exact ⟨p, finite, written⟩
  case undoes =>
    intro text p read finite
    constructor
    · rintro rfl
      exact ⟨_, normal_render finite⟩
    · rintro ⟨ts, normal⟩
      obtain ⟨q, _, q_finite, rfl⟩ := exists_of_normal normal
      rw [parse_render_of_finite q_finite] at read
      exact congrArg render (Except.ok.inj read).symm

end Poly

end SparsePoly
