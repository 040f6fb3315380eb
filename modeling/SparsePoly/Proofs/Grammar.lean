import Mathlib.Data.List.Chain
import SparsePoly.Proofs.Nearest
import SparsePoly.Proofs.Tokens
import SparsePoly.Term

/-!
# The grammar of expressions

`[sign] term (sign term)*`, as inductive relations between a text and what it denotes.  A text is
put together here and never taken apart: there is no first `x` to look for and no next sign, and
the blanks at the ends are not part of the grammar.

* `Grammar.Literal`, `Grammar.Number` - digits with at most one point, the fraction they denote, and
  the number nearest to it
* `Grammar.Coefficient`, `Grammar.Exponent` - what stands around the variable, or is missing
* `Grammar.Body` - a term without its sign
* `Grammar.Signed`, `Grammar.Expression` - rows of terms

`Grammar.Plain` collects what every expression looks like, and so what cannot be part of one.

## Main statements

* `Grammar.Expression.plain` - expressions are plain
-/

namespace SparsePoly

/-- The term with its sign in front. -/
def Sign.signed (s : Sign) (t : Term) : Term := ⟨t.exponent, s.apply t.coeff⟩

theorem Sign.isFinite_apply (s : Sign) (c : Binary64) : (s.apply c).isFinite = c.isFinite := by
  cases s with
  | plus => rfl
  | minus => exact Binary64.isFinite_neg c

theorem Sign.isZero_apply (s : Sign) (c : Binary64) : (s.apply c).isZero = c.isZero := by
  cases s with
  | plus => rfl
  | minus => exact Binary64.isZero_neg c

namespace Grammar

/-- Digits with at most one point before, between or after them. -/
inductive Literal : List Char → Numeral → Prop
  | whole {digits : List Char} (nonempty : digits ≠ [])
      (all : ∀ c ∈ digits, c.isDigit = true) :
      Literal digits ⟨Numeral.natOfDigits digits, 0⟩
  | point {whole fraction : List Char} (nonempty : whole ++ fraction ≠ [])
      (whole_all : ∀ c ∈ whole, c.isDigit = true)
      (fraction_all : ∀ c ∈ fraction, c.isDigit = true) :
      Literal (whole ++ '.' :: fraction) ⟨Numeral.natOfDigits (whole ++ fraction), fraction.length⟩

/-- A literal, correctly rounded; one that is nearest to no magnitude is no number. -/
inductive Number : List Char → Binary64 → Prop
  | mk {text : List Char} {n : Numeral} {m : Binary64.Magnitude} (literal : Literal text n)
      (rounds : n.RoundsTo m) : Number text (.finite false m)

/-- What stands before the variable: a number, or nothing, which is one. -/
inductive Coefficient : List Char → Binary64 → Prop
  | missing : Coefficient [] 1
  | number {text : List Char} {magnitude : Binary64} (number : Number text magnitude) :
      Coefficient text magnitude

/-- What stands after the variable: digits of a 32-bit number, or nothing, which is one. -/
inductive Exponent : List Char → UInt32 → Prop
  | missing : Exponent [] 1
  | digits {text : List Char} (nonempty : text ≠ []) (all : ∀ c ∈ text, c.isDigit = true)
      (fits : Numeral.natOfDigits text < UInt32.size) :
      Exponent text (UInt32.ofNat (Numeral.natOfDigits text))

/-- A term without its sign. -/
inductive Body : List Char → Term → Prop
  | constant {text : List Char} {magnitude : Binary64} (number : Number text magnitude) :
      Body text ⟨0, magnitude⟩
  | monomial {front back : List Char} {magnitude : Binary64} {exponent : UInt32}
      (coefficient : Coefficient front magnitude) (power : Exponent back exponent) :
      Body (front ++ 'x' :: back) ⟨exponent, magnitude⟩

/-- `(sign term)*` -/
inductive Signed : List Char → List Term → Prop
  | nil : Signed [] []
  | cons (sign : Sign) {body rest : List Char} {t : Term} {ts : List Term} (first : Body body t)
      (others : Signed rest ts) : Signed (sign.toChar :: (body ++ rest)) (sign.signed t :: ts)

/-- `[sign] term (sign term)*`; a missing sign is a plus. -/
inductive Expression : List Char → List Term → Prop
  | signed (sign : Sign) {body rest : List Char} {t : Term} {ts : List Term} (first : Body body t)
      (others : Signed rest ts) : Expression (sign.toChar :: (body ++ rest)) (sign.signed t :: ts)
  | unsigned {body rest : List Char} {t : Term} {ts : List Term} (first : Body body t)
      (others : Signed rest ts) : Expression (body ++ rest) (t :: ts)

/-! ### Characters of a term -/

theorem isBodyChar_of_isDigit {c : Char} (digit : c.isDigit = true) : isBodyChar c = true := by
  cases body : isBodyChar c with
  | true => rfl
  | false =>
    obtain ⟨s, rfl⟩ := isBodyChar_eq_false_iff.mp body
    cases s <;> cases digit

theorem ne_variable_of_isDigit {c : Char} (digit : c.isDigit = true) : c ≠ 'x' := by
  rintro rfl
  cases digit

theorem Literal.nonempty {text : List Char} {n : Numeral} (literal : Literal text n) :
    text ≠ [] := by
  cases literal with
  | whole nonempty _ => exact nonempty
  | point _ _ _ => simp

theorem Literal.isDigit_or_point {text : List Char} {n : Numeral} (literal : Literal text n) :
    ∀ c ∈ text, c.isDigit = true ∨ c = '.' := by
  intro c mem
  cases literal with
  | whole _ all => exact Or.inl (all c mem)
  | point _ whole_all fraction_all =>
    rcases List.mem_append.mp mem with mem | mem
    · exact Or.inl (whole_all c mem)
    · rcases List.mem_cons.mp mem with rfl | mem
      · exact Or.inr rfl
      · exact Or.inl (fraction_all c mem)

theorem Number.nonempty {text : List Char} {magnitude : Binary64} (number : Number text magnitude) :
    text ≠ [] := by
  cases number with
  | mk literal _ => exact literal.nonempty

theorem Number.isDigit_or_point {text : List Char} {magnitude : Binary64}
    (number : Number text magnitude) : ∀ c ∈ text, c.isDigit = true ∨ c = '.' := by
  cases number with
  | mk literal _ => exact literal.isDigit_or_point

theorem Coefficient.isDigit_or_point {text : List Char} {magnitude : Binary64}
    (coefficient : Coefficient text magnitude) : ∀ c ∈ text, c.isDigit = true ∨ c = '.' := by
  cases coefficient with
  | missing => simp
  | number number => exact number.isDigit_or_point

theorem Exponent.isDigit {text : List Char} {exponent : UInt32} (power : Exponent text exponent) :
    ∀ c ∈ text, c.isDigit = true := by
  cases power with
  | missing => simp
  | digits _ all _ => exact all

/-- Digits and points are no variables. -/
theorem Coefficient.ne_variable {text : List Char} {magnitude : Binary64}
    (coefficient : Coefficient text magnitude) : ∀ c ∈ text, c ≠ 'x' := by
  intro c mem
  rcases coefficient.isDigit_or_point c mem with digit | rfl
  · exact ne_variable_of_isDigit digit
  · decide

/-- The characters of an expression. -/
def InAlphabet (c : Char) : Prop :=
  c.isDigit = true ∨ c = '.' ∨ c = 'x' ∨ ∃ s : Sign, c = s.toChar

namespace Body

variable {text : List Char} {t : Term}

theorem characters (body : Body text t) : ∀ c ∈ text, c.isDigit = true ∨ c = '.' ∨ c = 'x' := by
  intro c mem
  cases body with
  | constant number => exact (number.isDigit_or_point c mem).imp_right Or.inl
  | monomial coefficient power =>
    rcases List.mem_append.mp mem with mem | mem
    · exact (coefficient.isDigit_or_point c mem).imp_right Or.inl
    · rcases List.mem_cons.mp mem with rfl | mem
      · exact Or.inr (Or.inr rfl)
      · exact Or.inl (power.isDigit c mem)

theorem isBody (body : Body text t) : IsBody text := by
  refine ⟨?_, fun c mem => ?_⟩
  · cases body with
    | constant number => exact number.nonempty
    | monomial _ _ => simp
  · rcases body.characters c mem with digit | rfl | rfl
    · exact isBodyChar_of_isDigit digit
    · rfl
    · rfl

theorem count_variable_le (body : Body text t) : text.count 'x' ≤ 1 := by
  cases body with
  | constant number =>
    have none_there : text.count 'x' = 0 :=
      List.count_eq_zero.mpr fun mem => (Coefficient.number number).ne_variable _ mem rfl
    rw [none_there]
    decide
  | monomial coefficient power =>
    rename_i front back _ _
    have none_front : front.count 'x' = 0 :=
      List.count_eq_zero.mpr fun mem => coefficient.ne_variable _ mem rfl
    have none_back : back.count 'x' = 0 :=
      List.count_eq_zero.mpr fun mem => ne_variable_of_isDigit (power.isDigit _ mem) rfl
    rw [List.count_append, List.count_cons_self, none_front, none_back]

end Body

theorem Signed.atBoundary {text : List Char} {ts : List Term} (signed : Signed text ts) :
    AtBoundary text := by
  cases signed with
  | nil => exact atBoundary_nil
  | cons sign _ _ => exact atBoundary_sign sign _

theorem Expression.nonempty {text : List Char} {ts : List Term}
    (expression : Expression text ts) : text ≠ [] := by
  cases expression with
  | signed _ _ _ => simp
  | unsigned first _ => simp [first.isBody.nonempty]

/-- An expression that starts with a sign has a sign before every term. -/
theorem Expression.signed_of_atBoundary {text : List Char} {ts : List Term}
    (expression : Expression text ts) (boundary : AtBoundary text) : Signed text ts := by
  cases expression with
  | signed sign first others => exact .cons sign first others
  | unsigned first others =>
    obtain ⟨nonempty, noSign⟩ := first.isBody
    obtain ⟨c, body, rfl⟩ := List.exists_cons_of_ne_nil nonempty
    have sign : isBodyChar c = false := boundary c rfl
    rw [noSign c List.mem_cons_self] at sign
    cases sign

/-! ### Plain texts -/

/-- What every expression looks like: a small alphabet, no two signs side by side, none at the end,
and at most one variable in a stretch without signs. -/
structure Plain (text : List Char) : Prop where
  alphabet : ∀ c ∈ text, InAlphabet c
  spaced : text.IsChain fun a b => isBodyChar a = true ∨ isBodyChar b = true
  ends : ∀ c ∈ text.getLast?, isBodyChar c = true
  one_variable : ∀ stretch, stretch <:+: text → (∀ c ∈ stretch, isBodyChar c = true) →
    stretch.count 'x' ≤ 1

/-- A stretch without signs lies on one side of a boundary. -/
theorem infix_of_atBoundary {stretch front back : List Char}
    (stretches : stretch <:+: front ++ back) (boundary : AtBoundary back)
    (noSign : ∀ c ∈ stretch, isBodyChar c = true) :
    stretch <:+: front ∨ stretch <:+: back := by
  obtain ⟨before, after, eq⟩ := stretches
  rcases List.append_eq_append_iff.mp eq with ⟨gap, rfl, _⟩ | ⟨overlap, left, rfl⟩
  · exact Or.inl ⟨before, gap, rfl⟩
  · rcases List.append_eq_append_iff.mp left with ⟨part, rfl, rfl⟩ | ⟨gap, rfl, rfl⟩
    · cases overlap with
      | nil => exact Or.inl ⟨before, [], by simp⟩
      | cons c overlap =>
        have sign : isBodyChar c = false := boundary c rfl
        rw [noSign c (by simp)] at sign
        cases sign
    · exact Or.inr ⟨gap, after, rfl⟩

namespace Plain

theorem nil : Plain [] := by
  refine ⟨by simp, .nil, by simp, ?_⟩
  intro stretch stretches _
  rw [List.infix_nil.mp stretches]
  decide

theorem append {front back : List Char} (hf : Plain front) (hb : Plain back)
    (boundary : AtBoundary back) : Plain (front ++ back) where
  alphabet c mem := (List.mem_append.mp mem).elim (hf.alphabet c) (hb.alphabet c)
  spaced := List.isChain_append.mpr
    ⟨hf.spaced, hb.spaced, fun a last _ _ => Or.inl (hf.ends a last)⟩
  ends c last := by
    rw [List.getLast?_append, Option.mem_def, Option.or_eq_some_iff] at last
    exact last.elim (hb.ends c) fun ⟨_, last⟩ => hf.ends c last
  one_variable stretch stretches noSign :=
    (infix_of_atBoundary stretches boundary noSign).elim
      (fun stretches => hf.one_variable stretch stretches noSign)
      fun stretches => hb.one_variable stretch stretches noSign

/-- A sign may stand before a term. -/
theorem cons_sign {text : List Char} (plain : Plain text) (s : Sign) {c : Char}
    (starts : text.head? = some c) (body : isBodyChar c = true) : Plain (s.toChar :: text) where
  alphabet d mem := (List.mem_cons.mp mem).elim (fun eq => Or.inr (Or.inr (Or.inr ⟨s, eq⟩)))
    (plain.alphabet d)
  spaced := List.isChain_cons.mpr
    ⟨fun d head => Or.inr (by rw [starts] at head; cases head; exact body), plain.spaced⟩
  ends d last := by
    obtain ⟨rest, rfl⟩ := List.head?_eq_some_iff.mp starts
    exact plain.ends d (by rwa [List.getLast?_cons_cons] at last)
  one_variable stretch stretches noSign := by
    rcases List.infix_cons_iff.mp stretches with starts_here | stretches
    · cases stretch with
      | nil => decide
      | cons d stretch =>
        have sign := noSign d List.mem_cons_self
        obtain ⟨rfl, _⟩ := List.cons_prefix_cons.mp starts_here
        rw [s.isBodyChar_toChar] at sign
        cases sign
    · exact plain.one_variable stretch stretches noSign

end Plain

theorem Body.plain {text : List Char} {t : Term} (body : Body text t) : Plain text where
  alphabet c mem := (body.characters c mem).imp_right fun other => other.imp_right Or.inl
  spaced := by
    have noSign := body.isBody.noSign
    exact (List.pairwise_of_forall_mem_list fun a mem _ _ => Or.inl (noSign a mem)).isChain
  ends c last := body.isBody.noSign c (List.mem_of_getLast? last)
  one_variable stretch stretches _ :=
    Nat.le_trans (stretches.sublist.count_le 'x') body.count_variable_le

theorem Signed.plain {text : List Char} {ts : List Term} (signed : Signed text ts) :
    Plain text := by
  induction signed with
  | nil => exact Plain.nil
  | cons sign first others ih =>
    obtain ⟨nonempty, noSign⟩ := first.isBody
    obtain ⟨c, body, rfl⟩ := List.exists_cons_of_ne_nil nonempty
    exact (first.plain.append ih others.atBoundary).cons_sign sign rfl (noSign c List.mem_cons_self)

/-- **Expressions are plain.** -/
theorem Expression.plain {text : List Char} {ts : List Term} (expression : Expression text ts) :
    Plain text := by
  cases expression with
  | signed sign first others => exact (Signed.cons sign first others).plain
  | unsigned first others => exact first.plain.append others.plain others.atBoundary

end Grammar

end SparsePoly
