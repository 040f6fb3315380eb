import SparsePoly.Proofs.Incremental
import SparsePoly.Proofs.NormalForm

/-!
# Texts of opposite polynomials

Exchange all plus and minus signs in a text, and it denotes the opposite polynomial.  The sign that
may be missing at the front counts as a plus, so that it has to be written before the exchange, and
is not to be written after it where a text in normal form is wanted.

The exchange does nothing to the body of a term, and turns a row of signed terms into the row of the
opposite terms (`Grammar.Signed.exchange`, `Grammar.NormalRow.exchange`).  It is its own inverse, so
that a text that is refused stays one.  What the opposite terms are collected to is the opposite of
what the terms are collected to, where they cancel, round or overflow as well
(`Poly.collect_map_neg`).

## Main definitions

* `Grammar.exchange` - exchanges the characters of the signs
* `Grammar.flipSigns` - the text with a sign in front and all signs exchanged
* `Grammar.dropPlus` - the text without a plus in front

## Main statements

* `Grammar.expression_flipSigns_iff` - flipped texts are expressions for the opposite terms
* `Poly.parse_flipSigns_eq_ok_iff` - they are read as the opposite polynomial
* `Poly.render_neg` - the text of the negative is a flipped one
* `Poly.texts_of_opposites` - both
-/

namespace SparsePoly

namespace Sign

/-- The other sign. -/
def opposite : Sign → Sign
  | plus => minus
  | minus => plus

@[simp] theorem opposite_opposite (s : Sign) : s.opposite.opposite = s := by
  cases s <;> rfl

theorem signed_opposite (s : Sign) (t : Term) : s.opposite.signed t = (s.signed t).neg := by
  cases s with
  | plus => rfl
  | minus => exact (Term.neg_neg t).symm

end Sign

namespace Grammar

/-! ### The exchange of signs -/

/-- Exchanges the two characters of signs, and keeps all others. -/
def exchange (c : Char) : Char := if c = '+' then '-' else if c = '-' then '+' else c

/-- The text with a plus in front if it starts with no sign. -/
def withFirstSign : List Char → List Char
  | [] => ['+']
  | c :: text => if isBodyChar c then '+' :: c :: text else c :: text

/-- **Flips the signs of a text**, that of the first term too if it is missing. -/
def flipSigns (text : List Char) : List Char := (withFirstSign text).map exchange

/-- The text without a plus in front. -/
def dropPlus : List Char → List Char
  | [] => []
  | c :: text => if c = '+' then text else c :: text

@[simp] theorem exchange_toChar (s : Sign) : exchange s.toChar = s.opposite.toChar := by
  cases s <;> rfl

theorem exchange_of_isBodyChar {c : Char} (body : isBodyChar c = true) : exchange c = c := by
  have no_sign (s : Sign) : c ≠ s.toChar := by
    rintro rfl
    rw [s.isBodyChar_toChar] at body
    cases body
  have no_plus : c ≠ '+' := no_sign .plus
  have no_minus : c ≠ '-' := no_sign .minus
  rw [exchange, if_neg no_plus, if_neg no_minus]

/-- A character is a sign or one of a body. -/
theorem exists_sign_or_isBodyChar (c : Char) :
    (∃ s : Sign, c = s.toChar) ∨ isBodyChar c = true := by
  rw [← isBodyChar_eq_false_iff]
  exact (Bool.eq_false_or_eq_true (isBodyChar c)).symm

theorem exchange_exchange (c : Char) : exchange (exchange c) = c := by
  rcases exists_sign_or_isBodyChar c with ⟨s, rfl⟩ | body
  · rw [exchange_toChar, exchange_toChar, Sign.opposite_opposite]
  · rw [exchange_of_isBodyChar body, exchange_of_isBodyChar body]

theorem map_exchange_exchange (text : List Char) : (text.map exchange).map exchange = text := by
  rw [List.map_map, show exchange ∘ exchange = id from funext exchange_exchange, List.map_id]

theorem isBlank_exchange (c : Char) : Text.isBlank (exchange c) = Text.isBlank c := by
  rcases exists_sign_or_isBodyChar c with ⟨s, rfl⟩ | body
  · rw [exchange_toChar, Sign.isBlank_toChar, Sign.isBlank_toChar]
  · rw [exchange_of_isBodyChar body]

/-- **A body has no signs to exchange.** -/
theorem map_exchange_of_isBody {body : List Char} (isBody : IsBody body) :
    body.map exchange = body :=
  (List.map_congr_left fun c mem => exchange_of_isBodyChar (isBody.noSign c mem)).trans
    (List.map_id body)

/-- The exchange of a signed body, with what stands behind it. -/
theorem map_exchange_signed (s : Sign) {body : List Char} (isBody : IsBody body)
    (rest : List Char) : (s.toChar :: (body ++ rest)).map exchange =
      s.opposite.toChar :: (body ++ rest.map exchange) := by
  rw [List.map_cons, exchange_toChar, List.map_append, map_exchange_of_isBody isBody]

/-- A text with a first sign starts with one. -/
theorem exists_withFirstSign (text : List Char) :
    ∃ (s : Sign) (back : List Char), withFirstSign text = s.toChar :: back := by
  cases text with
  | nil => exact ⟨.plus, [], rfl⟩
  | cons c text =>
    rw [withFirstSign]
    split
    · exact ⟨.plus, _, rfl⟩
    · rename_i no_body
      obtain ⟨s, rfl⟩ := (exists_sign_or_isBodyChar c).resolve_right no_body
      exact ⟨s, text, rfl⟩

theorem exists_flipSigns (text : List Char) :
    ∃ (s : Sign) (back : List Char), flipSigns text = s.toChar :: back := by
  obtain ⟨s, back, eq⟩ := exists_withFirstSign text
  rw [flipSigns, eq, List.map_cons, exchange_toChar]
  exact ⟨s.opposite, _, rfl⟩

theorem withFirstSign_of_sign (s : Sign) (text : List Char) :
    withFirstSign (s.toChar :: text) = s.toChar :: text := by
  rw [withFirstSign, s.isBodyChar_toChar, if_neg Bool.false_ne_true]

theorem withFirstSign_of_isBody {body : List Char} (isBody : IsBody body) (rest : List Char) :
    withFirstSign (body ++ rest) = '+' :: (body ++ rest) := by
  obtain ⟨nonempty, noSign⟩ := isBody
  obtain ⟨c, back, rfl⟩ := List.exists_cons_of_ne_nil nonempty
  rw [List.cons_append, withFirstSign, if_pos (noSign c List.mem_cons_self)]

theorem flipSigns_signed (s : Sign) {body : List Char} (isBody : IsBody body)
    (rest : List Char) :
    flipSigns (s.toChar :: (body ++ rest)) = s.opposite.toChar :: (body ++ rest.map exchange) := by
  rw [flipSigns, withFirstSign_of_sign, map_exchange_signed s isBody]

theorem flipSigns_unsigned {body : List Char} (isBody : IsBody body) (rest : List Char) :
    flipSigns (body ++ rest) = '-' :: (body ++ rest.map exchange) := by
  rw [flipSigns, withFirstSign_of_isBody isBody]
  exact map_exchange_signed .plus isBody rest

/-! ### Flipped expressions -/

/-- **A row of signed terms** becomes the row of the opposite terms. -/
theorem Signed.exchange {text : List Char} {ts : List Term} (signed : Signed text ts) :
    Signed (text.map exchange) (ts.map Term.neg) := by
  induction signed with
  | nil => exact .nil
  | cons sign first _ ih =>
    rw [map_exchange_signed sign first.isBody, List.map_cons, ← Sign.signed_opposite]
    exact .cons sign.opposite first ih

theorem map_neg_neg (ts : List Term) : (ts.map Term.neg).map Term.neg = ts := by
  rw [List.map_map, show Term.neg ∘ Term.neg = id from funext Term.neg_neg, List.map_id]

theorem signed_exchange_iff {text : List Char} {ts : List Term} :
    Signed (text.map Grammar.exchange) (ts.map Term.neg) ↔ Signed text ts := by
  constructor
  · intro signed
    have back := signed.exchange
    rwa [map_exchange_exchange, map_neg_neg] at back
  · exact Signed.exchange

/-- What stands behind the first sign of a row. -/
theorem Signed.exists_of_sign {s : Sign} {text : List Char} {ts : List Term}
    (signed : Signed (s.toChar :: text) ts) :
    ∃ body rest t us, text = body ++ rest ∧ Body body t ∧ Signed rest us ∧
      ts = s.signed t :: us := by
  generalize whole : s.toChar :: text = front at signed
  cases signed with
  | nil => cases whole
  | cons sign first others =>
    obtain ⟨char, rfl⟩ := List.cons.inj whole
    have read := congrArg Sign.ofChar? char
    rw [Sign.ofChar?_toChar, Sign.ofChar?_toChar] at read
    obtain rfl : s = sign := Option.some.inj read
    exact ⟨_, _, _, _, rfl, first, others, rfl⟩

/-- **An expression is a row of signed terms**, once its first sign is there. -/
theorem expression_iff_signed {text : List Char} {ts : List Term} :
    Expression text ts ↔ Signed (withFirstSign text) ts := by
  constructor
  · intro expression
    cases expression with
    | signed sign first others =>
      rw [withFirstSign_of_sign]
      exact .cons sign first others
    | unsigned first others =>
      rw [withFirstSign_of_isBody first.isBody]
      exact .cons .plus first others
  · intro signed
    cases text with
    | nil =>
      -- There is no body behind the plus that stands for the empty text.
      obtain ⟨body, rest, t, us, nothing, first, _⟩ := @Signed.exists_of_sign .plus [] ts signed
      exact absurd (List.append_eq_nil_iff.mp nothing.symm).1 first.isBody.nonempty
    | cons c text =>
      rw [withFirstSign] at signed
      split at signed
      · obtain ⟨body, rest, t, us, whole, first, others, rfl⟩ :=
          @Signed.exists_of_sign .plus (c :: text) ts signed
        rw [whole]
        exact .unsigned first others
      · rename_i no_body
        obtain ⟨s, rfl⟩ := (exists_sign_or_isBodyChar c).resolve_right no_body
        obtain ⟨body, rest, t, us, rfl, first, others, rfl⟩ := signed.exists_of_sign
        exact .signed s first others

/-- **Flipped texts are expressions for the opposite terms**, and no others are. -/
theorem expression_flipSigns_iff {text : List Char} {ts : List Term} :
    Expression (flipSigns text) (ts.map Term.neg) ↔ Expression text ts := by
  obtain ⟨s, back, eq⟩ := exists_flipSigns text
  rw [expression_iff_signed, expression_iff_signed, eq, withFirstSign_of_sign, ← eq, flipSigns,
    signed_exchange_iff]

/-! ### Flipped normal texts -/

theorem NormalBody.isBody {text : List Char} {t : Term} (body : NormalBody text t) :
    IsBody text := by
  obtain ⟨e, m, _, _, rfl⟩ := normalBody_iff.mp body
  exact (Term.body_pieces e m).isBody

theorem NormalRow.exchange {text : List Char} {ts : List Term} (row : NormalRow text ts) :
    NormalRow (text.map exchange) (ts.map Term.neg) := by
  induction row with
  | nil => exact .nil
  | cons sign first _ ih =>
    rw [map_exchange_signed sign first.isBody, List.map_cons, ← Sign.signed_opposite]
    exact .cons sign.opposite first ih

theorem ascending_map_neg {ts : List Term} (ascending : ts.Pairwise (·.exponent < ·.exponent)) :
    (ts.map Term.neg).Pairwise (·.exponent < ·.exponent) :=
  List.pairwise_map.mpr ascending

/-- **A flipped normal text is normal**, without a plus in front.  There is nothing to flip in that
of zero. -/
theorem Normal.flipSigns {text : List Char} {ts : List Term} (normal : Normal text ts)
    (nonzero : ts ≠ []) : Normal (dropPlus (flipSigns text)) (ts.map Term.neg) := by
  cases normal with
  | zero => exact absurd rfl nonzero
  | positive first others ascending =>
    rw [flipSigns_unsigned first.isBody]
    exact .negative first others.exchange (ascending_map_neg ascending)
  | negative first others ascending =>
    have ascending' := ascending_map_neg ascending
    have flipped := flipSigns_signed .minus first.isBody
    rw [List.map_cons, ← Sign.signed_opposite] at ascending' ⊢
    rw [show '-' = Sign.minus.toChar from rfl, flipped]
    exact .positive first others.exchange ascending'

end Grammar

open Grammar

namespace Text

/-- A trimmed text has no blank at its end. -/
theorem getLast?_trim (text : List Char) : ∀ c ∈ (trim text).getLast?, isBlank c = false := by
  intro c last
  rw [trim, List.getLast?_reverse] at last
  have head := List.head?_dropWhile_not isBlank (trimStart text).reverse
  rw [← trimStart, Option.mem_def.mp last] at head
  exact head

/-- Flipping puts no blanks at the ends of a trimmed text. -/
theorem trim_flipSigns_trim (text : List Char) :
    trim (flipSigns (trim text)) = flipSigns (trim text) := by
  refine trim_eq_self ?_ ?_
  · obtain ⟨s, back, eq⟩ := exists_flipSigns (trim text)
    rw [eq]
    rintro c ⟨⟩
    exact s.isBlank_toChar
  · have ends : ∀ c ∈ (withFirstSign (trim text)).getLast?, isBlank c = false := by
      have last := getLast?_trim text
      generalize trim text = trimmed at last
      cases trimmed with
      | nil =>
        rintro c ⟨⟩
        rfl
      | cons c rest =>
        rw [withFirstSign]
        split
        · rwa [List.getLast?_cons_cons]
        · exact last
    intro c last
    rw [flipSigns, List.getLast?_map] at last
    obtain ⟨d, d_last, rfl⟩ := Option.map_eq_some_iff.mp last
    rw [isBlank_exchange]
    exact ends d d_last

end Text

namespace Poly

/-! ### Opposite polynomials -/

/-- **The opposite terms** are collected to the opposite polynomial. -/
theorem collect_map_neg (ts : List Term) : collect (ts.map Term.neg) = -collect ts := by
  induction ts using List.reverseRecOn with
  | nil => rfl
  | append_singleton ts t ih =>
    rw [List.map_append, List.map_singleton, collect_concat, ih, collect_neg, collect_concat,
      Poly.neg_add]

/-- **A flipped text is read as the opposite polynomial**, and is refused if the text is. -/
theorem parse_flipSigns_eq_ok_iff {text : List Char} {p : Poly} :
    parse (flipSigns (Text.trim text)) = .ok (-p) ↔ parse text = .ok p := by
  rw [parse_eq_ok_iff, parse_eq_ok_iff, Text.trim_flipSigns_trim]
  constructor
  · rintro ⟨us, expression, opposite⟩
    rw [← map_neg_neg us, expression_flipSigns_iff] at expression
    refine ⟨_, expression, ?_⟩
    rw [collect_map_neg, opposite, Poly.neg_neg]
  · rintro ⟨ts, expression, rfl⟩
    exact ⟨_, expression_flipSigns_iff.mpr expression, collect_map_neg ts⟩

/-- **The text of the negative** is the flipped text. -/
theorem render_neg {p : Poly} (nonzero : p ≠ 0)
    (finite : ∀ t ∈ p.terms, t.coeff.isFinite = true) :
    (-p).render = dropPlus (flipSigns p.render) := by
  have terms_there : p.terms ≠ [] := fun empty => nonzero (ext empty)
  obtain ⟨q, terms, _, text⟩ := exists_of_normal ((normal_render finite).flipSigns terms_there)
  rw [← text, show q = -p from ext terms]

/-- **Flipping the signs of a text is negation.**  A text is read as a polynomial exactly if the
flipped text, of what is left when it is trimmed, is read as the negative, whatever its terms add up
to.  And the negative of a polynomial other than zero, with finite coefficients, is written as the
flipped text, without a plus in front. -/
theorem texts_of_opposites :
    (∀ text p, parse text = .ok p ↔ parse (flipSigns (Text.trim text)) = .ok (-p)) ∧
    ∀ p : Poly, p ≠ 0 → (∀ t ∈ p.terms, t.coeff.isFinite = true) →
      (-p).render = dropPlus (flipSigns p.render) :=
  ⟨fun _ _ => parse_flipSigns_eq_ok_iff.symm, fun _ => render_neg⟩

/-- The difference of the variable and its square. -/
def lineMinusSquare : Poly :=
  ⟨[⟨1, 1⟩, ⟨2, -1⟩], by simp [Terms.canonical_cons, Terms.canonical_nil]⟩

theorem render_lineMinusSquare : lineMinusSquare.render = ['x', '-', 'x', '2'] := by
  decide +kernel

/-- Its text, flipped, with blanks around it and without. -/
theorem texts_of_opposites_of_lineMinusSquare :
    parse [' ', 'x', '-', 'x', '2', ' '] = .ok lineMinusSquare ∧
      parse ['-', 'x', '+', 'x', '2'] = .ok (-lineMinusSquare) ∧
      (-lineMinusSquare).render = ['-', 'x', '+', 'x', '2'] := by
  obtain ⟨reads, writes⟩ := texts_of_opposites
  have finite : ∀ t ∈ lineMinusSquare.terms, t.coeff.isFinite = true := by decide
  have read := parse_render_of_finite finite
  rw [render_lineMinusSquare] at read
  have padded : parse [' ', 'x', '-', 'x', '2', ' '] = .ok lineMinusSquare := read
  refine ⟨padded, (reads _ _).mp padded, ?_⟩
  rw [writes lineMinusSquare nofun finite, render_lineMinusSquare]
  rfl

end Poly

end SparsePoly
