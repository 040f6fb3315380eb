import SparsePoly.Proofs.AdditiveLaws
import SparsePoly.Proofs.ExplicitTerms
import SparsePoly.Proofs.Monomials
import SparsePoly.Proofs.RunningSums

/-!
# Building term by term

Explicit terms and the terms of a text are collected in a tree, all at once, and zeros are left out
at the end.  A polynomial can also be built from them by additions, one monomial at a time, where
every sum leaves out its zeros at once.  Both come to the same, to the last bit.

The simulation is the equation `collect (ts ++ [t]) = collect ts + collect [t]`, whatever has been
collected before (`Poly.collect_concat`): a tree keeps an exponent whose sum has cancelled, and a
polynomial does not have it, but the next coefficient there is added to `0` in both.

For texts this means that one more term may be written or added.  A text is trimmed at its ends and
may not have blanks inside, so this holds only where no blank comes to stand between the texts.

## Main statements

* `Poly.foldlM_addMonomial` - the run: monomials added to what has been collected
* `Text.trim_append_cons` - the ends of texts that are joined
* `Poly.parse_joined`, `Poly.parse_joined_of_not_joins` - a text with one more term
* `Poly.batch_eq_incremental` - all of it
-/

namespace SparsePoly

open Grammar

/-! ### Joined texts -/

namespace Text

/-- A text without the blanks at its end. -/
def trimEnd (text : List Char) : List Char := (trimStart text.reverse).reverse

/-- No blank stands where something is put between the texts. -/
def Joins (front back : List Char) : Prop :=
  (∀ c ∈ front.getLast?, isBlank c = false) ∧ ∀ c ∈ back.head?, isBlank c = false

section Visible

variable {c : Char} (visible : isBlank c = false)

include visible

theorem trimStart_cons (back : List Char) : trimStart (c :: back) = c :: back := by
  rw [trimStart, List.dropWhile_cons, visible]
  rfl

theorem trimStart_append_cons (front back : List Char) :
    trimStart (front ++ c :: back) = trimStart front ++ c :: back := by
  induction front with
  | nil => exact trimStart_cons visible back
  | cons d front ih =>
    rw [trimStart, trimStart, List.cons_append, List.dropWhile_cons, List.dropWhile_cons]
    split
    · exact ih
    · rfl

theorem trimEnd_append_cons (front back : List Char) :
    trimEnd (front ++ c :: back) = front ++ c :: trimEnd back := by
  have turned : (front ++ c :: back).reverse = back.reverse ++ c :: front.reverse := by simp
  rw [trimEnd, turned, trimStart_append_cons visible]
  simp [trimEnd]

/-- **What is trimmed of joined texts** is the front of the first and the end of the second, as long
as something visible stands between them. -/
theorem trim_append_cons (front back : List Char) :
    trim (front ++ c :: back) = trimStart front ++ c :: trimEnd back := by
  rw [trim, ← trimEnd, trimStart_append_cons visible, trimEnd_append_cons visible]

end Visible

theorem trimStart_of_visible_last {text : List Char}
    (last : ∀ c ∈ text.getLast?, isBlank c = false) : trimStart text = trim text := by
  rcases List.eq_nil_or_concat' text with rfl | ⟨front, c, rfl⟩
  · rfl
  · have visible : isBlank c = false := last c (by simp)
    rw [trim_append_cons visible, trimStart_append_cons visible]
    rfl

theorem trimEnd_of_visible_head {text : List Char}
    (head : ∀ c ∈ text.head?, isBlank c = false) : trimEnd text = trim text := by
  cases text with
  | nil => rfl
  | cons c back =>
    have visible : isBlank c = false := head c rfl
    rw [trim, ← trimEnd, trimStart_cons visible]

theorem mem_of_mem_trim {text : List Char} {c : Char} (mem : c ∈ trim text) : c ∈ text := by
  have inner := List.mem_reverse.mp ((List.dropWhile_sublist _).mem (List.mem_reverse.mp mem))
  exact (List.dropWhile_sublist _).mem inner

/-- **A blank between texts stays** when they are joined and trimmed, if both have something visible
in them. -/
theorem exists_blank_of_not_joins {front back : List Char} {v w c : Char}
    (v_mem : v ∈ front) (v_visible : isBlank v = false)
    (w_mem : w ∈ back) (w_visible : isBlank w = false) (c_visible : isBlank c = false)
    (apart : ¬Joins front back) : ∃ b ∈ trim (front ++ c :: back), isBlank b = true := by
  rw [trim_append_cons c_visible]
  -- Trimming goes no further than `v` from the front and `w` from the end; the blank lies between.
  rcases not_and_or.mp apart with ends | starts
  · obtain ⟨b, b_last, blank⟩ : ∃ b ∈ front.getLast?, isBlank b = true := by simpa using ends
    obtain ⟨before, after, rfl⟩ := List.append_of_mem v_mem
    rw [trimStart_append_cons v_visible]
    rw [List.getLast?_append_cons] at b_last
    have b_mem := List.mem_append_right (trimStart before) (List.mem_of_getLast? b_last)
    exact ⟨b, List.mem_append_left _ b_mem, blank⟩
  · obtain ⟨b, b_head, blank⟩ : ∃ b ∈ back.head?, isBlank b = true := by simpa using starts
    obtain ⟨before, after, rfl⟩ := List.append_of_mem w_mem
    rw [trimEnd_append_cons w_visible]
    cases before with
    | nil =>
      cases b_head
      cases blank.symm.trans w_visible
    | cons d before =>
      obtain rfl : d = b := Option.some.inj b_head
      exact ⟨d, by simp, blank⟩

end Text

/-! ### One more term in a text -/

/-- Signs are visible. -/
theorem Sign.isBlank_toChar (s : Sign) : Text.isBlank s.toChar = false := by
  cases s <;> rfl

namespace Grammar

/-- A signed term may be written behind a row. -/
theorem Signed.concat {text body : List Char} {ts : List Term} {t : Term}
    (signed : Signed text ts) (sign : Sign) (last : Body body t) :
    Signed (text ++ sign.toChar :: body) (ts ++ [sign.signed t]) := by
  induction signed with
  | nil =>
    have single := Signed.cons sign last .nil
    rwa [List.append_nil] at single
  | cons first_sign first _ ih =>
    rw [List.cons_append, List.append_assoc]
    exact .cons first_sign first ih

theorem Expression.concat {text body : List Char} {ts : List Term} {t : Term}
    (expression : Expression text ts) (sign : Sign) (last : Body body t) :
    Expression (text ++ sign.toChar :: body) (ts ++ [sign.signed t]) := by
  cases expression with
  | signed first_sign first others =>
    rw [List.cons_append, List.append_assoc]
    exact .signed first_sign first (others.concat sign last)
  | unsigned first others =>
    rw [List.append_assoc]
    exact .unsigned first (others.concat sign last)

/-- An expression without a sign is a single term. -/
theorem Expression.body_of_noSign {text : List Char} {ts : List Term}
    (expression : Expression text ts) (noSign : ∀ c ∈ text, isBodyChar c = true) :
    ∃ t, Body text t ∧ ts = [t] := by
  have absurd_sign (sign : Sign) : sign.toChar ∉ text := fun mem => by
    have body := noSign _ mem
    rw [sign.isBodyChar_toChar] at body
    cases body
  cases expression with
  | signed sign first others => exact absurd List.mem_cons_self (absurd_sign sign)
  | unsigned first others =>
    cases others with
    | nil =>
      rw [List.append_nil]
      exact ⟨_, first, rfl⟩
    | cons sign _ _ =>
      exact absurd (List.mem_append_right _ List.mem_cons_self) (absurd_sign sign)

end Grammar

namespace Poly

/-! ### One more term of a polynomial -/

theorem coeff_collect_singleton (t : Term) (n : UInt32) :
    (collect [t]).coeff n = if t.exponent = n then 0 + t.coeff else 0 := by
  rw [coeff_collect_eq_sumAt]
  exact Terms.sumAt_append_singleton [] t n

/-- **A step of collecting is an addition.** -/
theorem collect_concat (ts : List Term) (t : Term) :
    collect (ts ++ [t]) = collect ts + collect [t] := by
  apply ext_coeff
  intro n
  have ne := Terms.sumAt_ne_minus_zero ts n
  rw [coeff_add, coeff_collect_singleton, coeff_collect_eq_sumAt, coeff_collect_eq_sumAt,
    Terms.sumAt_append_singleton]
  split
  · -- The term alone is added to `0` first, which matters for `-0` only.
    have sum := Binary64.zero_add_add_zero_add (Terms.sumAt ts n) t.coeff
    have sum_ne := Binary64.add_ne_minus_zero ne t.coeff
    rw [Binary64.zero_add_of_ne ne, Binary64.zero_add_of_ne sum_ne] at sum
    exact sum.symm
  · exact (Binary64.add_zero_of_ne ne).symm

/-- The other sign on a term is the other sign on what it is collected to. -/
theorem collect_neg (t : Term) : collect [t.neg] = -collect [t] := by
  apply ext_coeff
  intro n
  rw [coeff_neg, coeff_collect_singleton, coeff_collect_singleton]
  show (if t.exponent = n then 0 + -t.coeff else 0) = _
  split
  · rw [Binary64.zero_add_neg_add]
    exact congrArg (0 + ·) (Binary64.minus_zero_add _).symm
  · rfl

/-- **A monomial** is what its one term is collected to. -/
theorem monomial_eq_collect {t : Term} (finite : t.coeff.isFinite = true) :
    monomial t.coeff t.exponent = .ok (collect [t]) := by
  cases zero : t.coeff.isZero with
  | true =>
    rw [monomial_of_zero finite zero]
    refine congrArg _ (ext_coeff fun n => ?_)
    rw [coeff_collect_singleton, Binary64.zero_add_of_isZero zero, ite_self]
    rfl
  | false =>
    rw [monomial_of_nonzero finite zero]
    exact congrArg _ (collect_terms (single t.exponent t.coeff zero)).symm

/-! ### Term by term -/

/-- **Adds the monomial** of an exponent and a coefficient. -/
def addMonomial (p : Poly) (pair : Int × Binary64) : Except DomainError Poly :=
  (monomial pair.2 (UInt32.ofNat pair.1.toNat)).map (p + ·)

theorem addMonomial_pair {t : Term} (finite : t.coeff.isFinite = true) (ts : List Term) :
    addMonomial (collect ts) t.pair = .ok (collect (ts ++ [t])) := by
  have exponent : UInt32.ofNat t.pair.1.toNat = t.exponent := UInt32.ofNat_toNat
  rw [addMonomial, exponent, collect_concat]
  exact congrArg (Except.map (collect ts + ·)) (monomial_eq_collect finite)

/-- **Monomials added one after another** to what has been collected come to what all terms are
collected to. -/
theorem foldlM_addMonomial {ts : List Term} (finite : ∀ t ∈ ts, t.coeff.isFinite = true)
    (front : List Term) :
    (ts.map Term.pair).foldlM addMonomial (collect front) = .ok (collect (front ++ ts)) := by
  induction ts generalizing front with
  | nil =>
    rw [List.append_nil]
    rfl
  | cons t ts ih =>
    obtain ⟨t_finite, ts_finite⟩ := List.forall_mem_cons.mp finite
    rw [List.map_cons, List.foldlM_cons, addMonomial_pair t_finite, List.append_cons front t ts]
    exact ih ts_finite (front ++ [t])

/-- **Explicit terms may be added one by one.** -/
theorem addMonomials_of_ofTerms {pairs : List (Int × Binary64)} {p : Poly}
    (built : ofTerms pairs = .ok p) : pairs.foldlM addMonomial 0 = .ok p := by
  obtain ⟨ts, rfl, finite, rfl⟩ := ofTerms_eq_ok_iff.mp built
  rw [← collect_nil]
  exact foldlM_addMonomial finite []

/-- **The terms of a text**, one for each token, are explicit terms. -/
theorem exists_ofTerms_of_parse {text : List Char} {p : Poly} (read : parse text = .ok p) :
    ∃ (tokens : List Token) (ts : List Term), Token.scan (Text.trim text) = tokens.map .ok ∧
      tokens.mapM Token.term = .ok ts ∧ ofTerms (ts.map Term.pair) = .ok p := by
  obtain ⟨ts, expression, rfl⟩ := parse_eq_ok_iff.mp read
  have terms := (readTerms_eq_ok_iff expression.nonempty).mpr expression
  obtain ⟨tokens, scanned, made⟩ := mapM_bind_eq_ok_iff.mp terms
  exact ⟨tokens, ts, scanned, made, ofTerms_eq_ok_iff.mpr ⟨ts, rfl, expression.isFinite, rfl⟩⟩

/-! ### One more term, written or added -/

/-- A text that is read has something visible. -/
theorem exists_visible_of_parse {text : List Char} {p : Poly} (read : parse text = .ok p) :
    ∃ c ∈ text, Text.isBlank c = false := by
  obtain ⟨ts, expression, _⟩ := parse_eq_ok_iff.mp read
  obtain ⟨c, rest, trimmed⟩ := List.exists_cons_of_ne_nil expression.nonempty
  have mem : c ∈ Text.trim text := trimmed ▸ List.mem_cons_self
  exact ⟨c, Text.mem_of_mem_trim mem, (expression.plain.alphabet c mem).isBlank⟩

section Joined

variable {s m : List Char} {p q : Poly} (s_read : parse s = .ok p) (m_read : parse m = .ok q)

include s_read m_read

/-- **One more term in a text is one more summand**, if no blank comes to stand inside. -/
theorem parse_joined (noSign : ∀ c ∈ m, isBodyChar c = true) (joins : Text.Joins s m) :
    parse (s ++ '+' :: m) = .ok (p + q) ∧ parse (s ++ '-' :: m) = .ok (p - q) := by
  obtain ⟨ts, s_expression, rfl⟩ := parse_eq_ok_iff.mp s_read
  obtain ⟨us, m_expression, rfl⟩ := parse_eq_ok_iff.mp m_read
  obtain ⟨t, body, rfl⟩ :=
    m_expression.body_of_noSign fun c mem => noSign c (Text.mem_of_mem_trim mem)
  have joined (sign : Sign) :
      parse (s ++ sign.toChar :: m) = .ok (collect ts + collect [sign.signed t]) := by
    rw [← collect_concat]
    refine parse_eq_ok_iff.mpr ⟨_, ?_, rfl⟩
    rw [Text.trim_append_cons sign.isBlank_toChar, Text.trimStart_of_visible_last joins.1,
      Text.trimEnd_of_visible_head joins.2]
    exact s_expression.concat sign body
  refine ⟨joined .plus, ?_⟩
  rw [sub_eq_add_neg, ← collect_neg]
  exact joined .minus

/-- **Otherwise the text is refused** for a blank. -/
theorem parse_joined_of_not_joins (apart : ¬Text.Joins s m) (sign : Sign) :
    ∃ offset, parse (s ++ sign.toChar :: m) = .error (.blank offset) := by
  obtain ⟨v, v_mem, v_visible⟩ := exists_visible_of_parse s_read
  obtain ⟨w, w_mem, w_visible⟩ := exists_visible_of_parse m_read
  obtain ⟨b, b_mem, blank⟩ :=
    Text.exists_blank_of_not_joins v_mem v_visible w_mem w_visible sign.isBlank_toChar apart
  have nonempty := List.ne_nil_of_mem b_mem
  rw [parse, if_neg (by simpa using nonempty)]
  cases found : Text.firstBlank? (Text.trim (s ++ sign.toChar :: m)) with
  | some offset => exact ⟨offset, rfl⟩
  | none => cases blank.symm.trans (Text.firstBlank?_eq_none.mp found b b_mem)

end Joined

/-- **Polynomials may be built all at once or term by term.**  Explicit terms that are accepted give
what their monomials add up to, one after another and starting from zero.  A text that is read gives
what the terms of its tokens give, in text order.  So one more term may be written behind a text or
added to its polynomial, and with a minus subtracted; but only if no blank comes to stand inside the
text, since it is refused otherwise. -/
theorem batch_eq_incremental :
    (∀ pairs p, ofTerms pairs = .ok p → pairs.foldlM addMonomial 0 = .ok p) ∧
    (∀ text p, parse text = .ok p → ∃ (tokens : List Token) (ts : List Term),
      Token.scan (Text.trim text) = tokens.map .ok ∧ tokens.mapM Token.term = .ok ts ∧
        ofTerms (ts.map Term.pair) = .ok p ∧
        (ts.map Term.pair).foldlM addMonomial 0 = .ok p) ∧
    ∀ s m p q, parse s = .ok p → parse m = .ok q → (∀ c ∈ m, isBodyChar c = true) →
      (Text.Joins s m →
        parse (s ++ '+' :: m) = .ok (p + q) ∧ parse (s ++ '-' :: m) = .ok (p - q)) ∧
      (¬Text.Joins s m →
        (∃ offset, parse (s ++ '+' :: m) = .error (.blank offset)) ∧
          ∃ offset, parse (s ++ '-' :: m) = .error (.blank offset)) := by
  refine ⟨fun _ _ => addMonomials_of_ofTerms, fun text p read => ?_, ?_⟩
  · obtain ⟨tokens, ts, scanned, made, built⟩ := exists_ofTerms_of_parse read
    exact ⟨tokens, ts, scanned, made, built, addMonomials_of_ofTerms built⟩
  · intro s m p q s_read m_read noSign
    have refused := parse_joined_of_not_joins s_read m_read
    exact ⟨parse_joined s_read m_read noSign,
      fun apart => ⟨refused apart .plus, refused apart .minus⟩⟩

theorem parse_x : parse ['x'] = .ok x := by
  have read := parse_of_expression (.unsigned (.monomial .missing .missing) .nil)
  rwa [show collect [⟨1, 1⟩] = x from collect_terms x] at read

theorem noSign_x : ∀ c ∈ ['x'], isBodyChar c = true := List.forall_mem_singleton.mpr rfl

/-- The variable, written twice. -/
theorem parse_x_and_x :
    parse ['x', '+', 'x'] = .ok (x + x) ∧ parse ['x', '-', 'x'] = .ok (x - x) ∧
      ∃ offset, parse ['x', ' ', '+', 'x'] = .error (.blank offset) := by
  have padded : parse ['x', ' '] = .ok x := parse_x
  obtain ⟨_, _, joined⟩ := batch_eq_incremental
  obtain ⟨plus, minus⟩ :=
    (joined ['x'] ['x'] x x parse_x parse_x noSign_x).1 (by simp [Text.Joins]; decide)
  obtain ⟨refused, _⟩ :=
    (joined ['x', ' '] ['x'] x x padded parse_x noSign_x).2 (by simp [Text.Joins]; decide)
  exact ⟨plus, minus, refused⟩

/-- A blank at the end of a text is trimmed, but it is not when a term is written behind it. -/
theorem parse_x_blank_x :
    parse ['x', ' '] = .ok x ∧ parse ['x'] = .ok x ∧ (∀ c ∈ ['x'], isBodyChar c = true) ∧
      parse (['x', ' '] ++ '+' :: ['x']) = .error (.blank 1) ∧
      parse (['x', ' '] ++ '+' :: ['x']) ≠ .ok (x + x) := by
  have refused : parse (['x', ' '] ++ '+' :: ['x']) = .error (.blank 1) := rfl
  exact ⟨parse_x, parse_x, noSign_x, refused, by rw [refused]; nofun⟩

end Poly

end SparsePoly
