import SparsePoly.Expression.Token

/-!
# What one step of the tokenizer does

A cursor cuts its text by `takeWhile` and `dropWhile`.  `Cursor.Step` says the same without them,
by how the text is composed: a sign, perhaps missing, a body and what follows the body.  The three
answers of `Cursor.next?` - a token, the end, a stray sign - are each characterized exactly, so
that nothing about tokens needs to unfold it again.

## Main statements

* `Cursor.next?_eq_ok_iff`, `Cursor.next?_eq_none_iff`, `Cursor.next?_eq_error_iff` - the answers
* `Cursor.items_of_end`, `Cursor.items_of_error`, `Cursor.items_of_step` - the row of tokens, by the
  answer to the first request
-/

namespace SparsePoly

namespace Sign

@[simp] theorem isBodyChar_toChar (s : Sign) : isBodyChar s.toChar = false := by
  cases s <;> rfl

@[simp] theorem utf8Size_toChar (s : Sign) : s.toChar.utf8Size = 1 := by
  cases s <;> rfl

end Sign

theorem isBodyChar_eq_false_iff {c : Char} : isBodyChar c = false ↔ ∃ s : Sign, c = s.toChar := by
  rw [isBodyChar, Option.isNone_eq_false_iff, Option.isSome_iff_exists]
  simp only [Sign.ofChar?_eq_some_iff]

theorem ofChar?_eq_none_iff {c : Char} : Sign.ofChar? c = none ↔ isBodyChar c = true := by
  rw [isBodyChar, Option.isNone_iff_eq_none]

/-- The text of one term: not empty, and without signs. -/
structure IsBody (body : List Char) : Prop where
  nonempty : body ≠ []
  noSign : ∀ c ∈ body, isBodyChar c = true

/-- A text that ends here or goes on with a sign. -/
def AtBoundary (text : List Char) : Prop := ∀ c ∈ text.head?, isBodyChar c = false

theorem atBoundary_nil : AtBoundary [] := by
  intro c mem
  cases mem

theorem atBoundary_sign (s : Sign) (text : List Char) : AtBoundary (s.toChar :: text) := by
  intro c mem
  cases mem
  exact s.isBodyChar_toChar

theorem AtBoundary.of_append {front back : List Char} (boundary : AtBoundary (front ++ back)) :
    AtBoundary front := by
  intro c head
  obtain ⟨rest, rfl⟩ := List.head?_eq_some_iff.mp head
  exact boundary c rfl

theorem AtBoundary.append {front back : List Char} (hf : AtBoundary front) (hb : AtBoundary back) :
    AtBoundary (front ++ back) := by
  cases front with
  | nil => exact hb
  | cons first rest => exact hf

/-- A body before a boundary is what `takeWhile` takes, and the boundary what it leaves. -/
theorem IsBody.cut {body rest : List Char} (isBody : IsBody body) (boundary : AtBoundary rest) :
    (body ++ rest).takeWhile isBodyChar = body ∧ (body ++ rest).dropWhile isBodyChar = rest := by
  rw [List.takeWhile_append_of_pos isBody.noSign, List.dropWhile_append_of_pos isBody.noSign]
  cases rest with
  | nil => simp
  | cons c rest =>
    have stop : isBodyChar c = false := boundary c rfl
    simp [stop]

/-- At a boundary nothing is taken, and only there. -/
theorem atBoundary_iff {text : List Char} : AtBoundary text ↔ text.takeWhile isBodyChar = [] := by
  cases text with
  | nil => exact iff_of_true atBoundary_nil rfl
  | cons c text => cases body : isBodyChar c <;> simp [AtBoundary, body]

theorem atBoundary_dropWhile (text : List Char) : AtBoundary (text.dropWhile isBodyChar) := by
  intro c mem
  have head := List.head?_dropWhile_not isBodyChar text
  rw [Option.mem_def.mp mem] at head
  simpa using head

theorem isBody_takeWhile {text : List Char} (nonempty : text.takeWhile isBodyChar ≠ []) :
    IsBody (text.takeWhile isBodyChar) :=
  ⟨nonempty, fun c mem => by simpa using List.all_eq_true.mp List.all_takeWhile c mem⟩

namespace Cursor

/-- A sign, a body and a boundary; or a body and a boundary, whose token is positive. -/
inductive Step : Cursor → Token → Cursor → Prop
  | signed (sign : Sign) {body rest : List Char} (offset : Nat) (isBody : IsBody body)
      (boundary : AtBoundary rest) :
      Step ⟨sign.toChar :: (body ++ rest), offset⟩ ⟨sign, body, offset + 1⟩
        ⟨rest, offset + 1 + Text.byteLength body⟩
  | unsigned {body rest : List Char} (offset : Nat) (isBody : IsBody body)
      (boundary : AtBoundary rest) :
      Step ⟨body ++ rest, offset⟩ ⟨.plus, body, offset⟩ ⟨rest, offset + Text.byteLength body⟩

theorem skipSign_sign (s : Sign) (rest : List Char) (offset : Nat) :
    skipSign ⟨s.toChar :: rest, offset⟩ = (s, ⟨rest, offset + 1⟩) := by
  simp only [skipSign, Sign.ofChar?_toChar, Sign.utf8Size_toChar]

theorem skipSign_body {c : Cursor} (head : ∀ first ∈ c.rest.head?, isBodyChar first = true) :
    c.skipSign = (.plus, c) := by
  obtain ⟨rest, offset⟩ := c
  cases rest with
  | nil => rfl
  | cons first rest =>
    simp only [skipSign, ofChar?_eq_none_iff.mpr (head first rfl)]

/-- The token after the sign, if there is text before the next one. -/
theorem next?_eq (c : Cursor) (nonempty : c.rest ≠ []) :
    c.next? =
      if (c.skipSign.2.rest.takeWhile isBodyChar).isEmpty then
        some (.error (.straySign c.skipSign.1.toChar c.offset))
      else
        some (.ok (⟨c.skipSign.1, c.skipSign.2.rest.takeWhile isBodyChar, c.skipSign.2.offset⟩,
          ⟨c.skipSign.2.rest.dropWhile isBodyChar,
            c.skipSign.2.offset + Text.byteLength (c.skipSign.2.rest.takeWhile isBodyChar)⟩)) := by
  rw [next?, if_neg (by simpa using nonempty)]

/-- **The end** is the only place without a next item. -/
theorem next?_eq_none_iff {c : Cursor} : c.next? = none ↔ c.rest = [] := by
  by_cases empty : c.rest = []
  · simp [next?, empty]
  · rw [next?_eq c empty]
    split <;> simp [empty]

/-- Every text that is not empty starts with a sign or with a body. -/
theorem sign_or_body (c : Cursor) (nonempty : c.rest ≠ []) :
    (∃ s rest, c.rest = Sign.toChar s :: rest) ∨
      c.rest.takeWhile isBodyChar ≠ [] ∧ ∀ first ∈ c.rest.head?, isBodyChar first = true := by
  obtain ⟨rest, offset⟩ := c
  cases rest with
  | nil => exact absurd rfl nonempty
  | cons first rest =>
    cases body : isBodyChar first with
    | false =>
      obtain ⟨s, rfl⟩ := isBodyChar_eq_false_iff.mp body
      exact Or.inl ⟨s, rest, rfl⟩
    | true =>
      refine Or.inr ⟨by simp [body], fun c mem => ?_⟩
      cases mem
      exact body

theorem nonempty_of_next? {c : Cursor} {item : Except ParseError (Token × Cursor)}
    (next : c.next? = some item) : c.rest ≠ [] := by
  intro empty
  rw [next?_eq_none_iff.mpr empty] at next
  cases next

theorem step_of_next? {c d : Cursor} {t : Token} (next : c.next? = some (.ok (t, d))) :
    Step c t d := by
  have nonempty := nonempty_of_next? next
  rw [next?_eq c nonempty] at next
  split at next
  · cases next
  · rename_i body
    cases next
    rcases sign_or_body c nonempty with ⟨s, rest, starts⟩ | ⟨_, head⟩
    · obtain ⟨text, offset⟩ := c
      subst starts
      simp only [skipSign_sign] at body ⊢
      have step := Step.signed s offset (isBody_takeWhile (by simpa using body))
        (atBoundary_dropWhile rest)
      rwa [List.takeWhile_append_dropWhile] at step
    · rw [skipSign_body head] at body ⊢
      have step := Step.unsigned c.offset (isBody_takeWhile (by simpa using body))
        (atBoundary_dropWhile c.rest)
      rwa [List.takeWhile_append_dropWhile] at step

theorem next?_of_step {c d : Cursor} {t : Token} (step : Step c t d) :
    c.next? = some (.ok (t, d)) := by
  cases step with
  | signed sign offset isBody boundary =>
    obtain ⟨taken, left⟩ := isBody.cut boundary
    rw [next?_eq _ (by simp), skipSign_sign, taken, left, if_neg (by simpa using isBody.nonempty)]
  | unsigned offset isBody boundary =>
    rename_i body rest
    obtain ⟨taken, left⟩ := isBody.cut boundary
    have head : ∀ first ∈ (body ++ rest).head?, isBodyChar first = true := by
      intro first mem
      cases body with
      | nil => exact absurd rfl isBody.nonempty
      | cons b body =>
        cases mem
        exact isBody.noSign _ List.mem_cons_self
    rw [next?_eq _ (by simp [isBody.nonempty]), skipSign_body head, taken, left,
      if_neg (by simpa using isBody.nonempty)]

/-- **A token is what a step takes.** -/
theorem next?_eq_ok_iff {c d : Cursor} {t : Token} : c.next? = some (.ok (t, d)) ↔ Step c t d :=
  ⟨step_of_next?, next?_of_step⟩

/-- **A stray sign** is a sign before another one or before the end. -/
theorem next?_eq_error_iff {c : Cursor} {e : ParseError} :
    c.next? = some (.error e) ↔
      ∃ s rest, c.rest = Sign.toChar s :: rest ∧ AtBoundary rest ∧
        e = .straySign s.toChar c.offset := by
  constructor
  · intro next
    have nonempty := nonempty_of_next? next
    rw [next?_eq c nonempty] at next
    split at next
    · rename_i noBody
      cases next
      rcases sign_or_body c nonempty with ⟨s, rest, starts⟩ | ⟨body, head⟩
      · obtain ⟨text, offset⟩ := c
        subst starts
        simp only [skipSign_sign] at noBody ⊢
        exact ⟨s, rest, rfl, atBoundary_iff.mpr (by simpa using noBody), rfl⟩
      · rw [skipSign_body head] at noBody
        exact absurd (by simpa using noBody) body
    · cases next
  · rintro ⟨s, rest, starts, boundary, rfl⟩
    obtain ⟨text, offset⟩ := c
    subst starts
    rw [next?_eq _ (by simp)]
    simp only [skipSign_sign, atBoundary_iff.mp boundary, List.isEmpty_nil, ↓reduceIte]

/-! ### The row of tokens -/

theorem items_of_end {c : Cursor} (empty : c.rest = []) : c.items = [] := by
  rw [items]
  split
  · rfl
  · rename_i eq
    rw [next?_eq_none_iff.mpr empty] at eq
    cases eq
  · rename_i eq
    rw [next?_eq_none_iff.mpr empty] at eq
    cases eq

theorem items_of_error {c : Cursor} {e : ParseError} (next : c.next? = some (.error e)) :
    c.items = [.error e] := by
  rw [items]
  split <;> rename_i eq <;> rw [next] at eq <;> cases eq
  rfl

theorem items_of_step {c d : Cursor} {t : Token} (step : Step c t d) :
    c.items = .ok t :: d.items := by
  have next := next?_eq_ok_iff.mpr step
  rw [items]
  split <;> rename_i eq <;> rw [next] at eq
  · cases eq
  · cases eq
  · cases eq
    rfl

end Cursor

end SparsePoly
