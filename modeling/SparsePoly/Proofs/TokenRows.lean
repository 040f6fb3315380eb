import Mathlib.Data.List.Chain
import SparsePoly.Proofs.Tokens

/-!
# Rows of tokens

A text is cut at its signs and nowhere else, and nothing of it is lost.  `Cursor.Produces` says
which tokens lead from one place to another; what a whole row does follows from what one step does,
by induction on that relation:

* the tokens, with their signs, put the text between the two places together again, and every body
  stands at its offset (`Cursor.Produces.covers`);
* no stray sign lies between the two places (`Cursor.Produces.length_le_of_stray`);
* the place that is reached last is the end of the text or a stray sign
  (`Cursor.exists_produces`).

On request the same items come one by one, and then no more.

## Main statements

* `TokenReader.next_after` - the answer to every request
* `Token.scan_cuts_at_signs` - the tokens of a text, and the stray sign that ends them
-/

namespace SparsePoly

instance (text : List Char) : Decidable (AtBoundary text) :=
  inferInstanceAs (Decidable (∀ c ∈ text.head?, isBodyChar c = false))

/-- The text of a token with its sign. -/
def Token.written (t : Token) : List Char := t.sign.toChar :: t.body

/-- Behind a part of a text there is a sign that another sign or the end follows. -/
def StrayBehind (front text : List Char) : Prop :=
  ∃ (s : Sign) (back : List Char), text = front ++ s.toChar :: back ∧ AtBoundary back

/-- **The tokens that a text consists of**, if the text starts at a given byte offset. -/
structure Covers (offset : Nat) (tokens : List Token) (text : List Char) : Prop where
  /-- The tokens with their signs are the text.  If it starts without a sign, the first token has a
  plus that is not in the text. -/
  joined : tokens.flatMap Token.written = if AtBoundary text then text else '+' :: text
  /-- No body is empty, and none has a sign in it. -/
  bodies : ∀ t ∈ tokens, IsBody t.body
  /-- Every body stands at its offset. -/
  places : ∀ t ∈ tokens, ∃ front back, text = front ++ t.body ++ back ∧
    t.offset = offset + Text.byteLength front
  /-- The first body stands behind the first sign, if there is one. -/
  first : ∀ t ∈ tokens.head?, t.offset = offset + if AtBoundary text then 1 else 0
  /-- There is one byte, a sign, between a body and the next. -/
  spacing : tokens.IsChain fun t u => u.offset = t.offset + Text.byteLength t.body + 1

/-- A place in a text: what is left from there is the end of the text, and the offset counts the
bytes before it, so that it is never inside a character. -/
def Within (text : List Char) (c : Cursor) : Prop :=
  ∃ front, text = front ++ c.rest ∧ c.offset = Text.byteLength front

/-! ### Boundaries -/

namespace IsBody

variable {body : List Char} (isBody : IsBody body)

include isBody

theorem not_atBoundary (rest : List Char) : ¬AtBoundary (body ++ rest) := by
  obtain ⟨c, inner, rfl⟩ := List.exists_cons_of_ne_nil isBody.nonempty
  intro boundary
  have noSign := isBody.noSign c List.mem_cons_self
  rw [boundary c rfl] at noSign
  cases noSign

/-- A sign does not stand in a body, so it stands behind it. -/
theorem exists_gap {rest other back : List Char} {s : Sign}
    (text : body ++ rest = other ++ s.toChar :: back) :
    ∃ gap, other = body ++ gap ∧ rest = gap ++ s.toChar :: back := by
  rcases List.append_eq_append_iff.mp text with ⟨gap, behind, split⟩ | ⟨inside, inBody, split⟩
  · exact ⟨gap, behind, split⟩
  · rcases List.append_eq_cons_iff.mp split.symm with ⟨rfl, at_end⟩ | ⟨tail, rfl, _⟩
    · exact ⟨[], by rw [inBody, List.append_nil, List.append_nil], at_end⟩
    · have sign := isBody.noSign s.toChar (by rw [inBody]; simp)
      rw [s.isBodyChar_toChar] at sign
      cases sign

end IsBody

/-! ### One token -/

namespace Covers

variable {offset : Nat} {body text : List Char} {ts : List Token}

theorem nil (offset : Nat) : Covers offset [] [] where
  joined := (if_pos atBoundary_nil).symm
  bodies := List.forall_mem_nil _
  places := List.forall_mem_nil _
  first := fun _ head => nomatch head
  spacing := .nil

/-- A token in front of others, whose text starts at a boundary. -/
theorem cons (t : Token) (front : List Char) (isBody : IsBody t.body) (boundary : AtBoundary text)
    (others : Covers (t.offset + Text.byteLength t.body) ts text)
    (place : t.offset = offset + Text.byteLength front)
    (written : t.written ++ text = if AtBoundary (front ++ t.body ++ text) then
      front ++ t.body ++ text else '+' :: (front ++ t.body ++ text))
    (first : Text.byteLength front = if AtBoundary (front ++ t.body ++ text) then 1 else 0) :
    Covers offset (t :: ts) (front ++ t.body ++ text) where
  joined := by
    rw [List.flatMap_cons, others.joined, if_pos boundary]
    exact written
  bodies := List.forall_mem_cons.mpr ⟨isBody, others.bodies⟩
  places := by
    refine List.forall_mem_cons.mpr ⟨⟨front, text, rfl, place⟩, fun u mem => ?_⟩
    obtain ⟨before, behind, split, offset_u⟩ := others.places u mem
    refine ⟨front ++ t.body ++ before, behind, by rw [split]; simp, ?_⟩
    rw [offset_u, place, Text.byteLength_append, Text.byteLength_append]
    omega
  first := by
    intro u head
    cases head
    rw [place, first]
  spacing := by
    refine List.isChain_cons.mpr ⟨fun u head => ?_, others.spacing⟩
    rw [others.first u head, if_pos boundary]

/-- A sign and a body in front of others. -/
theorem cons_signed (sign : Sign) (isBody : IsBody body) (boundary : AtBoundary text)
    (others : Covers (offset + 1 + Text.byteLength body) ts text) :
    Covers offset (⟨sign, body, offset + 1⟩ :: ts) (sign.toChar :: (body ++ text)) := by
  have starts : AtBoundary ([sign.toChar] ++ body ++ text) := atBoundary_sign sign (body ++ text)
  have size : Text.byteLength [sign.toChar] = 1 := sign.utf8Size_toChar
  refine cons ⟨sign, body, offset + 1⟩ [sign.toChar] isBody boundary others ?_ ?_ ?_
  · show offset + 1 = offset + Text.byteLength [sign.toChar]
    rw [size]
  · rw [if_pos starts]
    rfl
  · rw [size, if_pos starts]

/-- A body in front of others. -/
theorem cons_unsigned (isBody : IsBody body) (boundary : AtBoundary text)
    (others : Covers (offset + Text.byteLength body) ts text) :
    Covers offset (⟨.plus, body, offset⟩ :: ts) (body ++ text) := by
  have starts : ¬AtBoundary ([] ++ body ++ text) := isBody.not_atBoundary text
  refine cons ⟨.plus, body, offset⟩ [] isBody boundary others rfl ?_ ?_
  · rw [if_neg starts]
    rfl
  · rw [if_neg starts]
    rfl

end Covers

namespace Cursor

/-- **One step** takes what the token covers, and ends at a boundary. -/
theorem Step.covers {c d : Cursor} {t : Token} (step : Step c t d) :
    ∃ taken, c.rest = taken ++ d.rest ∧ d.offset = c.offset + Text.byteLength taken ∧
      AtBoundary d.rest ∧ ∀ {ts text}, AtBoundary text → Covers d.offset ts text →
        Covers c.offset (t :: ts) (taken ++ text) := by
  cases step with
  | @signed sign body rest offset isBody boundary =>
    refine ⟨sign.toChar :: body, rfl, ?_, boundary, fun starts others => ?_⟩
    · rw [Text.byteLength_cons, sign.utf8Size_toChar, Nat.add_assoc]
    · exact others.cons_signed sign isBody starts
  | unsigned offset isBody boundary =>
    exact ⟨_, rfl, rfl, boundary, fun starts others => others.cons_unsigned isBody starts⟩

/-- A step leads from a place in a text to another one. -/
theorem Step.within {text : List Char} {c d : Cursor} {t : Token} (step : Step c t d)
    (within : Within text c) : Within text d := by
  obtain ⟨before, whole, offset⟩ := within
  obtain ⟨taken, here, advanced, _⟩ := step.covers
  refine ⟨before ++ taken, ?_, ?_⟩
  · rw [whole, here, List.append_assoc]
  · rw [advanced, offset, Text.byteLength_append]

end Cursor

/-! ### Rows -/

namespace Cursor

/-- The tokens that lead from one place to another. -/
inductive Produces : Cursor → List Token → Cursor → Prop
  | none (c : Cursor) : Produces c [] c
  | step {c d e : Cursor} {t : Token} {ts : List Token} (first : Step c t d)
      (others : Produces d ts e) : Produces c (t :: ts) e

/-- Every row goes on until the text ends or a sign is stray. -/
theorem exists_produces (c : Cursor) :
    ∃ ts d, Produces c ts d ∧ (d.rest = [] ∨ ∃ e, d.next? = some (.error e)) := by
  induction c using items.induct with
  | case1 c next => exact ⟨[], c, .none c, Or.inl (next?_eq_none_iff.mp next)⟩
  | case2 c e next => exact ⟨[], c, .none c, Or.inr ⟨e, next⟩⟩
  | case3 c t d next ih =>
    obtain ⟨ts, last, others, ends⟩ := ih
    exact ⟨t :: ts, last, .step (next?_eq_ok_iff.mp next) others, ends⟩

namespace Produces

variable {c d : Cursor} {ts : List Token} (produces : Produces c ts d)

include produces

theorem items : c.items = ts.map .ok ++ d.items := by
  induction produces with
  | none c => rfl
  | step first others ih =>
    rw [items_of_step first, ih]
    rfl

/-- **Nothing is lost** between two places: the tokens cover what lies there. -/
theorem covers :
    ∃ front, c.rest = front ++ d.rest ∧ d.offset = c.offset + Text.byteLength front ∧
      Covers c.offset ts front := by
  induction produces with
  | none c => exact ⟨[], rfl, rfl, .nil _⟩
  | step first others ih =>
    obtain ⟨front, whole, offset, covered⟩ := ih
    obtain ⟨taken, here, advanced, boundary, cover⟩ := first.covers
    rw [whole] at boundary
    refine ⟨taken ++ front, ?_, ?_, cover boundary.of_append covered⟩
    · rw [here, whole, List.append_assoc]
    · rw [offset, advanced, Text.byteLength_append, Nat.add_assoc]

/-- **No stray sign is passed over**: one behind a shorter part would be between the two places. -/
theorem length_le_of_stray {other : List Char} (stray : StrayBehind other c.rest) :
    c.rest.length ≤ other.length + d.rest.length := by
  induction produces generalizing other with
  | none c => exact Nat.le_add_left _ _
  | step first others ih =>
    obtain ⟨s, back, text, boundary⟩ := stray
    cases first with
    | signed sign start isBody _ =>
      rcases List.append_eq_cons_iff.mp text.symm with ⟨_, here⟩ | ⟨later, rfl, split⟩
      · rw [(List.cons.inj here).2] at boundary
        exact absurd boundary (isBody.not_atBoundary _)
      · obtain ⟨gap, rfl, behind⟩ := isBody.exists_gap split
        have := ih ⟨s, back, behind, boundary⟩
        simp only [List.length_cons, List.length_append] at this ⊢
        omega
    | unsigned start isBody _ =>
      obtain ⟨gap, rfl, behind⟩ := isBody.exists_gap text
      have := ih ⟨s, back, behind, boundary⟩
      simp only [List.length_append] at this ⊢
      omega

end Produces

end Cursor

/-! ### The row on request -/

namespace TokenReader

/-- A request takes the first of the items to come. -/
theorem next_spec (r : TokenReader) :
    r.next.1 = r.items.head? ∧ r.next.2.items = r.items.tail := by
  obtain ⟨place, stopped⟩ := r
  cases stopped with
  | true => exact ⟨rfl, rfl⟩
  | false =>
    have whole : items ⟨place, false⟩ = place.items := rfl
    rw [whole]
    cases answer : place.next? with
    | none =>
      rw [Cursor.items_of_end (Cursor.next?_eq_none_iff.mp answer)]
      simp [next, answer, items, Cursor.items_of_end (Cursor.next?_eq_none_iff.mp answer)]
    | some item =>
      cases item with
      | error e => simp [next, answer, items, Cursor.items_of_error answer]
      | ok step =>
        simp [next, answer, items, Cursor.items_of_step (Cursor.next?_eq_ok_iff.mp answer)]

/-- **The answers to all requests**: the items one by one, and then nothing for ever. -/
theorem next_after (r : TokenReader) (n : Nat) : (r.after n).next.1 = r.items[n]? := by
  induction n generalizing r with
  | zero => rw [after, r.next_spec.1, List.head?_eq_getElem?]
  | succ n ih => rw [after, ih, r.next_spec.2, List.getElem?_tail]

theorem within_next {text : List Char} {r : TokenReader} (within : Within text r.place) :
    Within text r.next.2.place := by
  rw [next]
  split
  · exact within
  · split
    · exact within
    · exact within
    · rename_i t place answer
      exact (Cursor.next?_eq_ok_iff.mp answer).within within

/-- **Every place is one between two characters.** -/
theorem within_after {text : List Char} {r : TokenReader} (within : Within text r.place) (n : Nat) :
    Within text (r.after n).place := by
  induction n generalizing r with
  | zero => exact within
  | succ n ih => exact ih (within_next within)

end TokenReader

/-! ### The row of a text -/

namespace Token

/-- **A text is cut at its signs, and only a stray sign ends the row.**  On request the items come
one by one and then no more, and the place is never inside a character.  If no sign of the text is
stray, the items are the tokens that it consists of; otherwise they are the tokens of the part
before the leftmost stray sign, and an error that names this sign and its place. -/
theorem scan_cuts_at_signs (text : List Char) :
    (∀ n, ((TokenReader.start text).after n).next.1 = (scan text)[n]?) ∧
      (∀ n, Within text ((TokenReader.start text).after n).place) ∧
      ((∀ front, ¬StrayBehind front text) ∧
          (∃ tokens, scan text = tokens.map .ok ∧ Covers 0 tokens text) ∨
        ∃ (front : List Char) (sign : Sign) (back : List Char),
          text = front ++ sign.toChar :: back ∧ AtBoundary back ∧
          (∀ other, StrayBehind other text → front.length ≤ other.length) ∧
          ∃ tokens, scan text = tokens.map .ok ++
              [.error (.straySign sign.toChar (Text.byteLength front))] ∧
            Covers 0 tokens front) := by
  refine ⟨(TokenReader.start text).next_after, TokenReader.within_after ⟨[], rfl, rfl⟩, ?_⟩
  obtain ⟨tokens, last, produces, ends⟩ := (Cursor.start text).exists_produces
  obtain ⟨front, whole, offset, covered⟩ := produces.covers
  have items : scan text = tokens.map .ok ++ last.items := produces.items
  have whole : text = front ++ last.rest := whole
  have passed (other : List Char) (stray : StrayBehind other text) :
      text.length ≤ other.length + last.rest.length := produces.length_le_of_stray stray
  rcases ends with finished | ⟨e, answer⟩
  · rw [finished, List.append_nil] at whole
    rw [Cursor.items_of_end finished, List.append_nil] at items
    refine Or.inl ⟨fun other stray => ?_, tokens, items, whole ▸ covered⟩
    have := passed other stray
    obtain ⟨s, back, split, _⟩ := stray
    have := congrArg List.length split
    simp only [finished, List.length_nil, List.length_append, List.length_cons] at *
    omega
  · obtain ⟨sign, back, starts, boundary, rfl⟩ := Cursor.next?_eq_error_iff.mp answer
    rw [Cursor.items_of_error answer, offset] at items
    refine Or.inr ⟨front, sign, back, starts ▸ whole, boundary, fun other stray => ?_, tokens, ?_,
      covered⟩
    · have := passed other stray
      rw [whole, List.length_append] at this
      omega
    · rw [items]
      simp [Cursor.start]

end Token

end SparsePoly
