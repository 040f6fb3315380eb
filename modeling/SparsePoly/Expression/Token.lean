import SparsePoly.Binary64.Basic
import SparsePoly.Expression.Error
import SparsePoly.Text.Blank

/-!
# Signed terms of an expression

An expression is a row of terms in text form, each with its sign in front; the sign of the first
one may be missing.  A sign always opens a term, so that the text is cut at its signs and nowhere
else.  A sign with nothing up to the next sign, or to the end, is stray, and ends the row.

## Main definitions

* `Sign` - plus or minus
* `Token` - a sign, the text after it, and where that text stands
* `Cursor` - a place in the text, from which the rest of the row can be read any number of times
* `Cursor.next?` - the next token, and the place after it
* `Cursor.items` - the whole row from a place on; an error is its last item
* `TokenReader` - the row on request, item by item

## Main statements

* `Cursor.next?_shorter` - every step leaves less text, so every row is finite
-/

namespace SparsePoly

/-- The sign of a term. -/
inductive Sign where
  /-- `+`, or no sign on the first term. -/
  | plus
  /-- `-`. -/
  | minus
  deriving DecidableEq

namespace Sign

/-- The sign that a character is, if it is one. -/
def ofChar? (c : Char) : Option Sign :=
  if c = '+' then some plus else if c = '-' then some minus else none

/-- The character. -/
def toChar : Sign → Char
  | plus => '+'
  | minus => '-'

/-- Gives a number the sign. -/
def apply : Sign → Binary64 → Binary64
  | plus, c => c
  | minus, c => -c

@[simp] theorem ofChar?_toChar (s : Sign) : ofChar? s.toChar = some s := by
  cases s <;> rfl

/-- Only its character is read as a sign. -/
theorem ofChar?_eq_some_iff {c : Char} {s : Sign} : ofChar? c = some s ↔ c = s.toChar := by
  constructor
  · intro eq
    unfold ofChar? at eq
    split at eq
    · cases eq; assumption
    · split at eq
      · cases eq; assumption
      · cases eq
  · rintro rfl
    exact ofChar?_toChar s

end Sign

/-- A character of a term, any but a sign. -/
def isBodyChar (c : Char) : Bool := (Sign.ofChar? c).isNone

/-- A signed term, still as text. -/
structure Token where
  /-- The sign in front. -/
  sign : Sign
  /-- The text of the term, without the sign. -/
  body : List Char
  /-- The byte offset of that text. -/
  offset : Nat
  deriving DecidableEq

/-- A place between two tokens: what is still to be read, and the byte offset where it starts. -/
structure Cursor where
  /-- The text from here on. -/
  rest : List Char
  /-- The number of bytes before it. -/
  offset : Nat
  deriving DecidableEq

namespace Cursor

/-- The start of a text. -/
def start (text : List Char) : Cursor := ⟨text, 0⟩

/-- The place after the sign here, and the sign; without one the place itself, and plus. -/
def skipSign (c : Cursor) : Sign × Cursor :=
  match c.rest with
  | [] => (.plus, c)
  | first :: rest =>
    match Sign.ofChar? first with
    | some sign => (sign, ⟨rest, c.offset + first.utf8Size⟩)
    | none => (.plus, c)

/-- **The next token**, and the place after it; `none` at the end of the text.  The token takes
all text up to the next sign, and if that is no text at all the sign here is stray. -/
def next? (c : Cursor) : Option (Except ParseError (Token × Cursor)) :=
  if c.rest.isEmpty then
    none
  else
    let signed := c.skipSign
    let body := signed.2.rest.takeWhile isBodyChar
    if body.isEmpty then
      -- Without a sign the first character would be in the body, so there is a sign here.
      some (.error (.straySign signed.1.toChar c.offset))
    else
      some (.ok (⟨signed.1, body, signed.2.offset⟩,
        ⟨signed.2.rest.dropWhile isBodyChar, signed.2.offset + Text.byteLength body⟩))

theorem skipSign_length_le (c : Cursor) : c.skipSign.2.rest.length ≤ c.rest.length := by
  unfold skipSign
  split
  · exact Nat.le_refl _
  · rename_i eq
    split
    · simp [eq]
    · exact Nat.le_refl _

/-- **Every step leaves less text.** -/
theorem next?_shorter {c d : Cursor} {t : Token} (eq : c.next? = some (.ok (t, d))) :
    d.rest.length < c.rest.length := by
  unfold next? at eq
  split at eq
  · cases eq
  · simp only at eq
    split at eq
    · cases eq
    · rename_i nonempty
      cases eq
      have parts := congrArg List.length
        (@List.takeWhile_append_dropWhile _ isBodyChar c.skipSign.2.rest)
      rw [List.length_append] at parts
      have positive : 0 < (c.skipSign.2.rest.takeWhile isBodyChar).length :=
        List.length_pos_iff.mpr (by simpa using nonempty)
      have := c.skipSign_length_le
      simp only
      omega

/-- **The row of tokens** from a place on.  It ends with the text or with the first error. -/
def items (c : Cursor) : List (Except ParseError Token) :=
  match _eq : c.next? with
  | none => []
  | some (.error e) => [.error e]
  | some (.ok (t, d)) => .ok t :: d.items
termination_by c.rest.length
decreasing_by exact next?_shorter _eq

end Cursor

namespace Token

/-- The tokens of a text. -/
def scan (text : List Char) : List (Except ParseError Token) := (Cursor.start text).items

@[simp] theorem scan_nil : scan [] = [] := by
  simp [scan, Cursor.items, Cursor.start, Cursor.next?]

end Token

/-- A row that is read on request: the place that has been reached, and whether a stray sign there
has ended the row. -/
structure TokenReader where
  /-- Where the next token starts. -/
  place : Cursor
  /-- A stray sign has been met. -/
  stopped : Bool
  deriving DecidableEq

namespace TokenReader

/-- The reader of a text, before the first request. -/
def start (text : List Char) : TokenReader := ⟨Cursor.start text, false⟩

/-- **One request**: the next item, if there is one, and the reader after it.  A reader that has
stopped stays where it is. -/
def next (r : TokenReader) : Option (Except ParseError Token) × TokenReader :=
  if r.stopped then
    (none, r)
  else
    match r.place.next? with
    | none => (none, r)
    | some (.error e) => (some (.error e), { r with stopped := true })
    | some (.ok (t, place)) => (some (.ok t), { r with place := place })

/-- The reader after a number of requests. -/
def after (r : TokenReader) : Nat → TokenReader
  | 0 => r
  | n + 1 => r.next.2.after n

/-- The items that are still to come. -/
def items (r : TokenReader) : List (Except ParseError Token) :=
  if r.stopped then [] else r.place.items

end TokenReader

end SparsePoly
