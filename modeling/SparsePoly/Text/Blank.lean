/-!
# Blank characters and byte offsets

Two notions about text that the expression format rests on: which characters are blank, and where
in a text a character stands.

## Main definitions

* `Text.isBlank` - the twenty-five characters of the Unicode property `White_Space`
* `Text.trim` - a text without the blanks at its ends
* `Text.byteLength` - the length of a text in UTF-8, the measure of all offsets
* `Text.firstBlank?` - the byte offset of the first blank

## Main statements

* `Text.firstBlank?_eq_some_iff`, `Text.firstBlank?_eq_none` - which blank that is, if there is one

## Design decisions

* A text is a list of characters.  Offsets are computed beside it, so that cutting and joining are
  the operations of lists.
-/

namespace SparsePoly

namespace Text

/-! ### Blanks -/

/-- The ranges of the Unicode property `White_Space`. -/
def blankRanges : List (Nat × Nat) :=
  [(0x0009, 0x000d), (0x0020, 0x0020), (0x0085, 0x0085), (0x00a0, 0x00a0), (0x1680, 0x1680),
    (0x2000, 0x200a), (0x2028, 0x2029), (0x202f, 0x202f), (0x205f, 0x205f), (0x3000, 0x3000)]

/-- A character of the property. -/
def isBlank (c : Char) : Bool :=
  blankRanges.any fun (first, last) => decide (first ≤ c.toNat ∧ c.toNat ≤ last)

/-- A text without the blanks at its front. -/
def trimStart (text : List Char) : List Char := text.dropWhile isBlank

/-- **A text without the blanks at either end.** -/
def trim (text : List Char) : List Char := (trimStart (trimStart text).reverse).reverse

@[simp] theorem trim_nil : trim [] = [] := rfl

/-- A text whose ends are not blank is its own trimmed form. -/
theorem trim_eq_self {text : List Char} (first : ∀ c ∈ text.head?, isBlank c = false)
    (last : ∀ c ∈ text.getLast?, isBlank c = false) : trim text = text := by
  have keep (t : List Char) (h : ∀ c ∈ t.head?, isBlank c = false) : trimStart t = t := by
    cases t with
    | nil => rfl
    | cons c t => simp [trimStart, h c (by simp)]
  unfold trim
  rw [keep text first, keep text.reverse (by rwa [List.head?_reverse]), List.reverse_reverse]

/-- A text without blanks is its own trimmed form. -/
theorem trim_of_visible {text : List Char} (visible : ∀ c ∈ text, isBlank c = false) :
    trim text = text :=
  trim_eq_self (fun c head => visible c (List.mem_of_head? head))
    fun c last => visible c (List.mem_of_getLast? last)

/-! ### Offsets -/

/-- The number of bytes of a text in UTF-8. -/
def byteLength : List Char → Nat
  | [] => 0
  | c :: text => c.utf8Size + byteLength text

@[simp] theorem byteLength_nil : byteLength [] = 0 := rfl

@[simp] theorem byteLength_cons (c : Char) (text : List Char) :
    byteLength (c :: text) = c.utf8Size + byteLength text := rfl

@[simp] theorem byteLength_append (s t : List Char) :
    byteLength (s ++ t) = byteLength s + byteLength t := by
  induction s with
  | nil => simp
  | cons c s ih => simp [ih, Nat.add_assoc]

/-- The byte offset of the first blank. -/
def firstBlank? (text : List Char) : Option Nat :=
  if text.any isBlank then some (byteLength (text.takeWhile (! isBlank ·))) else none

/-- **The first blank** is the one with none before it. -/
theorem firstBlank?_eq_some_iff {text : List Char} {offset : Nat} :
    firstBlank? text = some offset ↔ ∃ front c back, text = front ++ c :: back ∧
      isBlank c = true ∧ (∀ d ∈ front, isBlank d = false) ∧ byteLength front = offset := by
  constructor
  · intro found
    have whole := @List.takeWhile_append_dropWhile _ (! isBlank ·) text
    have before : ∀ d ∈ text.takeWhile (! isBlank ·), isBlank d = false := fun d mem => by
      simpa using List.all_eq_true.mp List.all_takeWhile d mem
    have head := List.head?_dropWhile_not (! isBlank ·) text
    unfold firstBlank? at found
    split at found
    · rename_i some_blank
      cases rest : text.dropWhile (! isBlank ·) with
      | nil =>
        rw [rest, List.append_nil] at whole
        rw [whole] at before
        obtain ⟨c, mem, blank⟩ := List.any_eq_true.mp some_blank
        rw [before c mem] at blank
        cases blank
      | cons c back =>
        rw [rest] at whole head
        exact ⟨_, c, back, whole.symm, by simpa using head, before, Option.some.inj found⟩
    · cases found
  · rintro ⟨front, c, back, rfl, blank, before, rfl⟩
    have some_blank : (front ++ c :: back).any isBlank = true := by simp [blank]
    rw [firstBlank?, if_pos some_blank, List.takeWhile_append_of_pos (by simpa using before)]
    simp [blank]

/-- **A blank-free text has no first blank**, and only such a one. -/
theorem firstBlank?_eq_none {text : List Char} :
    firstBlank? text = none ↔ ∀ c ∈ text, isBlank c = false := by
  simp [firstBlank?]

end Text

end SparsePoly
