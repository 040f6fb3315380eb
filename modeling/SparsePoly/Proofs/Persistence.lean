import SparsePoly.Proofs.FirstLine
import SparsePoly.Proofs.RoundTrip
import SparsePoly.Storage.File

/-!
# A saved polynomial is loaded

A polynomial is kept as one line of visible characters and a newline.  Three facts make the way
back exact:

* whatever the size of its windows, a source gives up its first line and nothing behind it
  (`Source.readLine_eq_ok`);
* the text of a polynomial has only visible characters, so the newline behind it is the first one,
  and the only character that trimming takes (`Poly.visible_render`);
* the text is read back exactly if all coefficients are finite.

## Main statements

* `Poly.readFrom_unbroken` - what is read, for windows of any size
* `Poly.load_save` - what is saved, and what is loaded from it
-/

namespace SparsePoly

/-! ### Reading from a source -/

namespace Poly

/-- **What is read from a source that does not break**: the polynomial on its first line.  Whether
there is more behind the line makes an event, and what there is does not matter. -/
theorem readFrom_unbroken {rest : List UInt8} {chunk : Option Nat} (offers : ∀ n ∈ chunk, 0 < n) :
    readFrom ⟨rest, chunk, none⟩ =
      match ofLine (Source.throughNewline rest) with
      | .error e => (.fault e, ⟨rest.drop (Source.throughNewline rest).length, chunk, none⟩)
      | .ok p =>
        (⟨.ok p, if rest.drop (Source.throughNewline rest).length = [] then [] else
          [.trailingContent]⟩, ⟨rest.drop (Source.throughNewline rest).length, chunk, none⟩) := by
  have read := @Source.readLine_eq_ok ⟨rest, chunk, none⟩ offers nofun
  rw [readFrom, read]
  show (match ofLine (Source.throughNewline rest) with
    | .error e => _
    | .ok p => _) = _
  cases ofLine (Source.throughNewline rest) with
  | error e => rfl
  | ok p =>
    simp only [Source.window, Source.consume, Option.map_none, List.isEmpty_iff,
      Source.limited_eq_nil offers]

end Poly

/-! ### The characters of a text -/

/-- Visible characters of the least alphabet. -/
def Text.Visible (text : List Char) : Prop := ∀ c ∈ text, 33 ≤ c.toNat ∧ c.toNat < 127

namespace Text

theorem Visible.append {s t : List Char} (hs : Visible s) (ht : Visible t) : Visible (s ++ t) :=
  fun c mem => (List.mem_append.mp mem).elim (hs c) (ht c)

theorem visible_of_digits {text : List Char} (digits : ∀ c ∈ text, c.isDigit = true ∨ c = '.') :
    Visible text := by
  intro c mem
  rcases digits c mem with digit | rfl
  · simp only [Char.isDigit, Bool.and_eq_true, decide_eq_true_eq] at digit
    obtain ⟨low, high⟩ := digit
    have low : 48 ≤ c.toNat := low
    have high : c.toNat ≤ 57 := high
    omega
  · decide

/-- A visible character is not blank. -/
theorem Visible.isBlank {text : List Char} (visible : Visible text) :
    ∀ c ∈ text, isBlank c = false := by
  intro c mem
  have := visible c mem
  simp [Text.isBlank, blankRanges]
  omega

/-- **The bytes of a visible text are its characters.** -/
theorem Visible.encode_eq_map {text : List Char} (visible : Visible text) :
    encode text = text.map fun c => c.val.toNat.toUInt8 := by
  rw [encode, List.map_eq_flatMap]
  refine List.flatMap_congr fun c mem => ?_
  have high : c.val.toNat < 127 := (visible c mem).2
  rw [String.utf8EncodeChar]
  exact if_pos (by omega)

/-- None of them ends a line. -/
theorem Visible.newline_not_mem {text : List Char} (visible : Visible text) :
    Source.newline ∉ encode text := by
  rw [visible.encode_eq_map]
  intro mem
  obtain ⟨c, c_mem, byte⟩ := List.mem_map.mp mem
  obtain ⟨low, high⟩ := visible c c_mem
  have low : 33 ≤ c.val.toNat := low
  have high : c.val.toNat < 127 := high
  have byte := congrArg UInt8.toNat byte
  rw [Nat.toUInt8, UInt8.toNat_ofNat'] at byte
  have newline : Source.newline.toNat = 10 := rfl
  omega

/-- A blank at the end is trimmed. -/
theorem trim_append_blank (text : List Char) {c : Char} (blank : isBlank c = true) :
    trim (text ++ [c]) = trim text := by
  rw [trim, trim]
  simp only [trimStart, List.dropWhile_append]
  split
  · rename_i all_blank
    rw [List.isEmpty_iff.mp all_blank]
    simp [blank]
  · simp [blank]

end Text

namespace Binary64

/-- The text of a number is visible, also that of an infinity and of NaN. -/
theorem visible_text (x : Binary64) : Text.Visible x.text := by
  have signed (negative : Bool) : Text.Visible (signText negative) := by
    cases negative <;> simp [signText, Text.Visible]
  cases x with
  | nan => simp [text, Text.Visible]
  | infinity negative => exact (signed negative).append (by simp [Text.Visible])
  | finite negative m =>
    obtain ⟨n, read, _⟩ := m.read?_text
    have literal := Numeral.read?_eq_some_iff.mp read
    exact (signed negative).append (Text.visible_of_digits literal.isDigit_or_point)

end Binary64

/-- The pieces of a term are visible. -/
theorem Term.visible_pieces (t : Term) : ∀ piece ∈ t.pieces, Text.Visible piece := by
  have coefficient : Text.Visible t.coefficientText := by
    rw [coefficientText]
    split
    · simp [Text.Visible]
    · split
      · simp [Text.Visible]
      · exact t.coeff.visible_text
  have exponent : Text.Visible t.exponentText := by
    rw [exponentText]
    split
    · exact Text.visible_of_digits fun _ mem =>
        Or.inl (Nat.isDigit_of_mem_toDigits (by decide) (by decide) mem)
    · simp [Text.Visible]
  rw [pieces]
  split
  · simpa using t.coeff.visible_text
  · simpa [Text.Visible] using And.intro coefficient exponent

namespace Poly

/-- **The text of a polynomial is visible.** -/
theorem visible_render (p : Poly) : Text.Visible p.render := by
  have joined (t : Term) : ∀ piece ∈ t.joint :: t.pieces, Text.Visible piece := by
    refine List.forall_mem_cons.mpr ⟨?_, t.visible_pieces⟩
    rw [Term.joint]
    split <;> simp [Text.Visible]
  intro c mem
  obtain ⟨piece, piece_mem, c_mem⟩ := List.mem_flatten.mp mem
  rw [pieces] at piece_mem
  split at piece_mem
  · cases List.mem_singleton.mp piece_mem
    cases List.mem_singleton.mp c_mem
    decide
  · rename_i t ts _
    rcases List.mem_append.mp piece_mem with first | later
    · exact t.visible_pieces piece first c c_mem
    · obtain ⟨u, _, u_mem⟩ := List.mem_flatMap.mp later
      exact joined u piece u_mem c c_mem

/-! ### The line of a polynomial -/

/-- The line that holds a polynomial. -/
def line (p : Poly) : List UInt8 := Text.encode p.render ++ [Source.newline]

theorem throughNewline_line (p : Poly) (rest : List UInt8) :
    Source.throughNewline (p.line ++ rest) = p.line := by
  rw [line, List.append_assoc,
    Source.throughNewline_append_of_not_mem p.visible_render.newline_not_mem]
  rfl

/-- The newline is trimmed, and what is left is the text. -/
theorem ofLine_line (p : Poly) : ofLine p.line = (parse p.render).mapError .malformed := by
  have text : Text.decode p.line = some (p.render ++ ['\n']) := by
    have bytes : p.line = Text.encode (p.render ++ ['\n']) := by
      rw [Text.encode_append]
      rfl
    rw [bytes, Text.decode_encode]
  have trimmed : parse (p.render ++ ['\n']) = parse p.render := by
    rw [parse, Text.trim_append_blank _ rfl, ← parse]
  have nonempty : p.line.isEmpty = false := by simp [line]
  rw [ofLine, nonempty, text, ← trimmed]
  rfl

/-! ### Writing the line -/

theorem flatten_pieces (p : Poly) :
    (p.pieces.map Text.encode).flatten = Text.encode p.render :=
  (Text.encode_flatten p.pieces).symm

/-- The pieces that are written make up the line. -/
theorem flatten_pieces_newline (p : Poly) :
    (p.pieces.map Text.encode ++ [[Source.newline]]).flatten = p.line := by
  rw [List.flatten_append, flatten_pieces, line]
  rfl

/-- A sink without limit takes the line. -/
theorem writeLineTo_empty (p : Poly) (full : Failure) :
    p.writeLineTo (.empty none) full = (.ok (), ⟨p.line, none⟩) := by
  rw [writeLineTo, Sink.empty, Sink.putAll_unlimited, flatten_pieces_newline]
  rfl

/-- **A limited sink takes the beginning of the line**, and only the whole line is a success. -/
theorem writeLineTo_limited (p : Poly) (room : Nat) (full : Failure) :
    p.writeLineTo (.empty (some room)) full =
      (if p.line.length ≤ room then .ok () else .error (.failure full),
        ⟨p.line.take room, some (room - p.line.length)⟩) := by
  rw [writeLineTo, Sink.empty, Sink.putAll_limited, flatten_pieces_newline, List.nil_append]
  by_cases fits : p.line.length ≤ room
  · rw [decide_eq_true fits, if_pos fits]
  · rw [decide_eq_false fits, if_neg fits]

/-- A file that does not break gets the line. -/
theorem fill_none (p : Poly) : p.fill none = (⟨.ok (), [.saved p.size]⟩, .file p.line) := by
  rw [fill, Option.map_none, writeLineTo_empty]

/-- **A file that breaks** gets the line if it breaks behind it.  Otherwise it keeps the beginning,
what it says is the error, and there is no event. -/
theorem fill_some (p : Poly) (b : Break) :
    p.fill (some b) =
      if p.line.length ≤ b.after then (⟨.ok (), [.saved p.size]⟩, .file p.line)
      else (.fault (.failure (.broken b.reason)), .file (p.line.take b.after)) := by
  rw [fill, Option.map_some, writeLineTo_limited]
  by_cases fits : p.line.length ≤ b.after
  · rw [if_pos fits, if_pos fits, List.take_of_length_le fits]
  · rw [if_neg fits, if_neg fits]
    rfl

/-! ### Reading the line -/

/-- What is read from the line, whatever comes behind it. -/
theorem readFrom_line {p : Poly} (finite : ∀ t ∈ p.terms, t.coeff.isFinite = true)
    (rest : List UInt8) {chunk : Option Nat} (offers : ∀ n ∈ chunk, 0 < n) :
    readFrom ⟨p.line ++ rest, chunk, none⟩ =
      (⟨.ok p, if rest = [] then [] else [.trailingContent]⟩, ⟨rest, chunk, none⟩) := by
  rw [readFrom_unbroken offers, throughNewline_line, ofLine_line, parse_render_of_finite finite,
    List.drop_left]
  rfl

/-- What is not finite is not read. -/
theorem readFrom_line_of_not_finite {p : Poly} {t : Term} (mem : t ∈ p.terms)
    (not_finite : t.coeff.isFinite = false) :
    ∃ e, (readFrom ⟨p.line, none, none⟩).1 = .fault (.malformed e) := by
  obtain ⟨e, failed⟩ := parse_render_of_not_finite mem not_finite
  have whole := throughNewline_line p []
  rw [List.append_nil] at whole
  refine ⟨e, ?_⟩
  rw [readFrom_unbroken (by simp), whole, ofLine_line, failed]
  rfl

/-- **The way through storage.**

* A sink without limit takes the text and one newline.
* From that line a source gives the polynomial back, if its coefficients are finite: for windows of
  any size, and whatever bytes come behind the line.  Exactly the line is consumed, and an event
  tells whether there is more.
* Saving succeeds where a file can be created, and leaves that line in it, whatever was there
  before.  Loading gives the polynomial back, or, if a coefficient is not finite, an error of the
  text, and never another polynomial.
* It succeeds as well if the file breaks behind the line.  If it breaks before the line's end, the
  error is what the file says; it keeps what was written, and there is no event.
* Where no file can be created there is an error, and what is there stays. -/
theorem load_save (p : Poly) :
    p.writeLineTo (.empty none) = (.ok (), ⟨Text.encode p.render ++ [Source.newline], none⟩) ∧
      p.save .vacant = (⟨.ok (), [.saved p.size]⟩, .file p.line) ∧
      (∀ old, p.save (.file old) = (⟨.ok (), [.saved p.size]⟩, .file p.line)) ∧
      ((∀ t ∈ p.terms, t.coeff.isFinite = true) →
        (∀ rest chunk, (∀ n ∈ chunk, 0 < n) →
          readFrom ⟨p.line ++ rest, chunk, none⟩ =
            (⟨.ok p, if rest = [] then [] else [.trailingContent]⟩, ⟨rest, chunk, none⟩)) ∧
        load (.file p.line) = ⟨.ok p, [.loaded p.size]⟩) ∧
      ((∃ t ∈ p.terms, t.coeff.isFinite = false) →
        ∃ e, load (.file p.line) = ⟨.error (.malformed e), []⟩) ∧
      (∀ place b, place.isCreatable = true → p.save place (some b) =
        if p.line.length ≤ b.after then (⟨.ok (), [.saved p.size]⟩, .file p.line)
        else (.fault (.failure (.broken b.reason)), .file (p.line.take b.after))) ∧
      ∀ place breaks, place.isCreatable = false →
        ∃ e, p.save place breaks = (.fault e, place) := by
  refine ⟨p.writeLineTo_empty _, p.fill_none, fun _ => p.fill_none, ?_, ?_, ?_,
    fun _ breaks missing => p.save_of_not_isCreatable missing breaks⟩
  · intro finite
    refine ⟨fun rest chunk offers => readFrom_line finite rest offers, ?_⟩
    have read := @readFrom_line p finite [] none (by simp)
    rw [List.append_nil] at read
    rw [load, read]
    rfl
  · rintro ⟨t, mem, not_finite⟩
    obtain ⟨e, read⟩ := readFrom_line_of_not_finite mem not_finite
    refine ⟨e, ?_⟩
    rw [load, read]
    rfl
  · intro place b creatable
    rw [p.save_of_isCreatable creatable, p.fill_some]

/-- The variable, read byte by byte before a byte that begins no character, and saved in a file that
breaks before the newline; and an infinite constant. -/
theorem load_variable_and_infinity :
    readFrom ⟨x.line ++ [0xff], some 1, none⟩ =
        (⟨.ok x, [.trailingContent]⟩, ⟨[0xff], some 1, none⟩) ∧
      load (.file x.line) = ⟨.ok x, [.loaded 1]⟩ ∧
      x.save (.file [0x31, 0x32, 0x33, 0x0a]) (some ⟨1, "No space left on device (os error 28)"⟩) =
        (.fault (.failure (.broken "No space left on device (os error 28)")), .file [0x78]) ∧
      ∃ e, load (.file (single 0 (.infinity false) (Binary64.isZero_infinity false)).line) =
        ⟨.error (.malformed e), []⟩ := by
  have finite : ∀ t ∈ x.terms, t.coeff.isFinite = true := by
    intro t mem
    rw [List.mem_singleton.mp mem]
    rfl
  have chunk : ∀ n ∈ some 1, 0 < n := by
    intro n mem
    cases mem
    exact Nat.zero_lt_one
  have line : x.line = [0x78, 0x0a] := by decide +kernel
  obtain ⟨_, _, _, reads, _, saves, _⟩ := load_save x
  obtain ⟨_, _, _, _, fails, _⟩ :=
    load_save (single 0 (.infinity false) (Binary64.isZero_infinity false))
  obtain ⟨read, loaded⟩ := reads finite
  rw [line] at saves
  exact ⟨read [0xff] (some 1) chunk, loaded, saves _ _ rfl,
    fails ⟨_, List.mem_singleton.mpr rfl, rfl⟩⟩

end Poly

end SparsePoly
