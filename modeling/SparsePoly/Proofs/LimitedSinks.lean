import SparsePoly.Proofs.Persistence

/-!
# Writing to a sink that is too small

A text is put out in pieces: signs, numerals, the variable, exponents.  What a limited sink keeps
depends neither on where the pieces end nor on which of them is cut.  It keeps the beginning of the
text, as long as its room, and the writer is told that something is missing exactly if something is.

That is a fact about any row of pieces with one concatenation (`Sink.putAll_of_flatten`), so that a
numeral may be put out digit by digit as well.  Where it stops is another one: a row that does not
fit has a first piece that does not fit, and nothing behind it is put (`Sink.putAll_eq_false`).

## Main statements

* `Sink.putAll_of_flatten` - what is kept does not depend on the pieces
* `Sink.putAll_eq_false` - the piece at which a row stops
* `Poly.written_prefix` - the text and the line, in every limited sink
-/

namespace SparsePoly

namespace Sink

/-! ### Rows of pieces -/

/-- **What is kept does not depend on the pieces**, but only on what they are together. -/
theorem putAll_of_flatten {pieces : List (List UInt8)} {bytes : List UInt8}
    (together : pieces.flatten = bytes) (limit : Nat) :
    (empty (some limit)).putAll pieces =
      (decide (bytes.length ≤ limit),
        ⟨bytes.take (min limit bytes.length), some (limit - bytes.length)⟩) := by
  rw [empty, putAll_limited, together, List.nil_append, ← List.take_eq_take_min]

/-- **A row stops at the first piece that does not fit.**  The pieces before it are put whole, the
piece itself as far as there is room, and those behind it not at all. -/
theorem putAll_eq_false {s last : Sink} {pieces : List (List UInt8)}
    (stopped : s.putAll pieces = (false, last)) :
    ∃ front piece back full, pieces = front ++ piece :: back ∧
      s.putAll front = (true, full) ∧ full.put piece = (false, last) := by
  induction pieces generalizing s with
  | nil => cases stopped
  | cons piece pieces ih =>
    rw [putAll] at stopped
    split at stopped
    · rename_i next taken
      obtain ⟨front, cut, back, full, split, whole, refused⟩ := ih stopped
      refine ⟨piece :: front, cut, back, full, congrArg _ split, ?_, refused⟩
      rw [putAll, taken]
      exact whole
    · rename_i refused
      cases stopped
      exact ⟨[], piece, pieces, s, rfl, rfl, refused⟩

/-- What a put that is refused leaves behind. -/
theorem put_eq_false_iff {taken piece : List UInt8} {room : Nat} {last : Sink} :
    put ⟨taken, some room⟩ piece = (false, last) ↔
      room < piece.length ∧ last = ⟨taken ++ piece.take room, some 0⟩ := by
  rw [put, Prod.mk.injEq, decide_eq_false_iff_not, Nat.not_le]
  refine and_congr_right fun short => ?_
  rw [Nat.sub_eq_zero_of_le (Nat.le_of_lt short), eq_comm]

/-- **Pieces put out bytes** into an empty sink with limited room: whether they fit, what is kept,
and how the row comes to its end if they do not. -/
structure PutsOut (limit : Nat) (pieces : List (List UInt8)) (bytes : List UInt8) : Prop where
  /-- The beginning of the bytes is kept, and the answer is whether that is all of them. -/
  outcome : (empty (some limit)).putAll pieces =
    (decide (bytes.length ≤ limit),
      ⟨bytes.take (min limit bytes.length), some (limit - bytes.length)⟩)
  /-- If it is not, then all pieces before some one are put whole, that one is cut where the room
  ends, and none behind it is put. -/
  stop : limit < bytes.length → ∃ front piece back room, pieces = front ++ piece :: back ∧
    (empty (some limit)).putAll front = (true, ⟨front.flatten, some room⟩) ∧
    room < piece.length ∧
    (empty (some limit)).putAll pieces = (false, ⟨front.flatten ++ piece.take room, some 0⟩)

theorem putsOut_of_flatten {pieces : List (List UInt8)} {bytes : List UInt8}
    (together : pieces.flatten = bytes) (limit : Nat) : PutsOut limit pieces bytes where
  outcome := putAll_of_flatten together limit
  stop := by
    intro short
    have failed : ((empty (some limit)).putAll pieces).1 = false := by
      rw [putAll_of_flatten together]
      exact decide_eq_false (Nat.not_le.mpr short)
    obtain ⟨front, piece, back, full, split, whole, refused⟩ :=
      putAll_eq_false (Prod.ext failed rfl)
    -- The front fits, so that all of it is kept.
    have kept := putAll_of_flatten (@rfl _ front.flatten) limit
    rw [whole, Prod.mk.injEq] at kept
    obtain ⟨fits, rfl⟩ := kept
    have fits : front.flatten.length ≤ limit := of_decide_eq_true fits.symm
    rw [Nat.min_eq_right fits, List.take_length] at whole refused
    obtain ⟨cut, last⟩ := put_eq_false_iff.mp refused
    exact ⟨front, piece, back, _, split, whole, cut, Prod.ext failed last⟩

end Sink

namespace Text

/-- A visible text has as many bytes as characters. -/
theorem Visible.length_encode {text : List Char} (visible : Visible text) :
    (encode text).length = text.length := by
  rw [visible.encode_eq_map, List.length_map]

/-- A visible text is cut between its characters. -/
theorem Visible.take_encode {text : List Char} (visible : Visible text) (n : Nat) :
    (encode text).take n = encode (text.take n) := by
  have front : Visible (text.take n) := fun c mem => visible c (List.mem_of_mem_take mem)
  rw [visible.encode_eq_map, front.encode_eq_map, List.map_take]

end Text

namespace Poly

/-! ### Polynomials -/

variable (p : Poly)

theorem length_line : p.line.length = p.render.length + 1 := by
  rw [line, List.length_append, p.visible_render.length_encode]
  rfl

/-- **A limited sink keeps a beginning.**  Of the text, or of the line, as many bytes are kept as
there is room for, and the writer succeeds exactly if that is all of them; the error of the line is
that there is no room.  The pieces that are put, and any others that make up the same bytes, stop at
the first that does not fit.  Bytes are characters here, so that the limit cuts none in two. -/
theorem written_prefix (limit : Nat) :
    ((Text.encode p.render).length = p.render.length ∧
        (Text.encode p.render).take limit = Text.encode (p.render.take limit)) ∧
      p.writeTo (.empty (some limit)) =
        (decide (p.render.length ≤ limit),
          ⟨(Text.encode p.render).take (min limit p.render.length),
            some (limit - p.render.length)⟩) ∧
      p.writeLineTo (.empty (some limit)) =
        (if p.render.length + 1 ≤ limit then .ok () else .error (.failure .noRoom),
          ⟨(Text.encode p.render ++ [Source.newline]).take (min limit (p.render.length + 1)),
            some (limit - (p.render.length + 1))⟩) ∧
      Sink.PutsOut limit (p.pieces.map Text.encode) (Text.encode p.render) ∧
      Sink.PutsOut limit (p.pieces.map Text.encode ++ [[Source.newline]])
        (Text.encode p.render ++ [Source.newline]) ∧
      ∀ pieces bytes, pieces.flatten = bytes → Sink.PutsOut limit pieces bytes := by
  have text := Sink.putsOut_of_flatten p.flatten_pieces limit
  have line := Sink.putsOut_of_flatten p.flatten_pieces_newline limit
  have length := p.visible_render.length_encode
  refine ⟨⟨length, p.visible_render.take_encode limit⟩, ?text, ?line, text, line,
    fun _ _ together => Sink.putsOut_of_flatten together limit⟩
  case text => rw [writeTo, text.outcome, length]
  case line =>
    rw [writeLineTo_limited, length_line, List.take_eq_take_min, length_line]
    rfl

/-- The negative of the variable, with room for its sign only, in other pieces as well. -/
theorem written_prefix_of_negative :
    (single 1 (-1) (by simp)).writeTo (.empty (some 1)) = (false, ⟨[0x2d], some 0⟩) ∧
      [[0x2d, 0x78], []].flatten = ([0x2d, 0x78] : List UInt8) ∧
      (Sink.empty (some 1)).putAll [[0x2d, 0x78], []] = (false, ⟨[0x2d], some 0⟩) := by
  obtain ⟨_, text, _, _, _, others⟩ := written_prefix (single 1 (-1) (by simp)) 1
  have render : (single 1 (-1) (by simp)).render = ['-', 'x'] := by decide +kernel
  rw [render] at text
  exact ⟨text, rfl, (others [[0x2d, 0x78], []] [0x2d, 0x78] rfl).outcome⟩

end Poly

end SparsePoly
