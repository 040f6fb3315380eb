import SparsePoly.Expression.Parser
import SparsePoly.Expression.Printer
import SparsePoly.Storage.Error
import SparsePoly.Storage.Event
import SparsePoly.Storage.Sink
import SparsePoly.Storage.Source
import SparsePoly.Text.Bytes

/-!
# One polynomial, one line

A polynomial is kept as its text on one line.  Reading takes the first line and leaves the rest
unread, but looks whether there is any.

## Main definitions

* `Report` - a result, and the events on the way
* `Poly.readFrom` - reads the first line of a source
* `Poly.writeTo`, `Poly.writeLineTo` - writes the text, or the line

## Design decisions

* Of several faults the one that is met first counts: the source breaks before the end of the
  line, there is no line, its bytes are no text, the text is no expression, the source breaks
  after the line.
-/

namespace SparsePoly

/-- A result, and what happened on the way to it. -/
structure Report (α : Type) where
  /-- The result. -/
  result : Except StorageError α
  /-- The events, in order. -/
  events : List Event

namespace Report

/-- Nothing happened but the fault. -/
def fault {α : Type} (e : StorageError) : Report α := ⟨.error e, []⟩

end Report

namespace Poly

/-- The polynomial on a line, if there is a line. -/
def ofLine (line : List UInt8) : Except StorageError Poly :=
  if line.isEmpty then
    .error .missingLine
  else
    match Text.decode line with
    | none => .error (.failure .invalidText)
    | some text => (parse text).mapError .malformed

/-- **Reads the first line** of a source.  The source comes back as it is then. -/
def readFrom (s : Source) : Report Poly × Source :=
  match s.readLine with
  | (.error reason, s) => (.fault (.failure (.broken reason)), s)
  | (.ok line, s) =>
    match ofLine line with
    | .error e => (.fault e, s)
    | .ok p =>
      -- Only a look: what follows the line is not consumed.
      match s.window with
      | .error reason => (.fault (.failure (.broken reason)), s)
      | .ok more => (⟨.ok p, if more.isEmpty then [] else [.trailingContent]⟩, s)

/-- **Writes the text**, piece by piece.  The answer is whether all of it fitted. -/
def writeTo (p : Poly) (s : Sink) : Bool × Sink := s.putAll (p.pieces.map Text.encode)

/-- **Writes the line**: the text and a newline.  A sink that is full says so in its own words. -/
def writeLineTo (p : Poly) (s : Sink) (full : Failure := .noRoom) :
    Except StorageError Unit × Sink :=
  match s.putAll (p.pieces.map Text.encode ++ [[Source.newline]]) with
  | (true, s) => (.ok (), s)
  | (false, s) => (.error (.failure full), s)

end Poly

end SparsePoly
