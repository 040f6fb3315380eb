import SparsePoly.Storage.Line

/-!
# Polynomials in files

Loading and saving, as functions of what there is at the place of a file.

## Main definitions

* `Place` - what can be at the place
* `Poly.load` - the polynomial on the first line of the file there
* `Poly.save` - leaves a file that holds one line, and no more, whatever there was before

## Design decisions

* A file that can be opened or created may still break: loading and saving take the place where it
  does, if it does.  A file that breaks while it is saved has lost what it held, and keeps what has
  been written by then.
* Bytes may be held back and written together.  Neither the answer nor the file depends on that, so
  that it is left out: they are written as they come.
-/

namespace SparsePoly

/-- What there is at the place of a file. -/
inductive Place where
  /-- Nothing, but a file can be created. -/
  | vacant
  /-- A file. -/
  | file (content : List UInt8)
  /-- A directory. -/
  | directory
  /-- Nothing, and the directory for it is missing. -/
  | unreachable
  deriving DecidableEq

/-- A file can be created at the place.  One that is there already is emptied. -/
def Place.isCreatable : Place → Bool
  | vacant => true
  | file _ => true
  | directory => false
  | unreachable => false

namespace Poly

/-- **Loads a polynomial** from a file, which may break. -/
def load (place : Place) (breaks : Option Break := none) : Report Poly :=
  match place with
  | .vacant => .fault (.failure .notFound)
  | .unreachable => .fault (.failure .notFound)
  | .directory => .fault (.failure .isDirectory)
  | .file content =>
    let report := (readFrom ⟨content, none, breaks⟩).1
    match report.result with
    | .ok p => ⟨.ok p, report.events ++ [.loaded p.size]⟩
    | .error e => ⟨.error e, report.events⟩

/-- Writes the line to an empty file, which may break.  Only a file with the whole line has been
saved. -/
def fill (p : Poly) (breaks : Option Break) : Report Unit × Place :=
  match p.writeLineTo (.empty (breaks.map Break.after))
    ((breaks.map fun b => .broken b.reason).getD .noRoom) with
  | (.ok (), sink) => (⟨.ok (), [.saved p.size]⟩, .file sink.taken)
  | (.error e, sink) => (.fault e, .file sink.taken)

/-- **Saves a polynomial**, and says what is at the place afterwards. -/
def save (p : Poly) (place : Place) (breaks : Option Break := none) : Report Unit × Place :=
  match place with
  | .unreachable => (.fault (.failure .notFound), .unreachable)
  | .directory => (.fault (.failure .isDirectory), .directory)
  | .vacant => p.fill breaks
  | .file _ => p.fill breaks

theorem save_of_isCreatable (p : Poly) {place : Place} (creatable : place.isCreatable = true)
    (breaks : Option Break) : p.save place breaks = p.fill breaks := by
  cases place with
  | vacant => rfl
  | file old => rfl
  | directory => cases creatable
  | unreachable => cases creatable

/-- Where no file can be created there is an error, and all stays as it is. -/
theorem save_of_not_isCreatable (p : Poly) {place : Place} (not : place.isCreatable = false)
    (breaks : Option Break) : ∃ e, p.save place breaks = (.fault e, place) := by
  cases place with
  | vacant => cases not
  | file old => cases not
  | directory => exact ⟨_, rfl⟩
  | unreachable => exact ⟨_, rfl⟩

end Poly

end SparsePoly
