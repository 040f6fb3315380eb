import SparsePoly.Expression.Error

/-!
# Failures of storage

What can go wrong between a polynomial and the bytes that hold it, and the wording.

## Main definitions

* `Failure` - the causes that lie with the input or output itself
* `StorageError` - these, and the ones that lie with what was read
-/

namespace SparsePoly

/-- Why bytes could not be read or written. -/
inductive Failure where
  /-- The source broke, or the file that was written, and says why. -/
  | broken (reason : String)
  /-- The bytes of a line are no text. -/
  | invalidText
  /-- The sink is full. -/
  | noRoom
  /-- There is nothing at a place, or nothing can be created there. -/
  | notFound
  /-- There is a directory at a place. -/
  | isDirectory
  deriving DecidableEq

/-- The wording. -/
def Failure.message : Failure → String
  | broken reason => reason
  | invalidText => "stream did not contain valid UTF-8"
  | noRoom => "failed to write whole buffer"
  | notFound => "No such file or directory (os error 2)"
  | isDirectory => "Is a directory (os error 21)"

/-- Why a polynomial could not be read or written. -/
inductive StorageError where
  /-- Reading or writing failed. -/
  | failure (cause : Failure)
  /-- There is no line to read. -/
  | missingLine
  /-- The line is no expression. -/
  | malformed (cause : ParseError)
  deriving DecidableEq

/-- The wording. -/
def StorageError.message : StorageError → String
  | failure cause => "I/O error: " ++ cause.message
  | missingLine => "no polynomial line found"
  | malformed cause => "malformed polynomial: " ++ cause.message

end SparsePoly
