/-!
# Events

What storage reports besides its result, in the order in which it happens.
-/

namespace SparsePoly

/-- How much an event matters. -/
inductive Level where
  /-- Something was left out. -/
  | warning
  /-- For the record. -/
  | debug
  deriving DecidableEq

/-- Something worth reporting. -/
inductive Event where
  /-- There is more than the one line that was read. -/
  | trailingContent
  /-- A polynomial with this number of terms was loaded. -/
  | loaded (terms : Nat)
  /-- A polynomial with this number of terms was saved. -/
  | saved (terms : Nat)
  deriving DecidableEq

namespace Event

/-- How much it matters. -/
def level : Event → Level
  | trailingContent => .warning
  | loaded _ => .debug
  | saved _ => .debug

/-- The wording. -/
def message : Event → String
  | trailingContent => "ignoring content after the first line"
  | loaded _ => "loaded polynomial"
  | saved _ => "saved polynomial"

/-- The number of terms, where one is reported. -/
def terms? : Event → Option Nat
  | trailingContent => none
  | loaded terms => some terms
  | saved terms => some terms

end Event

end SparsePoly
