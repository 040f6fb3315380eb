/-!
# Buffered sources of bytes

A source offers its next bytes in windows of limited size and forgets those that are consumed.  It
may break: after a given number of bytes every further request fails.

## Main definitions

* `Source` - what is left to read, and how it is offered
* `Source.window` - the next bytes, without consuming them
* `Source.readLine` - everything up to and including the next newline

## Main statements

* `Source.length_window_le`, `Source.rest_consume` - a window is a beginning of what is left

## Design decisions

* Reading a line consumes what it has looked at also when the source breaks before the line's
  end: the source that comes back stands where it broke.
-/

namespace SparsePoly

/-- The place where a source breaks, or a file while it is written. -/
structure Break where
  /-- The number of bytes that can still be read, or written. -/
  after : Nat
  /-- What the broken one then says. -/
  reason : String
  deriving DecidableEq

/-- A buffered source of bytes. -/
structure Source where
  /-- The bytes that have not been consumed. -/
  rest : List UInt8
  /-- The greatest number of bytes in a window, if limited. -/
  chunk : Option Nat
  /-- Where it breaks, if it does. -/
  breaks : Option Break
  deriving DecidableEq

namespace Source

/-- The beginning of a list, all of it without a limit. -/
def limited (limit : Option Nat) (bytes : List UInt8) : List UInt8 :=
  match limit with
  | some n => bytes.take n
  | none => bytes

/-- **The next bytes**, none only at the end; or what the broken source says. -/
def window (s : Source) : Except String (List UInt8) :=
  match s.breaks with
  | none => .ok (limited s.chunk s.rest)
  | some b => if b.after = 0 then .error b.reason else .ok (limited s.chunk (s.rest.take b.after))

/-- Consumes bytes. -/
def consume (s : Source) (count : Nat) : Source :=
  { s with
    rest := s.rest.drop count
    breaks := s.breaks.map fun b => { b with after := b.after - count } }

@[simp] theorem rest_consume (s : Source) (count : Nat) :
    (s.consume count).rest = s.rest.drop count := rfl

private theorem length_limited_le (limit : Option Nat) (bytes : List UInt8) :
    (limited limit bytes).length ≤ bytes.length := by
  cases limit with
  | none => exact Nat.le_refl _
  | some n => exact List.length_take_le' n bytes

/-- **A window is not longer than what is left.** -/
theorem length_window_le {s : Source} {bytes : List UInt8} (eq : s.window = .ok bytes) :
    bytes.length ≤ s.rest.length := by
  unfold window at eq
  split at eq
  · cases eq
    exact length_limited_le _ _
  · split at eq
    · cases eq
    · cases eq
      exact Nat.le_trans (length_limited_le _ _) (List.length_take_le' _ _)

/-! ### Lines -/

/-- The byte that ends a line. -/
def newline : UInt8 := 10

/-- The beginning of a list up to and including the first newline, all of it if there is none. -/
def throughNewline : List UInt8 → List UInt8
  | [] => []
  | b :: bs => if b = newline then [b] else b :: throughNewline bs

theorem length_throughNewline_le (bytes : List UInt8) :
    (throughNewline bytes).length ≤ bytes.length := by
  induction bytes with
  | nil => exact Nat.le_refl _
  | cons b bs ih =>
    unfold throughNewline
    split
    · simp
    · simp only [List.length_cons]
      omega

/-- **Reads a line**, with its newline if it has one: window after window is consumed up to the
first newline.  At the end of the source the line is what there was, perhaps nothing. -/
def readLine (s : Source) : Except String (List UInt8) × Source :=
  match _eq : s.window with
  | .error reason => (.error reason, s)
  | .ok bytes =>
    if _none_left : (throughNewline bytes).length = 0 then
      (.ok [], s)
    else if newline ∈ bytes then
      (.ok (throughNewline bytes), s.consume (throughNewline bytes).length)
    else
      let more := (s.consume (throughNewline bytes).length).readLine
      (more.1.map (throughNewline bytes ++ ·), more.2)
termination_by s.rest.length
decreasing_by
  have := length_window_le _eq
  have := length_throughNewline_le bytes
  rw [rest_consume, List.length_drop]
  omega

end Source

end SparsePoly
