/-!
# Sinks of bytes

A sink takes bytes until it is full.  What does not fit is cut: the bytes that still fit are
taken, and the writer is told that something is missing.

## Main definitions

* `Sink` - what has been taken, and how much room is left
* `Sink.put`, `Sink.putAll` - puts bytes, or pieces one after another up to the first that does
  not fit
-/

namespace SparsePoly

/-- A sink of bytes. -/
structure Sink where
  /-- What has been taken. -/
  taken : List UInt8
  /-- The number of bytes that can still be taken, if limited. -/
  room : Option Nat
  deriving DecidableEq

namespace Sink

/-- An empty sink, with room for a number of bytes or for all. -/
def empty (room : Option Nat) : Sink := ⟨[], room⟩

/-- **Puts bytes**, as many as fit.  The answer is whether all did. -/
def put (s : Sink) (bytes : List UInt8) : Bool × Sink :=
  match s.room with
  | none => (true, { s with taken := s.taken ++ bytes })
  | some room =>
    (decide (bytes.length ≤ room), ⟨s.taken ++ bytes.take room, some (room - bytes.length)⟩)

/-- **Puts pieces** in order, and none after the first that does not fit. -/
def putAll (s : Sink) : List (List UInt8) → Bool × Sink
  | [] => (true, s)
  | piece :: pieces =>
    match s.put piece with
    | (true, s) => s.putAll pieces
    | (false, s) => (false, s)

/-- A sink without limit takes all pieces. -/
theorem putAll_unlimited (taken : List UInt8) (pieces : List (List UInt8)) :
    putAll ⟨taken, none⟩ pieces = (true, ⟨taken ++ pieces.flatten, none⟩) := by
  induction pieces generalizing taken with
  | nil => simp [putAll]
  | cons piece pieces ih => simp [putAll, put, ih]

/-- **What a limited sink takes**: the beginning of all pieces together, as long as the room. -/
theorem putAll_limited (taken : List UInt8) (room : Nat) (pieces : List (List UInt8)) :
    putAll ⟨taken, some room⟩ pieces =
      (decide (pieces.flatten.length ≤ room),
        ⟨taken ++ pieces.flatten.take room, some (room - pieces.flatten.length)⟩) := by
  induction pieces generalizing taken room with
  | nil => simp [putAll]
  | cons piece pieces ih =>
    rw [putAll, put, List.flatten_cons, List.length_append, List.take_append]
    by_cases fits : piece.length ≤ room
    · have rest : pieces.flatten.length ≤ room - piece.length ↔
          piece.length + pieces.flatten.length ≤ room := by omega
      simp only [fits, decide_true, ih, rest, List.take_of_length_le fits, List.append_assoc,
        Nat.sub_sub]
    · have beyond : ¬piece.length + pieces.flatten.length ≤ room := by omega
      have full : room - piece.length = 0 := by omega
      have full' : room - (piece.length + pieces.flatten.length) = 0 := by omega
      simp only [fits, beyond, decide_false, full, full', List.take_zero, List.append_nil]

end Sink

end SparsePoly
