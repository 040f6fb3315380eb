/-!
# Text as bytes

UTF-8, over lists: what a text is in a file, and which bytes are a text.

## Main statements

* `Text.decode_encode` - the bytes of a text are that text
* `Text.decode_eq_none_iff` - all other bytes are none
-/

namespace SparsePoly

namespace Text

/-- The bytes of a text. -/
def encode (text : List Char) : List UInt8 := text.flatMap String.utf8EncodeChar

/-- The text that bytes are, if they are one. -/
def decode (bytes : List UInt8) : Option (List Char) :=
  bytes.toByteArray.utf8Decode?.map Array.toList

@[simp] theorem encode_nil : encode [] = [] := rfl

@[simp] theorem encode_append (s t : List Char) : encode (s ++ t) = encode s ++ encode t := by
  simp [encode]

/-- The bytes of a text are those of its pieces. -/
theorem encode_flatten (pieces : List (List Char)) :
    encode pieces.flatten = (pieces.map encode).flatten := by
  induction pieces with
  | nil => rfl
  | cons piece pieces ih =>
    rw [List.flatten_cons, encode_append, ih, List.map_cons, List.flatten_cons]

/-- **The bytes of a text are that text.** -/
@[simp] theorem decode_encode (text : List Char) : decode (encode text) = some text := by
  have bytes : (encode text).toByteArray = text.utf8Encode := rfl
  simp [decode, bytes]

/-- **Other bytes are no text.** -/
theorem decode_eq_none_iff {bytes : List UInt8} :
    decode bytes = none ↔ ∀ text, bytes ≠ encode text := by
  constructor
  · rintro undecoded text rfl
    rw [decode_encode] at undecoded
    cases undecoded
  · intro other
    unfold decode
    rw [Option.map_eq_none_iff]
    cases decoded : bytes.toByteArray.utf8Decode? with
    | none => rfl
    | some chars =>
      have valid : bytes.toByteArray.utf8Decode?.isSome = true := by simp [decoded]
      obtain ⟨text, eq⟩ := ByteArray.isSome_utf8Decode?_iff.mp valid
      have lists := congrArg (fun b => b.data.toList) eq
      unfold List.utf8Encode at lists
      simp only [List.toList_data_toByteArray] at lists
      exact absurd lists (other text)

end Text

end SparsePoly
