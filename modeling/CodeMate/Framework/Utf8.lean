import Mathlib.Data.List.Basic

/-!
# UTF-8

A text as its bytes and back (`decode_encode`, `decode?_encode`); a function
for what is not UTF-8 is a parameter of `decode`.
-/

namespace Framework.Utf8

def encode (text : List Char) : List UInt8 := text.flatMap String.utf8EncodeChar

/-- The text of the bytes; `replace` reads bytes that are not UTF-8. -/
def decode (replace : List UInt8 → List Char) (bytes : List UInt8) : List Char :=
  match bytes.toByteArray.utf8Decode? with
  | some chars => chars.toList
  | none => replace bytes

theorem encode_cons (c : Char) (text : List Char) : encode (c :: text) = String.utf8EncodeChar c ++ encode text :=
  List.flatMap_cons

theorem decode_encode (replace : List UInt8 → List Char) (text : List Char) : decode replace (encode text) = text := by
  rw [decode, show (encode text).toByteArray = text.utf8Encode from rfl, List.utf8Decode?_utf8Encode]

/-- `bytes.decode("utf-8")`; `none` for bytes that are not UTF-8. -/
def decode? (bytes : List UInt8) : Option (List Char) := bytes.toByteArray.utf8Decode?.map Array.toList

theorem decode?_encode (text : List Char) : decode? (encode text) = some text := by
  rw [decode?, show (encode text).toByteArray = text.utf8Encode from rfl, List.utf8Decode?_utf8Encode]
  rfl

end Framework.Utf8
