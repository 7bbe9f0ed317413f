import CodeMate.Framework.Json

/-!
# Encodings

The encodings of JSON values that the services use. They are parameters:
nothing here depends on how a value is written as text, and only what compares
digests depends on SHA-256.
-/

namespace CodeMate

open Framework

structure Codec where
  /-- `canonical_json`: sorted keys, no blanks. -/
  canonicalJson : Json → String
  /-- `json.dumps` with sorted keys. -/
  dumps : Json → String
  sha256 : String → String
  str : Json → String

namespace Codec

variable (codec : Codec)

/-- `sha256_json`, and `sha256_arguments` of the router. -/
def sha256Json (value : Json) : String := codec.sha256 (codec.canonicalJson value)

end Codec

end CodeMate
