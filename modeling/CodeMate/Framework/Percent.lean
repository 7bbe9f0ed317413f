import CodeMate.Framework.Utf8

/-!
# Percent encoding

`encode` writes every character of a text that is not safe as the escapes of
its bytes, `decode` reads them back (`decode_encode`). A text is its own
encoding exactly if all of it is safe (`encode_length`), and an encoding is its
own encoding again if escapes are safe (`encode_encode`).
-/

namespace Framework.Percent

def hexDigit (n : ℕ) : Char := if n < 10 then Char.ofNat (48 + n) else Char.ofNat (55 + n)

def hexValue (c : Char) : Option ℕ :=
  if c.isDigit then some (c.toNat - 48)
  else if 'A' ≤ c ∧ c ≤ 'F' then some (c.toNat - 55)
  else if 'a' ≤ c ∧ c ≤ 'f' then some (c.toNat - 87)
  else none

def escape (byte : UInt8) : List Char := ['%', hexDigit (byte.toNat / 16), hexDigit (byte.toNat % 16)]

def encodeChar (safe : Char → Bool) (c : Char) : List Char :=
  if safe c then [c] else (String.utf8EncodeChar c).flatMap escape

def encode (safe : Char → Bool) (text : List Char) : List Char := text.flatMap (encodeChar safe)

/-- The bytes of a text with its escapes read; what is no escape stands for itself. -/
def decodeBytes : List Char → List UInt8
  | [] => []
  | '%' :: a :: b :: rest =>
    match hexValue a, hexValue b with
    | some high, some low => UInt8.ofNat (16 * high + low) :: decodeBytes rest
    | _, _ => String.utf8EncodeChar '%' ++ decodeBytes (a :: b :: rest)
  | c :: rest => String.utf8EncodeChar c ++ decodeBytes rest

def decode (replace : List UInt8 → List Char) (text : List Char) : List Char := Utf8.decode replace (decodeBytes text)

theorem hexValue_hexDigit {n : ℕ} (h : n < 16) : hexValue (hexDigit n) = some n := by
  have hall : ∀ n < 16, hexValue (hexDigit n) = some n := by decide
  exact hall n h

theorem decodeBytes_escape (byte : UInt8) (rest : List Char) :
    decodeBytes (escape byte ++ rest) = byte :: decodeBytes rest := by
  have hbyte := byte.toNat_lt
  show decodeBytes ('%' :: _ :: _ :: rest) = _
  rw [decodeBytes, hexValue_hexDigit (by omega), hexValue_hexDigit (by omega)]
  dsimp only
  rw [show 16 * (byte.toNat / 16) + byte.toNat % 16 = byte.toNat by omega, UInt8.ofNat_toNat]

theorem decodeBytes_escapes (bytes : List UInt8) (rest : List Char) :
    decodeBytes (bytes.flatMap escape ++ rest) = bytes ++ decodeBytes rest := by
  induction bytes with
  | nil => rfl
  | cons byte bytes ih =>
    rw [List.flatMap_cons, List.append_assoc, decodeBytes_escape, ih]
    rfl

theorem decodeBytes_cons {c : Char} (h : c ≠ '%') (rest : List Char) :
    decodeBytes (c :: rest) = String.utf8EncodeChar c ++ decodeBytes rest := by
  rw [decodeBytes]
  rintro a b rest' rfl
  exact absurd rfl h

variable {safe : Char → Bool}

theorem encode_cons (c : Char) (text : List Char) : encode safe (c :: text) = encodeChar safe c ++ encode safe text :=
  List.flatMap_cons

theorem decodeBytes_encode (hsafe : safe '%' = false) (text rest : List Char) :
    decodeBytes (encode safe text ++ rest) = Utf8.encode text ++ decodeBytes rest := by
  induction text with
  | nil => rfl
  | cons c text ih =>
    rw [encode_cons, List.append_assoc, encodeChar]
    split
    · next hc =>
      have hne : c ≠ '%' := fun h => by simp [h, hsafe] at hc
      rw [List.singleton_append, decodeBytes_cons hne, ih, Utf8.encode_cons, List.append_assoc]
    · rw [decodeBytes_escapes, ih, Utf8.encode_cons, List.append_assoc]

/-- A text is read off its bytes. -/
theorem decode_of_bytes (replace : List UInt8 → List Char) {text written : List Char}
    (h : decodeBytes written = Utf8.encode text) : decode replace written = text := by
  rw [decode, h, Utf8.decode_encode]

theorem decode_encode (replace : List UInt8 → List Char) (hsafe : safe '%' = false) (text : List Char) :
    decode replace (encode safe text) = text :=
  decode_of_bytes replace (by simpa [decodeBytes] using decodeBytes_encode hsafe text [])

/-! ## Length -/

theorem length_escapes (bytes : List UInt8) : (bytes.flatMap escape).length = 3 * bytes.length := by
  induction bytes with
  | nil => rfl
  | cons byte bytes ih =>
    rw [List.flatMap_cons, List.length_append, ih, List.length_cons]
    show 3 + _ = _
    omega

theorem length_encodeChar (c : Char) :
    (encodeChar safe c).length = 1 ∧ safe c = true ∨ 1 < (encodeChar safe c).length ∧ safe c = false := by
  unfold encodeChar
  split
  · next h => exact .inl ⟨rfl, h⟩
  · next h =>
    have := List.length_pos_iff.mpr (String.utf8EncodeChar_ne_nil (c := c))
    rw [length_escapes]
    exact .inr ⟨by omega, Bool.eq_false_iff.mpr h⟩

theorem length_le_encode (text : List Char) : text.length ≤ (encode safe text).length := by
  induction text with
  | nil => exact Nat.le_refl 0
  | cons c text ih =>
    rw [encode_cons, List.length_append, List.length_cons]
    rcases @length_encodeChar safe c with ⟨h, -⟩ | ⟨h, -⟩ <;> omega

/-- Nothing is escaped where the encoding is no longer than the text. -/
theorem encode_length {text : List Char} (h : (encode safe text).length ≤ text.length) :
    ∀ c ∈ text, safe c = true := by
  induction text with
  | nil => exact nofun
  | cons c text ih =>
    rw [encode_cons, List.length_append, List.length_cons] at h
    have hrest := @length_le_encode safe text
    rcases @length_encodeChar safe c with ⟨hc, hsafe⟩ | ⟨hc, -⟩
    · exact List.forall_mem_cons.mpr ⟨hsafe, ih (by omega)⟩
    · omega

/-! ## Encoding twice -/

theorem encode_self {text : List Char} (h : ∀ c ∈ text, safe c = true) : encode safe text = text := by
  induction text with
  | nil => rfl
  | cons c text ih =>
    obtain ⟨hc, hrest⟩ := List.forall_mem_cons.mp h
    rw [encode_cons, encodeChar, if_pos hc, ih hrest]
    rfl

/-- An encoding consists of safe characters of the text and of escapes. -/
theorem mem_encode {text : List Char} {c : Char} (h : c ∈ encode safe text) :
    c ∈ text ∧ safe c = true ∨ c = '%' ∨ ∃ n < 16, c = hexDigit n := by
  obtain ⟨d, hd, hc⟩ := List.mem_flatMap.mp h
  unfold encodeChar at hc
  split at hc
  · next hsafe =>
    obtain rfl := List.mem_singleton.mp hc
    exact .inl ⟨hd, hsafe⟩
  · obtain ⟨byte, -, hc⟩ := List.mem_flatMap.mp hc
    have hbyte := byte.toNat_lt
    simp only [escape, List.mem_cons, List.not_mem_nil, or_false] at hc
    rcases hc with rfl | rfl | rfl
    · exact .inr (.inl rfl)
    · exact .inr (.inr ⟨_, by omega, rfl⟩)
    · exact .inr (.inr ⟨_, by omega, rfl⟩)

theorem encode_encode (hpercent : safe '%' = true) (hdigits : ∀ n < 16, safe (hexDigit n) = true) (text : List Char) :
    encode safe (encode safe text) = encode safe text := by
  refine encode_self fun c hc => ?_
  rcases mem_encode hc with ⟨-, h⟩ | rfl | ⟨n, hn, rfl⟩
  · exact h
  · exact hpercent
  · exact hdigits n hn

end Framework.Percent
