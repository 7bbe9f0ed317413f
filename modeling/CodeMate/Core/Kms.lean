import Mathlib.Data.List.Basic
import CodeMate.Framework.Base64
import CodeMate.Framework.Fallible
import CodeMate.Framework.Json
import CodeMate.Framework.Text

/-!
# Credential envelopes

`encrypt_envelope` and `decrypt_envelope` with the local provider: a data key
encrypts the credential and is wrapped with the master key, and both
encryptions are bound to the purpose and to the owner by associated data. The
envelope carries the purpose and the hash of the owner as well, unprotected.

`envelopeAad_inj` and `localWrapAad_inj`: the associated data says for which
purpose and owner it is. `decryptEnvelope_ok` is the inversion of a decryption.
-/

namespace CodeMate.Core

open Framework

abbrev Bytes := List UInt8

/-- `text.encode()`. -/
def utf8 (text : String) : Bytes := text.toUTF8.data.toList

/-- What is used of `json` and `hashlib`. -/
structure Encodings where
  /-- `json.dumps(…, separators=(",", ":"), sort_keys=True).encode()`. -/
  dumps : Json → Bytes
  /-- `json.loads`; `none` for an exception. -/
  loads : Bytes → Option Json
  /-- `str` of what is no text. -/
  str : Json → String
  /-- `hashlib.sha256(text.encode()).digest()`. -/
  sha256 : String → Bytes

/-- An object of texts, as an envelope is but for its version. -/
def Plain (members : List (String × Json)) : Prop :=
  (members.map (·.1)).Nodup ∧ ∀ m ∈ members, (∃ text, m.2 = .str text) ∨ m.2 = .num 2

/-- What is relied on. -/
structure Encodings.Lawful (enc : Encodings) : Prop where
  loads_dumps {members : List (String × Json)} : Plain members →
    ∃ j, enc.loads (enc.dumps (.obj members)) = some j ∧ ∀ key, j.get key = (Json.obj members).get key
  sha256_injective : Function.Injective enc.sha256
  sha256_ne {text : String} : enc.sha256 text ≠ []

structure Settings where
  mcpRegistryMasterKey : String
  mcpRegistryPreviousMasterKey : String
deriving DecidableEq

inductive KMSError
  | configuration (message : String)
  | decryption (message : String)
deriving DecidableEq

/-- The digits of a byte. -/
def hexByte (b : UInt8) : List Char :=
  [Nat.digitChar (b.toNat / 16), Nat.digitChar (b.toNat % 16)]

def envelopePrefix : String := "codemate:kms:v2:"

def defaultEnvelopePurpose : String := "mcp-credential"

section

variable (enc : Encodings)

/-- `hashlib.sha256(text.encode()).hexdigest()`. -/
def hexdigest (text : String) : String := String.ofList ((enc.sha256 text).flatMap hexByte)

/-- `binding or "unbound"`. -/
def bound (binding : Option String) : String :=
  match binding with
  | none | some "" => "unbound"
  | some owner => owner

/-- `_binding_sha256`. -/
def bindingSha256 (binding : Option String) : String := hexdigest enc (bound binding)

/-- `KMS_CONTEXT`. -/
def kmsContext : List (String × Json) := [("application", .str "codemate"), ("purpose", .str defaultEnvelopePurpose)]

/-- `_envelope_context`. -/
def envelopeContext (purpose bindingSha256 : String) : List (String × Json) :=
  [("application", .str "codemate"), ("purpose", .str purpose), ("binding", .str bindingSha256)]

/-- `_envelope_aad`. -/
def envelopeAad (purpose bindingSha256 : String) : Bytes :=
  if purpose = defaultEnvelopePurpose then utf8 "codemate-mcp-credential-v2" ++ utf8 bindingSha256
  else utf8 "codemate-envelope-v2:" ++ utf8 purpose ++ utf8 ":" ++ utf8 bindingSha256

/-- `_local_wrap_aad`. -/
def localWrapAad (context : Option (List (String × Json))) : Bytes :=
  utf8 "codemate-local-envelope-key-v1:" ++ enc.dumps (.obj (match context with
    | none | some [] => kmsContext
    | some members => members))

/-- `_master_key`; `none` where it raises. -/
def masterKey (secret : String) : Option Bytes :=
  let value := Text.strip secret.toList
  if value.length < 16 then none else some (enc.sha256 (String.ofList value))

/-- `decrypt_data_key` of the local provider; `decrypt` is that of AES-GCM, on a key, a nonce, a ciphertext and its
associated data. -/
def decryptDataKey (decrypt : Bytes → Bytes → Bytes → Bytes → Option Bytes) (s : Settings) (encrypted : Bytes)
    (context : List (String × Json)) : Option Bytes :=
  [s.mcpRegistryMasterKey, s.mcpRegistryPreviousMasterKey].findSome? fun secret =>
    if Text.strip secret.toList = [] then none
    else (masterKey enc secret).bind fun key =>
      decrypt key (encrypted.take 12) (encrypted.drop 12) (localWrapAad enc (some context))

/-- The members of an envelope. -/
def envelopeMembers (purpose provider keyId bindingSha256 : String) (encryptedDataKey nonce ciphertext : Bytes) :
    List (String × Json) :=
  [("version", .num 2), ("algorithm", .str "AES-256-GCM"), ("purpose", .str purpose), ("kms_provider", .str provider),
    ("kms_key_id", .str keyId), ("binding_sha256", .str bindingSha256),
    ("encrypted_data_key", .str (String.ofList (Base64.encode encryptedDataKey))),
    ("nonce", .str (String.ofList (Base64.encode nonce))),
    ("ciphertext", .str (String.ofList (Base64.encode ciphertext)))]

/-- The text of an envelope. -/
def envelopeText (members : List (String × Json)) : String :=
  envelopePrefix ++ String.ofList (Base64.encode (enc.dumps (.obj members)))

/-- `DataKey`. -/
structure DataKey where
  plaintext : Bytes
  encrypted : Bytes
  keyId : String
  provider : String

/-- `generate_data_key` of the local provider, with the key and the nonce that were drawn; `encrypt` is that of AES-GCM,
on a key, a nonce, a plaintext and associated data. -/
def generateDataKey (encrypt : Bytes → Bytes → Bytes → Bytes → Bytes) (s : Settings)
    (context : Option (List (String × Json))) (dataKey nonce : Bytes) : Option DataKey :=
  (masterKey enc s.mcpRegistryMasterKey).map fun key =>
    ⟨dataKey, nonce ++ encrypt key nonce dataKey (localWrapAad enc context), "local-derived-key", "local"⟩

/-- What `os.urandom` draws for an envelope. -/
structure Drawn where
  dataKey : Bytes
  wrapNonce : Bytes
  nonce : Bytes

/-- `encrypt_envelope`; `none` where it raises. -/
def encryptEnvelope (encrypt : Bytes → Bytes → Bytes → Bytes → Bytes) (s : Settings) (plaintext : Bytes)
    (binding : Option String) (purpose : String) (drawn : Drawn) : Option String :=
  let hash := bindingSha256 enc binding
  (generateDataKey enc encrypt s (some (envelopeContext purpose hash)) drawn.dataKey drawn.wrapNonce).map
    fun generated =>
      let ciphertext := encrypt generated.plaintext drawn.nonce plaintext (envelopeAad purpose hash)
      envelopeText enc (envelopeMembers purpose generated.provider generated.keyId hash generated.encrypted drawn.nonce
        ciphertext)

/-- `str(value)`. -/
def text (value : Json) : String :=
  match value with
  | .str text => text
  | value => enc.str value

/-- `str(envelope.get(key) or default)`. -/
def textOr (value : Option Json) (default : String) : String :=
  match value with
  | none => default
  | some value => if value.truthy then text enc value else default

/-- `kms_provider`, where the local provider is configured and the one of AWS is not. -/
def kmsProvider (name : String) : Except KMSError Unit :=
  let provider := (String.ofList (Text.strip (if name = "" then "local" else name).toList)).toLower
  if provider = "local" then .ok ()
  else if provider = "aws" then .error (.configuration "MCP_REGISTRY_KMS_KEY_ID is required for AWS KMS")
  else .error (.configuration ("Unsupported MCP registry KMS provider: " ++ provider))

/-- `_unb64(envelope[key])`; `none` where it raises. -/
def part (envelope : Json) (key : String) : Option Bytes :=
  match envelope.get key with
  | some (.str text) => Base64.decode text.toList
  | _ => none

/-- What any other exception ends in. -/
def orFail {α : Type} : Option α → Except KMSError α
  | some a => .ok a
  | none => .error (.decryption "KMS credential envelope could not be decrypted")

/-- The envelope of a text, after its prefix. -/
def readEnvelope (encoded : List Char) : Option Json := (Base64.decode encoded).bind enc.loads

/-- The text after the prefix of an envelope. -/
def envelopeEncoded (value : String) : Option (List Char) :=
  if envelopePrefix.toList.isPrefixOf value.toList then some (value.toList.drop envelopePrefix.length) else none

/-- `decrypt_envelope`. -/
def decryptEnvelope (decrypt : Bytes → Bytes → Bytes → Bytes → Option Bytes) (s : Settings) (value : String)
    (binding : Option String) (purpose : String) : Except KMSError Bytes :=
  match envelopeEncoded value with
  | none => .error (.decryption "Credential is not a KMS envelope")
  | some encoded => do
    let envelope ← orFail (readEnvelope enc encoded)
    if envelope.get "version" ≠ some (.num 2) ∨ envelope.get "algorithm" ≠ some (.str "AES-256-GCM") then
      orFail none
    else
      let storedPurpose := textOr enc (envelope.get "purpose") defaultEnvelopePurpose
      let storedBinding := textOr enc (envelope.get "binding_sha256") (bindingSha256 enc none)
      if storedPurpose ≠ purpose then orFail none
      else if binding.isSome ∧ storedBinding ≠ bindingSha256 enc binding then orFail none
      else
        let provider ← orFail (envelope.get "kms_provider")
        kmsProvider (text enc provider)
        let encrypted ← orFail (part envelope "encrypted_data_key")
        let _ ← orFail (envelope.get "kms_key_id")
        let dataKey ← orFail (decryptDataKey enc decrypt s encrypted (envelopeContext storedPurpose storedBinding))
        let nonce ← orFail (part envelope "nonce")
        let ciphertext ← orFail (part envelope "ciphertext")
        orFail (decrypt dataKey nonce ciphertext (envelopeAad storedPurpose storedBinding))

/-- What an envelope carries under protection. -/
structure Parts where
  encryptedDataKey : Bytes
  nonce : Bytes
  ciphertext : Bytes
deriving DecidableEq

def envelopeParts (value : String) : Option Parts := do
  let envelope ← readEnvelope enc (← envelopeEncoded value)
  return ⟨← part envelope "encrypted_data_key", ← part envelope "nonce", ← part envelope "ciphertext"⟩

end

/-! ## Associated data -/

theorem utf8_append (a b : String) : utf8 (a ++ b) = utf8 a ++ utf8 b := by
  simp [utf8]

theorem utf8_inj {a b : String} (h : utf8 a = utf8 b) : a = b := by
  have hdata : a.toByteArray.data = b.toByteArray.data := Array.toList_inj.mp h
  exact String.toByteArray_inj.mp (ByteArray.ext hdata)

/-- What stands after the last separator, and what stands before it. -/
theorem append_last_inj {α : Type*} {x : α} {a b a' b' : List α} (hb : x ∉ b) (hb' : x ∉ b')
    (h : a ++ x :: b = a' ++ x :: b') : a = a' ∧ b = b' := by
  rcases List.append_eq_append_iff.mp h with ⟨as, rfl, hrest⟩ | ⟨as, rfl, hrest⟩
  · cases as with
    | nil => exact ⟨by simp, (List.cons.inj hrest).2⟩
    | cons y as =>
      have hmem : x ∈ b := (List.cons.inj hrest).2 ▸ List.mem_append_right as List.mem_cons_self
      exact absurd hmem hb
  · cases as with
    | nil => exact ⟨by simp, (List.cons.inj hrest).2.symm⟩
    | cons y as =>
      have hmem : x ∈ b' := (List.cons.inj hrest).2 ▸ List.mem_append_right as List.mem_cons_self
      exact absurd hmem hb'

theorem digitChar_spec : ∀ m < 16, Nat.digitChar m ≠ ':' ∧ ∀ n < 16, Nat.digitChar m = Nat.digitChar n → m = n := by
  decide

theorem hexByte_inj {a b : UInt8} (h : hexByte a = hexByte b) : a = b := by
  have ha := a.toNat_lt
  have hb := b.toNat_lt
  obtain ⟨hhigh, hrest⟩ := List.cons.inj h
  have hquot := (digitChar_spec (a.toNat / 16) (by omega)).2 (b.toNat / 16) (by omega) hhigh
  have hmod := (digitChar_spec (a.toNat % 16) (by omega)).2 (b.toNat % 16) (by omega) (List.cons.inj hrest).1
  exact UInt8.toNat_inj.mp (by omega)

theorem hex_inj {a b : Bytes} (h : a.flatMap hexByte = b.flatMap hexByte) : a = b := by
  induction a generalizing b with
  | nil =>
    cases b with
    | nil => rfl
    | cons y b => exact absurd h.symm (by simp [hexByte])
  | cons x a ih =>
    cases b with
    | nil => exact absurd h (by simp [hexByte])
    | cons y b =>
      rw [List.flatMap_cons, List.flatMap_cons] at h
      obtain ⟨hbyte, hrest⟩ := List.append_inj h (by simp [hexByte])
      rw [hexByte_inj hbyte, ih hrest]

variable {enc : Encodings}

theorem hexdigest_noColon (enc : Encodings) (text : String) : ':' ∉ (hexdigest enc text).toList := by
  rw [hexdigest, String.toList_ofList]
  intro hmem
  obtain ⟨b, -, hb⟩ := List.mem_flatMap.mp hmem
  have hlt := b.toNat_lt
  simp only [hexByte, List.mem_cons, List.not_mem_nil, or_false] at hb
  rcases hb with hb | hb
  · exact (digitChar_spec _ (by omega)).1 hb.symm
  · exact (digitChar_spec _ (by omega)).1 hb.symm

theorem hexdigest_inj (h : enc.Lawful) {a b : String} (heq : hexdigest enc a = hexdigest enc b) : a = b :=
  h.sha256_injective (hex_inj (String.ofList_inj.mp heq))

/-- The associated data of a credential says for which purpose and owner it was encrypted. -/
theorem envelopeAad_inj {purpose purpose' hash hash' : String} (hhash : ':' ∉ hash.toList) (hhash' : ':' ∉ hash'.toList)
    (h : envelopeAad purpose hash = envelopeAad purpose' hash') : purpose = purpose' ∧ hash = hash' := by
  have hother {p a b : String} :
      utf8 "codemate-mcp-credential-v2" ++ utf8 a ≠ utf8 "codemate-envelope-v2:" ++ utf8 p ++ utf8 ":" ++ utf8 b := by
    intro heq
    simp only [← utf8_append] at heq
    have hlist := congrArg String.toList (utf8_inj heq)
    simp at hlist
  unfold envelopeAad at h
  split at h
  · next hdefault =>
    split at h
    · next hdefault' => exact ⟨hdefault.trans hdefault'.symm, utf8_inj (List.append_cancel_left h)⟩
    · exact absurd h hother
  · split at h
    · exact absurd h.symm hother
    · simp only [List.append_assoc, List.append_cancel_left_eq] at h
      simp only [← utf8_append] at h
      have hlist := congrArg String.toList (utf8_inj h)
      simp only [String.toList_append] at hlist
      obtain ⟨hp, hh⟩ := append_last_inj hhash hhash' hlist
      exact ⟨String.toList_inj.mp hp, String.toList_inj.mp hh⟩

theorem plain_envelopeContext (purpose hash : String) : Plain (envelopeContext purpose hash) :=
  ⟨show ["application", "purpose", "binding"].Nodup by decide, by simp [envelopeContext]⟩

theorem plain_kmsContext : Plain kmsContext := ⟨by decide, by simp [kmsContext]⟩

theorem plain_envelopeMembers (purpose provider keyId hash : String) (encrypted nonce ciphertext : Bytes) :
    Plain (envelopeMembers purpose provider keyId hash encrypted nonce ciphertext) :=
  ⟨show ["version", "algorithm", "purpose", "kms_provider", "kms_key_id", "binding_sha256", "encrypted_data_key",
    "nonce", "ciphertext"].Nodup by decide, by simp [envelopeMembers]⟩

/-- What was written the same has the same members. -/
theorem get_of_dumps (h : enc.Lawful) {a b : List (String × Json)} (ha : Plain a) (hb : Plain b)
    (heq : enc.dumps (.obj a) = enc.dumps (.obj b)) (key : String) : (Json.obj a).get key = (Json.obj b).get key := by
  obtain ⟨j, hj, hget⟩ := h.loads_dumps ha
  obtain ⟨j', hj', hget'⟩ := h.loads_dumps hb
  rw [heq] at hj
  obtain rfl := Option.some.inj (hj.symm.trans hj')
  rw [← hget, hget']

/-- The associated data of a data key says for which purpose and owner it was wrapped. -/
theorem localWrapAad_inj (h : enc.Lawful) {purpose purpose' hash hash' : String}
    (heq : localWrapAad enc (some (envelopeContext purpose hash)) =
      localWrapAad enc (some (envelopeContext purpose' hash'))) : purpose = purpose' ∧ hash = hash' := by
  have hdumps : enc.dumps (.obj (envelopeContext purpose hash)) = enc.dumps (.obj (envelopeContext purpose' hash')) :=
    List.append_cancel_left heq
  have hget := get_of_dumps h (plain_envelopeContext _ _) (plain_envelopeContext _ _) hdumps
  exact ⟨Json.str.inj (Option.some.inj (hget "purpose")), Json.str.inj (Option.some.inj (hget "binding"))⟩

theorem localWrapAad_none (h : enc.Lawful) (purpose hash : String) :
    localWrapAad enc none ≠ localWrapAad enc (some (envelopeContext purpose hash)) := by
  intro heq
  have hdumps : enc.dumps (.obj kmsContext) = enc.dumps (.obj (envelopeContext purpose hash)) :=
    List.append_cancel_left heq
  have hget := get_of_dumps h plain_kmsContext (plain_envelopeContext _ _) hdumps "binding"
  exact absurd (show none = some (Json.str hash) from hget).symm (Option.some_ne_none _)

/-! ## Encryption -/

theorem encryptEnvelope_some {encrypt : Bytes → Bytes → Bytes → Bytes → Bytes} {s : Settings} {plaintext : Bytes}
    {binding : Option String} {purpose value : String} {drawn : Drawn}
    (h : encryptEnvelope enc encrypt s plaintext binding purpose drawn = some value) :
    ∃ master, masterKey enc s.mcpRegistryMasterKey = some master ∧
      value = envelopeText enc (envelopeMembers purpose "local" "local-derived-key" (bindingSha256 enc binding)
        (drawn.wrapNonce ++ encrypt master drawn.wrapNonce drawn.dataKey
          (localWrapAad enc (some (envelopeContext purpose (bindingSha256 enc binding)))))
        drawn.nonce
        (encrypt drawn.dataKey drawn.nonce plaintext (envelopeAad purpose (bindingSha256 enc binding)))) := by
  obtain ⟨generated, hgenerated, rfl⟩ := Option.map_eq_some_iff.mp h
  obtain ⟨master, hmaster, rfl⟩ := Option.map_eq_some_iff.mp hgenerated
  exact ⟨master, hmaster, rfl⟩

/-! ## Decryption -/

variable {decrypt : Bytes → Bytes → Bytes → Bytes → Option Bytes} {s : Settings}

theorem orFail_ok {α : Type} {x : Option α} {a : α} (h : orFail x = .ok a) : x = some a := by
  cases x with
  | none => cases h
  | some b =>
    obtain rfl := Except.ok.inj h
    rfl

/-- What a decryption that succeeds has read and checked. -/
theorem decryptEnvelope_ok {value purpose : String} {binding : Option String} {plaintext : Bytes}
    (h : decryptEnvelope enc decrypt s value binding purpose = .ok plaintext) :
    ∃ parts hash dataKey, envelopeParts enc value = some parts ∧ (binding.isSome → hash = bindingSha256 enc binding) ∧
      decryptDataKey enc decrypt s parts.encryptedDataKey (envelopeContext purpose hash) = some dataKey ∧
      decrypt dataKey parts.nonce parts.ciphertext (envelopeAad purpose hash) = some plaintext := by
  unfold decryptEnvelope at h
  cases hencoded : envelopeEncoded value with
  | none =>
    rw [hencoded] at h
    cases h
  | some encoded =>
    rw [hencoded] at h
    obtain ⟨envelope, hread, h⟩ := bind_ok h
    split at h
    · cases h
    dsimp only at h
    split at h
    · cases h
    next hpurpose =>
    split at h
    · cases h
    next hbinding =>
    obtain ⟨provider, -, h⟩ := bind_ok h
    obtain ⟨-, -, h⟩ := bind_ok h
    obtain ⟨encrypted, hencrypted, h⟩ := bind_ok h
    obtain ⟨-, -, h⟩ := bind_ok h
    obtain ⟨dataKey, hdataKey, h⟩ := bind_ok h
    obtain ⟨nonce, hnonce, h⟩ := bind_ok h
    obtain ⟨ciphertext, hciphertext, h⟩ := bind_ok h
    rw [not_not.mp hpurpose] at hdataKey h
    refine ⟨⟨encrypted, nonce, ciphertext⟩, _, dataKey, ?_, fun hsome => ?_, orFail_ok hdataKey, orFail_ok h⟩
    · simp only [envelopeParts, hencoded, orFail_ok hread, orFail_ok hencrypted, orFail_ok hnonce,
        orFail_ok hciphertext, Option.bind_eq_bind, Option.bind_some, Option.pure_def]
    · by_contra hne
      exact hbinding ⟨hsome, hne⟩

/-- The envelope that is read of a text, and the parts of it. -/
theorem readEnvelope_text (h : enc.Lawful) {members : List (String × Json)} (hplain : Plain members) :
    ∃ encoded envelope, envelopeEncoded (envelopeText enc members) = some encoded ∧
      readEnvelope enc encoded = some envelope ∧ ∀ key, envelope.get key = (Json.obj members).get key := by
  obtain ⟨envelope, hloads, hget⟩ := h.loads_dumps hplain
  refine ⟨Base64.encode (enc.dumps (.obj members)), envelope, ?_, ?_, hget⟩
  · unfold envelopeEncoded envelopeText
    rw [String.toList_append, String.toList_ofList,
      if_pos (List.isPrefixOf_iff_prefix.mpr (List.prefix_append _ _)), ← String.length_toList,
      List.drop_left]
  · rw [readEnvelope, Base64.decode_encode]
    exact hloads

theorem kmsProvider_local : kmsProvider "local" = .ok () := by
  have hlocal : (String.ofList (Text.strip (if "local" = "" then "local" else "local").toList)).toLower = "local" := by
    decide +kernel
  unfold kmsProvider
  rw [hlocal]
  rfl

theorem part_text {envelope : Json} {key : String} {bytes : Bytes}
    (h : envelope.get key = some (.str (String.ofList (Base64.encode bytes)))) : part envelope key = some bytes := by
  simp only [part, h, String.toList_ofList, Base64.decode_encode]

/-- What was encrypted is decrypted with the same purpose and owner, where the data key is unwrapped. -/
theorem decryptEnvelope_text (h : enc.Lawful) {purpose : String} (hpurpose : purpose ≠ "") {binding : Option String}
    {encrypted nonce ciphertext dataKey plaintext : Bytes}
    (hdataKey : decryptDataKey enc decrypt s encrypted (envelopeContext purpose (bindingSha256 enc binding)) =
      some dataKey)
    (hplaintext : decrypt dataKey nonce ciphertext (envelopeAad purpose (bindingSha256 enc binding)) = some plaintext) :
    decryptEnvelope enc decrypt s
      (envelopeText enc (envelopeMembers purpose "local" "local-derived-key" (bindingSha256 enc binding) encrypted nonce
        ciphertext)) binding purpose = .ok plaintext := by
  obtain ⟨encoded, envelope, hencoded, hread, hget⟩ := readEnvelope_text h
    (plain_envelopeMembers purpose "local" "local-derived-key" (bindingSha256 enc binding) encrypted nonce ciphertext)
  have htext {key text : String} (hkey : envelope.get key = some (.str text)) (hne : text ≠ "") (default : String) :
      textOr enc (envelope.get key) default = text := by
    rw [hkey, textOr]
    exact if_pos (decide_eq_true hne)
  have hhash : bindingSha256 enc binding ≠ "" := by
    intro hempty
    have hlist := congrArg String.toList hempty
    rw [bindingSha256, hexdigest, String.toList_ofList] at hlist
    cases hdigest : enc.sha256 (bound binding) with
    | nil => exact h.sha256_ne hdigest
    | cons b rest => simp [hdigest, hexByte] at hlist
  have hstored : textOr enc (envelope.get "purpose") defaultEnvelopePurpose = purpose :=
    htext (hget "purpose") hpurpose _
  have hbound : textOr enc (envelope.get "binding_sha256") (bindingSha256 enc none) = bindingSha256 enc binding :=
    htext (hget "binding_sha256") hhash _
  have hversion : envelope.get "version" = some (.num 2) := hget "version"
  have halgorithm : envelope.get "algorithm" = some (.str "AES-256-GCM") := hget "algorithm"
  have hprovider : envelope.get "kms_provider" = some (.str "local") := hget "kms_provider"
  have hkeyId : envelope.get "kms_key_id" = some (.str "local-derived-key") := hget "kms_key_id"
  have hencrypted : part envelope "encrypted_data_key" = some encrypted := part_text (hget "encrypted_data_key")
  have hnonce : part envelope "nonce" = some nonce := part_text (hget "nonce")
  have hciphertext : part envelope "ciphertext" = some ciphertext := part_text (hget "ciphertext")
  unfold decryptEnvelope
  rw [hencoded]
  simp [hread, hversion, halgorithm, hprovider, hkeyId, hstored, hbound, hencrypted, hnonce, hciphertext, orFail, text,
    kmsProvider_local, hdataKey, hplaintext, bind, Except.bind]

end CodeMate.Core
