import CodeMate.Framework.Fallible
import Mathlib.Data.List.Basic

/-!
# Signed identities

The headers with which a proxy vouches for its user, for the product API and
for the evaluation API. Each is normalised and parsed, the timestamp has to be
in a window around the clock (`InWindow`), and the signature is that of the
values as they were parsed. `verify_window` is what the later checks rest on:
an identity that is accepted is in its window.
-/

namespace CodeMate.Api

open Framework

/-! ## Texts of headers -/

/-- `str.isspace`, for the characters of a header. -/
def isSpace (c : Char) : Bool := c.toNat ∈ [9, 10, 11, 12, 13, 28, 29, 30, 31, 32, 0x85, 0xa0]

/-- `str.isalnum`, for the characters of a header. -/
def isAlnum (c : Char) : Bool :=
  c.isAlphanum || c.toNat ∈ [0xaa, 0xb2, 0xb3, 0xb5, 0xb9, 0xba, 0xbc, 0xbd, 0xbe] ||
    (0xc0 ≤ c.toNat && c.toNat ≤ 0xff && c.toNat ≠ 0xd7 && c.toNat ≠ 0xf7)

def strip (text : String) : String :=
  String.ofList ((text.toList.dropWhile isSpace).reverse.dropWhile isSpace).reverse

def digit (c : Char) : Option Nat := if c.isDigit then some (c.toNat - 48) else none

/-- The digits after the first, with a single `_` between two of them at most. -/
def digitsFrom (value : Nat) : List Char → Option Nat
  | [] => some value
  | '_' :: c :: cs => (digit c).bind fun d => digitsFrom (10 * value + d) cs
  | c :: cs => (digit c).bind fun d => digitsFrom (10 * value + d) cs

def digits : List Char → Option Nat
  | [] => none
  | c :: cs => (digit c).bind fun d => digitsFrom d cs

/-- `int(text)`; `none` for a `ValueError`. -/
def toInt (text : String) : Option Int :=
  match (strip text).toList with
  | '-' :: cs => (digits cs).map fun n => -(n : Int)
  | '+' :: cs => (digits cs).map fun n => (n : Int)
  | cs => (digits cs).map fun n => (n : Int)

/-! ## The checks -/

structure HttpException where
  statusCode : Nat
  detail : String
  deriving DecidableEq

def invalidIdentitySignature : HttpException := ⟨401, "Valid evaluation identity signature required"⟩

def productIdentityRequired : HttpException := ⟨401, "Valid signed product identity required"⟩

inductive Scheme
  | product
  | evaluation
  deriving DecidableEq

inductive EvaluationRole
  | admin
  | viewer
  deriving DecidableEq

def EvaluationRole.text : EvaluationRole → String
  | .admin => "admin"
  | .viewer => "viewer"

/-- A principal with the timestamp and the nonce that were signed for it; the product API has no roles. -/
structure SignedIdentity where
  scheme : Scheme
  role : Option EvaluationRole
  login : String
  provider : String
  timestamp : Int
  nonce : String
  deriving DecidableEq

structure IdentityHeaders where
  role : Option String
  user : Option String
  provider : Option String
  timestamp : Option String
  nonce : Option String
  signature : Option String

structure HttpRequest where
  method : String
  path : String
  query : String

/-- The settings, and `sign` the signature of a payload with a secret. -/
structure IdentitySettings where
  sign : String → String → String
  productIdentitySecret : Option String
  productIdentityPreviousSecret : Option String
  productIdentityTtlSeconds : Int
  proxyIdentitySecret : Option String
  proxyIdentityPreviousSecret : Option String
  proxyIdentityTtlSeconds : Int

def headerIdentityValue (value : Option String) (default : String) : Except HttpException String :=
  let normalized := strip (value.getD "")
  if normalized = "" then .ok default
  else if 128 < normalized.length ∨ normalized.toList.any (· ∈ ['\r', '\n']) then
    .error ⟨400, "Evaluation identity header is too long"⟩
  else .ok normalized

def parseEvaluationRole (role : Option String) : Except HttpException (Option EvaluationRole) :=
  match role with
  | none => .ok none
  | some role =>
    let normalized := (strip role).toLower
    if normalized = "" then .ok none
    else if normalized = "admin" then .ok (some .admin)
    else if normalized = "viewer" then .ok (some .viewer)
    else .error ⟨400, "Invalid evaluation role header"⟩

def parseIdentityTimestamp (timestamp : String) : Except HttpException Int :=
  match toInt timestamp with
  | some value => .ok value
  | none => .error invalidIdentitySignature

def parseIdentityNonce (nonce : String) : Except HttpException String :=
  let normalized := strip nonce
  if ¬ (16 ≤ normalized.length ∧ normalized.length ≤ 128) then .error invalidIdentitySignature
  else if ¬ normalized.toList.all (fun c => isAlnum c || c ∈ ['-', '_', '.']) then .error invalidIdentitySignature
  else .ok normalized

def pathWithQuery (request : HttpRequest) : String :=
  if request.query = "" then request.path else request.path ++ "?" ++ request.query

/-- The lines that are signed; those of the product API have no role. -/
def signaturePayload (request : HttpRequest) (identity : SignedIdentity) : String :=
  "\n".intercalate (["v1", toString identity.timestamp, identity.nonce, request.method.toUpper, pathWithQuery request] ++
    identity.role.toList.map EvaluationRole.text ++ [identity.login, identity.provider])

def currentSecret (secret : Option String) (expectedToken : String) : String :=
  let secret := strip (secret.getD "")
  if secret = "" then expectedToken else secret

/-- The secrets with which a signature may be made, the current one first. -/
def IdentitySettings.verificationSecrets (settings : IdentitySettings) (expectedToken : String) : Scheme → List String
  | .product =>
    let current := currentSecret settings.productIdentitySecret expectedToken
    let previous := strip (settings.productIdentityPreviousSecret.getD "")
    [current] ++ if previous ≠ "" ∧ previous ≠ current then [previous] else []
  | .evaluation =>
    let current := currentSecret settings.proxyIdentitySecret expectedToken
    let previous := strip (settings.proxyIdentityPreviousSecret.getD "")
    [current] ++ if previous ≠ "" ∧ previous ≠ current then [previous] else []

def IdentitySettings.ttlSeconds (settings : IdentitySettings) : Scheme → Int
  | .product => max 1 settings.productIdentityTtlSeconds
  | .evaluation => max 1 settings.proxyIdentityTtlSeconds

/-- The timestamp is at most the time to live old, and at most a minute ahead. -/
def InWindow (timestamp now ttlSeconds : Int) : Prop := ¬ (timestamp < now - ttlSeconds ∨ timestamp > now + 60)

instance (timestamp now ttlSeconds : Int) : Decidable (InWindow timestamp now ttlSeconds) :=
  inferInstanceAs (Decidable (¬ _))

/-- The window and the signature, with the error of the scheme. -/
def checkIdentity (settings : IdentitySettings) (request : HttpRequest) (expectedToken signature : String)
    (identity : SignedIdentity) (now : Int) (rejected : HttpException) : Except HttpException SignedIdentity :=
  if ¬ InWindow identity.timestamp now (settings.ttlSeconds identity.scheme) then .error rejected
  else if ¬ (settings.verificationSecrets expectedToken identity.scheme).any
      (fun secret => strip signature = settings.sign (signaturePayload request identity) secret) then .error rejected
  else .ok identity

/-- `get_product_principal` from the headers on, up to the nonce. -/
def verifyProductIdentity (settings : IdentitySettings) (request : HttpRequest) (expectedToken : String)
    (headers : IdentityHeaders) (now : Int) : Except HttpException SignedIdentity :=
  if [headers.user, headers.provider, headers.timestamp, headers.nonce, headers.signature].any (·.getD "" = "") then
    .error productIdentityRequired
  else do
    let login ← headerIdentityValue headers.user ""
    let provider ← headerIdentityValue headers.provider ""
    if login = "" ∨ provider = "" then .error productIdentityRequired
    else do
      let nonce ← parseIdentityNonce (headers.nonce.getD "")
      let timestamp ← parseIdentityTimestamp (headers.timestamp.getD "")
      checkIdentity settings request expectedToken (headers.signature.getD "")
        ⟨.product, none, login, provider, timestamp, nonce⟩ now productIdentityRequired

/-- `signed_evaluation_principal`, up to the nonce. -/
def verifyEvaluationIdentity (settings : IdentitySettings) (request : HttpRequest) (expectedToken : String)
    (headers : IdentityHeaders) (now : Int) : Except HttpException SignedIdentity :=
  if [headers.role, headers.user, headers.provider, headers.timestamp, headers.nonce, headers.signature].any
      (·.getD "" = "") then
    .error invalidIdentitySignature
  else do
    let role ← parseEvaluationRole headers.role
    if role = none then .error invalidIdentitySignature
    else do
      let login ← headerIdentityValue headers.user ""
      let provider ← headerIdentityValue headers.provider ""
      if login = "" ∨ provider = "" then .error invalidIdentitySignature
      else do
        let nonce ← parseIdentityNonce (headers.nonce.getD "")
        let timestamp ← parseIdentityTimestamp (headers.timestamp.getD "")
        checkIdentity settings request expectedToken (headers.signature.getD "")
          ⟨.evaluation, role, login, provider, timestamp, nonce⟩ now invalidIdentitySignature

def verifyIdentity (settings : IdentitySettings) (request : HttpRequest) (expectedToken : String)
    (headers : IdentityHeaders) (now : Int) : Scheme → Except HttpException SignedIdentity
  | .product => verifyProductIdentity settings request expectedToken headers now
  | .evaluation => verifyEvaluationIdentity settings request expectedToken headers now

/-! ## What was checked -/

variable {settings : IdentitySettings} {request : HttpRequest} {expectedToken signature : String}
  {headers : IdentityHeaders} {now : Int} {rejected : HttpException} {identity checked : SignedIdentity}

/-- What passes the last check is the identity that was parsed, in its window. -/
theorem checkIdentity_ok (h : checkIdentity settings request expectedToken signature identity now rejected = .ok checked) :
    checked = identity ∧ InWindow identity.timestamp now (settings.ttlSeconds identity.scheme) := by
  unfold checkIdentity at h
  split at h
  · cases h
  · next hwindow =>
    split at h
    · cases h
    · exact ⟨(Except.ok.inj h).symm, not_not.mp hwindow⟩

/-- An identity that is accepted is one of the scheme, in its window. -/
theorem verify_window {scheme : Scheme}
    (h : verifyIdentity settings request expectedToken headers now scheme = .ok identity) :
    identity.scheme = scheme ∧ InWindow identity.timestamp now (settings.ttlSeconds scheme) := by
  cases scheme with
  | product =>
    simp only [verifyIdentity, verifyProductIdentity] at h
    split at h
    · cases h
    · obtain ⟨login, -, h⟩ := bind_ok h
      obtain ⟨provider, -, h⟩ := bind_ok h
      split at h
      · cases h
      · obtain ⟨nonce, -, h⟩ := bind_ok h
        obtain ⟨timestamp, -, h⟩ := bind_ok h
        obtain ⟨rfl, hwindow⟩ := checkIdentity_ok h
        exact ⟨rfl, hwindow⟩
  | evaluation =>
    simp only [verifyIdentity, verifyEvaluationIdentity] at h
    split at h
    · cases h
    · obtain ⟨role, -, h⟩ := bind_ok h
      split at h
      · cases h
      · obtain ⟨login, -, h⟩ := bind_ok h
        obtain ⟨provider, -, h⟩ := bind_ok h
        split at h
        · cases h
        · obtain ⟨nonce, -, h⟩ := bind_ok h
          obtain ⟨timestamp, -, h⟩ := bind_ok h
          obtain ⟨rfl, hwindow⟩ := checkIdentity_ok h
          exact ⟨rfl, hwindow⟩

end CodeMate.Api
