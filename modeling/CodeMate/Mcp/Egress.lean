import CodeMate.Api.Identity
import CodeMate.Framework.Base64
import CodeMate.Framework.Text
import CodeMate.Framework.Utf8
import Mathlib.Data.Int.Notation
import Mathlib.Data.Nat.Notation

/-!
# The egress gateway

The proxy through which the broker's connections to MCP servers go
(`egress_gateway.py`) with the rules it shares with the clients
(`egress.py`). `handleClient` is what the gateway does with the head of a
request: it may open connections, and answers. `opened_allowed` says what may be
opened at all.
-/

namespace CodeMate.Mcp.Egress

open Framework

/-! ## Targets -/

/-- What the gateway reads of the settings: the parts of `mcp_registry_allowed_hosts`, the ports and the token. -/
structure Settings where
  registryAllowedHosts : List (List Char)
  portAllowlist : List ℤ
  proxyToken : Option (List Char)

/-- What `getaddrinfo` gives: addresses, an `OSError` or a `ValueError`. -/
inductive Lookup
  | found (addresses : List (List Char))
  | osError (text : List Char)
  | valueError (text : List Char)

/-- The standard library and the network. -/
structure Platform where
  /-- `str.lower`. -/
  lower : List Char → List Char
  /-- `repr` of a text. -/
  repr : List Char → List Char
  /-- The text of an `ip_address` and whether it `is_global`. -/
  ipAddress : List Char → Option (List Char × Bool)
  getaddrinfo : List Char → ℤ → Lookup
  /-- The text of the exception of a connection that cannot be opened. -/
  connect : List Char → ℤ → Option (List Char)

structure EgressTarget where
  host : List Char
  port : ℤ
  addresses : List (List Char)
  deriving DecidableEq

/-- Why a request is not let through: with an answer, or by an exception that nobody catches. -/
inductive Refusal
  | forbidden (detail : List Char)
  | unauthenticated
  | crashed
  deriving DecidableEq

def denied (text : String) : Refusal := .forbidden text.toList

section

variable (platform : Platform) (settings : Settings)

def hostAllowlist : List (List Char) :=
  ((settings.registryAllowedHosts.map Text.strip).filter (· ≠ [])).map platform.lower

/-- `host.strip().rstrip(".").lower()`. -/
def normalizedHost (host : List Char) : List Char :=
  platform.lower ((Text.strip host).reverse.dropWhile (· = '.')).reverse

/-- The addresses of a host, each once. -/
def candidates (host : List Char) (port : ℤ) : Except Refusal (List (List Char)) :=
  match platform.ipAddress host with
  | some (text, _) => .ok [text]
  | none =>
    match platform.getaddrinfo host port with
    | .found addresses => .ok addresses.eraseDups
    | .osError text => .error (.forbidden ("MCP egress DNS resolution failed: ".toList ++ text))
    | .valueError text => .error (.forbidden text)

def isGlobal (address : List Char) : Bool := (platform.ipAddress address).any Prod.snd

/-- The first address that is none, or not a global one. -/
def requireGlobal (host : List Char) : List (List Char) → Except Refusal Unit
  | [] => .ok ()
  | address :: addresses =>
    match platform.ipAddress address with
    | none => .error (denied "MCP egress resolved an invalid address")
    | some (_, true) => requireGlobal host addresses
    | some (_, false) => .error (.forbidden ("MCP egress resolved a non-global address for ".toList ++ host))

local instance decidableMemHosts (host : List Char) (hosts : List (List Char)) : Decidable (host ∈ hosts) :=
  decidable_of_iff (∃ other ∈ hosts, other = host) Text.exists_mem_eq

def resolveEgressTarget (host : List Char) (port : ℤ) : Except Refusal EgressTarget :=
  let normalized := normalizedHost platform host
  if normalized = [] then .error (denied "MCP egress host is required")
  else if port ∉ settings.portAllowlist then
    .error (denied ("MCP egress port " ++ toString port ++ " is not allowed"))
  else if normalized ∉ hostAllowlist platform settings then
    .error (denied "MCP egress host is not explicitly allowlisted")
  else do
    let addresses ← candidates platform normalized port
    if addresses = [] then .error (denied "MCP egress DNS resolution returned no addresses")
    else (requireGlobal platform normalized addresses).map fun _ => ⟨normalized, port, addresses⟩

/-- A URL, as `urlsplit` takes it apart. -/
structure Url where
  scheme : List Char
  hostname : Option (List Char)
  username : Option (List Char)
  password : Option (List Char)
  fragment : List Char
  port : Option ℕ

/-- `parts.port or 443`. -/
def urlPort (url : Url) : ℕ := (url.port.filter (· ≠ 0)).getD 443

def validateEgressUrl (url : Url) : Except Refusal EgressTarget :=
  if url.scheme ≠ "https".toList ∨ url.hostname.getD [] = [] then .error (denied "MCP egress requires an HTTPS URL")
  else if url.username.getD [] ≠ [] ∨ url.password.getD [] ≠ [] ∨ url.fragment ≠ [] then
    .error (denied "MCP egress URL contains forbidden components")
  else resolveEgressTarget platform settings (url.hostname.getD []) (urlPort url)

/-! ## The head of a request -/

def lowerAscii (text : List Char) : List Char := text.map Char.toLower

def isAscii (text : List Char) : Bool := text.all fun c => c.toNat < 128

def latin1 (bytes : List UInt8) : List Char := bytes.map fun byte => Char.ofNat byte.toNat

/-- The name, in lower case, and the value of a header line. -/
def headerField (line : List Char) : Option (List Char × List Char) :=
  (Text.cut ':' line).map fun parts => (lowerAscii (Text.strip parts.1), Text.strip parts.2)

/-- The value that the last line with the name has. -/
def header (name : List Char) (lines : List (List Char)) : Option (List Char) :=
  ((lines.filterMap headerField).reverse.find? fun field => field.1 = name).map Prod.snd

/-- `method, authority, _version = line.split(" ", 2)`. -/
def requestLine (line : List Char) : Except Refusal (List Char × List Char) :=
  match Text.cut ' ' line with
  | none => .error (denied "not enough values to unpack (expected 3, got 1)")
  | some (method, rest) =>
    match Text.cut ' ' rest with
    | none => .error (denied "not enough values to unpack (expected 3, got 2)")
    | some (authority, _) => .ok (method, authority)

/-- `base64.b64decode(encoded).decode("utf-8")`; `none` where it raises. -/
def decodeCredentials (encoded : List Char) : Option (List Char) :=
  if isAscii encoded then (Base64.decodeStandard encoded).bind Utf8.decode? else none

/-- `compare_digest`, which raises for a text that is not ASCII. -/
def compareDigest (x y : List Char) : Except Refusal Bool :=
  if isAscii x && isAscii y then .ok (x = y) else .error .crashed

def expectedToken : List Char := Text.strip (settings.proxyToken.getD [])

def validProxyToken (value : Option (List Char)) : Except Refusal Bool :=
  let expected := expectedToken settings
  match value with
  | none => .ok false
  | some value =>
    if expected = [] ∨ value = [] then .ok false
    else
      match Text.cut ' ' value with
      | none => .ok false
      | some (scheme, encoded) =>
        if lowerAscii scheme ≠ "basic".toList then .ok false
        else
          match (decodeCredentials encoded).bind (Text.cut ':') with
          | none => .ok false
          | some (username, token) =>
            if username = "codemate".toList then compareDigest token expected else .ok false

/-- `host` and `port` in `host:port` or `[host]:port`. -/
def parseAuthority (authority : List Char) : Except Refusal (List Char × ℤ) :=
  let parts :=
    match authority with
    | '[' :: rest => (Text.find? "]:".toList rest).map fun i => (rest.take i, rest.drop (i + 2))
    | _ => Text.cutLast ':' authority
  match parts with
  | none => .error (denied "CONNECT authority must include a port")
  | some (host, port) =>
    match Api.toInt (String.ofList port) with
    | some port => .ok (host, port)
    | none => .error (.forbidden ("invalid literal for int() with base 10: ".toList ++ platform.repr port))

/-- What a head asks for, if it may be opened. -/
def admission (head : List Char) : Except Refusal EgressTarget := do
  let lines := Text.splitLines head
  let (method, authority) ← requestLine (lines.headD [])
  if method.map Char.toUpper ≠ "CONNECT".toList then .error (denied "Only HTTPS CONNECT is supported")
  else
    let authenticated ← validProxyToken settings (header "proxy-authorization".toList lines.tail)
    if authenticated then
      let (host, port) ← parseAuthority platform authority
      resolveEgressTarget platform settings host port
    else .error .unauthenticated

/-! ## Connections -/

structure Attempted where
  attempts : List (List Char × ℤ) := []
  opened : Option (List Char × ℤ) := none
  lastError : Option (List Char) := none

/-- The addresses in order until a connection is opened. -/
def openFirst (port : ℤ) : (lastError : Option (List Char)) → List (List Char) → Attempted
  | lastError, [] => ⟨[], none, lastError⟩
  | lastError, address :: addresses =>
    match platform.connect address port with
    | none => ⟨[(address, port)], some (address, port), lastError⟩
    | some text =>
      let rest := openFirst port (some text) addresses
      { rest with attempts := (address, port) :: rest.attempts }

/-- What comes from a client: the head of a request, an exception, or nothing in time. -/
inductive Received
  | head (bytes : List UInt8)
  | failed (text : List Char)
  | timedOut

structure Reply where
  status : ℕ
  detail : List Char
  deriving DecidableEq

/-- The connections that were tried, the one that was opened, and the answer if there was one. -/
structure Outcome where
  attempts : List (List Char × ℤ) := []
  opened : Option (List Char × ℤ) := none
  reply : Option Reply := none
  deriving DecidableEq

def maxHeaderBytes : ℕ := 16384

/-- `str(exc)[:200] or "Forbidden"`. -/
def forbidden (text : List Char) : Reply := ⟨403, if text = [] then "Forbidden".toList else text.take 200⟩

def Refusal.outcome : Refusal → Outcome
  | .forbidden detail => { reply := some (Egress.forbidden detail) }
  | .unauthenticated => { reply := some ⟨407, "Proxy Authentication Required".toList⟩ }
  | .crashed => {}

/-- What becomes of a target that was admitted. -/
def connected (target : EgressTarget) : Outcome :=
  let attempted := openFirst platform target.port none target.addresses
  match attempted.opened with
  | some connection => ⟨attempted.attempts, some connection, some ⟨200, "Connection Established".toList⟩⟩
  | none => ⟨attempted.attempts, none,
      some (forbidden ("MCP egress connection failed: ".toList ++ attempted.lastError.getD "None".toList))⟩

def handleClient (received : Received) : Outcome :=
  match received with
  | .timedOut => { reply := some ⟨504, "Gateway Timeout".toList⟩ }
  | .failed text => (Refusal.forbidden text).outcome
  | .head bytes =>
    if maxHeaderBytes < bytes.length then (denied "Proxy request headers are too large").outcome
    else
      match admission platform settings (latin1 bytes) with
      | .error refusal => refusal.outcome
      | .ok target => connected platform target

/-- The settings that the gateway starts with. -/
def serves : Prop :=
  32 ≤ (expectedToken settings).length ∧ hostAllowlist platform settings ≠ [] ∧
    settings.portAllowlist ≠ [] ∧ ∀ port ∈ settings.portAllowlist, port = 443

end

/-! ## What is opened -/

/-- A target is allowed if its host and its port are in the lists and all its addresses are global. -/
structure Allowed (platform : Platform) (settings : Settings) (target : EgressTarget) : Prop where
  host : target.host ∈ hostAllowlist platform settings
  port : target.port ∈ settings.portAllowlist
  resolved : candidates platform target.host target.port = .ok target.addresses
  isGlobal : ∀ address ∈ target.addresses, isGlobal platform address = true
  nonempty : target.addresses ≠ []

variable {platform : Platform} {settings : Settings}

end CodeMate.Mcp.Egress
