import CodeMate.Framework.Fallible
import CodeMate.Framework.Json
import CodeMate.Framework.Run
import CodeMate.Framework.Session
import Mathlib.Data.List.Nodup

/-!
# Servers of the dynamic registry

One registered MCP server and its revisions. `update` and `restore` change its
configuration in a transaction that holds the lock of the row and checks the
version; a validation reads the row (`Event.read`), probes the server, which may
take any time, and writes what it found by the primary key of the row, in the
columns that it changes (`overlay`), with a revision of what it read. `registry`
is the system of any number of sessions.
-/

namespace CodeMate.Registry

open Framework

/-- The configuration of a server: the columns that `server_config_snapshot` reads. -/
structure Config where
  name : String
  url : String
  enabled : Bool
  allowedTools : List String
  toolPolicies : List (String × Json)
  agentContextTools : List Json
  idempotencyMode : String
deriving DecidableEq

/-- `server_config_snapshot`. -/
def Config.snapshot (config : Config) : Json := .obj [
  ("name", .str config.name),
  ("url", .str config.url),
  ("enabled", .bool config.enabled),
  ("allowed_tools", .arr (config.allowedTools.map .str)),
  ("tool_policies", .obj config.toolPolicies),
  ("agent_context_tools", .arr config.agentContextTools),
  ("idempotency_mode", .str config.idempotencyMode)]

/-! ## The check of a configuration -/

/-- What `urlsplit` finds in a URL. -/
structure UrlParts where
  scheme : String
  hostname : Option String
  username : Option String
  password : Option String
  fragment : String

structure Settings where
  registryEnabled : Bool := true
  maxServers : Nat := 100
  requireHttps : Bool := true
  hostAllowlist : List String := []
  allowPrivateNetworks : Bool := false
  /-- The names of the static configuration. -/
  staticNames : List String := []

inductive RegistryError
  | notFound (text : String)
  | conflict (text : String)
  | invalid (text : String)
deriving DecidableEq

/-- `payload.get(key) or default`. -/
def getOr (payload : Json) (key : String) (default : Json) : Json :=
  match payload.get key with
  | some value => if value.truthy then value else default
  | none => default

/-- What `validate_config_payload` gives to the model. -/
def configData (payload : Json) : Json := .obj [
  ("name", (payload.get "name").getD .null),
  ("url", (payload.get "url").getD .null),
  ("allowed_tools", getOr payload "allowed_tools" (.arr [])),
  ("tool_policies", getOr payload "tool_policies" (.obj [])),
  ("agent_context_tools", getOr payload "agent_context_tools" (.arr [])),
  ("idempotency_mode", getOr payload "idempotency_mode" (.str "none")),
  ("enabled", (payload.get "enabled").getD (.bool true)),
  ("registry_managed", .bool true)]

/-- The libraries that the check uses: the parts of a URL, the addresses that
are not global, the text of a value, and the validation of
`MCPRemoteServerConfig`, which gives a configuration again when it is validated
from its own snapshot. -/
structure Library where
  urlsplit : String → UrlParts
  nonGlobal : String → Bool
  str : Json → String
  modelValidate : Json → Except String Config
  revalidate : ∀ data config, modelValidate data = .ok config →
    modelValidate (configData config.snapshot) = .ok config

section Check

variable (s : Settings) (lib : Library)

/-- `validate_registry_url`, without a resolution of names. -/
def validateRegistryUrl (url : String) : Except RegistryError Unit :=
  let parts := lib.urlsplit url
  let host := (parts.hostname.getD "").toLower
  if parts.scheme ∉ ["http", "https"] ∨ parts.hostname.getD "" = "" then
    .error (.conflict "MCP registry URL must be HTTP(S)")
  else if parts.username.getD "" ≠ "" ∨ parts.password.getD "" ≠ "" ∨ parts.fragment ≠ "" then
    .error (.conflict "MCP registry URL must not contain credentials or fragments")
  else if s.requireHttps ∧ parts.scheme ≠ "https" then
    .error (.conflict "Dynamic MCP server URLs must use HTTPS")
  else if s.hostAllowlist ≠ [] ∧ host ∉ s.hostAllowlist then
    .error (.conflict "MCP server host is not in MCP_REGISTRY_ALLOWED_HOSTS")
  else if s.allowPrivateNetworks then .ok ()
  else if host = "localhost" ∨ host.endsWith ".local" then
    .error (.conflict "Private MCP server hosts are not allowed")
  else if lib.nonGlobal host then
    .error (.conflict "Private or non-global MCP server addresses are not allowed")
  else .ok ()

/-- `validate_config_payload`. -/
def validateConfigPayload (payload : Json) : Except RegistryError Config :=
  let data := configData payload
  let url := (data.get "url").getD .null
  validateRegistryUrl s lib (if url.truthy then lib.str url else "") >>= fun _ =>
    match lib.modelValidate data with
    | .ok config => .ok config
    | .error text => .error (.invalid text)

end Check

/-! ## The row and its revisions -/

inductive ValidationStatus
  | unvalidated
  | valid
  | invalid
deriving DecidableEq

/-- What a probe of the server found. -/
structure Probe where
  protocolVersion : Option String
  serverInfo : Json
  capabilities : Json
  tools : Json

/-- A row of `mcp_server_registrations`. -/
structure MCPServerRegistration where
  id : String
  config : Config
  validationStatus : ValidationStatus := .unvalidated
  validationError : Option String := none
  protocolVersion : Option String := none
  serverInfoJson : Option Json := none
  capabilitiesJson : Option Json := none
  toolsSnapshotJson : Option Json := none
  validatedAt : Option Nat := none
  version : Nat := 1
  createdBy : String
  updatedBy : String
deriving DecidableEq

structure MCPServerRevision where
  id : String
  version : Nat
  action : String
  snapshotJson : Json
  actor : String
deriving DecidableEq

/-- The columns of `c` that were changed in `n`, over the row `d`. -/
def overlay (c n d : MCPServerRegistration) : MCPServerRegistration where
  id := column c.id n.id d.id
  config := column c.config n.config d.config
  validationStatus := column c.validationStatus n.validationStatus d.validationStatus
  validationError := column c.validationError n.validationError d.validationError
  protocolVersion := column c.protocolVersion n.protocolVersion d.protocolVersion
  serverInfoJson := column c.serverInfoJson n.serverInfoJson d.serverInfoJson
  capabilitiesJson := column c.capabilitiesJson n.capabilitiesJson d.capabilitiesJson
  toolsSnapshotJson := column c.toolsSnapshotJson n.toolsSnapshotJson d.toolsSnapshotJson
  validatedAt := column c.validatedAt n.validatedAt d.validatedAt
  version := column c.version n.version d.version
  createdBy := column c.createdBy n.createdBy d.createdBy
  updatedBy := column c.updatedBy n.updatedBy d.updatedBy

/-- An object of which no other session committed the row since it was read. -/
theorem overlay_current (c n : MCPServerRegistration) : overlay c n c = n := by
  simp only [overlay, column_current]

/-- `_revision`. -/
def revision (server : MCPServerRegistration) (id action actor : String) : MCPServerRevision :=
  { id, version := server.version, action, snapshotJson := server.config.snapshot, actor }

section Operations

variable (s : Settings) (lib : Library)

/-- `create`, where `others` are the names of the servers there are. -/
def create (payload : Json) (others : List String) (id actor : String) : Except RegistryError MCPServerRegistration :=
  if ¬ s.registryEnabled then .error (.conflict "Dynamic MCP registry is disabled")
  else if max 1 s.maxServers ≤ others.length then .error (.conflict "Dynamic MCP server limit reached")
  else validateConfigPayload s lib payload >>= fun config =>
    if config.name ∈ s.staticNames then
      .error (.conflict "Server name conflicts with static MCP configuration")
    else if config.name ∈ others then .error (.conflict "Dynamic MCP server name already exists")
    else .ok { id, config, createdBy := actor, updatedBy := actor }

/-- `update` of the row under its lock, where `others` are the names of the other servers. -/
def update (server : MCPServerRegistration) (payload : Json) (expectedVersion : Nat) (actor : String)
    (others : List String) : Except RegistryError MCPServerRegistration :=
  if server.version ≠ expectedVersion then .error (.conflict "Dynamic MCP server version conflict")
  else validateConfigPayload s lib (server.config.snapshot.update payload) >>= fun config =>
    if config.name ∈ others then .error (.conflict "Dynamic MCP server name already exists")
    else if config.name ∈ s.staticNames then
      .error (.conflict "Server name conflicts with static MCP configuration")
    else .ok { server with
      config
      validationStatus := .unvalidated
      validationError := none
      version := server.version + 1
      updatedBy := actor }

/-- What `validate` sets in the object that it read, when the probe has ended. -/
def validated (server : MCPServerRegistration) (result : Except String Probe) (actor : String) (now : Nat) :
    MCPServerRegistration :=
  let server := match result with
    | .ok probe =>
      { server with
        validationStatus := .valid
        validationError := none
        protocolVersion := probe.protocolVersion
        serverInfoJson := some probe.serverInfo
        capabilitiesJson := some probe.capabilities
        toolsSnapshotJson := some probe.tools }
    | .error error =>
      { server with
        validationStatus := .invalid
        validationError := some (String.ofList (error.toList.take 4000)) }
  { server with validatedAt := some now, version := server.version + 1, updatedBy := actor }

end Operations

structure World (ω : Type) where
  row : Option MCPServerRegistration
  revisions : List MCPServerRevision
  /-- The names of the servers that have a health row. -/
  health : List String
  /-- What a session that validates the server has read. -/
  reading : ω → Option MCPServerRegistration
  /-- The versions that were committed, each with the configuration of the row. -/
  history : List (Nat × Config)
  /-- The configuration with which the probe was made that gave the row its status. -/
  probed : Option Config

inductive Event (ω : Type)
  | update (payload : Json) (expectedVersion : Nat) (actor revisionId : String) (others : List String)
  | restore (restored : String) (expectedVersion : Nat) (actor revisionId : String) (others : List String)
  | read (k : ω)
  | write (k : ω) (result : Except String Probe) (actor revisionId : String) (now : Nat)
  | abandon (k : ω)
  | delete (expectedVersion : Nat)

section Step

variable {ω : Type} [DecidableEq ω] (s : Settings) (lib : Library)

/-- The commit of a row with its revision. -/
def World.commit (w : World ω) (server : MCPServerRegistration) (rev : MCPServerRevision) : World ω :=
  { w with
    row := some server
    revisions := rev :: w.revisions
    history := (server.version, server.config) :: w.history }

/-- `update` with its commit, or its error; a server that is renamed loses its health row. -/
def World.update (w : World ω) (payload : Json) (expectedVersion : Nat) (actor action revisionId : String)
    (others : List String) : Except RegistryError (World ω) :=
  match w.row with
  | none => .error (.notFound "Dynamic MCP server not found")
  | some old => Registry.update s lib old payload expectedVersion actor others >>= fun server =>
    let health := if old.config.name = server.config.name then w.health else w.health.filter (· ≠ old.config.name)
    .ok ({ w with health }.commit server (revision server revisionId action actor))

/-- `restore`: an update with the snapshot of a revision of the server. -/
def World.restore (w : World ω) (restored : String) (expectedVersion : Nat) (actor revisionId : String)
    (others : List String) : Except RegistryError (World ω) :=
  match w.revisions.find? fun rev => rev.id = restored with
  | none => .error (.notFound "MCP server revision not found")
  | some rev => w.update s lib rev.snapshotJson expectedVersion actor "restore" revisionId others

/-- The session `k` goes on to `reading`. -/
def World.goto (w : World ω) (k : ω) (reading : Option MCPServerRegistration) : World ω :=
  { w with reading := fun k' => if k' = k then reading else w.reading k' }

/-- The flush and the commit of a validation; where the row is gone, the flush raises. -/
def World.write (w : World ω) (k : ω) (c : MCPServerRegistration) (result : Except String Probe)
    (actor revisionId : String) (now : Nat) : World ω :=
  let n := validated c result actor now
  match w.row with
  | some d =>
    { (w.goto k none).commit (overlay c n d) (revision n revisionId "validate" actor) with
      probed := if n.validationStatus = c.validationStatus then w.probed else some c.config }
  | none => w.goto k none

def step (w : World ω) : Event ω → Option (World ω)
  | .update payload expectedVersion actor revisionId others =>
    if revisionId ∈ w.revisions.map (·.id) then none
    else match w.update s lib payload expectedVersion actor "update" revisionId others with
      | .ok w' => some w'
      | .error _ => some w
  | .restore restored expectedVersion actor revisionId others =>
    if revisionId ∈ w.revisions.map (·.id) then none
    else match w.restore s lib restored expectedVersion actor revisionId others with
      | .ok w' => some w'
      | .error _ => some w
  | .read k => if w.row.isSome ∧ w.reading k = none then some (w.goto k w.row) else none
  | .write k result actor revisionId now =>
    if revisionId ∈ w.revisions.map (·.id) then none
    else (w.reading k).map fun c => w.write k c result actor revisionId now
  | .abandon k => some (w.goto k none)
  | .delete expectedVersion =>
    some (match w.row with
      | some server =>
        if server.version = expectedVersion then
          { w with row := none, revisions := [], health := w.health.filter (· ≠ server.config.name) }
        else w
      | none => w)

/-- A server that was created, with its first revision, and the sessions that use it. -/
def registry : System (World ω) (Event ω) :=
  .ofStep (fun w => ∃ payload others id actor revisionId server,
    create s lib payload others id actor = .ok server ∧ w.row = some server ∧
      w.revisions = [revision server revisionId "create" actor] ∧ (∀ k, w.reading k = none) ∧
      w.history = [(server.version, server.config)] ∧ w.probed = none) (step s lib)

end Step

end CodeMate.Registry
