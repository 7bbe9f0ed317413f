import CodeMate.Framework.Json
import CodeMate.Framework.Run
import CodeMate.Framework.Table
import Mathlib.Data.Int.Order.Basic
import Mathlib.Logic.Function.Basic

/-!
# Delegated identities

`MCPDelegatedIdentityService`: a user starts an authorization at a provider
(`startAuthorization`), comes back with a code and the state that was handed
out, the code is exchanged for tokens with the verifier of that state, and an
identity is stored that is used and refreshed until it is revoked. An exchange
takes time, in which other calls go on; the row of the state is locked
meanwhile. `redeemed_once`: whatever the order of the calls, no state gives two
identities, and every identity is of the user and the provider of its state.
`verifier_sent` is what goes to the token endpoint of a provider, and
`revoked_refused` what is left of an identity after it was revoked.
-/

namespace CodeMate.Tenancy.Delegation

open Framework

/-! ## Rows -/

/-- Seconds. -/
abbrev Instant := ℤ

/-- `κ` is the type of what is encrypted. -/
structure Provider (κ : Type) where
  id : String
  tenantId : String
  serverName : String
  authorizationUrl : String
  tokenUrl : String
  clientId : String
  encryptedClientSecret : Option κ
  scopes : List String
  redirectUri : String
  version : ℕ

/-- A row of `mcp_delegated_oauth_states`. -/
structure OAuthState (κ : Type) where
  providerId : String
  subjectProvider : String
  subject : String
  encryptedVerifier : κ
  expiresAt : Instant
  consumedAt : Option Instant

structure DelegatedIdentity (κ : Type) where
  tenantId : String
  providerId : String
  serverName : String
  subjectProvider : String
  subject : String
  encryptedTokenPayload : κ
  delegationTokenHash : String
  scopes : List String
  expiresAt : Option Instant
  revoked : Bool
  version : ℕ

/-- What a call sends to a token endpoint. -/
structure Exchange where
  tokenUrl : String
  payload : List (String × Json)

/-- What `start_authorization` draws and hands out: the state with the rest of the query of the URL. -/
structure Issued where
  state : String
  verifier : String
  providerId : String
  subjectProvider : String
  subject : String
  issuedAt : Instant
  query : List (String × String)

/-! ## The service -/

/-- What the service takes from its libraries and settings. `decryptSensitivePayload` also says whether a payload is
to be encrypted again. -/
structure Service (κ : Type) where
  sha256 : String → String
  challenge : String → String
  encryptPayload : Json → (binding : String) → κ
  decryptSensitivePayload : κ → (binding : String) → Option (Json × Bool)
  validateRegistryUrl : String → Bool
  str : Json → String
  int : Json → Option ℤ
  split : String → List String
  stateTtlSeconds : ℤ
  expirySkewSeconds : ℤ

def providerSecretBinding (tenantId serverName : String) : String :=
  "mcp-oauth-provider:" ++ tenantId ++ ":" ++ serverName

def oauthStateBinding (stateHash : String) : String := "mcp-oauth-state:" ++ stateHash

def delegatedIdentityBinding (identityId : String) : String := "mcp-delegated-identity:" ++ identityId

/-- A `complete_authorization` that waits for the token endpoint, with the row of the state as it will be written. -/
structure Completing (κ : Type) where
  call : ℕ
  stateHash : String
  row : OAuthState κ
  provider : Provider κ
  secret : Option κ
  now : Instant

/-- An `access_token` that waits for the token endpoint. -/
structure Refreshing (κ : Type) where
  call : ℕ
  identityId : String
  identity : DelegatedIdentity κ
  providerId : String
  secret : Option κ
  refreshToken : String
  now : Instant

/-- An access token that a call has returned. -/
structure Handed where
  identityId : String
  token : String

/-- The committed rows, the calls that wait, and what was handed out and sent. -/
structure World (κ : Type) where
  providers : List (Provider κ) := []
  states : String → Option (OAuthState κ) := fun _ => none
  identities : String → Option (DelegatedIdentity κ) := fun _ => none
  completing : List (Completing κ) := []
  refreshing : List (Refreshing κ) := []
  issued : List Issued := []
  /-- What was sent, with the state it was sent for if it was to redeem one. -/
  sent : List (Option String × Exchange) := []
  handed : List Handed := []
  /-- The hashes of the states that were redeemed, with the identities they gave. -/
  redeemed : List (String × String) := []

section

variable {κ : Type} (service : Service κ)

/-- A provider as `configure_provider` is to store it. -/
structure Configuration where
  tenantId : String
  serverName : String
  authorizationUrl : String
  tokenUrl : String
  clientId : String
  clientSecret : Option String
  scopes : List String
  redirectUri : String

/-- The row of a configuration; a call without a secret keeps the one that is there. -/
def configured (id : String) (old : Option (Provider κ)) (config : Configuration) : Provider κ where
  id := id
  tenantId := config.tenantId
  serverName := config.serverName
  authorizationUrl := config.authorizationUrl
  tokenUrl := config.tokenUrl
  clientId := config.clientId
  encryptedClientSecret :=
    match config.clientSecret.filter (· ≠ "") with
    | some secret => some (service.encryptPayload (.obj [("client_secret", .str secret)])
        (providerSecretBinding config.tenantId config.serverName))
    | none => old.bind Provider.encryptedClientSecret
  scopes := config.scopes
  redirectUri := config.redirectUri
  version := (old.map Provider.version).getD 0 + 1

/-- `configure_provider`: the row of the tenant and the server is changed, or one is stored under a new id. -/
def configureProvider (w : World κ) (newId : String) (config : Configuration) : Option (World κ) :=
  if [config.authorizationUrl, config.tokenUrl, config.redirectUri].all service.validateRegistryUrl then
    match w.providers.find? fun provider =>
        provider.tenantId = config.tenantId ∧ provider.serverName = config.serverName with
    | some old =>
      some { w with providers := Table.store Provider.id [configured service old.id (some old) config] w.providers }
    | none =>
      if newId ∈ w.providers.map Provider.id then none
      else some { w with providers := w.providers ++ [configured service newId none config] }
  else some w

/-- The row of a provider. -/
def World.provider (w : World κ) (id : String) : Option (Provider κ) := Table.find Provider.id w.providers id

/-- The providers after a call that has encrypted the secret of one again. -/
def World.providersWith (w : World κ) (id : String) (secret : Option κ) : List (Provider κ) :=
  match secret, w.provider id with
  | some secret, some row => Table.store Provider.id [{ row with encryptedClientSecret := some secret }] w.providers
  | _, _ => w.providers

def authorizationQuery (provider : Provider κ) (state verifier : String) : List (String × String) :=
  [("response_type", "code"), ("client_id", provider.clientId), ("redirect_uri", provider.redirectUri),
    ("scope", " ".intercalate provider.scopes), ("state", state), ("code_challenge", service.challenge verifier),
    ("code_challenge_method", "S256")]

/-- `start_authorization` with the texts it draws; a state whose hash is there already cannot be stored. -/
def startAuthorization (w : World κ) (providerId subjectProvider subject state verifier : String) (now : Instant) :
    Option (World κ) :=
  match w.provider providerId with
  | none => some w
  | some provider =>
    let stateHash := service.sha256 state
    if (w.states stateHash).isSome then some w
    else
      some { w with
        states := Function.update w.states stateHash (some
          { providerId := provider.id
            subjectProvider, subject
            encryptedVerifier := service.encryptPayload (.obj [("verifier", .str verifier)])
              (oauthStateBinding stateHash)
            expiresAt := now + max 60 service.stateTtlSeconds
            consumedAt := none })
        issued := w.issued ++ [⟨state, verifier, provider.id, subjectProvider, subject, now,
          authorizationQuery service provider state verifier⟩] }

/-- What `_exchange` sends, and the secret of the provider if it is to be encrypted again. -/
def exchange (provider : Provider κ) (data : List (String × Json)) : Option (Exchange × Option κ) :=
  let payload := data ++ [("client_id", .str provider.clientId)]
  let binding := providerSecretBinding provider.tenantId provider.serverName
  match provider.encryptedClientSecret with
  | none => some (⟨provider.tokenUrl, payload⟩, none)
  | some secret => do
    let (secretPayload, migrated) ← service.decryptSensitivePayload secret binding
    let clientSecret ← secretPayload.get "client_secret"
    return (⟨provider.tokenUrl, payload ++ [("client_secret", clientSecret)]⟩,
      if migrated then some (service.encryptPayload secretPayload binding) else none)

def codeData (provider : Provider κ) (code : String) (verifier : Json) : List (String × Json) :=
  [("grant_type", .str "authorization_code"), ("code", .str code), ("redirect_uri", .str provider.redirectUri),
    ("code_verifier", verifier)]

def refreshData (refreshToken : String) : List (String × Json) :=
  [("grant_type", .str "refresh_token"), ("refresh_token", .str refreshToken)]

/-- A call that waits holds the row of the state. -/
def World.locked (w : World κ) (stateHash : String) : Bool :=
  w.completing.any fun pending => pending.stateHash = stateHash

/-- The row of a state that can be redeemed, as it will be written, with its provider and its verifier. -/
def redeemable (w : World κ) (stateHash : String) (now : Instant) : Option (OAuthState κ × Provider κ × Json) := do
  let row ← w.states stateHash
  if row.consumedAt.isSome ∨ row.expiresAt ≤ now then none
  else
    let provider ← w.provider row.providerId
    let (payload, migrated) ← service.decryptSensitivePayload row.encryptedVerifier (oauthStateBinding stateHash)
    let verifier ← payload.get "verifier"
    return ({ row with
      consumedAt := some now
      encryptedVerifier :=
        if migrated then service.encryptPayload payload (oauthStateBinding stateHash)
        else row.encryptedVerifier }, provider, verifier)

/-- `complete_authorization` up to the exchange, once the lock of the row is free; `resolved` says that the URL of the
token endpoint passes its checks. A call that raises leaves the rows as they are. -/
def beginCompletion (w : World κ) (call : ℕ) (code state : String) (now : Instant) (resolved : Bool) :
    Option (World κ) :=
  let stateHash := service.sha256 state
  if w.locked stateHash ∨ call ∈ w.completing.map Completing.call then none
  else
    match redeemable service w stateHash now with
    | none => some w
    | some (row, provider, verifier) =>
      match exchange service provider (codeData provider code verifier), resolved with
      | some (request, secret), true =>
        some { w with
          completing := ⟨call, stateHash, row, provider, secret, now⟩ :: w.completing
          sent := w.sent ++ [(some state, request)] }
      | _, _ => some w

/-- `max(1, int(data.get("expires_in") or 3600))`. -/
def expiresIn (data : Json) : Option ℤ :=
  if data.flag "expires_in" then ((data.get "expires_in").bind service.int).map (max 1) else some 3600

/-- `str(data.get(key) or "")`. -/
def textOf (data : Json) (key : String) : String :=
  if data.flag key then ((data.get key).map service.str).getD "" else ""

/-- The tokens in an answer of a token endpoint and how long they last; `none` where the call raises. -/
def tokensOf (reply : Option Json) : Option (Json × ℤ) := do
  let data ← reply
  if data.flag "access_token" then (expiresIn service data).map fun seconds => (data, seconds) else none

/-- The identity that the tokens of a provider give. -/
def newIdentity (pending : Completing κ) (data : Json) (seconds : ℤ) (identityId delegationToken : String) :
    DelegatedIdentity κ where
  tenantId := pending.provider.tenantId
  providerId := pending.provider.id
  serverName := pending.provider.serverName
  subjectProvider := pending.row.subjectProvider
  subject := pending.row.subject
  encryptedTokenPayload := service.encryptPayload data (delegatedIdentityBinding identityId)
  delegationTokenHash := service.sha256 delegationToken
  scopes :=
    let scopes := service.split (textOf service data "scope")
    if scopes = [] then pending.provider.scopes else scopes
  expiresAt := some (pending.now + seconds)
  revoked := false
  version := 1

/-- The rest of `complete_authorization`, with the texts it draws. -/
def endCompletion (w : World κ) (call : ℕ) (reply : Option Json) (identityId delegationToken : String) :
    Option (World κ) := do
  let pending ← w.completing.find? fun pending => pending.call = call
  let released := { w with completing := w.completing.filter fun other => other.call ≠ call }
  match tokensOf service reply with
  | none => some released
  | some (data, seconds) =>
    if (w.identities identityId).isSome then some released
    else
      some { released with
        providers := w.providersWith pending.provider.id pending.secret
        states := Function.update w.states pending.stateHash (some pending.row)
        identities := Function.update w.identities identityId
          (some (newIdentity service pending data seconds identityId delegationToken))
        redeemed := w.redeemed ++ [(pending.stateHash, identityId)] }

def verifyForRun (w : World κ) (identityId delegationToken tenantId : String) : Option (DelegatedIdentity κ) :=
  (w.identities identityId).filter fun identity =>
    identity.tenantId = tenantId && !identity.revoked && identity.delegationTokenHash = service.sha256 delegationToken

/-- The access token in a payload, as a call returns it. -/
def handedOf (identityId : String) (payload : Json) : List Handed :=
  ((payload.get "access_token").map fun token => (⟨identityId, service.str token⟩ : Handed)).toList

/-- `now + skew < expires_at`, where there is one. -/
def fresh (identity : DelegatedIdentity κ) (now : Instant) : Bool :=
  identity.expiresAt.any fun expiresAt => now + max 0 service.expirySkewSeconds < expiresAt

/-- `access_token` up to the exchange, if there is one. -/
def beginAccess (w : World κ) (call : ℕ) (identityId : String) (now : Instant) (resolved : Bool) : Option (World κ) :=
  if call ∈ w.refreshing.map Refreshing.call then none
  else
    match (w.identities identityId).filter fun identity => !identity.revoked with
    | none => some w
    | some identity =>
      let binding := delegatedIdentityBinding identityId
      match service.decryptSensitivePayload identity.encryptedTokenPayload binding with
      | none => some w
      | some (payload, migrated) =>
        if fresh service identity now then
          some { w with
            identities := Function.update w.identities identityId (some { identity with
              encryptedTokenPayload :=
                if migrated then service.encryptPayload payload binding else identity.encryptedTokenPayload })
            handed := w.handed ++ handedOf service identityId payload }
        else if textOf service payload "refresh_token" = "" then some w
        else
          match w.provider identity.providerId with
          | none => some w
          | some provider =>
            let refreshToken := textOf service payload "refresh_token"
            match exchange service provider (refreshData refreshToken), resolved with
            | some (request, secret), true =>
              some { w with
                refreshing := ⟨call, identityId, identity, provider.id, secret, refreshToken, now⟩ :: w.refreshing
                sent := w.sent ++ [(none, request)] }
            | _, _ => some w

/-- The rest of `access_token`: only the columns that it has changed are written over the row. -/
def endAccess (w : World κ) (call : ℕ) (reply : Option Json) : Option (World κ) := do
  let pending ← w.refreshing.find? fun pending => pending.call = call
  let released := { w with refreshing := w.refreshing.filter fun other => other.call ≠ call }
  match tokensOf service reply, w.identities pending.identityId with
  | some (data, seconds), some row =>
    let refreshed := if (data.get "refresh_token").isSome then data
      else data.set "refresh_token" (.str pending.refreshToken)
    some { released with
      providers := w.providersWith pending.providerId pending.secret
      identities := Function.update w.identities pending.identityId (some { row with
        encryptedTokenPayload := service.encryptPayload refreshed (delegatedIdentityBinding pending.identityId)
        expiresAt := some (pending.now + seconds)
        version := pending.identity.version + 1 })
      handed := w.handed ++ handedOf service pending.identityId refreshed }
  | _, _ => some released

def revoke (w : World κ) (identityId : String) : World κ :=
  match w.identities identityId with
  | none => w
  | some identity =>
    { w with
      identities := Function.update w.identities identityId
        (some { identity with revoked := true, version := identity.version + 1 }) }

/-! ## Runs -/

inductive Event
  | configure (newId : String) (config : Configuration)
  | start (providerId subjectProvider subject state verifier : String) (now : Instant)
  | complete (call : ℕ) (code state : String) (now : Instant) (resolved : Bool)
  | completed (call : ℕ) (reply : Option Json) (identityId delegationToken : String)
  | access (call : ℕ) (identityId : String) (now : Instant) (resolved : Bool)
  | accessed (call : ℕ) (reply : Option Json)
  | revoke (identityId : String)

def step (w : World κ) : Event → Option (World κ)
  | .configure newId config => configureProvider service w newId config
  | .start providerId subjectProvider subject state verifier now =>
    startAuthorization service w providerId subjectProvider subject state verifier now
  | .complete call code state now resolved => beginCompletion service w call code state now resolved
  | .completed call reply identityId delegationToken => endCompletion service w call reply identityId delegationToken
  | .access call identityId now resolved => beginAccess service w call identityId now resolved
  | .accessed call reply => endAccess service w call reply
  | .revoke identityId => some (revoke w identityId)

/-- The calls in any order, from empty tables. -/
def delegation : System (World κ) Event := .ofStep (fun w => w = {}) (step service)

/-- What is encrypted can be decrypted under the binding it was encrypted for. -/
def Lawful (service : Service κ) : Prop := ∀ payload binding,
  service.decryptSensitivePayload (service.encryptPayload payload binding) binding = some (payload, false)

end

/-! A user redeems a state at the second attempt, and the identity is revoked while its tokens are refreshed. -/

/-- The digests of the texts below. -/
def sampleDigest : String → String
  | "s1" => "e8bc163c82eee18733288c7d4ac636db3a6deb013ef2d37b68322be20edc45cc"
  | "d1" => "8b53639f152c8fc6ef30802fde462ba0be9cf085f7580dc69efd72e002abbb35"
  | text => text

/-- What is encrypted stands with its binding. -/
def sampleService : Service (Json × String) where
  sha256 := sampleDigest
  challenge verifier := if verifier = "v1" then "O_wmlZTvZJIo6adLqwDwQu_JHVrMb77jGjgugNQjiP4" else verifier
  encryptPayload payload binding := (payload, binding)
  decryptSensitivePayload sealed binding := if sealed.2 = binding then some (sealed.1, false) else none
  validateRegistryUrl url := "https://".toList.isPrefixOf url.toList
  str
    | .str text => text
    | _ => ""
  int
    | .num q => some q.floor
    | _ => none
  split text := if text = "" then [] else [text]
  stateTtlSeconds := 600
  expirySkewSeconds := 60

theorem sampleService_lawful : Lawful sampleService := fun _ _ => if_pos rfl

def sampleAttempts : List Event :=
  [.configure "p1" ⟨"t1", "tracker", "https://auth.example.com/authorize", "https://auth.example.com/token", "client",
      some "secret", ["read"], "https://app.example.com/callback"⟩,
    .start "p1" "idp" "ada" "s1" "v1" 0, .complete 1 "code" "s1" 10 true, .completed 1 none "i1" "d1"]

def sampleAttempted : World (Json × String) := (sampleAttempts.foldlM (step sampleService) {}).get rfl

def sampleCalls : List Event :=
  [.complete 2 "code" "s1" 20 true,
    .completed 2 (some (.obj [("access_token", .str "a1"), ("refresh_token", .str "r1")])) "i1" "d1",
    .access 3 "i1" 3600 true, .revoke "i1"]

def sampleRevoked : World (Json × String) := (sampleCalls.foldlM (step sampleService) sampleAttempted).get rfl

theorem sampleAttempted_reachable : (delegation sampleService).Reachable sampleAttempted :=
  ⟨{}, sampleAttempts, rfl, .of_foldlM (Option.some_get _).symm⟩

theorem sampleRevoked_reachable : (delegation sampleService).Reachable sampleRevoked :=
  ⟨{}, sampleAttempts ++ sampleCalls, rfl,
    System.Run.append (.of_foldlM (Option.some_get _).symm) (.of_foldlM (Option.some_get _).symm)⟩

section

variable {κ : Type} (service : Service κ)

/-! ## Providers -/

/-- The providers that are in `ps` are in `qs`, for the same servers. -/
structure Serving (ps qs : List (Provider κ)) : Prop where
  keyed : Table.Keyed Provider.id ps → Table.Keyed Provider.id qs
  serves : Table.Keyed Provider.id ps → ∀ id p, Table.find Provider.id ps id = some p →
    ∃ q, Table.find Provider.id qs id = some q ∧ q.tenantId = p.tenantId ∧ q.serverName = p.serverName

theorem Serving.refl (ps : List (Provider κ)) : Serving ps ps :=
  ⟨id, fun _ _ p hp => ⟨p, hp, rfl, rfl⟩⟩

/-- A provider may be stored over one of the same server. -/
theorem serving_store {ps : List (Provider κ)} {old new : Provider κ} (hold : old ∈ ps) (hid : new.id = old.id)
    (htenant : new.tenantId = old.tenantId) (hserver : new.serverName = old.serverName) :
    Serving ps (Table.store Provider.id [new] ps) where
  keyed := Table.Keyed.store
  serves := by
    intro hkeyed id p hp
    rw [Table.find_store, hp]
    by_cases hnew : new.id = p.id
    · have hsame : p = old := hkeyed.eq (Table.find_some hp).1 hold (hnew.symm.trans hid)
      refine ⟨new, ?_, hsame ▸ htenant, hsame ▸ hserver⟩
      simp [Table.find_singleton, hnew]
    · exact ⟨p, by simp [Table.find_singleton, hnew], rfl, rfl⟩

theorem serving_append {ps : List (Provider κ)} {new : Provider κ} (hnew : new.id ∉ ps.map Provider.id) :
    Serving ps (ps ++ [new]) where
  keyed h := h.append (List.nodup_singleton _) (by simpa using hnew)
  serves _ id p hp := by
    have hfound : ps.find? (fun row => row.id = id) = some p := hp
    exact ⟨p, by rw [Table.find, List.find?_append, hfound]; rfl, rfl, rfl⟩

theorem serving_providersWith (w : World κ) (id : String) (secret : Option κ) :
    Serving w.providers (w.providersWith id secret) := by
  unfold World.providersWith
  split
  · next secret row _ hrow => exact serving_store (Table.find_some hrow).1 rfl rfl rfl
  · exact .refl _

/-! ## What a call changes -/

/-- What stays in an identity. -/
def DelegatedIdentity.owner (identity : DelegatedIdentity κ) : String × String × String × String × String × String :=
  (identity.tenantId, identity.providerId, identity.serverName, identity.subjectProvider, identity.subject,
    identity.delegationTokenHash)

/-- The tokens of an identity that were handed out. -/
def handedFor (id : String) (w : World κ) : ℕ := w.handed.countP fun token => token.identityId = id

/-- The calls that wait for tokens of an identity. -/
def pendingFor (id : String) (w : World κ) : ℕ := w.refreshing.countP fun pending => pending.identityId = id

/-- What a call that is not about states does: an identity stays with its owner; one that is revoked stays so, and its
tokens are handed out only by calls that wait. -/
structure Kept (w w' : World κ) : Prop where
  providers : Serving w.providers w'.providers
  states : w'.states = w.states
  completing : w'.completing = w.completing
  issued : w'.issued = w.issued
  redeemed : w'.redeemed = w.redeemed
  sent : ∀ entry ∈ w'.sent, entry ∈ w.sent ∨ entry.1 = none
  owner : ∀ id, (w'.identities id).map DelegatedIdentity.owner = (w.identities id).map DelegatedIdentity.owner
  revoked : ∀ id, (w.identities id).any DelegatedIdentity.revoked → (w'.identities id).any DelegatedIdentity.revoked
  handed : ∀ id, (w.identities id).any DelegatedIdentity.revoked →
    handedFor id w' + pendingFor id w' ≤ handedFor id w + pendingFor id w

theorem Kept.refl (w : World κ) : Kept w w :=
  ⟨.refl _, rfl, rfl, rfl, rfl, fun _ => .inl, fun _ => rfl, fun _ h => h, fun _ _ => le_rfl⟩

section

variable {w : World κ} {id : String} {row new : DelegatedIdentity κ}

/-- An identity that is written over one of the same owner. -/
theorem update_owner (hrow : w.identities id = some row) (howner : new.owner = row.owner) (k : String) :
    (Function.update w.identities id (some new) k).map DelegatedIdentity.owner =
      (w.identities k).map DelegatedIdentity.owner := by
  by_cases hk : k = id
  · subst hk
    simp [hrow, howner]
  · simp [hk]

theorem update_revoked (hrow : w.identities id = some row) (hrevoked : row.revoked → new.revoked) (k : String)
    (h : (w.identities k).any DelegatedIdentity.revoked) :
    (Function.update w.identities id (some new) k).any DelegatedIdentity.revoked := by
  by_cases hk : k = id
  · subst hk
    simp only [hrow, Option.any_some] at h
    simpa using hrevoked h
  · simpa [hk] using h

end

variable {service} {w w' : World κ}

theorem configureProvider_kept {newId : String} {config : Configuration}
    (h : configureProvider service w newId config = some w') : Kept w w' := by
  unfold configureProvider at h
  split at h
  · split at h
    · next old hold =>
      obtain rfl := Option.some.inj h
      have hfound := List.find?_some hold
      simp only [decide_eq_true_eq] at hfound
      exact { Kept.refl w with
        providers := serving_store (List.mem_of_find?_eq_some hold) rfl hfound.1.symm hfound.2.symm }
    · split at h
      · cases h
      · next hnew =>
        obtain rfl := Option.some.inj h
        exact { Kept.refl w with providers := serving_append hnew }
  · obtain rfl := Option.some.inj h
    exact .refl _

theorem handedOf_length (identityId : String) (payload : Json) :
    (handedOf service identityId payload).length ≤ 1 := by
  unfold handedOf
  cases payload.get "access_token" <;> simp

theorem handedOf_identityId {identityId : String} {payload : Json} {token : Handed}
    (h : token ∈ handedOf service identityId payload) : token.identityId = identityId := by
  unfold handedOf at h
  cases hget : payload.get "access_token" with
  | none => simp [hget] at h
  | some value =>
    simp only [hget, Option.map_some, Option.toList_some, List.mem_singleton] at h
    rw [h]

variable (service) in
/-- How many of the tokens of a call are for an identity. -/
theorem countP_handedOf (id identityId : String) (payload : Json) :
    (handedOf service identityId payload).countP (fun token => token.identityId = id) ≤
      if identityId = id then 1 else 0 := by
  split
  · exact List.countP_le_length.trans (handedOf_length _ _)
  · next hne =>
    rw [Nat.le_zero, List.countP_eq_zero]
    intro token htoken
    simpa [handedOf_identityId htoken] using hne

/-- A call begins for an identity that is not revoked only. -/
theorem beginAccess_kept {call : ℕ} {identityId : String} {now : Instant} {resolved : Bool}
    (h : beginAccess service w call identityId now resolved = some w') : Kept w w' := by
  unfold beginAccess at h
  split at h
  · cases h
  split at h
  · obtain rfl := Option.some.inj h
    exact .refl _
  next identity hidentity =>
  obtain ⟨hrow, hlive⟩ := Option.filter_eq_some_iff.mp hidentity
  have hother : ∀ id, (w.identities id).any DelegatedIdentity.revoked → identityId ≠ id := by
    rintro id hid rfl
    simp_all
  dsimp only at h
  split at h
  · obtain rfl := Option.some.inj h
    exact .refl _
  next payload migrated hpayload =>
  split at h
  · obtain rfl := Option.some.inj h
    refine { Kept.refl w with
      owner := update_owner hrow rfl
      revoked := update_revoked hrow fun hr => hr
      handed := fun id hid => ?_ }
    have hcount := countP_handedOf service id identityId payload
    rw [if_neg (hother id hid)] at hcount
    simp only [handedFor, pendingFor, List.countP_append]
    omega
  split at h
  · obtain rfl := Option.some.inj h
    exact .refl _
  split at h
  · obtain rfl := Option.some.inj h
    exact .refl _
  split at h
  · obtain rfl := Option.some.inj h
    refine { Kept.refl w with
      sent := fun entry hentry => ?_
      handed := fun id hid => ?_ }
    · rcases List.mem_append.mp hentry with hold | hnew
      · exact .inl hold
      · exact .inr (by rw [List.mem_singleton.mp hnew])
    · simp [handedFor, pendingFor, hother id hid]
  · obtain rfl := Option.some.inj h
    exact .refl _

/-- A call that ends hands out a token at most, and does not wait any more. -/
theorem countP_released {call : ℕ} {pending : Refreshing κ} (hmem : pending ∈ w.refreshing)
    (hcall : pending.call = call) (id : String) : (w.refreshing.filter fun other => other.call ≠ call).countP (fun other => other.identityId = id) +
      (if pending.identityId = id then 1 else 0) ≤ pendingFor id w := by
  have hsplit := List.countP_eq_countP_filter_add w.refreshing (fun other => decide (other.identityId = id))
    fun other => decide (other.call ≠ call)
  have hone : (if pending.identityId = id then 1 else 0) ≤
      (w.refreshing.filter fun other => !decide (other.call ≠ call)).countP (fun other => other.identityId = id) := by
    split
    · next hid => exact List.countP_pos_iff.mpr ⟨pending, by simp [hmem, hcall], by simpa using hid⟩
    · exact Nat.zero_le _
  rw [pendingFor, hsplit]
  exact Nat.add_le_add_left hone _

theorem endAccess_kept {call : ℕ} {reply : Option Json} (h : endAccess service w call reply = some w') :
    Kept w w' := by
  unfold endAccess at h
  obtain ⟨pending, hfind, h⟩ := Option.bind_eq_some_iff.mp h
  have hmem := List.mem_of_find?_eq_some hfind
  have hcall : pending.call = call := by simpa using List.find?_some hfind
  dsimp only at h
  split at h
  · next data seconds row _ hrow =>
    obtain rfl := Option.some.inj h
    refine { Kept.refl w with
      providers := serving_providersWith w _ _
      owner := update_owner hrow rfl
      revoked := update_revoked hrow fun hr => hr
      handed := fun id _ => ?_ }
    have hreleased := countP_released hmem hcall id
    have hcount := countP_handedOf service id pending.identityId
      (if (data.get "refresh_token").isSome then data else data.set "refresh_token" (.str pending.refreshToken))
    simp only [handedFor, pendingFor, List.countP_append] at hreleased hcount ⊢
    omega
  · obtain rfl := Option.some.inj h
    refine { Kept.refl w with handed := fun id _ => ?_ }
    have hreleased := countP_released hmem hcall id
    simp only [handedFor, pendingFor] at hreleased ⊢
    omega

theorem revoke_kept (w : World κ) (identityId : String) : Kept w (revoke w identityId) := by
  unfold revoke
  split
  · exact .refl _
  · next identity hrow =>
    exact { Kept.refl w with
      owner := update_owner hrow rfl
      revoked := update_revoked hrow fun _ => rfl }

/-! ## States -/

/-- The row of a state is of the authorization that issued it. -/
structure Describes (service : Service κ) (issued : Issued) (row : OAuthState κ) : Prop where
  providerId : row.providerId = issued.providerId
  subjectProvider : row.subjectProvider = issued.subjectProvider
  subject : row.subject = issued.subject
  expiresAt : row.expiresAt = issued.issuedAt + max 60 service.stateTtlSeconds
  verifier : row.consumedAt = none → row.encryptedVerifier =
    service.encryptPayload (.obj [("verifier", .str issued.verifier)])
      (oauthStateBinding (service.sha256 issued.state))

/-- What `start_authorization` stores, if it stores anything. -/
theorem startAuthorization_cases {providerId subjectProvider subject state verifier : String} {now : Instant}
    (h : startAuthorization service w providerId subjectProvider subject state verifier now = some w') :
    w' = w ∨ ∃ issued row, w.states (service.sha256 issued.state) = none ∧ Describes service issued row ∧
      row.consumedAt = none ∧ (w.provider issued.providerId).isSome ∧
      ("code_challenge", service.challenge issued.verifier) ∈ issued.query ∧ ("state", issued.state) ∈ issued.query ∧
      w' = { w with
        states := Function.update w.states (service.sha256 issued.state) (some row)
        issued := w.issued ++ [issued] } := by
  unfold startAuthorization at h
  split at h
  · exact .inl (Option.some.inj h).symm
  next provider hprovider =>
  dsimp only at h
  split at h
  · exact .inl (Option.some.inj h).symm
  next hfree =>
  have hid : provider.id = providerId := (Table.find_some hprovider).2
  refine .inr ⟨⟨state, verifier, provider.id, subjectProvider, subject, now,
    authorizationQuery service provider state verifier⟩, _, ?_, ⟨rfl, rfl, rfl, rfl, fun _ => rfl⟩, rfl, ?_, ?_, ?_,
      (Option.some.inj h).symm⟩
  · simpa using hfree
  · rw [hid, hprovider]; rfl
  · simp [authorizationQuery]
  · simp [authorizationQuery]

/-- What a call that redeems a state holds: the row that is stored as it will be written, and its provider. -/
structure Holds (w : World κ) (stateHash : String) (row : OAuthState κ) (provider : Provider κ)
    (old : OAuthState κ) : Prop where
  stored : w.states stateHash = some old
  unconsumed : old.consumedAt = none
  consumed : row.consumedAt.isSome
  providerId : row.providerId = old.providerId
  subjectProvider : row.subjectProvider = old.subjectProvider
  subject : row.subject = old.subject
  expiresAt : row.expiresAt = old.expiresAt
  ofProvider : provider.id = old.providerId
  serves : ∃ current, w.provider old.providerId = some current ∧ current.tenantId = provider.tenantId ∧
    current.serverName = provider.serverName

theorem redeemable_spec {stateHash : String} {now : Instant} {row : OAuthState κ} {provider : Provider κ}
    {verifier : Json} (h : redeemable service w stateHash now = some (row, provider, verifier)) :
    ∃ stored, Holds w stateHash row provider stored ∧ now < stored.expiresAt ∧
      ∃ payload migrated, service.decryptSensitivePayload stored.encryptedVerifier (oauthStateBinding stateHash) =
        some (payload, migrated) ∧ payload.get "verifier" = some verifier := by
  unfold redeemable at h
  obtain ⟨stored, hstored, h⟩ := Option.bind_eq_some_iff.mp h
  split at h
  · cases h
  next hopen =>
  obtain ⟨current, hprovider, h⟩ := Option.bind_eq_some_iff.mp h
  obtain ⟨⟨payload, migrated⟩, hpayload, h⟩ := Option.bind_eq_some_iff.mp h
  obtain ⟨verifier', hverifier, h⟩ := Option.bind_eq_some_iff.mp h
  cases h
  simp only [not_or, not_le, Bool.not_eq_true, Option.isSome_eq_false_iff, Option.isNone_iff_eq_none] at hopen
  exact ⟨stored, ⟨hstored, hopen.1, rfl, rfl, rfl, rfl, rfl, (Table.find_some hprovider).2, _, hprovider, rfl, rfl⟩,
    hopen.2, payload, migrated, hpayload, hverifier⟩

/-- `_exchange` sends the data that it is given. -/
theorem exchange_verifier {provider : Provider κ} {code : String} {verifier : Json} {request : Exchange}
    {secret : Option κ} (h : exchange service provider (codeData provider code verifier) = some (request, secret)) :
    request.payload.lookup "code_verifier" = some verifier ∧ request.tokenUrl = provider.tokenUrl := by
  unfold exchange at h
  dsimp only at h
  split at h
  · cases h
    exact ⟨rfl, rfl⟩
  · obtain ⟨⟨payload, migrated⟩, _, h⟩ := Option.bind_eq_some_iff.mp h
    obtain ⟨clientSecret, _, h⟩ := Option.bind_eq_some_iff.mp h
    cases h
    exact ⟨rfl, rfl⟩

/-- A call that begins to redeem a state, if it does, is the only one that holds it. -/
theorem beginCompletion_cases {call : ℕ} {code state : String} {now : Instant} {resolved : Bool}
    (h : beginCompletion service w call code state now resolved = some w') :
    w' = w ∨ ∃ pending stored request verifier, pending.stateHash = service.sha256 state ∧
      w.locked pending.stateHash = false ∧ Holds w pending.stateHash pending.row pending.provider stored ∧
      (∃ payload migrated, service.decryptSensitivePayload stored.encryptedVerifier
        (oauthStateBinding pending.stateHash) = some (payload, migrated) ∧ payload.get "verifier" = some verifier) ∧
      request.payload.lookup "code_verifier" = some verifier ∧
      w' = { w with
        completing := pending :: w.completing
        sent := w.sent ++ [(some state, request)] } := by
  unfold beginCompletion at h
  dsimp only at h
  split at h
  · cases h
  next hfree =>
  cases hredeemable : redeemable service w (service.sha256 state) now with
  | none =>
    rw [hredeemable] at h
    exact .inl (Option.some.inj h).symm
  | some found =>
  obtain ⟨row, provider, verifier⟩ := found
  rw [hredeemable] at h
  dsimp only at h
  split at h
  · next request secret hexchange =>
    obtain ⟨stored, hholds, _, hverifier⟩ := redeemable_spec hredeemable
    have hunlocked : w.locked (service.sha256 state) = false := by simpa using (not_or.mp hfree).1
    exact .inr ⟨⟨call, service.sha256 state, row, provider, secret, now⟩, stored, request, verifier, rfl, hunlocked,
      hholds, hverifier, (exchange_verifier hexchange).1, (Option.some.inj h).symm⟩
  · exact .inl (Option.some.inj h).symm

/-- A call that ends leaves the state, or redeems it for an identity of its user. -/
theorem endCompletion_cases {call : ℕ} {reply : Option Json} {identityId delegationToken : String}
    (h : endCompletion service w call reply identityId delegationToken = some w') :
    ∃ pending ∈ w.completing, pending.call = call ∧
      (w' = { w with completing := w.completing.filter fun other => other.call ≠ call } ∨
      ∃ identity, w.identities identityId = none ∧ identity.revoked = false ∧
        identity.owner = (pending.provider.tenantId, pending.provider.id, pending.provider.serverName,
          pending.row.subjectProvider, pending.row.subject, service.sha256 delegationToken) ∧
        w' = { w with
          providers := w.providersWith pending.provider.id pending.secret
          completing := w.completing.filter fun other => other.call ≠ call
          states := Function.update w.states pending.stateHash (some pending.row)
          identities := Function.update w.identities identityId (some identity)
          redeemed := w.redeemed ++ [(pending.stateHash, identityId)] }) := by
  unfold endCompletion at h
  obtain ⟨pending, hfind, h⟩ := Option.bind_eq_some_iff.mp h
  refine ⟨pending, List.mem_of_find?_eq_some hfind, by simpa using List.find?_some hfind, ?_⟩
  dsimp only at h
  split at h
  · exact .inl (Option.some.inj h).symm
  next data seconds _ =>
  split at h
  · exact .inl (Option.some.inj h).symm
  · next hnew =>
    exact .inr ⟨newIdentity service pending data seconds identityId delegationToken, by simpa using hnew, rfl, rfl,
      (Option.some.inj h).symm⟩

/-! ## The invariant -/

/-- An identity is of the user and the provider of an authorization. -/
structure Owned (w : World κ) (issued : Issued) (identity : DelegatedIdentity κ) : Prop where
  providerId : identity.providerId = issued.providerId
  subjectProvider : identity.subjectProvider = issued.subjectProvider
  subject : identity.subject = issued.subject
  serves : ∃ provider, w.provider issued.providerId = some provider ∧ provider.tenantId = identity.tenantId ∧
    provider.serverName = identity.serverName

/-- What holds between the rows, the calls that wait and what was handed out. -/
structure Sound (service : Service κ) (w : World κ) : Prop where
  keyed : Table.Keyed Provider.id w.providers
  issued_once : (w.issued.map fun issued => service.sha256 issued.state).Nodup
  stored : ∀ issued ∈ w.issued, ∃ row, w.states (service.sha256 issued.state) = some row ∧
    Describes service issued row
  of_stored : ∀ stateHash row, w.states stateHash = some row →
    ∃ issued ∈ w.issued, service.sha256 issued.state = stateHash
  served : ∀ issued ∈ w.issued, (w.provider issued.providerId).isSome
  query : ∀ issued ∈ w.issued, ("code_challenge", service.challenge issued.verifier) ∈ issued.query ∧
    ("state", issued.state) ∈ issued.query
  locked_once : (w.completing.map Completing.stateHash).Nodup
  holds : ∀ pending ∈ w.completing, ∃ stored, Holds w pending.stateHash pending.row pending.provider stored
  redeemed_once : (w.redeemed.map Prod.fst).Nodup
  identities_once : (w.redeemed.map Prod.snd).Nodup
  consumed : ∀ stateHash, (w.states stateHash).any (fun row => row.consumedAt.isSome) ↔
    stateHash ∈ w.redeemed.map Prod.fst
  redeemed : ∀ entry ∈ w.redeemed, ∃ issued ∈ w.issued, ∃ identity, service.sha256 issued.state = entry.1 ∧
    w.identities entry.2 = some identity ∧ Owned w issued identity
  of_identity : ∀ id, (w.identities id).isSome → id ∈ w.redeemed.map Prod.snd

theorem sound_empty : Sound service ({} : World κ) where
  keyed := .nil
  issued_once := List.nodup_nil
  stored := by simp
  of_stored := by simp
  served := by simp
  query := by simp
  locked_once := List.nodup_nil
  holds := by simp
  redeemed_once := List.nodup_nil
  identities_once := List.nodup_nil
  consumed := by simp
  redeemed := by simp
  of_identity := by simp

/-- The rows that a state is held by are not changed by calls that are not about it. -/
theorem Holds.mono {stateHash : String} {row old : OAuthState κ} {provider : Provider κ}
    (h : Holds w stateHash row provider old) (hkeyed : Table.Keyed Provider.id w.providers)
    (hserving : Serving w.providers w'.providers) (hstates : w'.states stateHash = w.states stateHash) :
    Holds w' stateHash row provider old := by
  obtain ⟨current, hcurrent, htenant, hserver⟩ := h.serves
  obtain ⟨next, hnext, htenant', hserver'⟩ := hserving.serves hkeyed _ _ hcurrent
  exact { h with
    stored := hstates.trans h.stored
    serves := ⟨next, hnext, htenant'.trans htenant, hserver'.trans hserver⟩ }

theorem Owned.mono {issued : Issued} {identity new : DelegatedIdentity κ} (h : Owned w issued identity)
    (hkeyed : Table.Keyed Provider.id w.providers) (hserving : Serving w.providers w'.providers)
    (howner : new.owner = identity.owner) : Owned w' issued new := by
  obtain ⟨current, hcurrent, htenant, hserver⟩ := h.serves
  obtain ⟨next, hnext, htenant', hserver'⟩ := hserving.serves hkeyed _ _ hcurrent
  simp only [DelegatedIdentity.owner, Prod.mk.injEq] at howner
  obtain ⟨hnewTenant, hnewProvider, hnewServer, hnewSubjectProvider, hnewSubject, _⟩ := howner
  exact ⟨hnewProvider.trans h.providerId, hnewSubjectProvider.trans h.subjectProvider, hnewSubject.trans h.subject,
    next, hnext, (htenant'.trans htenant).trans hnewTenant.symm, (hserver'.trans hserver).trans hnewServer.symm⟩

theorem Serving.isSome {ps qs : List (Provider κ)} {id : String} (h : Serving ps qs)
    (hkeyed : Table.Keyed Provider.id ps) (hid : (Table.find Provider.id ps id).isSome) :
    (Table.find Provider.id qs id).isSome := by
  obtain ⟨p, hp⟩ := Option.isSome_iff_exists.mp hid
  obtain ⟨q, hq, _⟩ := h.serves hkeyed id p hp
  rw [hq]
  rfl

theorem Sound.kept (h : Sound service w) (hkept : Kept w w') : Sound service w' := by
  have hold : ∀ id, (w'.identities id).isSome = (w.identities id).isSome := fun id => by
    have howner := hkept.owner id
    rw [← Option.isSome_map (f := DelegatedIdentity.owner), howner, Option.isSome_map]
  constructor
  case keyed => exact hkept.providers.keyed h.keyed
  case issued_once => exact hkept.issued ▸ h.issued_once
  case stored => rw [hkept.issued, hkept.states]; exact h.stored
  case of_stored => rw [hkept.issued, hkept.states]; exact h.of_stored
  case served =>
    rw [hkept.issued]
    exact fun issued hissued => hkept.providers.isSome h.keyed (h.served issued hissued)
  case query => exact hkept.issued ▸ h.query
  case locked_once => exact hkept.completing ▸ h.locked_once
  case holds =>
    rw [hkept.completing]
    intro pending hpending
    obtain ⟨old, hholds⟩ := h.holds pending hpending
    exact ⟨old, hholds.mono h.keyed hkept.providers (congrFun hkept.states _)⟩
  case redeemed_once => exact hkept.redeemed ▸ h.redeemed_once
  case identities_once => exact hkept.redeemed ▸ h.identities_once
  case consumed => rw [hkept.states, hkept.redeemed]; exact h.consumed
  case redeemed =>
    rw [hkept.redeemed, hkept.issued]
    intro entry hentry
    obtain ⟨issued, hissued, identity, hhash, hidentity, howned⟩ := h.redeemed entry hentry
    have howner := hkept.owner entry.2
    rw [hidentity, Option.map_some, Option.map_eq_some_iff] at howner
    obtain ⟨new, hnew, howner⟩ := howner
    exact ⟨issued, hissued, new, hhash, hnew, howned.mono h.keyed hkept.providers howner⟩
  case of_identity =>
    intro id hid
    rw [hkept.redeemed]
    exact h.of_identity id (hold id ▸ hid)

theorem Sound.started (h : Sound service w) {issued : Issued} {row : OAuthState κ}
    (hfree : w.states (service.sha256 issued.state) = none) (hrow : Describes service issued row)
    (hunconsumed : row.consumedAt = none) (hserved : (w.provider issued.providerId).isSome)
    (hquery : ("code_challenge", service.challenge issued.verifier) ∈ issued.query ∧
      ("state", issued.state) ∈ issued.query) :
    Sound service { w with
      states := Function.update w.states (service.sha256 issued.state) (some row)
      issued := w.issued ++ [issued] } := by
  have hother : ∀ stateHash old, w.states stateHash = some old → stateHash ≠ service.sha256 issued.state := by
    rintro stateHash old hold rfl
    rw [hfree] at hold
    cases hold
  have hnew : ∀ other ∈ w.issued, service.sha256 other.state ≠ service.sha256 issued.state := by
    intro other hmem
    obtain ⟨old, hold, _⟩ := h.stored other hmem
    exact hother _ old hold
  constructor
  case keyed => exact h.keyed
  case issued_once =>
    rw [List.map_append, List.nodup_append]
    refine ⟨h.issued_once, List.nodup_singleton _, fun hash hhash other hmem => ?_⟩
    obtain ⟨entry, hentry, rfl⟩ := List.mem_map.mp hhash
    exact (List.mem_singleton.mp hmem) ▸ hnew entry hentry
  case stored =>
    intro other hmem
    rcases List.mem_append.mp hmem with hmem | hmem
    · obtain ⟨old, hold, hdescribes⟩ := h.stored other hmem
      exact ⟨old, (Function.update_of_ne (hnew other hmem) _ _).trans hold, hdescribes⟩
    · obtain rfl := List.mem_singleton.mp hmem
      exact ⟨row, Function.update_self _ _ _, hrow⟩
  case of_stored =>
    intro stateHash old hold
    by_cases hsame : stateHash = service.sha256 issued.state
    · exact ⟨issued, List.mem_append_right _ (List.mem_singleton_self _), hsame.symm⟩
    · obtain ⟨other, hmem, hhash⟩ := h.of_stored stateHash old ((Function.update_of_ne hsame _ _).symm.trans hold)
      exact ⟨other, List.mem_append_left _ hmem, hhash⟩
  case served =>
    intro other hmem
    rcases List.mem_append.mp hmem with hmem | hmem
    · exact h.served other hmem
    · exact (List.mem_singleton.mp hmem) ▸ hserved
  case query =>
    intro other hmem
    rcases List.mem_append.mp hmem with hmem | hmem
    · exact h.query other hmem
    · exact (List.mem_singleton.mp hmem) ▸ hquery
  case locked_once => exact h.locked_once
  case holds =>
    intro pending hpending
    obtain ⟨old, hholds⟩ := h.holds pending hpending
    exact ⟨old, hholds.mono h.keyed (.refl _) (Function.update_of_ne (hother _ old hholds.stored) _ _)⟩
  case redeemed_once => exact h.redeemed_once
  case identities_once => exact h.identities_once
  case consumed =>
    intro stateHash
    by_cases hsame : stateHash = service.sha256 issued.state
    · subst hsame
      have hnot := (h.consumed (service.sha256 issued.state)).mpr.mt (by simp [hfree])
      simpa [hunconsumed] using hnot
    · simpa [Function.update_of_ne hsame] using h.consumed stateHash
  case redeemed =>
    intro entry hentry
    obtain ⟨other, hmem, identity, hhash, hidentity, howned⟩ := h.redeemed entry hentry
    exact ⟨other, List.mem_append_left _ hmem, identity, hhash, hidentity, howned.mono h.keyed (.refl _) rfl⟩
  case of_identity => exact h.of_identity

theorem Sound.begun (h : Sound service w) {pending : Completing κ} {old : OAuthState κ}
    (hunlocked : w.locked pending.stateHash = false)
    (hholds : Holds w pending.stateHash pending.row pending.provider old)
    (sent : List (Option String × Exchange)) :
    Sound service { w with completing := pending :: w.completing, sent := sent } := by
  refine { h with
    locked_once := ?_
    holds := fun other hmem => ?_
    redeemed := fun entry hentry => ?_ }
  · rw [List.map_cons, List.nodup_cons]
    refine ⟨fun hmem => ?_, h.locked_once⟩
    obtain ⟨other, hother, hhash⟩ := List.mem_map.mp hmem
    have hlocked := List.any_eq_false.mp hunlocked other hother
    exact hlocked (decide_eq_true hhash)
  · rcases List.mem_cons.mp hmem with rfl | hmem
    · exact ⟨old, hholds.mono h.keyed (.refl _) rfl⟩
    · obtain ⟨row, hrow⟩ := h.holds other hmem
      exact ⟨row, hrow.mono h.keyed (.refl _) rfl⟩
  · obtain ⟨issued, hissued, identity, hhash, hidentity, howned⟩ := h.redeemed entry hentry
    exact ⟨issued, hissued, identity, hhash, hidentity, howned.mono h.keyed (.refl _) rfl⟩

theorem Sound.released (h : Sound service w) (call : ℕ) :
    Sound service { w with completing := w.completing.filter fun other => other.call ≠ call } := by
  refine { h with
    locked_once := h.locked_once.sublist (List.filter_sublist.map _)
    holds := fun other hmem => ?_
    redeemed := fun entry hentry => ?_ }
  · obtain ⟨row, hrow⟩ := h.holds other (List.mem_of_mem_filter hmem)
    exact ⟨row, hrow.mono h.keyed (.refl _) rfl⟩
  · obtain ⟨issued, hissued, identity, hhash, hidentity, howned⟩ := h.redeemed entry hentry
    exact ⟨issued, hissued, identity, hhash, hidentity, howned.mono h.keyed (.refl _) rfl⟩

/-- A state is redeemed by the call that holds it. -/
theorem Sound.complete (h : Sound service w) {pending : Completing κ} (hpending : pending ∈ w.completing)
    {identityId : String} {identity : DelegatedIdentity κ} {delegationTokenHash : String}
    (hnew : w.identities identityId = none)
    (howner : identity.owner = (pending.provider.tenantId, pending.provider.id, pending.provider.serverName,
      pending.row.subjectProvider, pending.row.subject, delegationTokenHash)) (secret : Option κ) :
    Sound service { w with
      providers := w.providersWith pending.provider.id secret
      completing := w.completing.filter fun other => other.call ≠ pending.call
      states := Function.update w.states pending.stateHash (some pending.row)
      identities := Function.update w.identities identityId (some identity)
      redeemed := w.redeemed ++ [(pending.stateHash, identityId)] } := by
  obtain ⟨old, hholds⟩ := h.holds pending hpending
  have hserving := serving_providersWith w pending.provider.id secret
  have hunredeemed : pending.stateHash ∉ w.redeemed.map Prod.fst := by
    rw [← h.consumed, hholds.stored]
    simp [hholds.unconsumed]
  have hidentity : ∀ id, (w.identities id).isSome → id ≠ identityId := by
    rintro id hid rfl
    simp [hnew] at hid
  have hpast : ∀ entry ∈ w.redeemed, entry.2 ≠ identityId := fun entry hentry => by
    obtain ⟨_, _, row, _, hrow, _⟩ := h.redeemed entry hentry
    exact hidentity entry.2 (hrow ▸ rfl)
  constructor
  case keyed => exact hserving.keyed h.keyed
  case issued_once => exact h.issued_once
  case stored =>
    intro issued hissued
    obtain ⟨row, hrow, hdescribes⟩ := h.stored issued hissued
    by_cases hsame : service.sha256 issued.state = pending.stateHash
    · obtain rfl : row = old := Option.some.inj (hrow.symm.trans (hsame ▸ hholds.stored))
      refine ⟨pending.row, hsame ▸ Function.update_self _ _ _, hholds.providerId.trans hdescribes.providerId,
        hholds.subjectProvider.trans hdescribes.subjectProvider, hholds.subject.trans hdescribes.subject,
        hholds.expiresAt.trans hdescribes.expiresAt, fun hnone => ?_⟩
      have hconsumed := hholds.consumed
      simp [hnone] at hconsumed
    · exact ⟨row, (Function.update_of_ne hsame _ _).trans hrow, hdescribes⟩
  case of_stored =>
    intro stateHash row hrow
    by_cases hsame : stateHash = pending.stateHash
    · exact hsame ▸ h.of_stored pending.stateHash old hholds.stored
    · exact h.of_stored stateHash row ((Function.update_of_ne hsame _ _).symm.trans hrow)
  case served => exact fun issued hissued => hserving.isSome h.keyed (h.served issued hissued)
  case query => exact h.query
  case locked_once => exact h.locked_once.sublist (List.filter_sublist.map _)
  case holds =>
    intro other hother
    obtain ⟨hmem, hcall⟩ := List.mem_filter.mp hother
    obtain ⟨row, hrow⟩ := h.holds other hmem
    have hhash : other.stateHash ≠ pending.stateHash := fun hhash => by
      obtain rfl := List.inj_on_of_nodup_map h.locked_once hmem hpending hhash
      simp at hcall
    exact ⟨row, hrow.mono h.keyed hserving (Function.update_of_ne hhash _ _)⟩
  case redeemed_once =>
    rw [List.map_append]
    exact h.redeemed_once.append (List.nodup_singleton _) (by simpa using hunredeemed)
  case identities_once =>
    rw [List.map_append]
    refine h.identities_once.append (List.nodup_singleton _) ?_
    simp only [List.map_cons, List.map_nil, List.disjoint_singleton, List.mem_map, not_exists, not_and]
    exact hpast
  case consumed =>
    intro stateHash
    by_cases hsame : stateHash = pending.stateHash
    · subst hsame
      simp [hholds.consumed]
    · simpa [Function.update_of_ne hsame, hsame] using h.consumed stateHash
  case redeemed =>
    intro entry hentry
    rcases List.mem_append.mp hentry with hentry | hentry
    · obtain ⟨issued, hissued, row, hhash, hrow, howned⟩ := h.redeemed entry hentry
      exact ⟨issued, hissued, row, hhash, (Function.update_of_ne (hpast entry hentry) _ _).trans hrow,
        howned.mono h.keyed hserving rfl⟩
    · obtain rfl := List.mem_singleton.mp hentry
      obtain ⟨issued, hissued, hhash⟩ := h.of_stored pending.stateHash old hholds.stored
      obtain ⟨row, hrow, hdescribes⟩ := h.stored issued hissued
      obtain rfl : row = old := Option.some.inj (hrow.symm.trans (hhash ▸ hholds.stored))
      simp only [DelegatedIdentity.owner, Prod.mk.injEq] at howner
      obtain ⟨htenant, hprovider, hserver, hsubjectProvider, hsubject, _⟩ := howner
      obtain ⟨current, hcurrent, hcurrentTenant, hcurrentServer⟩ := hholds.serves
      have howned : Owned w issued identity := by
        refine ⟨?_, ?_, ?_, current, ?_, hcurrentTenant.trans htenant.symm, hcurrentServer.trans hserver.symm⟩
        · rw [hprovider, hholds.ofProvider, hdescribes.providerId]
        · rw [hsubjectProvider, hholds.subjectProvider, hdescribes.subjectProvider]
        · rw [hsubject, hholds.subject, hdescribes.subject]
        · rw [← hdescribes.providerId, hcurrent]
      exact ⟨issued, hissued, identity, hhash, Function.update_self _ _ _, howned.mono h.keyed hserving rfl⟩
  case of_identity =>
    intro id hid
    rw [List.map_append, List.mem_append]
    by_cases hsame : id = identityId
    · exact .inr (by simp [hsame])
    · exact .inl (h.of_identity id (by simpa [Function.update_of_ne hsame] using hid))

/-! ## Every run -/

theorem Sound.step (h : Sound service w) {e : Event} (he : step service w e = some w') : Sound service w' := by
  cases e with
  | configure newId config => exact h.kept (configureProvider_kept he)
  | start providerId subjectProvider subject state verifier now =>
    obtain rfl | ⟨issued, row, hfree, hrow, hunconsumed, hserved, hchallenge, hstate, rfl⟩ :=
      startAuthorization_cases he
    · exact h
    · exact h.started hfree hrow hunconsumed hserved ⟨hchallenge, hstate⟩
  | complete call code state now resolved =>
    obtain rfl | ⟨pending, old, request, verifier, _, hunlocked, hholds, _, _, rfl⟩ := beginCompletion_cases he
    · exact h
    · exact h.begun hunlocked hholds _
  | completed call reply identityId delegationToken =>
    obtain ⟨pending, hpending, rfl, rfl | ⟨identity, hnew, _, howner, rfl⟩⟩ := endCompletion_cases he
    · exact h.released pending.call
    · exact h.complete hpending hnew howner pending.secret
  | access call identityId now resolved => exact h.kept (beginAccess_kept he)
  | accessed call reply => exact h.kept (endAccess_kept he)
  | revoke identityId => exact h.kept (Option.some.inj he ▸ revoke_kept w identityId)

theorem delegation_sound : (delegation service).Inductive (Sound service) where
  start h := h ▸ sound_empty
  step h he := h.step he

/-- However the calls follow each other, a state gives one identity at most and is marked as consumed exactly if it
gave one; every identity was given by a state, and is of the user it was issued to and of the tenant and the server of
its provider. -/
theorem redeemed_once (h : (delegation service).Reachable w) :
    (w.redeemed.map Prod.fst).Nodup ∧ (w.redeemed.map Prod.snd).Nodup ∧
      (∀ id, (w.identities id).isSome ↔ id ∈ w.redeemed.map Prod.snd) ∧
      (∀ stateHash, (w.states stateHash).any (fun row => row.consumedAt.isSome) ↔
        stateHash ∈ w.redeemed.map Prod.fst) ∧
      ∀ entry ∈ w.redeemed, ∃ issued ∈ w.issued, ∃ identity, service.sha256 issued.state = entry.1 ∧
        w.identities entry.2 = some identity ∧ Owned w issued identity := by
  have hsound := delegation_sound.reachable h
  refine ⟨hsound.redeemed_once, hsound.identities_once, fun id => ⟨hsound.of_identity id, fun hid => ?_⟩,
    hsound.consumed, hsound.redeemed⟩
  obtain ⟨entry, hentry, rfl⟩ := List.mem_map.mp hid
  obtain ⟨_, _, identity, _, hidentity, _⟩ := hsound.redeemed entry hentry
  rw [hidentity]
  rfl

theorem sampleRevoked_redeemed : sampleRevoked.redeemed.length = 1 ∧ (sampleRevoked.redeemed.map Prod.fst).Nodup ∧
    ∃ issued ∈ sampleRevoked.issued, ∃ identity, sampleDigest issued.state = sampleDigest "s1" ∧
      sampleRevoked.identities "i1" = some identity ∧ Owned sampleRevoked issued identity :=
  ⟨rfl, (redeemed_once sampleRevoked_reachable).1,
    (redeemed_once sampleRevoked_reachable).2.2.2.2 (sampleDigest "s1", "i1") (List.mem_singleton_self _)⟩

/-- A state that was issued and has not been redeemed holds the verifier it was issued with. -/
theorem Sound.verifier (h : Sound service w) (hlawful : Lawful service) {stateHash : String} {old : OAuthState κ}
    (hold : w.states stateHash = some old) (hunconsumed : old.consumedAt = none) :
    ∃ issued ∈ w.issued, service.sha256 issued.state = stateHash ∧ Describes service issued old ∧
      service.decryptSensitivePayload old.encryptedVerifier (oauthStateBinding stateHash) =
        some (.obj [("verifier", .str issued.verifier)], false) := by
  obtain ⟨issued, hissued, rfl⟩ := h.of_stored stateHash old hold
  obtain ⟨row, hrow, hdescribes⟩ := h.stored issued hissued
  obtain rfl : row = old := Option.some.inj (hrow.symm.trans hold)
  exact ⟨issued, hissued, rfl, hdescribes, by rw [hdescribes.verifier hunconsumed, hlawful]⟩

/-- A request for a state has the verifier of which its URL has the challenge. -/
def Verified (service : Service κ) (w : World κ) (entry : Option String × Exchange) : Prop :=
  ∀ state, entry.1 = some state → ∃ issued ∈ w.issued, service.sha256 issued.state = service.sha256 state ∧
    entry.2.payload.lookup "code_verifier" = some (.str issued.verifier) ∧
    ("code_challenge", service.challenge issued.verifier) ∈ issued.query ∧ ("state", issued.state) ∈ issued.query

theorem Verified.mono {entry : Option String × Exchange} (h : Verified service w entry)
    (hissued : ∀ issued ∈ w.issued, issued ∈ w'.issued) : Verified service w' entry := fun state hstate => by
  obtain ⟨issued, hmem, hverified⟩ := h state hstate
  exact ⟨issued, hissued issued hmem, hverified⟩

/-- What goes to a token endpoint for a state, in every run, is the verifier of which the challenge was in the URL
that was handed out with the state. -/
theorem verifier_sent (hlawful : Lawful service) (h : (delegation service).Reachable w) :
    ∀ entry ∈ w.sent, Verified service w entry := by
  have hverified : (delegation service).Inductive fun w =>
      Sound service w ∧ ∀ entry ∈ w.sent, Verified service w entry := by
    constructor
    case start => rintro w rfl; exact ⟨sound_empty, by simp⟩
    case step =>
      rintro w w' e ⟨hsound, hsent⟩ he
      refine ⟨hsound.step he, ?_⟩
      have hkept : Kept w w' → ∀ entry ∈ w'.sent, Verified service w' entry := fun hkept entry hentry => by
        rcases hkept.sent entry hentry with hold | hnone
        · exact (hsent entry hold).mono fun issued hissued => hkept.issued ▸ hissued
        · exact fun state hstate => nomatch hnone.symm.trans hstate
      cases e with
      | configure newId config => exact hkept (configureProvider_kept he)
      | start providerId subjectProvider subject state verifier now =>
        obtain rfl | ⟨issued, row, _, _, _, _, _, _, rfl⟩ := startAuthorization_cases he
        · exact hsent
        · exact fun entry hentry => (hsent entry hentry).mono fun _ hissued => List.mem_append_left _ hissued
      | complete call code state now resolved =>
        obtain rfl | ⟨pending, old, request, verifier, hhash, _, hholds, ⟨payload, migrated, hpayload, hget⟩, hlookup,
          rfl⟩ := beginCompletion_cases he
        · exact hsent
        intro entry hentry
        rcases List.mem_append.mp hentry with hentry | hentry
        · exact (hsent entry hentry).mono fun _ hissued => hissued
        obtain rfl := List.mem_singleton.mp hentry
        rintro state' hstate
        obtain rfl := Option.some.inj hstate
        obtain ⟨issued, hissued, hof, _, hdecrypt⟩ := hsound.verifier hlawful hholds.stored hholds.unconsumed
        obtain ⟨rfl, _⟩ := Prod.mk.inj (Option.some.inj (hpayload.symm.trans hdecrypt))
        obtain rfl : Json.str issued.verifier = verifier := Option.some.inj hget
        exact ⟨issued, hissued, hof.trans hhash, hlookup, hsound.query issued hissued⟩
      | completed call reply identityId delegationToken =>
        obtain ⟨pending, _, _, rfl | ⟨identity, _, _, _, rfl⟩⟩ := endCompletion_cases he
        all_goals exact fun entry hentry => (hsent entry hentry).mono fun _ hissued => hissued
      | access call identityId now resolved => exact hkept (beginAccess_kept he)
      | accessed call reply => exact hkept (endAccess_kept he)
      | revoke identityId => exact hkept (Option.some.inj he ▸ revoke_kept w identityId)
  exact (hverified.reachable h).2

theorem sampleRevoked_sent : sampleRevoked.sent.length = 3 ∧
    ∀ entry ∈ sampleRevoked.sent, Verified sampleService sampleRevoked entry :=
  ⟨rfl, verifier_sent sampleService_lawful sampleRevoked_reachable⟩

/-- In every run a state can be redeemed as long as it has given no identity and its time has not run out: a call that
failed or still waits for the token endpoint has not used it up. -/
theorem redeemable_iff (hlawful : Lawful service) (h : (delegation service).Reachable w) (stateHash : String)
    (now : Instant) : (redeemable service w stateHash now).isSome ↔
      stateHash ∉ w.redeemed.map Prod.fst ∧ ∃ issued ∈ w.issued, service.sha256 issued.state = stateHash ∧
        now < issued.issuedAt + max 60 service.stateTtlSeconds := by
  have hsound := delegation_sound.reachable h
  constructor
  · intro hsome
    obtain ⟨⟨row, provider, verifier⟩, hfound⟩ := Option.isSome_iff_exists.mp hsome
    obtain ⟨old, hholds, hbefore, _⟩ := redeemable_spec hfound
    obtain ⟨issued, hissued, hhash, hdescribes, _⟩ := hsound.verifier hlawful hholds.stored hholds.unconsumed
    refine ⟨?_, issued, hissued, hhash, hdescribes.expiresAt ▸ hbefore⟩
    rw [← hsound.consumed, hholds.stored]
    simp [hholds.unconsumed]
  · rintro ⟨hunredeemed, issued, hissued, rfl, hbefore⟩
    obtain ⟨old, hold, hdescribes⟩ := hsound.stored issued hissued
    rw [← hsound.consumed, hold] at hunredeemed
    have hunconsumed : old.consumedAt = none := by simpa using hunredeemed
    obtain ⟨provider, hprovider⟩ := Option.isSome_iff_exists.mp (hsound.served issued hissued)
    have hdecrypt : service.decryptSensitivePayload old.encryptedVerifier
        (oauthStateBinding (service.sha256 issued.state)) = some
          (.obj [("verifier", .str issued.verifier)], false) := by
      rw [hdescribes.verifier hunconsumed, hlawful]
    have hopen : ¬ (old.consumedAt.isSome = true ∨ old.expiresAt ≤ now) := by
      rw [hunconsumed, hdescribes.expiresAt]
      simpa using hbefore
    simp only [redeemable, hold, Option.bind_eq_bind, Option.bind_some, if_neg hopen, hdescribes.providerId,
      hprovider, hdecrypt]
    rfl

/-- The first attempt of the sample failed. -/
theorem sampleAttempted_redeemable :
    (redeemable sampleService sampleAttempted (sampleDigest "s1") 20).isSome = true :=
  (redeemable_iff sampleService_lawful sampleAttempted_reachable _ _).mpr
    ⟨List.not_mem_nil, _, List.mem_singleton_self _, rfl, by decide⟩

/-! ## Revocation -/

/-- What a call leaves of a revoked identity. -/
theorem step_revoked {id : String} {e : Event} (he : step service w e = some w')
    (h : (w.identities id).any DelegatedIdentity.revoked) : (w'.identities id).any DelegatedIdentity.revoked ∧
      handedFor id w' + pendingFor id w' ≤ handedFor id w + pendingFor id w := by
  have hkept : Kept w w' → (w'.identities id).any DelegatedIdentity.revoked ∧
      handedFor id w' + pendingFor id w' ≤ handedFor id w + pendingFor id w :=
    fun hkept => ⟨hkept.revoked id h, hkept.handed id h⟩
  cases e with
  | configure newId config => exact hkept (configureProvider_kept he)
  | start providerId subjectProvider subject state verifier now =>
    obtain rfl | ⟨_, _, _, _, _, _, _, _, rfl⟩ := startAuthorization_cases he
    all_goals exact ⟨h, le_rfl⟩
  | complete call code state now resolved =>
    obtain rfl | ⟨_, _, _, _, _, _, _, _, _, rfl⟩ := beginCompletion_cases he
    all_goals exact ⟨h, le_rfl⟩
  | completed call reply identityId delegationToken =>
    obtain ⟨pending, _, _, rfl | ⟨identity, hnew, _, _, rfl⟩⟩ := endCompletion_cases he
    · exact ⟨h, le_rfl⟩
    · have hother : id ≠ identityId := by
        rintro rfl
        simp [hnew] at h
      exact ⟨by simpa [Function.update_of_ne hother] using h, le_rfl⟩
  | access call identityId now resolved => exact hkept (beginAccess_kept he)
  | accessed call reply => exact hkept (endAccess_kept he)
  | revoke identityId => exact hkept (Option.some.inj he ▸ revoke_kept w identityId)

/-- An identity that is revoked stays revoked, whatever is called: it is accepted for no run, and its tokens are
handed out at most once for each call that waited when it was revoked. -/
theorem revoked_refused {id : String} {es : List Event} (hrun : (delegation service).Run w es w')
    (h : (w.identities id).any DelegatedIdentity.revoked) :
    (∀ delegationToken tenantId, verifyForRun service w' id delegationToken tenantId = none) ∧
      handedFor id w' + pendingFor id w' ≤ handedFor id w + pendingFor id w := by
  have hrevoked : (w'.identities id).any DelegatedIdentity.revoked ∧
      handedFor id w' + pendingFor id w' ≤ handedFor id w + pendingFor id w := by
    refine hrun.inv (I := fun t => (t.identities id).any DelegatedIdentity.revoked ∧
      handedFor id t + pendingFor id t ≤ handedFor id w + pendingFor id w) (fun s e t hs he => ?_) ⟨h, le_rfl⟩
    obtain ⟨hstill, hcount⟩ := step_revoked he hs.1
    exact ⟨hstill, hcount.trans hs.2⟩
  refine ⟨fun delegationToken tenantId => ?_, hrevoked.2⟩
  rw [verifyForRun, Option.filter_eq_none_iff]
  intro identity hidentity
  have hstill := hrevoked.1
  rw [hidentity, Option.any_some] at hstill
  simp [hstill]

/-- One token is handed out after the revocation of the sample, to the call that waited. -/
theorem sampleRevoked_refused : ∃ w : World (Json × String),
    (delegation sampleService).Run sampleRevoked
      [.accessed 3 (some (.obj [("access_token", .str "a2")])), .access 4 "i1" 3700 true] w ∧ handedFor "i1" w = 1 ∧
      verifyForRun sampleService w "i1" "d1" "t1" = none ∧ handedFor "i1" w + pendingFor "i1" w ≤
        handedFor "i1" sampleRevoked + pendingFor "i1" sampleRevoked := by
  have hrun : (delegation sampleService).Run sampleRevoked
      [.accessed 3 (some (.obj [("access_token", .str "a2")])), .access 4 "i1" 3700 true] _ :=
    .of_foldlM (Option.some_get rfl).symm
  have hrevoked : (sampleRevoked.identities "i1").any DelegatedIdentity.revoked := rfl
  have hrefused := revoked_refused hrun hrevoked
  exact ⟨_, hrun, rfl, hrefused.1 _ _, hrefused.2⟩

end

end CodeMate.Tenancy.Delegation
