import CodeMate.Framework.Fallible
import CodeMate.Framework.Run
import CodeMate.Framework.Session
import CodeMate.Framework.Table
import CodeMate.Quota.Policy

/-!
# Administration of quota policies

Administrators create, change and disable policies (`World.step`). A creation
counts the enabled policies of the tenant and inserts the row later; a change
reads the row at the start of its request, checks it against the payload
(`updatePolicy`), and writes what it changes over the row that is committed by
then (`PolicyRow.overlay`). `Guarded` are the steps that respect the cap on the
enabled policies of a tenant.
-/

namespace CodeMate.Quota.Administration

open Framework

/-! ## Rows and payloads -/

structure PolicyRow extends MCPQuotaPolicy where
  scopeKey : String
  warningThreshold : ℚ
  version : Nat
  createdBy : String
  updatedBy : String
  updatedAt : Int
deriving DecidableEq

/-- A payload: the fields that are present, with their values. -/
structure Payload where
  repoId : Option (Option String) := none
  principalType : Option (Option String) := none
  principalId : Option (Option String) := none
  serverName : Option (Option String) := none
  toolName : Option (Option String) := none
  limits : Override := {}
  callCostUnits : Option (Option ℚ) := none
  warningThreshold : Option (Option ℚ) := none
  enabled : Option (Option Bool) := none
  frozen : Option (Option Bool) := none
deriving DecidableEq

inductive PolicyError
  | conflict (message : String)
  | notFound
deriving DecidableEq

/-- `scopeKey` is the digest of the fields of a scope. -/
structure Settings where
  mcpQuotaMaxPoliciesPerTenant : Int
  mcpQuotaDefaultCallCostUnits : ℚ
  scopeKey : String → Option String → String → String → String → String → String

/-- `max(1, settings.mcp_quota_max_policies_per_tenant)`. -/
def Settings.cap (s : Settings) : Nat := (max 1 s.mcpQuotaMaxPoliciesPerTenant).toNat

/-- `policy_payload`. -/
def policyPayload (policy : PolicyRow) : Payload where
  repoId := some policy.repoId
  principalType := some (some policy.principalType)
  principalId := some (some policy.principalId)
  serverName := some (some policy.serverName)
  toolName := some (some policy.toolName)
  limits :=
    { rateLimitPerMinute := some policy.limits.rateLimitPerMinute
      dailyCallLimit := some policy.limits.dailyCallLimit
      dailyCostLimit := some policy.limits.dailyCostLimit
      concurrentLimit := some policy.limits.concurrentLimit
      runCallLimit := some policy.limits.runCallLimit
      maxRunDurationSeconds := some policy.limits.maxRunDurationSeconds }
  callCostUnits := some (some policy.callCostUnits)
  warningThreshold := some (some policy.warningThreshold)
  enabled := some (some policy.enabled)
  frozen := some (some policy.frozen)

/-- `current.update(payload)`. -/
def Payload.update (current payload : Payload) : Payload where
  repoId := payload.repoId.or current.repoId
  principalType := payload.principalType.or current.principalType
  principalId := payload.principalId.or current.principalId
  serverName := payload.serverName.or current.serverName
  toolName := payload.toolName.or current.toolName
  limits :=
    { rateLimitPerMinute := payload.limits.rateLimitPerMinute.or current.limits.rateLimitPerMinute
      dailyCallLimit := payload.limits.dailyCallLimit.or current.limits.dailyCallLimit
      dailyCostLimit := payload.limits.dailyCostLimit.or current.limits.dailyCostLimit
      concurrentLimit := payload.limits.concurrentLimit.or current.limits.concurrentLimit
      runCallLimit := payload.limits.runCallLimit.or current.limits.runCallLimit
      maxRunDurationSeconds := payload.limits.maxRunDurationSeconds.or current.limits.maxRunDurationSeconds }
  callCostUnits := payload.callCostUnits.or current.callCostUnits
  warningThreshold := payload.warningThreshold.or current.warningThreshold
  enabled := payload.enabled.or current.enabled
  frozen := payload.frozen.or current.frozen

/-! ## `normalize_policy_payload` -/

structure Normalized where
  tenantId : String
  repoId : Option String
  principalType : String
  principalId : String
  serverName : String
  toolName : String
  limits : Limits
  callCostUnits : ℚ
  warningThreshold : ℚ
  enabled : Bool
  frozen : Bool

/-- `str(value or "*")`. -/
def orStar (value : Option (Option String)) : String := (value.join.filter (· ≠ "")).getD "*"

/-- `positive_or_none`. -/
def positiveOrNone (value : Option (Option Nat)) : Except PolicyError (Option Nat) :=
  match value.join with
  | none => .ok none
  | some n => if n = 0 then .error (.conflict "Quota limits must be greater than 0") else .ok (some n)

/-- `positive_float_or_none`. -/
def positiveFloatOrNone (value : Option (Option ℚ)) : Except PolicyError (Option ℚ) :=
  match value.join with
  | none => .ok none
  | some q => if q ≤ 0 then .error (.conflict "Quota limits must be greater than 0") else .ok (some q)

/-- `bool(payload.get("enabled", True))`. -/
def Payload.enables (payload : Payload) : Bool :=
  match payload.enabled with
  | none => true
  | some value => value.getD false

section

variable (s : Settings)

def normalizePolicyPayload (tenantId : String) (payload : Payload) : Except PolicyError Normalized :=
  positiveOrNone payload.limits.rateLimitPerMinute >>= fun rateLimitPerMinute =>
  positiveOrNone payload.limits.dailyCallLimit >>= fun dailyCallLimit =>
  positiveFloatOrNone payload.limits.dailyCostLimit >>= fun dailyCostLimit =>
  positiveOrNone payload.limits.concurrentLimit >>= fun concurrentLimit =>
  positiveOrNone payload.limits.runCallLimit >>= fun runCallLimit =>
  positiveOrNone payload.limits.maxRunDurationSeconds >>= fun maxRunDurationSeconds =>
  let callCostUnits := (payload.callCostUnits.join.filter (· ≠ 0)).getD s.mcpQuotaDefaultCallCostUnits
  let warningThreshold := (payload.warningThreshold.join.filter (· ≠ 0)).getD (4 / 5)
  if ¬ (0 < warningThreshold ∧ warningThreshold ≤ 1) then
    .error (.conflict "warning_threshold must be greater than 0 and at most 1")
  else if callCostUnits ≤ 0 then .error (.conflict "call_cost_units must be greater than 0")
  else .ok
    { tenantId
      repoId := payload.repoId.join.filter (· ≠ "")
      principalType := orStar payload.principalType
      principalId := orStar payload.principalId
      serverName := orStar payload.serverName
      toolName := orStar payload.toolName
      limits :=
        ⟨rateLimitPerMinute, dailyCallLimit, dailyCostLimit, concurrentLimit, runCallLimit, maxRunDurationSeconds⟩
      callCostUnits
      warningThreshold
      enabled := payload.enables
      frozen := (payload.frozen.join).getD false }

def policyScopeKey (n : Normalized) : String :=
  s.scopeKey n.tenantId n.repoId n.principalType n.principalId n.serverName n.toolName

/-- The row of `create_policy`. -/
def newPolicy (n : Normalized) (id actor : String) (now : Int) : PolicyRow where
  id := id
  tenantId := n.tenantId
  repoId := n.repoId
  principalType := n.principalType
  principalId := n.principalId
  serverName := n.serverName
  toolName := n.toolName
  limits := n.limits
  callCostUnits := n.callCostUnits
  enabled := n.enabled
  frozen := n.frozen
  temporaryOverride := none
  temporaryOverrideExpiresAt := none
  resetAt := none
  scopeKey := policyScopeKey s n
  warningThreshold := n.warningThreshold
  version := 1
  createdBy := actor
  updatedBy := actor
  updatedAt := now

/-- Whether a payload changes the scope of a policy. -/
def changesScope (current : PolicyRow) (payload : Payload) : Bool :=
  payload.repoId.any (· ≠ current.repoId) || payload.principalType.any (· ≠ some current.principalType) ||
    payload.principalId.any (· ≠ some current.principalId) || payload.serverName.any (· ≠ some current.serverName) ||
    payload.toolName.any (· ≠ some current.toolName)

/-- `update_policy` on the object of the session. -/
def updatePolicy (policy : PolicyRow) (payload : Payload) (expectedVersion : Nat) (actor : String) (now : Int) :
    Except PolicyError PolicyRow :=
  if policy.version ≠ expectedVersion then .error (.conflict "Quota policy version conflict")
  else if changesScope policy payload then
    .error (.conflict "Quota policy scope is immutable; create a new policy instead")
  else
    normalizePolicyPayload s policy.tenantId ((policyPayload policy).update payload) >>= fun n =>
      .ok
        { policy with
          tenantId := n.tenantId
          repoId := n.repoId
          principalType := n.principalType
          principalId := n.principalId
          serverName := n.serverName
          toolName := n.toolName
          limits := n.limits
          callCostUnits := n.callCostUnits
          enabled := n.enabled
          frozen := n.frozen
          scopeKey := policyScopeKey s n
          warningThreshold := n.warningThreshold
          version := policy.version + 1
          updatedBy := actor
          updatedAt := now }

/-- `disable_policy` on the row. -/
def disablePolicy (policy : PolicyRow) (actor : String) (now : Int) : PolicyRow :=
  { policy with enabled := false, updatedBy := actor, version := policy.version + 1, updatedAt := now }

end

/-- A flush of limits, column by column. -/
def overlayLimits (c n d : Limits) : Limits where
  rateLimitPerMinute := column c.rateLimitPerMinute n.rateLimitPerMinute d.rateLimitPerMinute
  dailyCallLimit := column c.dailyCallLimit n.dailyCallLimit d.dailyCallLimit
  dailyCostLimit := column c.dailyCostLimit n.dailyCostLimit d.dailyCostLimit
  concurrentLimit := column c.concurrentLimit n.concurrentLimit d.concurrentLimit
  runCallLimit := column c.runCallLimit n.runCallLimit d.runCallLimit
  maxRunDurationSeconds := column c.maxRunDurationSeconds n.maxRunDurationSeconds d.maxRunDurationSeconds

/-- A flush of the object `n`, which was read as `c`, over the committed row `d`. -/
def PolicyRow.overlay (c n d : PolicyRow) : PolicyRow where
  id := d.id
  tenantId := column c.tenantId n.tenantId d.tenantId
  repoId := column c.repoId n.repoId d.repoId
  principalType := column c.principalType n.principalType d.principalType
  principalId := column c.principalId n.principalId d.principalId
  serverName := column c.serverName n.serverName d.serverName
  toolName := column c.toolName n.toolName d.toolName
  limits := overlayLimits c.limits n.limits d.limits
  callCostUnits := column c.callCostUnits n.callCostUnits d.callCostUnits
  enabled := column c.enabled n.enabled d.enabled
  frozen := column c.frozen n.frozen d.frozen
  temporaryOverride := column c.temporaryOverride n.temporaryOverride d.temporaryOverride
  temporaryOverrideExpiresAt :=
    column c.temporaryOverrideExpiresAt n.temporaryOverrideExpiresAt d.temporaryOverrideExpiresAt
  resetAt := column c.resetAt n.resetAt d.resetAt
  scopeKey := column c.scopeKey n.scopeKey d.scopeKey
  warningThreshold := column c.warningThreshold n.warningThreshold d.warningThreshold
  version := column c.version n.version d.version
  createdBy := column c.createdBy n.createdBy d.createdBy
  updatedBy := column c.updatedBy n.updatedBy d.updatedBy
  updatedAt := column c.updatedAt n.updatedAt d.updatedAt

/-! ## Requests -/

/-- Where the request of an administrator stands: `create_policy` has counted,
or the route of a change has read the row. -/
inductive Phase
  | idle
  | counted (tenantId : String) (payload : Payload) (actor : String) (count : Nat)
  | loaded (id : String) (row : Option PolicyRow)
deriving DecidableEq

structure World (ω : Type*) where
  db : List PolicyRow
  phase : ω → Phase

inductive Event (ω : Type*)
  | count (k : ω) (tenantId : String) (payload : Payload) (actor : String)
  | insert (k : ω) (newId : String) (now : Int)
  | load (k : ω) (id : String)
  | update (k : ω) (payload : Payload) (expectedVersion : Nat) (actor : String) (now : Int)
  | disable (k : ω) (id actor : String) (now : Int)

def policy (db : List PolicyRow) (id : String) : Option PolicyRow := Table.find (fun p => p.id) db id

def isEnabled (tenantId : String) (p : PolicyRow) : Bool := p.tenantId = tenantId && p.enabled

/-- `policy_count`. -/
def policyCount (db : List PolicyRow) (tenantId : String) : Nat := db.countP (isEnabled tenantId)

/-- The unique constraint of the scope. -/
def scopeTaken (db : List PolicyRow) (id scopeKey : String) : Bool :=
  db.any fun p => p.id ≠ id && p.scopeKey = scopeKey

section

variable {ω : Type*} [DecidableEq ω] (s : Settings)

namespace World

def goto (w : World ω) (k : ω) (phase : Phase) : World ω := { w with phase := Function.update w.phase k phase }

/-- The insert of `create_policy`; a payload that is refused or a scope that is taken leaves the table. -/
def inserted (db : List PolicyRow) (tenantId : String) (payload : Payload) (id actor : String) (now : Int) :
    List PolicyRow :=
  match normalizePolicyPayload s tenantId payload with
  | .error _ => db
  | .ok n =>
    let new := newPolicy s n id actor now
    if scopeTaken db new.id new.scopeKey then db else db ++ [new]

/-- The flush of `update_policy`, of the object `policy` over the committed row. -/
def written (db : List PolicyRow) (policy row : PolicyRow) (payload : Payload) (expectedVersion : Nat)
    (actor : String) (now : Int) : List PolicyRow :=
  match updatePolicy s policy payload expectedVersion actor now with
  | .error _ => db
  | .ok new =>
    let row := policy.overlay new row
    if scopeTaken db row.id row.scopeKey then db else Table.store (fun p => p.id) [row] db

def step (w : World ω) : Event ω → Option (World ω)
  | .count k tenantId payload actor =>
    match w.phase k with
    | .idle =>
      if s.cap ≤ policyCount w.db tenantId then some w
      else some (w.goto k (.counted tenantId payload actor (policyCount w.db tenantId)))
    | _ => none
  | .insert k newId now =>
    match w.phase k with
    | .counted tenantId payload actor _ =>
      if newId ∈ w.db.map (·.id) then none
      else some { w.goto k .idle with db := inserted s w.db tenantId payload newId actor now }
    | _ => none
  | .load k id =>
    match w.phase k with
    | .idle => some (w.goto k (.loaded id (policy w.db id)))
    | _ => none
  | .update k payload expectedVersion actor now =>
    match w.phase k with
    | .loaded id held =>
      match policy w.db id with
      | none => some (w.goto k .idle)
      | some row =>
        some { w.goto k .idle with db := written s w.db (held.getD row) row payload expectedVersion actor now }
    | _ => none
  | .disable k id actor now =>
    match w.phase k with
    | .idle =>
      match policy w.db id with
      | none => some w
      | some row => some { w with db := Table.store (fun p => p.id) [disablePolicy row actor now] w.db }
    | _ => none

end World

/-- The tenants are within the cap. -/
def Within (db : List PolicyRow) : Prop := ∀ tenantId, policyCount db tenantId ≤ s.cap

/-- A table of policies within the cap, and nobody at work on it. -/
structure Start (w : World ω) : Prop where
  keyed : Table.Keyed (fun p : PolicyRow => p.id) w.db
  within : Within s w.db
  idle : ∀ k, w.phase k = .idle

def administration : System (World ω) (Event ω) := .ofStep (Start s) (World.step s)

/-- An enabled policy is not inserted after the count has grown to the cap. -/
def InsertGuarded (db : List PolicyRow) : Phase → Prop
  | .counted tenantId payload _ count =>
    payload.enables = true → count < policyCount db tenantId → policyCount db tenantId < s.cap
  | .idle | .loaded .. => True

/-- A disabled policy is not enabled where its tenant is at the cap. -/
def UpdateGuarded (db : List PolicyRow) (payload : Payload) : Phase → Prop
  | .loaded id held => ∀ row ∈ policy db id, payload.enabled = some (some true) → row.enabled = false →
      (held.getD row).enabled = false → policyCount db row.tenantId < s.cap
  | .idle | .counted .. => True

def Guarded (w : World ω) : Event ω → Prop
  | .insert k _ _ => InsertGuarded s w.db (w.phase k)
  | .update k payload _ _ _ => UpdateGuarded s w.db payload (w.phase k)
  | .count .. | .load .. | .disable .. => True

instance (db : List PolicyRow) : (phase : Phase) → Decidable (InsertGuarded s db phase)
  | .counted .. => inferInstanceAs (Decidable (_ → _ → _))
  | .idle | .loaded .. => isTrue trivial

instance (db : List PolicyRow) (payload : Payload) : (phase : Phase) → Decidable (UpdateGuarded s db payload phase)
  | .loaded id _ => inferInstanceAs (Decidable (∀ row ∈ policy db id, _ → _ → _ → _))
  | .idle | .counted .. => isTrue trivial

instance (w : World ω) : (e : Event ω) → Decidable (Guarded s w e)
  | .insert k _ _ => inferInstanceAs (Decidable (InsertGuarded s w.db (w.phase k)))
  | .update k payload _ _ _ => inferInstanceAs (Decidable (UpdateGuarded s w.db payload (w.phase k)))
  | .count .. | .load .. | .disable .. => isTrue trivial

end

end CodeMate.Quota.Administration
