import Mathlib.Algebra.BigOperators.Group.List.Basic
import Mathlib.Algebra.GroupWithZero.Nat
import Mathlib.Data.Rat.Init
import Mathlib.Algebra.Order.Ring.Rat

/-!
# Quota policies and the check of a reservation

The rows of the quota tables, the policies that match a request, what has been
used of a policy (`policyUsage`), and the check that `reserve` makes under the
locks of the policies it matched (`decision`). Times are microseconds since the
epoch; how the database and Python add costs, which are floats, is a parameter
(`Arithmetic`).
-/

namespace CodeMate.Quota

def second : Int := 1000000
def minute : Int := 60 * second
def day : Int := 86400 * second

/-- `now.replace(hour=0, minute=0, second=0, microsecond=0)`. -/
def midnight (now : Int) : Int := now - now % day

/-- `math.ceil` of an interval in seconds. -/
def ceilSeconds (interval : Int) : Int := -(-interval / second)

/-- How costs are added: by the database's `SUM`, and by Python. -/
structure Arithmetic where
  sum : List ℚ → ℚ
  add : ℚ → ℚ → ℚ

/-- Costs are exact decimals. -/
structure Arithmetic.Exact (a : Arithmetic) : Prop where
  sum (costs : List ℚ) : a.sum costs = costs.sum
  add (x y : ℚ) : a.add x y = x + y

def Arithmetic.decimal : Arithmetic where
  sum := List.sum
  add x y := x + y

theorem Arithmetic.decimal_exact : decimal.Exact := ⟨fun _ => rfl, fun _ _ => rfl⟩

/-! ## Rows -/

structure Limits where
  rateLimitPerMinute : Option Nat
  dailyCallLimit : Option Nat
  dailyCostLimit : Option ℚ
  concurrentLimit : Option Nat
  runCallLimit : Option Nat
  maxRunDurationSeconds : Option Nat
  deriving DecidableEq

/-- `temporary_override_json`: the limits that are present, with their values. -/
structure Override where
  rateLimitPerMinute : Option (Option Nat) := none
  dailyCallLimit : Option (Option Nat) := none
  dailyCostLimit : Option (Option ℚ) := none
  concurrentLimit : Option (Option Nat) := none
  runCallLimit : Option (Option Nat) := none
  maxRunDurationSeconds : Option (Option Nat) := none
  deriving DecidableEq

/-- `values.update(temporary_override_json)`. -/
def Override.apply (o : Override) (limits : Limits) : Limits where
  rateLimitPerMinute := o.rateLimitPerMinute.getD limits.rateLimitPerMinute
  dailyCallLimit := o.dailyCallLimit.getD limits.dailyCallLimit
  dailyCostLimit := o.dailyCostLimit.getD limits.dailyCostLimit
  concurrentLimit := o.concurrentLimit.getD limits.concurrentLimit
  runCallLimit := o.runCallLimit.getD limits.runCallLimit
  maxRunDurationSeconds := o.maxRunDurationSeconds.getD limits.maxRunDurationSeconds

structure MCPQuotaPolicy where
  id : String
  tenantId : String
  repoId : Option String
  principalType : String
  principalId : String
  serverName : String
  toolName : String
  limits : Limits
  callCostUnits : ℚ
  enabled : Bool
  frozen : Bool
  temporaryOverride : Option Override
  temporaryOverrideExpiresAt : Option Int
  resetAt : Option Int
  deriving DecidableEq

/-- What `normalize_policy_payload` checks of a policy's numbers. -/
def normalized (limits : Limits) (callCostUnits : ℚ) : Bool :=
  0 < callCostUnits && limits.rateLimitPerMinute.all (0 < ·) && limits.dailyCallLimit.all (0 < ·) &&
    limits.dailyCostLimit.all (0 < ·) && limits.concurrentLimit.all (0 < ·) && limits.runCallLimit.all (0 < ·) &&
    limits.maxRunDurationSeconds.all (0 < ·)

/-- The limits of `effective_policy_values`. -/
def MCPQuotaPolicy.effectiveLimits (p : MCPQuotaPolicy) (now : Int) : Limits :=
  match p.temporaryOverrideExpiresAt, p.temporaryOverride with
  | some expires, some o => if now < expires then o.apply p.limits else p.limits
  | _, _ => p.limits

structure MCPQuotaEvent where
  id : String
  idempotencyKey : String
  tenantId : String
  runId : Option String
  serverName : String
  toolName : String
  costUnits : ℚ
  status : String
  leaseToken : Option String
  leaseExpiresAt : Option Int
  createdAt : Int
  deriving DecidableEq

/-- The lease of the event has not ended. -/
def MCPQuotaEvent.Live (e : MCPQuotaEvent) (now : Int) : Prop :=
  ∃ expires, e.leaseExpiresAt = some expires ∧ now < expires

instance (e : MCPQuotaEvent) (now : Int) : Decidable (e.Live now) :=
  match h : e.leaseExpiresAt with
  | none => isFalse fun ⟨_, he, _⟩ => by rw [h] at he; cases he
  | some expires =>
    if hlt : now < expires then isTrue ⟨expires, h, hlt⟩
    else isFalse fun ⟨_, he, hlt'⟩ => by rw [h] at he; obtain rfl := Option.some.inj he; exact hlt hlt'

structure MCPQuotaCharge where
  eventId : String
  policyId : String
  calls : Nat
  costUnits : ℚ
  createdAt : Int
  deriving DecidableEq

/-- The tables; new rows come first. -/
structure Tables where
  policies : List MCPQuotaPolicy
  events : List MCPQuotaEvent
  charges : List MCPQuotaCharge

def Tables.event (db : Tables) (id : String) : Option MCPQuotaEvent := db.events.find? (·.id == id)

/-! ## Matching -/

structure MCPQuotaContext where
  tenantId : String
  repoId : Option String
  runId : Option String
  principalType : String
  principalId : String
  runCreatedAt : Option Int

/-- The arguments of `reserve`. -/
structure Request where
  context : MCPQuotaContext
  serverName : String
  toolName : String
  idempotencyKey : String

/-- The condition of the `SELECT … FOR UPDATE` in `_matching_policies`. -/
def MCPQuotaPolicy.matches (p : MCPQuotaPolicy) (r : Request) : Bool :=
  p.tenantId == r.context.tenantId && p.enabled && (p.repoId.isNone || p.repoId == r.context.repoId) &&
    (p.serverName == r.serverName || p.serverName == "*") && (p.toolName == r.toolName || p.toolName == "*")

/-- The principals that a request acts as; `role` is that of the user's membership in the tenant. -/
def Request.principals (r : Request) (role : Option String) : List (String × String) :=
  (r.context.principalType, r.context.principalId) :: ("*", "*") ::
    (if r.context.principalType = "user" then (role.map fun role => ("role", role)).toList else [])

/-- `_matching_policies`, from the rows that were locked. -/
def matchingPolicies (rows : List MCPQuotaPolicy) (r : Request) (role : Option String) : List MCPQuotaPolicy :=
  rows.filter fun p => (p.principalType, p.principalId) ∈ r.principals role

/-! ## Usage -/

structure Usage where
  minuteCalls : Nat
  dailyCalls : Nat
  dailyCost : ℚ
  runCalls : Nat
  activeConcurrency : Nat
  concurrencyRetryAfter : Option Int

/-- `max_datetime`. -/
def maxDatetime (first : Int) (second : Option Int) : Int := (second.map (max first)).getD first

/-- A charge of the policy since its last reset, with its event. -/
def Tables.baseRow (db : Tables) (p : MCPQuotaPolicy) (c : MCPQuotaCharge) :
    Option (MCPQuotaCharge × MCPQuotaEvent) :=
  if c.policyId = p.id ∧ (∀ reset, p.resetAt = some reset → reset ≤ c.createdAt) then
    (db.event c.eventId).map fun e => (c, e)
  else none

/-- The charges that count for a policy. -/
def Tables.base (db : Tables) (p : MCPQuotaPolicy) : List (MCPQuotaCharge × MCPQuotaEvent) :=
  db.charges.filterMap (db.baseRow p)

/-- `_sum_calls`. -/
def sumCalls (rows : List (MCPQuotaCharge × MCPQuotaEvent)) : Nat := (rows.map (·.1.calls)).sum

/-- The events charged to the policy whose leases have not ended, each once. -/
def Tables.activeEvents (db : Tables) (p : MCPQuotaPolicy) (now : Int) (exclude : Option String) :
    List MCPQuotaEvent :=
  (((db.base p).map Prod.snd).filter fun e => e.Live now ∧ some e.id ≠ exclude).dedup

/-- `_policy_usage`. -/
def Tables.policyUsage (db : Tables) (arithmetic : Arithmetic) (p : MCPQuotaPolicy) (now : Int)
    (runId exclude : Option String) : Usage :=
  let base := db.base p
  let minuteCutoff := maxDatetime (now - minute) p.resetAt
  let dayCutoff := maxDatetime (midnight now) p.resetAt
  let daily := base.filter fun row => dayCutoff ≤ row.1.createdAt
  let active := db.activeEvents p now exclude
  { minuteCalls := sumCalls (base.filter fun row => minuteCutoff ≤ row.1.createdAt)
    dailyCalls := sumCalls daily
    dailyCost := arithmetic.sum (daily.map (·.1.costUnits))
    runCalls := if runId.isSome then sumCalls (base.filter fun row => row.2.runId = runId) else 0
    activeConcurrency := active.length
    concurrencyRetryAfter :=
      ((active.filterMap (·.leaseExpiresAt)).min?).map fun expires => max 1 (ceilSeconds (expires - now)) }

/-! ## The check -/

inductive Reason
  | idempotencyInProgress
  | tenantFrozen
  | runDurationLimit
  | rateLimitPerMinute
  | dailyCallLimit
  | dailyCostLimit
  | runCallLimit
  | concurrentLimit
  | quotaReconciling
  deriving DecidableEq

/-- `MCPQuotaExceededError`. -/
structure Exceeded where
  reason : Reason
  policyId : Option String
  retryAfterSeconds : Option Int
  deriving DecidableEq

inductive QuotaError
  | exceeded (e : Exceeded)
  | conflict
  deriving DecidableEq

/-- `limit is not None and proposed > limit`. -/
def exceeds (limit : Option ℚ) (proposed : ℚ) : Bool := limit.any fun limit => limit < proposed

def secondsUntilTomorrow (now : Int) : Int := max 1 (ceilSeconds (midnight now + day - now))

/-- The checks of a new event against a policy. -/
def newEventChecks (arithmetic : Arithmetic) (limits : Limits) (usage : Usage) (now : Int) (costUnits : ℚ) :
    List (Option ℚ × ℚ × Reason × Option Int) :=
  [(limits.rateLimitPerMinute.map fun n : Nat => (n : ℚ), usage.minuteCalls + 1, .rateLimitPerMinute, some 60),
    (limits.dailyCallLimit.map fun n : Nat => (n : ℚ), usage.dailyCalls + 1, .dailyCallLimit,
      some (secondsUntilTomorrow now)),
    (limits.dailyCostLimit, arithmetic.add usage.dailyCost costUnits, .dailyCostLimit,
      some (secondsUntilTomorrow now)),
    (limits.runCallLimit.map fun n : Nat => (n : ℚ), usage.runCalls + 1, .runCallLimit, none)]

/-- `_check_policy`: why the policy rejects the request, if it does. -/
def Tables.checkPolicy (db : Tables) (arithmetic : Arithmetic) (r : Request) (now : Int) (costUnits : ℚ)
    (existing : Option MCPQuotaEvent) (p : MCPQuotaPolicy) : Option Exceeded :=
  if p.frozen then some ⟨.tenantFrozen, some p.id, none⟩
  else
    let limits := p.effectiveLimits now
    if limits.maxRunDurationSeconds.any fun n : Nat => r.context.runCreatedAt.any fun created =>
        (n : Int) * second ≤ now - created then some ⟨.runDurationLimit, some p.id, none⟩
    else
      let usage := db.policyUsage arithmetic p now r.context.runId (existing.map (·.id))
      let rejected := if existing.isSome then none
        else (newEventChecks arithmetic limits usage now costUnits).find? fun check => exceeds check.1 check.2.1
      match rejected with
      | some check => some ⟨check.2.2.1, some p.id, check.2.2.2⟩
      | none =>
        if exceeds (limits.concurrentLimit.map fun n : Nat => (n : ℚ)) (usage.activeConcurrency + 1) then
          some ⟨.concurrentLimit, some p.id, usage.concurrencyRetryAfter⟩
        else none

/-- `max` of the policies' costs. -/
def maxCost (default : ℚ) : List MCPQuotaPolicy → ℚ
  | [] => default
  | p :: rest => rest.foldl (fun cost p => max cost p.callCostUnits) p.callCostUnits

/-- What `reserve` decides before it writes: the cost of the call, and the
event that its key already has. -/
def Tables.decision (db : Tables) (arithmetic : Arithmetic) (default : ℚ) (policies : List MCPQuotaPolicy)
    (r : Request) (now : Int) : Except QuotaError (ℚ × Option MCPQuotaEvent) :=
  let existing := db.events.find? (·.idempotencyKey == r.idempotencyKey)
  if existing.any fun e => e.tenantId ≠ r.context.tenantId ∨ e.serverName ≠ r.serverName ∨
      e.toolName ≠ r.toolName then .error .conflict
  else match (existing.bind (·.leaseExpiresAt)).filter fun expires => now < expires with
    | some expires =>
      .error (.exceeded ⟨.idempotencyInProgress, policies.head?.map (·.id),
        some (max 1 (ceilSeconds (expires - now)))⟩)
    | none =>
      let costUnits := maxCost default policies
      match policies.findSome? (db.checkPolicy arithmetic r now costUnits existing) with
      | some e => .error (.exceeded e)
      | none => .ok (costUnits, existing)

end CodeMate.Quota
