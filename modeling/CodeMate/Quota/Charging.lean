import CodeMate.Quota.Limits
import CodeMate.Quota.Script

/-!
# What a reservation that fails leaves behind

One call of `reserve` over the tables and the Redis store, with every point at
which it can fail (`Attempt`): the rows are written in a transaction, the script
runs before the commit, and `_redis_release` is all that is done in Redis when
the commit fails. Another client may take the key before the event is flushed;
`reserve` then starts again over what that client left.

`failed_reserve_keeps` says when a call that raises leaves the events, the
charges and the live entries of the store as it found them.
-/

namespace CodeMate.Quota

open Framework.Redis

/-! ## The call of the script -/

inductive RedisKey
  | minute (policyId : String) (minute : Int)
  | day (policyId : String) (day : Int)
  | run (policyId runId : String)
  | concurrency (policyId : String)
  | idem (policyId hash : String)
  | reconcile (tenantId : String)
  deriving DecidableEq

structure RedisSettings where
  /-- `mcp_quota_backend` is `redis`. -/
  redis : Bool
  failClosed : Bool
  /-- `int(t.timestamp() * 1000)`. -/
  millis : Int → Int
  millis_mono {t u : Int} : t ≤ u → millis t ≤ millis u
  sha256 : String → String
  /-- The addition of costs in Redis. -/
  add : ℚ → ℚ → ℚ

def redisLimit (limit : Option ℚ) : ℚ := limit.getD (-1)

/-- The keys and limits of a policy. -/
def scriptPolicy (rs : RedisSettings) (r : Request) (now : Int) (eventId : String) (p : MCPQuotaPolicy) :
    ScriptPolicy RedisKey :=
  let limits := p.effectiveLimits now
  { minuteKey := .minute p.id (now / minute)
    dayKey := .day p.id (now / day)
    runKey := .run p.id ((r.context.runId.filter (· ≠ "")).getD eventId)
    concurrencyKey := .concurrency p.id
    idemKey := .idem p.id (rs.sha256 r.idempotencyKey)
    rateLimit := redisLimit (limits.rateLimitPerMinute.map fun n : Nat => (n : ℚ))
    dailyCallsLimit := redisLimit (limits.dailyCallLimit.map fun n : Nat => (n : ℚ))
    dailyCostLimit := redisLimit limits.dailyCostLimit
    runLimit := redisLimit (limits.runCallLimit.map fun n : Nat => (n : ℚ))
    concurrentLimit := redisLimit (limits.concurrentLimit.map fun n : Nat => (n : ℚ)) }

/-- The keys and arguments of `_redis_reserve`. -/
def scriptCall (s : Settings) (rs : RedisSettings) (r : Request) (now : Int) (policies : List MCPQuotaPolicy)
    (eventId : String) (costUnits : ℚ) (alreadyCounted : Bool) : ScriptCall RedisKey where
  reconcileKey := .reconcile ((policies.head?.map (·.tenantId)).getD "")
  nowMs := rs.millis now
  leaseExpiry := rs.millis (now + s.lease)
  member := eventId
  cost := costUnits
  alreadyCounted := alreadyCounted
  policies := policies.map (scriptPolicy rs r now eventId)

/-- `_redis_release`; `removed` has the policies for which the command reaches Redis. -/
def redisRelease (rs : RedisSettings) (removed : String → Bool) (policyIds : List String) (eventId : String)
    (store : Store RedisKey) : Store RedisKey :=
  if rs.redis then
    policyIds.foldl (fun store id => if removed id then store.zrem (.concurrency id) eventId else store) store
  else store

/-! ## A call of `reserve` -/

structure Backend where
  /-- The clock of the database. -/
  clock : Int
  db : Tables
  store : Store RedisKey
  rejections : List Exceeded

/-- What a client sees of the call of the script: its reply, or an error
before the script has run or after. -/
inductive Eval
  | answered
  | down
  | lost
  deriving DecidableEq

inductive Flush
  | done
  | failed
  /-- The key has got an event; the tables and the store are as others have left them. -/
  | raced (others : Backend)

/-- What one attempt meets. -/
structure Attempt where
  now : Int
  redisNow : Int
  role : Option String
  eventId : String
  token : String
  flush : Flush
  eval : Eval
  /-- The commit of a rejection succeeds. -/
  recorded : Bool
  committed : Bool
  refreshed : Bool
  /-- The policies for which `_redis_release` reaches Redis. -/
  removed : String → Bool

structure MCPQuotaReservation where
  eventId : Option String
  leaseToken : Option String
  policyIds : List String
  enabled : Bool := true
  deriving DecidableEq

inductive ReserveError
  | conflict
  | exceeded (e : Exceeded)
  | unavailable
  /-- An error of the database. -/
  | database
  deriving DecidableEq

/-- How an attempt ends. -/
inductive Ending
  | retry (b : Backend)
  | done (result : Except ReserveError MCPQuotaReservation) (b : Backend)

section Attempt

variable (s : Settings) (rs : RedisSettings) (r : Request) (a : Attempt)

/-- The store after the call of the script. -/
def scriptStore (call : ScriptCall RedisKey) (store : Store RedisKey) : Store RedisKey :=
  if rs.redis ∧ a.eval ≠ .down then (reserveScript rs.add a.redisNow call store).2 else store

/-- `_redis_reserve`: the error that it raises. -/
def redisReserve (policies : List MCPQuotaPolicy) (call : ScriptCall RedisKey) (store : Store RedisKey) :
    Option ReserveError :=
  if rs.redis then
    match a.eval, (reserveScript rs.add a.redisNow call store).1 with
    | .answered, .accepted => none
    | .answered, .rejected index reason retryAfter =>
      some (.exceeded ⟨reason, if 0 < index then policies[index - 1]?.map (·.id) else none,
        if 0 < retryAfter then some retryAfter else none⟩)
    | _, _ => if rs.failClosed then some .unavailable else none
  else none

/-- A rejection is committed. -/
def Backend.reject (b : Backend) (e : Exceeded) : Ending :=
  if a.recorded then .done (.error (.exceeded e)) { b with rejections := e :: b.rejections }
  else .done (.error .database) b

/-- The policies that a request matches. -/
def Backend.policies (b : Backend) : List MCPQuotaPolicy :=
  matchingPolicies (b.db.policies.filter (·.matches r)) r a.role

/-- The tables as the one client of a world. -/
def Backend.world (b : Backend) : World Unit := ⟨b.clock, b.db, fun _ => none, fun _ => .idle, fun _ => []⟩

/-- The event of the reservation. -/
def Attempt.reserves (existing : Option MCPQuotaEvent) : String := (existing.map (·.id)).getD a.eventId

/-- The tables that the transaction commits. -/
def Backend.written (b : Backend) (costUnits : ℚ) (existing : Option MCPQuotaEvent) : Option Tables :=
  (writeReservation s b.world () r a.now (b.policies r a) costUnits (existing.map (·.id)) a.eventId a.token).map
    (·.db)

/-- The call of the script. -/
def Backend.call (b : Backend) (costUnits : ℚ) (existing : Option MCPQuotaEvent) : ScriptCall RedisKey :=
  scriptCall s rs r a.now (b.policies r a) (a.reserves existing) costUnits existing.isSome

/-- The transaction of a reservation, whose rows make the tables `db`, from the script on. -/
def Backend.commit (b : Backend) (policies : List MCPQuotaPolicy) (eventId : String) (call : ScriptCall RedisKey)
    (db : Tables) (reservation : MCPQuotaReservation) : Ending :=
  let store := scriptStore rs a call b.store
  let released := { b with store := redisRelease rs a.removed (policies.map (·.id)) eventId store }
  match redisReserve rs a policies call b.store with
  | some (.exceeded e) => { b with store := store }.reject a e
  | some e => .done (.error e) released
  | none =>
    if !a.committed then .done (.error .database) released
    else if !a.refreshed then .done (.error .database) { b with db := db, store := store }
    else .done (.ok reservation) { b with db := db, store := store }

/-- A reservation that the tables allow. -/
def Backend.take (b : Backend) (costUnits : ℚ) (existing : Option MCPQuotaEvent) : Ending :=
  match (if existing.isNone then a.flush else .done), b.written s r a costUnits existing with
  | .failed, _ => .done (.error .database) b
  | .raced others, _ => .retry others
  | .done, none => .retry b
  | .done, some db =>
    b.commit rs a (b.policies r a) (a.reserves existing) (b.call s rs r a costUnits existing) db
      ⟨some (a.reserves existing), some a.token, (b.policies r a).map (·.id), true⟩

/-- `reserve`, up to the point where it starts again. -/
def attempt (b : Backend) : Ending :=
  let policies := b.policies r a
  if !s.enabled then .done (.ok ⟨none, none, [], false⟩) b
  else if r.context.tenantId = "" then .done (.error .unavailable) b
  else if policies = [] then .done (.ok ⟨none, none, [], false⟩) b
  else match b.db.decision s.arithmetic s.defaultCallCostUnits policies r a.now with
    | .error .conflict => .done (.error .conflict) b
    | .error (.exceeded e) => b.reject a e
    | .ok (costUnits, existing) => b.take s rs r a costUnits existing

end Attempt

/-- The last attempt of a call, what it found and what it left. -/
structure Outcome where
  attempt : Attempt
  start : Backend
  result : Except ReserveError MCPQuotaReservation
  after : Backend

/-- `reserve`, with what its attempts meet. -/
def reserve (s : Settings) (rs : RedisSettings) (r : Request) : List Attempt → Backend → Option Outcome
  | [], _ => none
  | a :: attempts, b =>
    match attempt s rs r a b with
    | .retry others => reserve s rs r attempts others
    | .done result after => some ⟨a, b, result, after⟩

/-! ## What a failure leaves -/

/-- The events and charges, and the live entries of the store, are the same. -/
structure SameEntries (now nowMs : Int) (b b' : Backend) : Prop where
  db : b'.db = b.db
  string (key : RedisKey) : b'.store.string now key = b.store.string now key
  hash (key : RedisKey) : b'.store.hash now key = b.store.hash now key
  slot (key : RedisKey) (member : String) :
    liveScore now nowMs b'.store key member = liveScore now nowMs b.store key member

section Failure

variable (s : Settings) (rs : RedisSettings) (r : Request) (a : Attempt)

/-- The script runs and takes the reservation. -/
def Taken (call : ScriptCall RedisKey) (store : Store RedisKey) : Prop :=
  rs.redis = true ∧ a.eval ≠ .down ∧ Admits rs.add a.redisNow call store

instance (call : ScriptCall RedisKey) (store : Store RedisKey) : Decidable (Taken rs a call store) :=
  inferInstanceAs (Decidable (_ ∧ _))

/-- `_redis_release` leaves what the script found: no policy counts the call
for the first time, and the member has the lease that it had. -/
structure Restores (call : ScriptCall RedisKey) (policies : List MCPQuotaPolicy) (store : Store RedisKey) : Prop where
  counted : Taken rs a call store → ∀ p ∈ call.policies, counted a.redisNow call store p = true
  slot : rs.redis = true → ∀ p ∈ policies,
    (if a.removed p.id then none
      else if Taken rs a call store then (some call.leaseExpiry).filter fun score => call.nowMs < score
      else liveScore a.redisNow call.nowMs store (.concurrency p.id) call.member) =
    liveScore a.redisNow call.nowMs store (.concurrency p.id) call.member

/-- The transaction fails where the script refuses the call, or it fails between
the script and the end of the commit and `_redis_release` restores the store. -/
def TransactionSpared (call : ScriptCall RedisKey) (policies : List MCPQuotaPolicy) (store : Store RedisKey) : Prop :=
  (rs.redis = true ∧ a.eval = .answered ∧ ¬ Admits rs.add a.redisNow call store) ∨
    ((rs.redis = true ∧ a.eval ≠ .answered ∧ rs.failClosed = true ∨ a.committed = false) ∧
      Restores rs a call policies store)

/-- A call that fails in the state `b` fails before its event is flushed, or its transaction is spared. -/
def Spared (b : Backend) : Prop :=
  r.context.tenantId ≠ "" → ∀ costUnits existing,
    b.db.decision s.arithmetic s.defaultCallCostUnits (b.policies r a) r a.now = .ok (costUnits, existing) →
    (existing = none → a.flush = .done) →
    TransactionSpared rs a (b.call s rs r a costUnits existing) (b.policies r a) b.store

variable {s rs r a}

theorem liveScore_redisRelease {now nowMs : Int} (removed : String → Bool) (policyIds : List String)
    (eventId : String) (store : Store RedisKey) (key : RedisKey) (member : String) (hredis : rs.redis = true) :
    liveScore now nowMs (redisRelease rs removed policyIds eventId store) key member =
      if (∃ id ∈ policyIds, removed id = true ∧ key = .concurrency id) ∧ member = eventId then none
      else liveScore now nowMs store key member := by
  unfold redisRelease
  rw [if_pos hredis]
  induction policyIds generalizing store with
  | nil => simp
  | cons id policyIds ih =>
    have hstep : liveScore now nowMs (if removed id then store.zrem (.concurrency id) eventId else store) key member =
        if (removed id = true ∧ key = .concurrency id) ∧ member = eventId then none
        else liveScore now nowMs store key member := by
      unfold liveScore
      split
      · next hremoved =>
        rw [Store.zscore_zrem]
        simp only [hremoved, true_and]
        split <;> rfl
      · next hremoved => simp [hremoved]
    rw [List.foldl_cons, ih, hstep]
    simp only [List.exists_mem_cons_iff]
    by_cases hm : member = eventId
    · by_cases hid : removed id = true ∧ key = .concurrency id
      · simp [hm, hid]
      · simp [hm, hid]
    · simp [hm]

theorem counters_redisRelease (removed : String → Bool) (policyIds : List String) (eventId : String)
    (store : Store RedisKey) :
    (redisRelease rs removed policyIds eventId store).strings = store.strings ∧
      (redisRelease rs removed policyIds eventId store).hashes = store.hashes := by
  unfold redisRelease
  split
  · induction policyIds generalizing store with
    | nil => exact ⟨rfl, rfl⟩
    | cons id policyIds ih =>
      rw [List.foldl_cons]
      have hstep : (if removed id then store.zrem (.concurrency id) eventId else store).strings = store.strings ∧
          (if removed id then store.zrem (.concurrency id) eventId else store).hashes = store.hashes := by
        split <;> exact ⟨rfl, rfl⟩
      rw [← hstep.1, ← hstep.2]
      exact ih _
  · exact ⟨rfl, rfl⟩

/-- A script that does not take the reservation removes at most leases that have ended. -/
theorem scriptStore_trimmed {call : ScriptCall RedisKey} {store : Store RedisKey} (h : ¬ Taken rs a call store) :
    Trimmed a.redisNow call.nowMs store (scriptStore rs a call store) := by
  unfold scriptStore
  split
  · next hran => exact (reserveScript_refused fun hadmits => h ⟨hran.1, hran.2, hadmits⟩).2
  · exact .refl store

theorem scriptStore_taken {call : ScriptCall RedisKey} {store : Store RedisKey} (h : Taken rs a call store) :
    scriptStore rs a call store = (reserveScript rs.add a.redisNow call store).2 := if_pos ⟨h.1, h.2.1⟩

theorem liveScore_scriptStore (call : ScriptCall RedisKey) (store : Store RedisKey) (key : RedisKey)
    (member : String) :
    liveScore a.redisNow call.nowMs (scriptStore rs a call store) key member =
      if Taken rs a call store ∧ key ∈ call.policies.map ScriptPolicy.concurrencyKey ∧ member = call.member then
        (some call.leaseExpiry).filter fun score => call.nowMs < score
      else liveScore a.redisNow call.nowMs store key member := by
  by_cases htaken : Taken rs a call store
  · rw [scriptStore_taken htaken, liveScore_reserveScript htaken.2.2]
    simp only [htaken, true_and]
  · rw [(scriptStore_trimmed htaken).liveScore]
    simp [htaken]

namespace SameEntries

variable {now nowMs : Int} {b : Backend} {store : Store RedisKey} {rejections : List Exceeded}

theorem of_trimmed (h : Trimmed now nowMs b.store store) :
    SameEntries now nowMs b ⟨b.clock, b.db, store, rejections⟩ :=
  ⟨rfl, h.string, h.hash, h.liveScore⟩

theorem refl (b : Backend) : SameEntries now nowMs b b := of_trimmed (.refl b.store)

end SameEntries

/-- The lease of the call, after `_redis_release`. -/
theorem liveScore_released {policies : List MCPQuotaPolicy} {eventId : String} {costUnits : ℚ}
    {alreadyCounted : Bool} {call : ScriptCall RedisKey} (store : Store RedisKey)
    (hcall : call = scriptCall s rs r a.now policies eventId costUnits alreadyCounted) (hredis : rs.redis = true)
    {p : MCPQuotaPolicy} (hp : p ∈ policies) :
    liveScore a.redisNow call.nowMs (redisRelease rs a.removed (policies.map (·.id)) eventId
        (scriptStore rs a call store)) (.concurrency p.id) call.member =
      if a.removed p.id then none
      else if Taken rs a call store then (some call.leaseExpiry).filter fun score => call.nowMs < score
      else liveScore a.redisNow call.nowMs store (.concurrency p.id) call.member := by
  have hmember : call.member = eventId := by rw [hcall]; rfl
  have hkey : RedisKey.concurrency p.id ∈ call.policies.map ScriptPolicy.concurrencyKey := by
    rw [hcall]
    exact List.mem_map_of_mem (List.mem_map_of_mem hp)
  have hremoved : (∃ id ∈ policies.map (·.id), a.removed id = true ∧ RedisKey.concurrency p.id = .concurrency id) ↔
      a.removed p.id = true := by
    constructor
    · rintro ⟨id, _, hid, heq⟩
      rw [RedisKey.concurrency.inj heq]
      exact hid
    · exact fun hid => ⟨p.id, List.mem_map_of_mem hp, hid, rfl⟩
  rw [liveScore_redisRelease _ _ _ _ _ _ hredis, liveScore_scriptStore]
  simp only [hremoved, hmember, hkey, and_true]

/-- Other leases stay. -/
theorem liveScore_released_ne {policies : List MCPQuotaPolicy} {eventId : String} {costUnits : ℚ}
    {alreadyCounted : Bool} {call : ScriptCall RedisKey} {store : Store RedisKey}
    (hcall : call = scriptCall s rs r a.now policies eventId costUnits alreadyCounted) (hredis : rs.redis = true)
    {key : RedisKey} {member : String} (hne : ∀ p ∈ policies, key = .concurrency p.id → member ≠ eventId) :
    liveScore a.redisNow call.nowMs (redisRelease rs a.removed (policies.map (·.id)) eventId
        (scriptStore rs a call store)) key member = liveScore a.redisNow call.nowMs store key member := by
  have hmember : call.member = eventId := by rw [hcall]; rfl
  have hkey : key ∈ call.policies.map ScriptPolicy.concurrencyKey → ∃ p ∈ policies, key = .concurrency p.id := by
    intro hmem
    rw [hcall] at hmem
    obtain ⟨q, hq, rfl⟩ := List.mem_map.mp hmem
    obtain ⟨p, hp, rfl⟩ := List.mem_map.mp hq
    exact ⟨p, hp, rfl⟩
  rw [liveScore_redisRelease _ _ _ _ _ _ hredis, liveScore_scriptStore, if_neg, if_neg]
  · rintro ⟨_, hmem, heq⟩
    obtain ⟨p, hp, hk⟩ := hkey hmem
    exact hne p hp hk (heq.trans hmember)
  · rintro ⟨⟨id, hid, _, hk⟩, heq⟩
    obtain ⟨p, hp, rfl⟩ := List.mem_map.mp hid
    exact hne p hp hk heq

/-- After a failure between the script and the end of the commit. -/
theorem sameEntries_released {policies : List MCPQuotaPolicy} {eventId : String} {costUnits : ℚ}
    {alreadyCounted : Bool} {call : ScriptCall RedisKey} {b : Backend}
    (hcall : call = scriptCall s rs r a.now policies eventId costUnits alreadyCounted) :
    SameEntries a.redisNow call.nowMs b { b with
        store := redisRelease rs a.removed (policies.map (·.id)) eventId (scriptStore rs a call b.store) } ↔
      Restores rs a call policies b.store := by
  have hmember : call.member = eventId := by rw [hcall]; rfl
  obtain ⟨hstrings, hhashes⟩ : (redisRelease rs a.removed (policies.map (·.id)) eventId
        (scriptStore rs a call b.store)).strings = (scriptStore rs a call b.store).strings ∧
      (redisRelease rs a.removed (policies.map (·.id)) eventId (scriptStore rs a call b.store)).hashes =
        (scriptStore rs a call b.store).hashes := counters_redisRelease ..
  constructor
  · intro h
    refine ⟨fun htaken p hp => ?_, fun hredis p hp => ?_⟩
    · -- a policy that had not counted the call has its key now
      by_contra hcounted
      unfold counted at hcounted
      rw [Bool.or_eq_true, not_or, Bool.not_eq_true, Bool.not_eq_true] at hcounted
      have hthere := exists_reserveScript htaken.2.2 hp hcounted.1
      have hstring := h.string p.idemKey
      unfold Store.exists_ at hthere hcounted
      unfold Store.string at hstring hthere hcounted
      rw [hstrings, scriptStore_taken htaken] at hstring
      rw [hstring, hcounted.2] at hthere
      cases hthere
    · rw [← liveScore_released b.store hcall hredis hp]
      exact h.slot _ _
  · intro h
    by_cases hredis : rs.redis = true
    · have hsame : (scriptStore rs a call b.store).strings = b.store.strings ∧
          (scriptStore rs a call b.store).hashes = b.store.hashes := by
        by_cases htaken : Taken rs a call b.store
        · rw [scriptStore_taken htaken]
          exact counters_reserveScript htaken.2.2 (h.counted htaken)
        · exact ⟨(scriptStore_trimmed htaken).strings, (scriptStore_trimmed htaken).hashes⟩
      refine ⟨rfl, fun key => ?_, fun key => ?_, fun key member => ?_⟩
      · unfold Store.string
        rw [hstrings, hsame.1]
      · unfold Store.hash
        rw [hhashes, hsame.2]
      · by_cases hslot : ∃ p ∈ policies, key = .concurrency p.id ∧ member = eventId
        · obtain ⟨p, hp, rfl, rfl⟩ := hslot
          have hreleased := liveScore_released b.store hcall hredis hp
          rw [hmember] at hreleased
          rw [hreleased, ← hmember]
          exact h.slot hredis p hp
        · exact liveScore_released_ne hcall hredis fun p hp hk hm => hslot ⟨p, hp, hk, hm⟩
    · unfold redisRelease
      rw [if_neg hredis, scriptStore, if_neg fun hran => hredis hran.1]
      exact .refl b

/-- A call that the tables allow finds no lease that runs. -/
theorem decision_free {db : Tables} {arithmetic : Arithmetic} {default : ℚ} {policies : List MCPQuotaPolicy}
    {now : Int} {costUnits : ℚ} {e : MCPQuotaEvent}
    (h : db.decision arithmetic default policies r now = .ok (costUnits, some e)) : ¬ e.Live now := by
  obtain ⟨hexisting, -⟩ := decision_ok h
  rintro ⟨expires, hexpires, hlt⟩
  unfold Tables.decision at h
  dsimp only at h
  rw [← hexisting, Option.bind_some, hexpires] at h
  split at h
  · cases h
  · rw [Option.filter_some, if_pos (decide_eq_true hlt)] at h
    cases h

theorem Settings.lease_pos (s : Settings) : 0 < s.lease := by
  unfold Settings.lease second
  omega

/-- The rows of events that a reservation writes. -/
theorem written_events {b : Backend} {costUnits : ℚ} {existing : Option MCPQuotaEvent} {db : Tables}
    (hdecision : b.db.decision s.arithmetic s.defaultCallCostUnits (b.policies r a) r a.now =
      .ok (costUnits, existing))
    (h : b.written s r a costUnits existing = some db) :
    (∃ e ∈ b.db.events, existing = some e ∧ db.events = b.db.events.map fun x =>
        if x.id = e.id then
          { x with status := "reserved", leaseToken := some a.token, leaseExpiresAt := some (a.now + s.lease) }
        else x) ∨
      existing = none ∧ (∀ e ∈ b.db.events, e.id ≠ a.eventId) ∧
        db.events = newEvent s b.world r a.now costUnits a.eventId a.token :: b.db.events := by
  obtain ⟨hexisting, -⟩ := decision_ok hdecision
  obtain ⟨w, hw, rfl⟩ := Option.map_eq_some_iff.mp h
  unfold writeReservation at hw
  cases existing with
  | some e =>
    obtain rfl := Option.some.inj hw
    exact .inl ⟨e, List.mem_of_find?_eq_some hexisting.symm, rfl, rfl⟩
  | none =>
    dsimp only [Option.map] at hw
    split at hw
    · next hkey =>
      obtain ⟨e, he, hkey⟩ := List.any_eq_true.mp hkey
      exact absurd hkey (List.find?_eq_none.mp hexisting.symm e he)
    · split at hw
      · cases hw
      · next hid =>
        obtain rfl := Option.some.inj hw
        exact .inr ⟨rfl, fun e he heq => hid (List.any_eq_true.mpr ⟨e, he, beq_iff_eq.mpr heq⟩), rfl⟩

/-- What is committed is a change. -/
theorem written_ne {b : Backend} {costUnits : ℚ} {existing : Option MCPQuotaEvent} {db : Tables}
    (hdecision : b.db.decision s.arithmetic s.defaultCallCostUnits (b.policies r a) r a.now =
      .ok (costUnits, existing))
    (h : b.written s r a costUnits existing = some db) : db ≠ b.db := by
  rintro rfl
  obtain ⟨e, he, rfl, hevents⟩ | ⟨-, -, hevents⟩ := written_events hdecision h
  · have heq := List.map_inj_left.mp (hevents.symm.trans (List.map_id b.db.events).symm) e he
    rw [if_pos rfl] at heq
    have hexpires : some (a.now + s.lease) = e.leaseExpiresAt := congrArg MCPQuotaEvent.leaseExpiresAt heq
    refine decision_free hdecision ⟨_, hexpires.symm, ?_⟩
    have := s.lease_pos
    omega
  · have hlength := congrArg List.length hevents
    simp at hlength

theorem reject_same {b b' after : Backend} {now nowMs : Int} {e : Exceeded} {error : ReserveError}
    (h : b'.reject a e = .done (.error error) after) (hsame : SameEntries now nowMs b b') :
    SameEntries now nowMs b after := by
  unfold Backend.reject at h
  split at h <;> obtain ⟨-, rfl⟩ := Ending.done.inj h
  · exact ⟨hsame.db, hsame.string, hsame.hash, hsame.slot⟩
  · exact hsame

/-- The error of `_redis_reserve`: a limit where the script answers and does not
admit the call, or that Redis is unavailable. -/
theorem redisReserve_some {policies : List MCPQuotaPolicy} {call : ScriptCall RedisKey} {store : Store RedisKey}
    {e : ReserveError} (h : redisReserve rs a policies call store = some e) : rs.redis = true ∧
      ((∃ x, e = .exceeded x) ∧ a.eval = .answered ∧ ¬ Admits rs.add a.redisNow call store ∨
        e = .unavailable ∧ a.eval ≠ .answered ∧ rs.failClosed = true) := by
  unfold redisReserve at h
  split at h
  · next hredis =>
    refine ⟨hredis, ?_⟩
    split at h
    · cases h
    · next heval hreply =>
      refine .inl ⟨⟨_, (Option.some.inj h).symm⟩, heval, fun hadmits => ?_⟩
      rw [reserveScript_accepts.mpr hadmits] at hreply
      cases hreply
    · next hanswered hrejected =>
      split at h
      · next hclosed =>
        refine .inr ⟨(Option.some.inj h).symm, fun heval => ?_, hclosed⟩
        cases hreply : (reserveScript rs.add a.redisNow call store).1 with
        | accepted => exact hanswered heval hreply
        | rejected index reason retryAfter => exact hrejected index reason retryAfter heval hreply
      · cases h
  · cases h

theorem redisReserve_none {policies : List MCPQuotaPolicy} {call : ScriptCall RedisKey} {store : Store RedisKey}
    (h : redisReserve rs a policies call store = none) (hredis : rs.redis = true) :
    a.eval = .answered ∧ Admits rs.add a.redisNow call store ∨ a.eval ≠ .answered ∧ rs.failClosed = false := by
  unfold redisReserve at h
  rw [if_pos hredis] at h
  split at h
  · next heval hreply => exact .inl ⟨heval, reserveScript_accepts.mp hreply⟩
  · cases h
  · next hanswered hrejected =>
    split at h
    · cases h
    · next hopen =>
      refine .inr ⟨fun heval => ?_, Bool.eq_false_of_not_eq_true hopen⟩
      cases hreply : (reserveScript rs.add a.redisNow call store).1 with
      | accepted => exact hanswered heval hreply
      | rejected index reason retryAfter => exact hrejected index reason retryAfter heval hreply

theorem spared_iff {b : Backend} {costUnits : ℚ} {existing : Option MCPQuotaEvent} (htenant : r.context.tenantId ≠ "")
    (hdecision : b.db.decision s.arithmetic s.defaultCallCostUnits (b.policies r a) r a.now =
      .ok (costUnits, existing)) :
    Spared s rs r a b ↔ ((existing = none → a.flush = .done) →
      TransactionSpared rs a (b.call s rs r a costUnits existing) (b.policies r a) b.store) := by
  constructor
  · exact fun h => h htenant costUnits existing hdecision
  · intro h _ costUnits' existing' hdecision'
    obtain ⟨rfl, rfl⟩ := Prod.mk.inj (Except.ok.inj (hdecision.symm.trans hdecision'))
    exact h

/-- The transaction after its rows are flushed; `db` has what it writes. -/
theorem transaction_same {b after : Backend} {policies : List MCPQuotaPolicy} {eventId : String} {costUnits : ℚ}
    {alreadyCounted : Bool} {call : ScriptCall RedisKey} {db : Tables} {reservation : MCPQuotaReservation}
    {error : ReserveError}
    (hcall : call = scriptCall s rs r a.now policies eventId costUnits alreadyCounted) (hne : db ≠ b.db)
    (h : b.commit rs a policies eventId call db reservation = .done (.error error) after) :
    SameEntries a.redisNow call.nowMs b after ↔ TransactionSpared rs a call policies b.store := by
  unfold Backend.commit at h
  dsimp only at h
  split at h
  · next e hredis =>
    obtain ⟨hon, ⟨_, heval, hadmits⟩ | ⟨hexceeded, _⟩⟩ := redisReserve_some hredis
    · exact iff_of_true (reject_same h (.of_trimmed (scriptStore_trimmed fun htaken => hadmits htaken.2.2)))
        (.inl ⟨hon, heval, hadmits⟩)
    · cases hexceeded
  · next e hnot hredis =>
    obtain ⟨-, rfl⟩ := Ending.done.inj h
    obtain ⟨hon, ⟨⟨x, rfl⟩, _⟩ | ⟨_, heval, hclosed⟩⟩ := redisReserve_some hredis
    · exact (hnot x rfl).elim
    · refine (sameEntries_released hcall).trans ⟨fun hrestores => .inr ⟨.inl ⟨hon, heval, hclosed⟩, hrestores⟩, ?_⟩
      rintro (⟨_, hanswered, _⟩ | ⟨_, hrestores⟩)
      · exact absurd hanswered heval
      · exact hrestores
  · next hredis =>
    have hnot : ¬ (rs.redis = true ∧ a.eval = .answered ∧ ¬ Admits rs.add a.redisNow call b.store) := by
      rintro ⟨hon, heval, hadmits⟩
      rcases redisReserve_none hredis hon with ⟨_, hadmitted⟩ | ⟨hlost, _⟩
      · exact hadmits hadmitted
      · exact hlost heval
    split at h
    · next hcommit =>
      obtain ⟨-, rfl⟩ := Ending.done.inj h
      have hcommit : a.committed = false := by simpa using hcommit
      refine (sameEntries_released hcall).trans ⟨fun hrestores => .inr ⟨.inr hcommit, hrestores⟩, ?_⟩
      rintro (hrefused | ⟨_, hrestores⟩)
      · exact absurd hrefused hnot
      · exact hrestores
    · next hcommit =>
      have hcommit : a.committed = true := by simpa using hcommit
      split at h
      · -- the reservation is committed, and the caller gets an error
        obtain ⟨-, rfl⟩ := Ending.done.inj h
        refine iff_of_false (fun hsame => hne hsame.db) ?_
        rintro (hrefused | ⟨⟨hon, heval, hclosed⟩ | hfailed, _⟩)
        · exact hnot hrefused
        · rcases redisReserve_none hredis hon with ⟨hanswered, _⟩ | ⟨_, hopen⟩
          · exact heval hanswered
          · rw [hclosed] at hopen
            cases hopen
        · rw [hcommit] at hfailed
          cases hfailed
      · cases (Ending.done.inj h).1

/-- A reservation that the tables allow. -/
theorem take_same {b after : Backend} {costUnits : ℚ} {existing : Option MCPQuotaEvent} {error : ReserveError}
    (htenant : r.context.tenantId ≠ "")
    (hdecision : b.db.decision s.arithmetic s.defaultCallCostUnits (b.policies r a) r a.now =
      .ok (costUnits, existing))
    (h : b.take s rs r a costUnits existing = .done (.error error) after) :
    SameEntries a.redisNow (rs.millis a.now) b after ↔ Spared s rs r a b := by
  rw [spared_iff htenant hdecision]
  unfold Backend.take at h
  split at h
  · next hflush =>
    obtain ⟨-, rfl⟩ := Ending.done.inj h
    refine iff_of_true (.refl b) fun hdone => ?_
    split at hflush
    · next hnone =>
      rw [hdone (Option.isNone_iff_eq_none.mp hnone)] at hflush
      cases hflush
    · cases hflush
  · cases h
  · cases h
  · next hflush hwritten =>
    have hdone : existing = none → a.flush = .done := by
      rintro rfl
      exact hflush
    exact (transaction_same rfl (written_ne hdecision hwritten) h).trans ⟨fun h _ => h, fun h => h hdone⟩

theorem attempt_same {b after : Backend} {error : ReserveError}
    (h : attempt s rs r a b = .done (.error error) after) :
    SameEntries a.redisNow (rs.millis a.now) b after ↔ Spared s rs r a b := by
  unfold attempt at h
  dsimp only at h
  split at h
  · cases (Ending.done.inj h).1
  · split at h
    · next htenant =>
      obtain ⟨-, rfl⟩ := Ending.done.inj h
      exact iff_of_true (.refl b) fun hne => absurd htenant hne
    · next htenant =>
      split at h
      · cases (Ending.done.inj h).1
      · split at h
        · next hdecision =>
          obtain ⟨-, rfl⟩ := Ending.done.inj h
          refine iff_of_true (.refl b) fun _ costUnits existing hok => ?_
          rw [hdecision] at hok
          cases hok
        · next e hdecision =>
          refine iff_of_true (reject_same h (.refl b)) fun _ costUnits existing hok => ?_
          rw [hdecision] at hok
          cases hok
        · next hdecision => exact take_same htenant hdecision h

theorem reject_ne_retry {b others : Backend} {e : Exceeded} : b.reject a e ≠ .retry others := by
  unfold Backend.reject
  split <;> exact nofun

theorem commit_ne_retry {b others : Backend} {policies : List MCPQuotaPolicy} {eventId : String}
    {call : ScriptCall RedisKey} {db : Tables} {reservation : MCPQuotaReservation} :
    b.commit rs a policies eventId call db reservation ≠ .retry others := by
  unfold Backend.commit
  dsimp only
  split
  · exact reject_ne_retry
  · exact nofun
  · split
    · exact nofun
    · split <;> exact nofun

/-- An attempt starts again over the same state, or over that of others. -/
theorem attempt_retry {b others : Backend} (h : attempt s rs r a b = .retry others) :
    others = b ∨ a.flush = .raced others := by
  unfold attempt at h
  dsimp only at h
  split at h
  · cases h
  · split at h
    · cases h
    · split at h
      · cases h
      · split at h
        · cases h
        · exact absurd h reject_ne_retry
        · unfold Backend.take at h
          split at h
          · cases h
          · next hflush =>
            obtain rfl := Ending.retry.inj h
            split at hflush
            · exact .inr hflush
            · cases hflush
          · exact .inl (Ending.retry.inj h).symm
          · exact absurd h commit_ne_retry

theorem reserve_last {attempts : List Attempt} {b : Backend} {o : Outcome} (h : reserve s rs r attempts b = some o) :
    attempt s rs r o.attempt o.start = .done o.result o.after := by
  induction attempts generalizing b with
  | nil => cases h
  | cons a attempts ih =>
    unfold reserve at h
    split at h
    · exact ih h
    · next hdone =>
      obtain rfl := Option.some.inj h
      exact hdone

theorem reserve_start {attempts : List Attempt} {b : Backend} {o : Outcome} (h : reserve s rs r attempts b = some o) :
    o.start = b ∨ ∃ a ∈ attempts, a.flush = .raced o.start := by
  induction attempts generalizing b with
  | nil => cases h
  | cons a attempts ih =>
    unfold reserve at h
    split at h
    · next others hretry =>
      rcases ih h with hstart | ⟨a', ha', hraced⟩
      · rcases attempt_retry hretry with rfl | hflush
        · exact .inl hstart
        · exact .inr ⟨a, List.mem_cons_self, hstart ▸ hflush⟩
      · exact .inr ⟨a', List.mem_cons_of_mem _ ha', hraced⟩
    · obtain rfl := Option.some.inj h
      exact .inl rfl

end Failure

/-- A call of `reserve` that raises leaves the events, the charges and the live
entries of the store as it found them, or as others left them before its last
attempt, exactly where that attempt is spared. -/
theorem failed_reserve_keeps {s : Settings} {rs : RedisSettings} {r : Request} {attempts : List Attempt} {b : Backend}
    {o : Outcome} (h : reserve s rs r attempts b = some o) {error : ReserveError} (herror : o.result = .error error) :
    (o.start = b ∨ ∃ a ∈ attempts, a.flush = .raced o.start) ∧
      (SameEntries o.attempt.redisNow (rs.millis o.attempt.now) o.start o.after ↔
        Spared s rs r o.attempt o.start) := by
  have hlast := reserve_last h
  rw [herror] at hlast
  exact ⟨reserve_start h, attempt_same hlast⟩

/-! ## Two failures -/

namespace FailedSample

def redis : RedisSettings where
  redis := true
  failClosed := true
  millis t := t / 1000
  millis_mono h := Int.ediv_le_ediv (by decide) h
  sha256 := id
  add x y := x + y

def start : Backend := ⟨0, ⟨[Sample.policy], [], []⟩, .empty, []⟩

/-- A first reservation whose script or commit fails; `_redis_release` reaches Redis. -/
def fails (eval : Eval) (committed : Bool) : Attempt :=
  ⟨0, 0, none, "e", "a", .done, eval, true, committed, true, fun _ => true⟩

end FailedSample

open FailedSample in
/-- Redis cannot be reached. -/
theorem failed_reserve_keeps_sample : ∃ o,
    reserve Sample.settings redis (Sample.request "1") [fails .down true] start = some o ∧
      o.result = .error .unavailable ∧ SameEntries 0 0 start o.after := by
  have hfinal : (reserve Sample.settings redis (Sample.request "1") [fails .down true] start).map Outcome.result =
      some (.error .unavailable) := by
    decide +kernel
  obtain ⟨o, ho, hresult⟩ := Option.map_eq_some_iff.mp hfinal
  have hlast : o.attempt = fails .down true ∧ o.start = start := by
    unfold reserve at ho
    split at ho
    · cases ho
    · obtain rfl := Option.some.inj ho
      exact ⟨rfl, rfl⟩
  refine ⟨o, ho, hresult, ?_⟩
  have hkeeps := (failed_reserve_keeps ho hresult).2
  rw [hlast.1, hlast.2] at hkeeps
  refine hkeeps.mpr fun _ costUnits existing _ _ => .inr ⟨.inl ⟨rfl, by decide, rfl⟩, fun h => absurd rfl h.2.1, ?_⟩
  intro _ p _
  have hremoved : (fails .down true).removed p.id = true := rfl
  rw [if_pos hremoved]
  rfl

open FailedSample in
/-- After a failed commit the call stays counted. -/
theorem failed_commit_charges : ∃ o,
    reserve Sample.settings redis (Sample.request "1") [fails .answered false] start = some o ∧
      o.result = .error .database ∧ o.after.store.get 0 (.minute "p" 0) = some 1 ∧
      ¬ SameEntries o.attempt.redisNow (redis.millis o.attempt.now) o.start o.after := by
  have hfinal : (reserve Sample.settings redis (Sample.request "1") [fails .answered false] start).map (fun o =>
      (o.result, o.attempt.redisNow, o.start.store.get 0 (.minute "p" 0), o.after.store.get 0 (.minute "p" 0))) =
      some (.error .database, 0, none, some 1) := by
    decide +kernel
  obtain ⟨o, ho, hvalues⟩ := Option.map_eq_some_iff.mp hfinal
  simp only [Prod.mk.injEq] at hvalues
  obtain ⟨hresult, hnow, hbefore, hafter⟩ := hvalues
  refine ⟨o, ho, hresult, hafter, fun hsame => ?_⟩
  have hstring := hsame.string (.minute "p" 0)
  rw [hnow] at hstring
  unfold Store.get at hbefore hafter
  rw [hstring, hbefore] at hafter
  cases hafter

end CodeMate.Quota
