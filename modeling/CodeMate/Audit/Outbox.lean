import CodeMate.Framework.Json
import CodeMate.Framework.Run
import CodeMate.Framework.Session
import CodeMate.Framework.Table

/-!
# The outbox of security audit events

An event is stored as one row for each sink (`enqueue`). Workers claim the rows
that are due under a lease (`claimBatch`), read each of them again (`get`), call
the sink, which may take any time, and write the outcome (`recordOutcome`) by
the primary key of the row, in the columns that it changes (`overlay`).
`requeueDeadLetters` and `purgeDelivered` are single statements or transactions.
`outbox` is the system of any number of workers, each of which may be lost at
any point.

A session keeps no object that nothing refers to, so after its claim a worker
reads the row from the table; `get` also allows that it still has the object.

`step_row` is the inversion of a step for the rows of the table: a row that is
there afterwards was enqueued by the step or was there before and is touched as
`Touched` says. `step_removed` says which rows are gone, and `step_hands` what a
worker has in its hands.
-/

namespace CodeMate.Audit

open Framework

inductive Status
  | pending
  | delivering
  | delivered
  | retry
  | deadLetter
deriving DecidableEq, Repr

/-- Whether a delivery ends with the status. -/
def Status.isOutcome : Status → Bool
  | .delivered | .retry | .deadLetter => true
  | .pending | .delivering => false

structure Settings where
  /-- `security_audit_sink_set`, sorted. -/
  sinks : List String
  batchSize : Nat := 100
  maxAttempts : Nat := 12
  leaseSeconds : Nat := 60
  retentionDays : Nat := 90
  siemUrl : String := ""
  siemHmacSecret : String := ""
  s3Bucket : String := ""

/-- A row of `security_audit_deliveries`; times are in microseconds. -/
structure SecurityAuditDelivery where
  id : String
  eventId : String
  sink : String
  payloadJson : Json
  payloadSha256 : String
  status : Status := .pending
  attemptCount : Nat := 0
  nextAttemptAt : Option Nat := none
  leaseToken : Option String := none
  leaseExpiresAt : Option Nat := none
  deliveredAt : Option Nat := none
  remoteReceiptJson : Option Json := none
  lastError : Option String := none
  createdAt : Nat
deriving DecidableEq

def seconds (n : Nat) : Nat := n * 1000000

def days (n : Nat) : Nat := seconds (n * 86400)

/-- `max(1, settings.security_audit_delivery_max_attempts)`. -/
def Settings.attempts (s : Settings) : Nat := max 1 s.maxAttempts

/-- How long a delivered row is kept. -/
def Settings.retention (s : Settings) : Nat := days (max 30 s.retentionDays)

section Operations

variable (digest : Json → String) (s : Settings)

/-- The columns of `c` that were changed in `n`, over the row `d`. -/
def overlay (c n d : SecurityAuditDelivery) : SecurityAuditDelivery where
  id := column c.id n.id d.id
  eventId := column c.eventId n.eventId d.eventId
  sink := column c.sink n.sink d.sink
  payloadJson := column c.payloadJson n.payloadJson d.payloadJson
  payloadSha256 := column c.payloadSha256 n.payloadSha256 d.payloadSha256
  status := column c.status n.status d.status
  attemptCount := column c.attemptCount n.attemptCount d.attemptCount
  nextAttemptAt := column c.nextAttemptAt n.nextAttemptAt d.nextAttemptAt
  leaseToken := column c.leaseToken n.leaseToken d.leaseToken
  leaseExpiresAt := column c.leaseExpiresAt n.leaseExpiresAt d.leaseExpiresAt
  deliveredAt := column c.deliveredAt n.deliveredAt d.deliveredAt
  remoteReceiptJson := column c.remoteReceiptJson n.remoteReceiptJson d.remoteReceiptJson
  lastError := column c.lastError n.lastError d.lastError
  createdAt := column c.createdAt n.createdAt d.createdAt

/-- The rows that `enqueue` adds for a record, one for each sink. -/
def newRows (eventId : String) (record : Json) (ids : List String) (now : Nat) : List SecurityAuditDelivery :=
  (s.sinks.zip ids).map fun (sink, id) =>
    { id, eventId, sink, payloadJson := record, payloadSha256 := digest record, createdAt := now }

/-- `enqueue`, where `eventId` is the text of the record's id, stripped: an
event that is stored already is left as it is. -/
def enqueue (eventId : String) (record : Json) (ids : List String) (now : Nat) (db : List SecurityAuditDelivery) :
    Except String Nat × List SecurityAuditDelivery :=
  let unsupported := s.sinks.filter fun sink => sink ∉ ["http", "s3"]
  if unsupported ≠ [] then (.error ("Unsupported security audit sinks: " ++ ", ".intercalate unsupported), db)
  else if s.sinks = [] then (.ok 0, db)
  else if eventId = "" then (.error "Security audit event requires an id", db)
  else if db.any fun row => row.eventId = eventId ∧ row.sink ∈ s.sinks then
    if (db.filter fun row => row.eventId = eventId).length = s.sinks.length then (.ok s.sinks.length, db)
    else (.error "IntegrityError", db)
  else (.ok s.sinks.length, db ++ newRows digest s eventId record ids now)

/-- The condition of `_claim_batch`. -/
def claimable (now : Nat) (row : SecurityAuditDelivery) : Bool :=
  row.status = .pending ∨ row.status = .retry ∧ row.nextAttemptAt.all (· ≤ now) ∨
    row.status = .delivering ∧ row.leaseExpiresAt.any (· < now)

/-- `SELECT … ORDER BY created_at LIMIT n FOR UPDATE SKIP LOCKED`, where the rows
`locked` are locked by others. -/
def selectOldest (p : SecurityAuditDelivery → Bool) (limit : Nat) (locked : List String)
    (db : List SecurityAuditDelivery) : List SecurityAuditDelivery :=
  Table.oldest SecurityAuditDelivery.createdAt (fun row => p row ∧ row.id ∉ locked) limit db

def claim (now : Nat) (token : String) (row : SecurityAuditDelivery) : SecurityAuditDelivery :=
  { row with
    status := .delivering
    attemptCount := row.attemptCount + 1
    leaseToken := some token
    leaseExpiresAt := some (now + seconds (max 10 s.leaseSeconds)) }

/-- The rows that `_claim_batch` takes. -/
def claimedRows (limit : Option Nat) (locked : List String) (now : Nat) (db : List SecurityAuditDelivery) :
    List SecurityAuditDelivery :=
  selectOldest (claimable now) (max 1 ((limit.filter (· ≠ 0)).getD s.batchSize)) locked db

/-- `_claim_batch`: the rows as it stores them, with the tokens it makes. -/
def claimBatch (limit : Option Nat) (locked : List String) (tokens : List String) (now : Nat)
    (db : List SecurityAuditDelivery) : List SecurityAuditDelivery :=
  ((claimedRows s limit locked now db).zip tokens).map fun (row, token) => claim s now token row

/-- The table after a commit of `rows`. -/
def store (rows db : List SecurityAuditDelivery) : List SecurityAuditDelivery :=
  Table.store SecurityAuditDelivery.id rows db

/-- `_deliver`, where the call of the sink gives `response`; errors have the
class of the exception before the text. -/
def deliver (response : Except String Json) (row : SecurityAuditDelivery) : Except String Json :=
  if digest row.payloadJson ≠ row.payloadSha256 then
    .error "SecurityAuditDeliveryError: Audit payload integrity check failed"
  else if row.sink = "http" then
    if s.siemUrl = "" ∨ s.siemHmacSecret = "" then
      .error "SecurityAuditDeliveryError: SIEM URL and HMAC secret are required"
    else response
  else if row.sink = "s3" then
    if s.s3Bucket = "" then .error "SecurityAuditDeliveryError: Security audit S3 bucket is required"
    else response
  else .error ("SecurityAuditDeliveryError: Unsupported sink: " ++ row.sink)

/-- What `deliver_batch` sets in the row when the call has ended. -/
def recordOutcome (now : Nat) (result : Except String Json) (row : SecurityAuditDelivery) :
    SecurityAuditDelivery :=
  let row := match result with
    | .ok receipt =>
      { row with status := .delivered, deliveredAt := some now, remoteReceiptJson := some receipt, lastError := none }
    | .error message =>
      let row := { row with lastError := some (String.ofList (message.toList.take 4000)) }
      if s.attempts ≤ row.attemptCount then { row with status := .deadLetter }
      else { row with
        status := .retry, nextAttemptAt := some (now + seconds (min 3600 (Nat.pow 2 (min 10 row.attemptCount)))) }
  { row with leaseToken := none, leaseExpiresAt := none }

/-- What `requeue_dead_letters` sets in a row. -/
def requeue (row : SecurityAuditDelivery) : SecurityAuditDelivery :=
  { row with
    status := .pending
    attemptCount := 0
    nextAttemptAt := none
    leaseToken := none
    leaseExpiresAt := none
    lastError := none }

/-- The rows that `requeue_dead_letters` takes. -/
def deadLetters (limit : Nat) (locked : List String) (db : List SecurityAuditDelivery) : List SecurityAuditDelivery :=
  selectOldest (fun row => row.status = .deadLetter) (max 1 (min limit 1000)) locked db

/-- The condition of `purge_delivered`. -/
def purgeable (now : Nat) (row : SecurityAuditDelivery) : Bool :=
  row.status = .delivered ∧ row.deliveredAt.any (· + s.retention < now)

end Operations

/-! ## The workers -/

/-- Where a worker is in `deliver_batch`: `todo` are the rows of its claim that
are still to come, with their tokens, and `row` is the object that is being
delivered. -/
inductive Phase
  | idle
  | working (todo : List SecurityAuditDelivery)
  | calling (row : SecurityAuditDelivery) (todo : List SecurityAuditDelivery)

/-- The rows that a worker has claimed and not yet dealt with. -/
def Phase.hands : Phase → List SecurityAuditDelivery
  | .idle => []
  | .working todo => todo
  | .calling row todo => row :: todo

/-- The object with which a worker has called the sink. -/
def Phase.called : Phase → Option SecurityAuditDelivery
  | .calling row _ => some row
  | .idle | .working _ => none

/-- The lease tokens that a worker has. -/
def Phase.tokens (phase : Phase) : List (Option String) := phase.hands.map SecurityAuditDelivery.leaseToken

/-- What is done to a row, for the log. -/
inductive Act
  | claimed (id : String)
  | sent (id : String)
  | requeued (id : String)
deriving DecidableEq

structure World (ω : Type*) where
  db : List SecurityAuditDelivery
  phase : ω → Phase
  /-- The identifiers that were made so far, of rows and of leases. -/
  issued : List String
  /-- What was done, the last first. -/
  log : List Act

inductive Event (ω : Type*)
  | enqueue (eventId : String) (record : Json) (ids : List String) (now : Nat)
  | claim (k : ω) (limit : Option Nat) (locked tokens : List String) (now : Nat)
  | get (k : ω) (held : Bool)
  | finish (k : ω) (response : Except String Json) (now : Nat)
  | crash (k : ω)
  | requeue (limit : Nat) (locked : List String)
  | purge (now : Nat)

/-- The identifiers that a step makes. -/
def Event.made {ω : Type*} : Event ω → List String
  | .enqueue _ _ ids _ => ids
  | .claim _ _ _ tokens _ => tokens
  | _ => []

/-- `uuid4` gives identifiers that were not given before. -/
def Fresh (issued made : List String) : Prop := made.Nodup ∧ ∀ id ∈ made, id ∉ issued

instance (issued made : List String) : Decidable (Fresh issued made) := inferInstanceAs (Decidable (_ ∧ _))

section Step

variable {ω : Type*} [DecidableEq ω] (digest : Json → String) (s : Settings)

def World.goto (w : World ω) (k : ω) (phase : Phase) : World ω :=
  { w with phase := fun k' => if k' = k then phase else w.phase k' }

/-- The row of the table with an id. -/
def World.row (w : World ω) (id : String) : Option SecurityAuditDelivery := Table.find SecurityAuditDelivery.id w.db id

/-- `db.get` of the next row that was claimed, and the check of its token. -/
def World.get (w : World ω) (k : ω) (held : Bool) (next : SecurityAuditDelivery)
    (todo : List SecurityAuditDelivery) : World ω :=
  match if held then some next else w.row next.id with
  | some row =>
    if row.leaseToken = next.leaseToken then { w.goto k (.calling row todo) with log := .sent row.id :: w.log }
    else w.goto k (.working todo)
  | none => w.goto k (.working todo)

/-- The commit of an outcome; where the row is gone, the flush raises. -/
def World.write (w : World ω) (k : ω) (row new : SecurityAuditDelivery) (todo : List SecurityAuditDelivery) : World ω :=
  if (w.row row.id).isSome then
    { w.goto k (.working todo) with
      db := w.db.map fun d => if d.id = row.id then overlay row new d else d }
  else w.goto k .idle

def step (w : World ω) : Event ω → Option (World ω)
  | .enqueue eventId record ids now =>
    if Fresh w.issued ids ∧ ids.length = s.sinks.length then
      some { w with db := (enqueue digest s eventId record ids now w.db).2, issued := ids ++ w.issued }
    else none
  | .claim k limit locked tokens now =>
    match w.phase k with
    | .idle =>
      if Fresh w.issued tokens ∧ tokens.length = (claimedRows s limit locked now w.db).length then
        let rows := claimBatch s limit locked tokens now w.db
        some { w.goto k (.working rows) with
          db := store rows w.db
          issued := tokens ++ w.issued
          log := rows.map (fun row => .claimed row.id) ++ w.log }
      else none
    | _ => none
  | .get k held =>
    match w.phase k with
    | .working (next :: todo) => some (w.get k held next todo)
    | .working [] => some (w.goto k .idle)
    | _ => none
  | .finish k response now =>
    match w.phase k with
    | .calling row todo => some (w.write k row (recordOutcome s now (deliver digest s response row) row) todo)
    | _ => none
  | .crash k => some (w.goto k .idle)
  | .requeue limit locked =>
    let rows := (deadLetters limit locked w.db).map requeue
    some { w with db := store rows w.db, log := rows.map (fun row => .requeued row.id) ++ w.log }
  | .purge now => some { w with db := w.db.filter fun row => ¬ purgeable s now row }

/-- The outbox, empty at the start. -/
def outbox : System (World ω) (Event ω) :=
  .ofStep (fun w => w.db = [] ∧ (∀ k, w.phase k = .idle) ∧ w.issued = [] ∧ w.log = []) (step digest s)

end Step

/-! ## What a step does -/

section Inversion

variable {ω : Type*} [DecidableEq ω] {digest : Json → String} {s : Settings} {w w' : World ω} {e : Event ω}
  {r r' : SecurityAuditDelivery}

/-- The ids of the table are keys. -/
abbrev Keyed (db : List SecurityAuditDelivery) : Prop := Table.Keyed SecurityAuditDelivery.id db

variable (digest s) in
/-- What a step does to a row that stays in the table. -/
def Touched (w : World ω) (r r' : SecurityAuditDelivery) : Event ω → Prop
  | .claim k limit locked tokens now =>
    w.phase k = .idle ∧ (r' = r ∧ r ∉ claimedRows s limit locked now w.db ∨
      r ∈ claimedRows s limit locked now w.db ∧ r' ∈ claimBatch s limit locked tokens now w.db ∧
        ∃ token ∈ tokens, r' = claim s now token r)
  | .finish k response now =>
    ∃ row todo, w.phase k = .calling row todo ∧ (r' = r ∧ r.id ≠ row.id ∨
      r.id = row.id ∧ r' = overlay row (recordOutcome s now (deliver digest s response row) row) r)
  | .requeue limit locked =>
    r' = r ∧ r ∉ deadLetters limit locked w.db ∨ r ∈ deadLetters limit locked w.db ∧ r' = requeue r
  | .enqueue .. | .get .. | .crash _ | .purge _ => r' = r

theorem mem_claimedRows {limit : Option Nat} {locked : List String} {now : Nat} {db : List SecurityAuditDelivery}
    (h : r ∈ claimedRows s limit locked now db) : r ∈ db ∧ claimable now r = true := by
  obtain ⟨hdb, hp⟩ := Table.mem_of_oldest h
  exact ⟨hdb, by simpa using (of_decide_eq_true hp).1⟩

theorem mem_deadLetters {limit : Nat} {locked : List String} {db : List SecurityAuditDelivery}
    (h : r ∈ deadLetters limit locked db) : r ∈ db ∧ r.status = .deadLetter := by
  obtain ⟨hdb, hp⟩ := Table.mem_of_oldest h
  exact ⟨hdb, by simpa using (of_decide_eq_true hp).1⟩

theorem overlay_id {now : Nat} {result : Except String Json} {c d : SecurityAuditDelivery} :
    (overlay c (recordOutcome s now result c) d).id = d.id := by
  have hid : (recordOutcome s now result c).id = c.id := by
    unfold recordOutcome
    cases result with
    | ok receipt => rfl
    | error message => dsimp only; split <;> rfl
  show column c.id (recordOutcome s now result c).id d.id = d.id
  rw [hid, column_unchanged]

section Claim

variable {limit : Option Nat} {locked tokens : List String} {now : Nat} {db : List SecurityAuditDelivery}

theorem mem_claimBatch (h : r' ∈ claimBatch s limit locked tokens now db) :
    ∃ r ∈ claimedRows s limit locked now db, ∃ token ∈ tokens, r' = claim s now token r := by
  obtain ⟨⟨r, token⟩, hmem, rfl⟩ := List.mem_map.mp h
  obtain ⟨hr, ht⟩ := List.of_mem_zip hmem
  exact ⟨r, hr, token, ht, rfl⟩

variable (hlen : tokens.length = (claimedRows s limit locked now db).length)
include hlen

theorem ids_claimBatch : (claimBatch s limit locked tokens now db).map SecurityAuditDelivery.id =
    (claimedRows s limit locked now db).map SecurityAuditDelivery.id := by
  rw [claimBatch, List.map_map]
  show List.map (SecurityAuditDelivery.id ∘ Prod.fst) _ = _
  rw [← List.map_map, List.map_fst_zip hlen.ge]

theorem leases_claimBatch : (claimBatch s limit locked tokens now db).map SecurityAuditDelivery.leaseToken =
    tokens.map some := by
  rw [claimBatch, List.map_map]
  show List.map (some ∘ Prod.snd) _ = _
  rw [← List.map_map, List.map_snd_zip hlen.le]

/-- What is stored is what was taken from the table. -/
theorem keyed_claimBatch (h : Keyed db) : Keyed (claimBatch s limit locked tokens now db) := by
  rw [Keyed, Table.Keyed, ids_claimBatch hlen]
  exact h.oldest

/-- The table after a claim. -/
theorem mem_store_claimBatch (h : Keyed db) :
    r' ∈ store (claimBatch s limit locked tokens now db) db ↔
      r' ∈ claimBatch s limit locked tokens now db ∨ r' ∈ db ∧ r' ∉ claimedRows s limit locked now db := by
  rw [store, (keyed_claimBatch hlen h).mem_store, ids_claimBatch hlen]
  refine or_congr (and_iff_left_of_imp fun hr' => ?_) (and_congr_right fun hr' => not_congr ?_)
  · obtain ⟨r, hr, token, _, rfl⟩ := mem_claimBatch hr'
    show r.id ∈ db.map SecurityAuditDelivery.id
    exact List.mem_map_of_mem (mem_claimedRows hr).1
  · refine ⟨fun hid => ?_, fun hr => List.mem_map_of_mem hr⟩
    obtain ⟨r, hr, hid⟩ := List.mem_map.mp hid
    exact h.eq (mem_claimedRows hr).1 hr' hid ▸ hr

/-- A row after the commit of a claim. -/
theorem stored_claim (h : Keyed db) (hr : r ∈ db) :
    (Table.find SecurityAuditDelivery.id (claimBatch s limit locked tokens now db) r.id).getD r = r ∧
        r ∉ claimedRows s limit locked now db ∨
      r ∈ claimedRows s limit locked now db ∧
        (Table.find SecurityAuditDelivery.id (claimBatch s limit locked tokens now db) r.id).getD r ∈
          claimBatch s limit locked tokens now db ∧
        ∃ token ∈ tokens, (Table.find SecurityAuditDelivery.id (claimBatch s limit locked tokens now db) r.id).getD r =
          claim s now token r := by
  cases hf : Table.find SecurityAuditDelivery.id (claimBatch s limit locked tokens now db) r.id with
  | none =>
    rw [Table.find_eq_none, ids_claimBatch hlen] at hf
    exact .inl ⟨rfl, fun hc => hf (List.mem_map_of_mem hc)⟩
  | some new =>
    obtain ⟨hnew, hid⟩ := Table.find_some hf
    obtain ⟨r₀, hr₀, token, ht, rfl⟩ := mem_claimBatch hnew
    obtain rfl := h.eq (mem_claimedRows hr₀).1 hr hid
    exact .inr ⟨hr₀, hnew, token, ht, rfl⟩

end Claim

/-- A row after the commit of a requeue. -/
theorem stored_requeue {rows db : List SecurityAuditDelivery} (h : Keyed db) (hrows : ∀ r ∈ rows, r ∈ db) (hr : r ∈ db) :
    (Table.find SecurityAuditDelivery.id (rows.map requeue) r.id).getD r = r ∧ r ∉ rows ∨
      r ∈ rows ∧ (Table.find SecurityAuditDelivery.id (rows.map requeue) r.id).getD r = requeue r := by
  cases hf : Table.find SecurityAuditDelivery.id (rows.map requeue) r.id with
  | none =>
    rw [Table.find_eq_none, List.map_map] at hf
    exact .inl ⟨rfl, fun hc => hf (List.mem_map_of_mem (f := SecurityAuditDelivery.id ∘ requeue) hc)⟩
  | some new =>
    obtain ⟨hnew, hid⟩ := Table.find_some hf
    obtain ⟨r₀, hr₀, rfl⟩ := List.mem_map.mp hnew
    obtain rfl := h.eq (hrows r₀ hr₀) hr hid
    exact .inr ⟨hr₀, rfl⟩

/-- The table after a step: its rows are touched, new rows are added, or
delivered ones are gone. -/
theorem step_db (h : step digest s w e = some w') (hk : Keyed w.db) :
    (∃ f, w'.db = w.db.map f ∧ ∀ r ∈ w.db, (f r).id = r.id ∧ Touched digest s w r (f r) e) ∨
      (∃ eventId record ids now, e = .enqueue eventId record ids now ∧ ids.length = s.sinks.length ∧
        w'.db = w.db ++ newRows digest s eventId record ids now) ∨
      ∃ now, e = .purge now ∧ w'.db = w.db.filter fun r => ¬ purgeable s now r := by
  have hsame (he : ∀ r, Touched digest s w r r e) (hdb : w'.db = w.db) :
      ∃ f, w'.db = w.db.map f ∧ ∀ r ∈ w.db, (f r).id = r.id ∧ Touched digest s w r (f r) e :=
    ⟨id, by rw [hdb, List.map_id], fun r _ => ⟨rfl, he r⟩⟩
  cases e with
  | enqueue eventId record ids now =>
    simp only [step] at h
    split at h
    · next hguard =>
      obtain rfl := Option.some.inj h
      by_cases hdb : (enqueue digest s eventId record ids now w.db).2 = w.db
      · exact .inl (hsame (fun _ => rfl) hdb)
      · refine .inr (.inl ⟨eventId, record, ids, now, rfl, hguard.2, ?_⟩)
        revert hdb
        unfold enqueue
        repeat (first | split | simp)
    · cases h
  | claim k limit locked tokens now =>
    simp only [step] at h
    split at h
    · next hidle =>
      split at h
      · next hguard =>
        obtain rfl := Option.some.inj h
        refine .inl ⟨_, rfl, fun r hr => ⟨Table.key_stored r, hidle, ?_⟩⟩
        exact stored_claim hguard.2 hk hr
      · cases h
    · cases h
  | get k held =>
    simp only [step] at h
    refine .inl (hsame (fun _ => rfl) ?_)
    split at h
    · obtain rfl := Option.some.inj h
      unfold World.get
      repeat (first | split | rfl)
    · obtain rfl := Option.some.inj h; rfl
    · cases h
  | finish k response now =>
    simp only [step] at h
    split at h
    · next row todo hphase =>
      obtain rfl := Option.some.inj h
      refine .inl ⟨fun d => if d.id = row.id then
        overlay row (recordOutcome s now (deliver digest s response row) row) d else d, ?_, fun r _ => ⟨?_, ?_⟩⟩
      · unfold World.write
        split
        · rfl
        · next hrow =>
          have hother : ∀ r ∈ w.db, r.id ≠ row.id := fun r hr hid =>
            hrow (Table.find_isSome.mpr (hid ▸ List.mem_map_of_mem hr))
          exact ((List.map_congr_left fun r hr => if_neg (hother r hr)).trans (List.map_id _)).symm
      · dsimp only
        split
        · exact overlay_id
        · rfl
      · refine ⟨row, todo, hphase, ?_⟩
        by_cases hid : r.id = row.id
        · exact .inr ⟨hid, if_pos hid⟩
        · exact .inl ⟨if_neg hid, hid⟩
    · cases h
  | crash k =>
    obtain rfl := Option.some.inj h
    exact .inl (hsame (fun _ => rfl) rfl)
  | requeue limit locked =>
    obtain rfl := Option.some.inj h
    refine .inl ⟨_, rfl, fun r hr => ⟨Table.key_stored r, ?_⟩⟩
    exact stored_requeue hk (fun r hr => (mem_deadLetters hr).1) hr
  | purge now =>
    obtain rfl := Option.some.inj h
    exact .inr (.inr ⟨now, rfl, rfl⟩)

/-- The table after a claim, and the worker. -/
theorem step_claim {k : ω} {limit : Option Nat} {locked tokens : List String} {now : Nat}
    (h : step digest s w (.claim k limit locked tokens now) = some w') :
    w'.db = store (claimBatch s limit locked tokens now w.db) w.db ∧
      w'.phase k = .working (claimBatch s limit locked tokens now w.db) := by
  simp only [step] at h
  split at h
  · split at h
    · obtain rfl := Option.some.inj h; exact ⟨rfl, if_pos rfl⟩
    · cases h
  · cases h

/-- A step makes identifiers that were not made before. -/
theorem step_issued (h : step digest s w e = some w') :
    w'.issued = e.made ++ w.issued ∧ Fresh w.issued e.made := by
  have hnone : Fresh w.issued [] := ⟨List.nodup_nil, fun _ hid => absurd hid List.not_mem_nil⟩
  cases e with
  | enqueue eventId record ids now =>
    simp only [step] at h
    split at h
    · next hguard => obtain rfl := Option.some.inj h; exact ⟨rfl, hguard.1⟩
    · cases h
  | claim k limit locked tokens now =>
    simp only [step] at h
    split at h
    · split at h
      · next hguard => obtain rfl := Option.some.inj h; exact ⟨rfl, hguard.1⟩
      · cases h
    · cases h
  | get k held =>
    simp only [step] at h
    split at h
    · obtain rfl := Option.some.inj h
      refine ⟨?_, hnone⟩
      unfold World.get
      repeat (first | split | rfl)
    · obtain rfl := Option.some.inj h; exact ⟨rfl, hnone⟩
    · cases h
  | finish k response now =>
    simp only [step] at h
    split at h
    · obtain rfl := Option.some.inj h
      refine ⟨?_, hnone⟩
      unfold World.write
      split <;> rfl
    · cases h
  | crash k => obtain rfl := Option.some.inj h; exact ⟨rfl, hnone⟩
  | requeue limit locked => obtain rfl := Option.some.inj h; exact ⟨rfl, hnone⟩
  | purge now => obtain rfl := Option.some.inj h; exact ⟨rfl, hnone⟩

section Local

variable {k k' : ω} {held : Bool} {next row new : SecurityAuditDelivery} {todo : List SecurityAuditDelivery}

@[simp] theorem goto_phase (phase : Phase) : (w.goto k phase).phase k = phase := if_pos rfl

theorem goto_phase_ne (hk : k' ≠ k) (phase : Phase) : (w.goto k phase).phase k' = w.phase k' := if_neg hk

variable (w k held next todo) in
/-- After `db.get` the worker skips the row, or calls the sink with an object
that has the token of its claim. -/
theorem get_phase : (w.get k held next todo).phase k = .working todo ∨
    ∃ row, (w.get k held next todo).phase k = .calling row todo ∧ row.leaseToken = next.leaseToken ∧
      (held = true ∧ row = next ∨ row ∈ w.db ∧ row.id = next.id) := by
  unfold World.get
  split
  · next row hrow =>
    split
    · next htoken =>
      refine .inr ⟨row, goto_phase _, htoken, ?_⟩
      cases held with
      | true => exact .inl ⟨rfl, (Option.some.inj hrow).symm⟩
      | false => exact .inr (Table.find_some hrow)
    · exact .inl (goto_phase _)
  · exact .inl (goto_phase _)

theorem get_phase_ne (hk : k' ≠ k) : (w.get k held next todo).phase k' = w.phase k' := by
  unfold World.get
  repeat (first | split | exact goto_phase_ne hk _)

variable (w k row new todo) in
theorem write_phase : (w.write k row new todo).phase k = .working todo ∨ (w.write k row new todo).phase k = .idle := by
  unfold World.write
  split
  · exact .inl (goto_phase _)
  · exact .inr (goto_phase _)

theorem write_phase_ne (hk : k' ≠ k) : (w.write k row new todo).phase k' = w.phase k' := by
  unfold World.write
  split <;> exact goto_phase_ne hk _

end Local

/-- Leases that a worker had, on objects that it had or has read again. -/
def Kept (w w' : World ω) (k : ω) : Prop :=
  (w'.phase k).tokens.Sublist (w.phase k).tokens ∧ ∀ c ∈ (w'.phase k).hands, c ∈ (w.phase k).hands ∨
    c ∈ w.db ∧ ∃ c₀ ∈ (w.phase k).hands, c.id = c₀.id ∧ c.leaseToken = c₀.leaseToken

theorem kept_of_hands {k : ω} (h : (w'.phase k).hands.Sublist (w.phase k).hands) : Kept w w' k :=
  ⟨h.map _, fun _ hc => .inl (h.subset hc)⟩

theorem kept_of_phase {k : ω} (h : w'.phase k = w.phase k) : Kept w w' k := kept_of_hands (h ▸ .refl _)

/-- What a step leaves in the hands of a worker: what it kept, or the rows of a
new claim. -/
theorem step_hands (h : step digest s w e = some w') (k : ω) :
    Kept w w' k ∨ ∃ limit locked tokens now, e = .claim k limit locked tokens now ∧ Fresh w.issued tokens ∧
      tokens.length = (claimedRows s limit locked now w.db).length ∧
      w'.phase k = .working (claimBatch s limit locked tokens now w.db) := by
  cases e with
  | enqueue eventId record ids now =>
    simp only [step] at h
    split at h
    · obtain rfl := Option.some.inj h; exact .inl (kept_of_phase rfl)
    · cases h
  | claim k' limit locked tokens now =>
    simp only [step] at h
    split at h
    · split at h
      · next hguard =>
        obtain rfl := Option.some.inj h
        by_cases hk : k = k'
        · exact .inr ⟨limit, locked, tokens, now, by rw [hk], hguard.1, hguard.2, if_pos hk⟩
        · exact .inl (kept_of_phase (if_neg hk))
      · cases h
    · cases h
  | get k' held =>
    simp only [step] at h
    split at h
    · next next todo hphase =>
      obtain rfl := Option.some.inj h
      by_cases hk : k = k'
      · subst hk
        have hhands : (w.phase k).hands = next :: todo := by rw [hphase]; rfl
        rcases get_phase w k held next todo with hp | ⟨row, hp, htoken, hrow⟩
        · exact .inl (kept_of_hands (by rw [hp, hhands]; exact List.sublist_cons_self _ _))
        · refine .inl ⟨?_, fun c hc => ?_⟩
          · rw [Phase.tokens, Phase.tokens, hp, hhands]
            show (row.leaseToken :: _).Sublist _
            rw [htoken]
            exact .refl _
          · rw [hp] at hc
            rw [hhands]
            rcases List.mem_cons.mp hc with rfl | hc
            · rcases hrow with ⟨_, rfl⟩ | ⟨hdb, hid⟩
              · exact .inl List.mem_cons_self
              · exact .inr ⟨hdb, next, List.mem_cons_self, hid, htoken⟩
            · exact .inl (List.mem_cons_of_mem _ hc)
      · exact .inl (kept_of_phase (get_phase_ne hk))
    · obtain rfl := Option.some.inj h
      by_cases hk : k = k'
      · subst hk
        exact .inl (kept_of_hands (by rw [goto_phase]; exact List.nil_sublist _))
      · exact .inl (kept_of_phase (goto_phase_ne hk _))
    · cases h
  | finish k' response now =>
    simp only [step] at h
    split at h
    · next row todo hphase =>
      obtain rfl := Option.some.inj h
      by_cases hk : k = k'
      · subst hk
        have hhands : (w.phase k).hands = row :: todo := by rw [hphase]; rfl
        refine .inl (kept_of_hands ?_)
        rw [hhands]
        rcases write_phase w k row _ todo with hp | hp <;> rw [hp]
        · exact List.sublist_cons_self _ _
        · exact List.nil_sublist _
      · exact .inl (kept_of_phase (write_phase_ne hk))
    · cases h
  | crash k' =>
    obtain rfl := Option.some.inj h
    by_cases hk : k = k'
    · subst hk
      exact .inl (kept_of_hands (by rw [goto_phase]; exact List.nil_sublist _))
    · exact .inl (kept_of_phase (goto_phase_ne hk _))
  | requeue limit locked => obtain rfl := Option.some.inj h; exact .inl (kept_of_phase rfl)
  | purge now => obtain rfl := Option.some.inj h; exact .inl (kept_of_phase rfl)

/-- Where a worker no longer has the lease of a row in its hands after a step. -/
theorem step_released (h : step digest s w e = some w') {k : ω} {c : SecurityAuditDelivery}
    (hc : c ∈ (w.phase k).hands) :
    (∃ c' ∈ (w'.phase k).hands, c'.id = c.id ∧ c'.leaseToken = c.leaseToken) ∨ e = .crash k ∨
      (∃ response now row, e = .finish k response now ∧ (w.phase k).called = some row ∧
        (c = row ∨ w.row row.id = none)) ∨
      e = .get k false ∧ ∀ r, w.row c.id = some r → r.leaseToken ≠ c.leaseToken := by
  have hsame (hphase : w'.phase k = w.phase k) :
      ∃ c' ∈ (w'.phase k).hands, c'.id = c.id ∧ c'.leaseToken = c.leaseToken := ⟨c, hphase ▸ hc, rfl, rfl⟩
  cases e with
  | enqueue eventId record ids now =>
    simp only [step] at h
    split at h
    · obtain rfl := Option.some.inj h; exact .inl (hsame rfl)
    · cases h
  | claim k' limit locked tokens now =>
    simp only [step] at h
    split at h
    · next hidle =>
      split at h
      · obtain rfl := Option.some.inj h
        by_cases hk : k = k'
        · rw [hk, hidle] at hc
          cases hc
        · exact .inl (hsame (if_neg hk))
      · cases h
    · cases h
  | get k' held =>
    simp only [step] at h
    split at h
    · next next todo hphase =>
      obtain rfl := Option.some.inj h
      by_cases hk : k = k'
      · subst hk
        rw [hphase] at hc
        have htodo (hmem : c ∈ todo) : ∃ c' ∈ ((w.get k held next todo).phase k).hands,
            c'.id = c.id ∧ c'.leaseToken = c.leaseToken := by
          rcases get_phase w k held next todo with hp | ⟨row, hp, _, _⟩ <;> rw [hp]
          · exact ⟨c, hmem, rfl, rfl⟩
          · exact ⟨c, List.mem_cons_of_mem _ hmem, rfl, rfl⟩
        rcases List.mem_cons.mp hc with rfl | hmem
        · cases held with
          | true =>
            refine .inl ⟨c, ?_, rfl, rfl⟩
            rw [World.get, if_pos rfl]
            dsimp only
            rw [if_pos rfl]
            show c ∈ ((w.goto k (.calling c todo)).phase k).hands
            rw [goto_phase]
            exact List.mem_cons_self
          | false =>
            by_cases hrow : ∀ r, w.row c.id = some r → r.leaseToken ≠ c.leaseToken
            · exact .inr (.inr (.inr ⟨rfl, hrow⟩))
            · obtain ⟨r, hr, ht⟩ : ∃ r, w.row c.id = some r ∧ r.leaseToken = c.leaseToken := by simpa using hrow
              refine .inl ⟨r, ?_, (Table.find_some hr).2, ht⟩
              rw [World.get, if_neg Bool.false_ne_true, hr]
              dsimp only
              rw [if_pos ht]
              show r ∈ ((w.goto k (.calling r todo)).phase k).hands
              rw [goto_phase]
              exact List.mem_cons_self
        · exact .inl (htodo hmem)
      · exact .inl (hsame (get_phase_ne hk))
    · next hphase =>
      obtain rfl := Option.some.inj h
      by_cases hk : k = k'
      · subst hk
        rw [hphase] at hc
        cases hc
      · exact .inl (hsame (goto_phase_ne hk _))
    · cases h
  | finish k' response now =>
    simp only [step] at h
    split at h
    · next row todo hphase =>
      obtain rfl := Option.some.inj h
      by_cases hk : k = k'
      · subst hk
        have hcalled : (w.phase k).called = some row := by rw [hphase]; rfl
        rw [hphase] at hc
        rcases List.mem_cons.mp hc with rfl | hmem
        · exact .inr (.inr (.inl ⟨response, now, c, rfl, hcalled, .inl rfl⟩))
        · cases hrow : w.row row.id with
          | none => exact .inr (.inr (.inl ⟨response, now, row, rfl, hcalled, .inr hrow⟩))
          | some r =>
            refine .inl ⟨c, ?_, rfl, rfl⟩
            rw [World.write, if_pos (by rw [hrow]; rfl)]
            show c ∈ ((w.goto k (.working todo)).phase k).hands
            rw [goto_phase]
            exact hmem
      · exact .inl (hsame (write_phase_ne hk))
    · cases h
  | crash k' =>
    obtain rfl := Option.some.inj h
    by_cases hk : k = k'
    · exact .inr (.inl (by rw [hk]))
    · exact .inl (hsame (goto_phase_ne hk _))
  | requeue limit locked => obtain rfl := Option.some.inj h; exact .inl (hsame rfl)
  | purge now => obtain rfl := Option.some.inj h; exact .inl (hsame rfl)

theorem mem_hands {k : ω} {c : SecurityAuditDelivery} (h : (w.phase k).called = some c) : c ∈ (w.phase k).hands := by
  cases hphase : w.phase k with
  | calling row todo =>
    rw [hphase] at h
    obtain rfl := Option.some.inj h
    exact List.mem_cons_self
  | idle | working => rw [hphase] at h; cases h

/-- A worker that has called the sink after a step had called it before and did
not write its outcome, or calls it now with the next row of its claim. -/
theorem step_called (h : step digest s w e = some w') {k : ω} {c : SecurityAuditDelivery}
    (hc : (w'.phase k).called = some c) :
    (w.phase k).called = some c ∧ (∀ response now, e ≠ .finish k response now) ∨
      ∃ held next todo, e = .get k held ∧ w.phase k = .working (next :: todo) ∧ c.leaseToken = next.leaseToken ∧
        (held = true ∧ c = next ∨ c ∈ w.db ∧ c.id = next.id) := by
  have hsame (hphase : w'.phase k = w.phase k) : (w.phase k).called = some c := hphase ▸ hc
  cases e with
  | enqueue eventId record ids now =>
    simp only [step] at h
    split at h
    · obtain rfl := Option.some.inj h; exact .inl ⟨hsame rfl, fun _ _ he => by cases he⟩
    · cases h
  | claim k' limit locked tokens now =>
    simp only [step] at h
    split at h
    · split at h
      · obtain rfl := Option.some.inj h
        by_cases hk : k = k'
        · subst hk
          rw [show (World.phase _ k) = _ from if_pos rfl] at hc
          cases hc
        · exact .inl ⟨hsame (if_neg hk), fun _ _ he => by cases he⟩
      · cases h
    · cases h
  | get k' held =>
    simp only [step] at h
    split at h
    · next next todo hphase =>
      obtain rfl := Option.some.inj h
      by_cases hk : k = k'
      · subst hk
        rcases get_phase w k held next todo with hp | ⟨row, hp, htoken, hrow⟩ <;> rw [hp] at hc
        · cases hc
        · obtain rfl := Option.some.inj hc
          exact .inr ⟨held, next, todo, rfl, hphase, htoken, hrow⟩
      · exact .inl ⟨hsame (get_phase_ne hk), fun _ _ he => by cases he⟩
    · obtain rfl := Option.some.inj h
      by_cases hk : k = k'
      · subst hk
        rw [goto_phase] at hc
        cases hc
      · exact .inl ⟨hsame (goto_phase_ne hk _), fun _ _ he => by cases he⟩
    · cases h
  | finish k' response now =>
    simp only [step] at h
    split at h
    · next row todo hphase =>
      obtain rfl := Option.some.inj h
      by_cases hk : k = k'
      · subst hk
        rcases write_phase w k row _ todo with hp | hp <;> rw [hp] at hc <;> cases hc
      · exact .inl ⟨hsame (write_phase_ne hk), fun _ _ he => hk (Event.finish.inj he).1.symm⟩
    · cases h
  | crash k' =>
    obtain rfl := Option.some.inj h
    by_cases hk : k = k'
    · subst hk
      rw [goto_phase] at hc
      cases hc
    · exact .inl ⟨hsame (goto_phase_ne hk _), fun _ _ he => by cases he⟩
  | requeue limit locked =>
    obtain rfl := Option.some.inj h; exact .inl ⟨hsame rfl, fun _ _ he => by cases he⟩
  | purge now => obtain rfl := Option.some.inj h; exact .inl ⟨hsame rfl, fun _ _ he => by cases he⟩

end Inversion

end CodeMate.Audit
