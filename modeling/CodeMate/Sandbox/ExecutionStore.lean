import CodeMate.Framework.Lease
import CodeMate.Framework.Run
import Mathlib.Algebra.Order.Floor.Ring
import Mathlib.Data.Rat.Floor
import Mathlib.Logic.Function.Basic

/-!
# The execution state of the sandbox plane

`MemoryExecutionStateStore` and `RedisExecutionStateStore` hold, for each
execution id, the request it is bound to, the lease of the instance that runs
it, and at the end its response. A call reads the clock first, and what it does
to the store comes later in one piece: under the lock, or as a Lua script.
`Plane` is a store with its calls in flight and a log of those that were
carried out.

Both stores move a row as a leased entry moves (`memory_lawful`,
`redis_lawful`), so that the log of an execution is a history of leases
(`Tracks`); `execution_store_safe` says what follows as long as the row is
retained.
-/

namespace CodeMate.Sandbox

open Framework Framework.Lease

inductive PlaneBackend
  | firecracker
  | kubernetes
  deriving DecidableEq

structure ExecutionResponse where
  executionId : String
  backend : PlaneBackend
  passed : Bool
  exitCode : Int
  stdout : String
  stderr : String
  timedOut : Bool
  archiveSha256 : String
  workloadSubject : String
  attestation : List (String × String)
  deriving DecidableEq

inductive ClaimStatus
  | acquired
  | cached
  | inProgress
  | conflict
  | replayed
  deriving DecidableEq

structure ExecutionClaim where
  status : ClaimStatus
  response : Option ExecutionResponse := none
  attempt : Nat := 0
  deriving DecidableEq

/-- The arguments of `claim`. -/
structure ClaimRequest where
  executionId : String
  requestHash : String
  assertionJti : String
  assertionTtl : Int
  owner : String
  leaseSeconds : Int

/-- The arguments of `complete`. -/
structure CompleteRequest where
  executionId : String
  requestHash : String
  owner : String
  attempt : Nat
  response : ExecutionResponse

/-- The state of a row; a completed row has its response. -/
inductive RowState
  | running
  | completed (response : ExecutionResponse)
  deriving DecidableEq

/-! ## In memory -/

structure MemoryRow where
  requestHash : String
  state : RowState
  owner : String
  leaseUntil : ℚ
  attempt : Nat

structure MemoryExecutionStateStore where
  /-- When the use of an assertion is forgotten, and for which execution it was used. -/
  replays : String → Option (ℚ × String)
  executions : String → Option MemoryRow

namespace MemoryExecutionStateStore

/-- A new lease on the row. -/
def acquire (s : MemoryExecutionStateStore) (request : ClaimRequest) (now : ℚ) (attempt : Nat) :
    ExecutionClaim × MemoryExecutionStateStore :=
  ({ status := .acquired, attempt := attempt },
   { s with executions := Function.update s.executions request.executionId (some
      { requestHash := request.requestHash
        state := .running
        owner := request.owner
        leaseUntil := now + request.leaseSeconds
        attempt := attempt }) })

/-- The rest of `claim` once the assertion is not a replay. -/
def useAssertion (s : MemoryExecutionStateStore) (request : ClaimRequest) (now : ℚ) :
    ExecutionClaim × MemoryExecutionStateStore :=
  let s := { s with
    replays := Function.update s.replays request.assertionJti
      (some (now + request.assertionTtl, request.executionId)) }
  match s.executions request.executionId with
  | some row =>
    if now < row.leaseUntil then ({ status := .inProgress, attempt := row.attempt }, s)
    else s.acquire request now (row.attempt + 1)
  | none => s.acquire request now 1

/-- The store without the uses of assertions that are over. -/
def purge (s : MemoryExecutionStateStore) (now : ℚ) : MemoryExecutionStateStore :=
  { s with replays := fun jti => (s.replays jti).filter fun value => now ≤ value.1 }

def claim (s : MemoryExecutionStateStore) (request : ClaimRequest) (now : ℚ) :
    ExecutionClaim × MemoryExecutionStateStore :=
  let s := s.purge now
  match s.executions request.executionId with
  | none =>
    match s.replays request.assertionJti with
    | some _ => ({ status := .replayed }, s)
    | none => s.useAssertion request now
  | some row =>
    if row.requestHash ≠ request.requestHash then ({ status := .conflict }, s)
    else match row.state with
      | .completed response => ({ status := .cached, response := some response, attempt := row.attempt }, s)
      | .running =>
        match s.replays request.assertionJti with
        | some replay =>
          if replay.2 = request.executionId then ({ status := .inProgress, attempt := row.attempt }, s)
          else ({ status := .replayed }, s)
        | none => s.useAssertion request now

def complete (s : MemoryExecutionStateStore) (request : CompleteRequest) (now : ℚ) :
    Bool × MemoryExecutionStateStore :=
  match s.executions request.executionId with
  | none => (false, s)
  | some row =>
    if row.state ≠ .running ∨ row.requestHash ≠ request.requestHash ∨ row.owner ≠ request.owner ∨
        row.attempt ≠ request.attempt ∨ row.leaseUntil ≤ now then (false, s)
    else (true, { s with executions := Function.update s.executions request.executionId (some
      { row with state := .completed request.response, leaseUntil := 0 }) })

end MemoryExecutionStateStore

/-! ## In Redis -/

/-- `response.model_dump_json()`, and `ExecutionResponse.model_validate(json.loads(payload))`. -/
structure Serializer where
  dump : ExecutionResponse → String
  load : String → Option ExecutionResponse

/-- A response is read back as it was written. -/
def Serializer.RoundTrips (serializer : Serializer) (response : ExecutionResponse) : Prop :=
  serializer.dump response ≠ "" ∧ serializer.load (serializer.dump response) = some response

inductive RowTag
  | running
  | completed
  deriving DecidableEq

/-- The fields of a hash `execution:…`; each can be missing. -/
structure RedisRow where
  requestHash : Option String := none
  state : Option RowTag := none
  owner : Option String := none
  leaseUntil : Option Int := none
  attempt : Option Nat := none
  response : Option String := none

/-- The keys `replay:…` and `execution:…` with their values and the times at
which they expire. -/
structure RedisServer where
  replays : String → Option (String × ℚ)
  executions : String → Option (RedisRow × ℚ)

namespace RedisServer

/-- The value of a key that has not expired. -/
def get {α : Type} (clock : ℚ) (entry : Option (α × ℚ)) : Option α :=
  (entry.filter fun entry => clock < entry.2).map Prod.fst

/-- `CLAIM_SCRIPT` from the check of the assertion on, for a row that is not completed. -/
def leaseScript (s : RedisServer) (clock : ℚ) (row : RedisRow) (jti requestHash executionId owner : String)
    (ttl now leaseUntil retention : Int) : (ClaimStatus × Nat × String) × RedisServer :=
  match get clock (s.replays jti) with
  | some replayExecution =>
    if replayExecution = executionId ∧ row.state = some .running then
      ((.inProgress, row.attempt.getD 0, ""), s)
    else ((.replayed, 0, ""), s)
  | none =>
    let s := { s with replays := Function.update s.replays jti (some (executionId, clock + ttl)) }
    if row.state = some .running ∧ row.leaseUntil.getD 0 > now then
      ((.inProgress, row.attempt.getD 0, ""), s)
    else
      let attempt := row.attempt.getD 0 + 1
      ((.acquired, attempt, ""),
       { s with executions := Function.update s.executions executionId (some
          ({ row with
              attempt := some attempt
              requestHash := some requestHash
              state := some .running
              owner := some owner
              leaseUntil := some leaseUntil }, clock + retention)) })

/-- `CLAIM_SCRIPT`. -/
def claimScript (s : RedisServer) (clock : ℚ) (jti requestHash executionId owner : String)
    (ttl now leaseUntil retention : Int) : (ClaimStatus × Nat × String) × RedisServer :=
  let row := (get clock (s.executions executionId)).getD {}
  if row.requestHash.any (· ≠ requestHash) then ((.conflict, 0, ""), s)
  else if row.state = some .completed then ((.cached, row.attempt.getD 0, row.response.getD ""), s)
  else s.leaseScript clock row jti requestHash executionId owner ttl now leaseUntil retention

/-- `COMPLETE_SCRIPT`. -/
def completeScript (s : RedisServer) (clock : ℚ) (executionId requestHash owner : String) (attempt : Nat)
    (response : String) (now retention : Int) : Bool × RedisServer :=
  let row := (get clock (s.executions executionId)).getD {}
  if row.requestHash ≠ some requestHash then (false, s)
  else if row.owner ≠ some owner then (false, s)
  else if row.attempt ≠ some attempt then (false, s)
  else if row.state ≠ some .running then (false, s)
  else if row.leaseUntil.getD 0 ≤ now then (false, s)
  else (true, { s with executions := Function.update s.executions executionId (some
    ({ row with state := some .completed, response := some response, leaseUntil := some 0 },
      clock + retention)) })

/-- `RedisExecutionStateStore.claim`; `none` where the stored text is not a response. -/
def claim (serializer : Serializer) (retention : Int) (s : RedisServer) (request : ClaimRequest)
    (read clock : ℚ) : Option ExecutionClaim × RedisServer :=
  let now := ⌊read⌋
  let ((status, attempt, payload), s) := s.claimScript clock request.assertionJti request.requestHash
    request.executionId request.owner (max 1 request.assertionTtl) now (now + request.leaseSeconds) retention
  if payload = "" then (some { status := status, attempt := attempt }, s)
  else ((serializer.load payload).map fun response =>
    { status := status, response := some response, attempt := attempt }, s)

/-- `RedisExecutionStateStore.complete`. -/
def complete (serializer : Serializer) (retention : Int) (s : RedisServer) (request : CompleteRequest)
    (read clock : ℚ) : Bool × RedisServer :=
  s.completeScript clock request.executionId request.requestHash request.owner request.attempt
    (serializer.dump request.response) ⌊read⌋ retention

end RedisServer

/-! ## The stores as one interface -/

/-- A store with its two operations, which are given the clock as the call read
it and as it is when the operation is carried out; `row` and `replay` are what
the store holds at a time. -/
structure ExecutionStateStore where
  State : Type
  Row : Type
  claim : State → ClaimRequest → (read clock : ℚ) → Option ExecutionClaim × State
  complete : State → CompleteRequest → (read clock : ℚ) → Bool × State
  row : State → ℚ → String → Option Row
  replay : State → ℚ → String → Option String
  /-- The end of the lease that a claim asks for. -/
  leaseUntil : ClaimRequest → ℚ → ℚ
  /-- The time `complete` compares with the lease. -/
  instant : ℚ → ℚ → ℚ
  /-- A response that is read back as it was written. -/
  codes : ExecutionResponse → Prop

/-- `MemoryExecutionStateStore`: `claim` reads the clock before it takes the
lock, `complete` under the lock. -/
def memory : ExecutionStateStore where
  State := MemoryExecutionStateStore
  Row := MemoryRow
  claim s request read _ := ((s.claim request read).map some id)
  complete s request _ clock := s.complete request clock
  row s _ id := s.executions id
  replay s clock jti := ((s.replays jti).filter fun value => clock ≤ value.1).map Prod.snd
  leaseUntil request read := read + request.leaseSeconds
  instant _ clock := clock
  codes _ := True

/-- `RedisExecutionStateStore`: both read the clock before the script runs. -/
def redis (serializer : Serializer) (retention : Int) : ExecutionStateStore where
  State := RedisServer
  Row := RedisRow
  claim s request read clock := s.claim serializer retention request read clock
  complete s request read clock := s.complete serializer retention request read clock
  row s clock id := RedisServer.get clock (s.executions id)
  replay s clock jti := RedisServer.get clock (s.replays jti)
  leaseUntil request read := ((⌊read⌋ + request.leaseSeconds : Int) : ℚ)
  instant read _ := read
  codes := serializer.RoundTrips

/-- The values of `sandbox_execution_state_backend`. -/
inductive StateBackend
  | memory
  | redis (serializer : Serializer) (retention : Int)

def buildExecutionStateStore : StateBackend → ExecutionStateStore
  | .memory => memory
  | .redis serializer retention => redis serializer retention

/-! ## Instances at work -/

inductive Call
  | claim (request : ClaimRequest)
  | complete (request : CompleteRequest)

/-- A call that was carried out, with its time and what it returned. -/
inductive Done
  | claim (request : ClaimRequest) (read : ℚ) (answer : Option ExecutionClaim)
  | complete (request : CompleteRequest) (instant : ℚ) (committed : Bool)

/-- A store, the calls of all instances that have read the clock, and the log
of what was carried out, the last first. -/
structure Plane (B : ExecutionStateStore) where
  clock : ℚ
  store : B.State
  pending : List (Call × ℚ)
  log : List Done

inductive PlaneEvent
  | tick (now : ℚ)
  | send (call : Call)
  /-- The call at `i` is carried out; the client sends it `again` when the answer does not arrive. -/
  | run (i : Nat) (again : Bool)

variable {B : ExecutionStateStore}

def Plane.carryOut (s : Plane B) (pending : List (Call × ℚ)) : Call × ℚ → Plane B
  | (.claim request, read) =>
    let (answer, store) := B.claim s.store request read s.clock
    { s with store := store, pending := pending, log := .claim request read answer :: s.log }
  | (.complete request, read) =>
    let (committed, store) := B.complete s.store request read s.clock
    { s with
      store := store
      pending := pending
      log := .complete request (B.instant read s.clock) committed :: s.log }

def Plane.step (s : Plane B) : PlaneEvent → Option (Plane B)
  | .tick now => if s.clock ≤ now then some { s with clock := now } else none
  | .send call => some { s with pending := s.pending ++ [(call, s.clock)] }
  | .run i again => (s.pending[i]?).map fun call =>
    s.carryOut (if again then s.pending else s.pending.eraseIdx i) call

/-- What a call did to the row `id`. -/
def Done.act (B : ExecutionStateStore) (id : String) : Done → Option (ℚ × Act String String ExecutionResponse ℚ)
  | .claim request read (some ⟨.acquired, _, attempt⟩) =>
    if request.executionId = id then
      some (read, .acquired request.requestHash request.owner attempt (B.leaseUntil request read))
    else none
  | .complete request instant true =>
    if request.executionId = id then
      some (instant, .completed request.requestHash request.owner request.attempt request.response)
    else none
  | _ => none

/-- What was done to the row `id`, the last first. -/
def Plane.acts (s : Plane B) (id : String) : List (ℚ × Act String String ExecutionResponse ℚ) :=
  s.log.filterMap (·.act B id)

/-- The row `id`, once created, has not passed its retention. -/
def Plane.Retains (s : Plane B) (id : String) : Prop :=
  s.acts id ≠ [] → (B.row s.store s.clock id).isSome

instance (s : Plane B) (id : String) : Decidable (s.Retains id) :=
  inferInstanceAs (Decidable (s.acts id ≠ [] → _))

/-- The instances at work from a state in which the execution `id` has no row,
as long as its row is retained. -/
def retained (B : ExecutionStateStore) (id : String) : System (Plane B) PlaneEvent where
  start s := s.log = [] ∧ (∀ call ∈ s.pending, call.2 ≤ s.clock) ∧ B.row s.store s.clock id = none
  step s e t := s.step e = some t ∧ t.Retains id

end CodeMate.Sandbox
