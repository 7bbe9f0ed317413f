import CodeMate.Mcp.Router

/-!
# The MCP execution ledger: its row and its transactions

`MCPToolExecution` is a row of the ledger, and the methods of
`MCPExecutionService` that lock it are functions on it (`claim`, `complete`,
`markUnknown`, `recoverStale`, `reconcile`): each gives the row it commits and
what it returns or raises, since some raise after they committed a change.
`transact` is any one of them. `Effect` lists all that a transaction can do to
a row (`transact_effect`), and what follows for one row is proved from it: a
change raises the version (`Effect.version`), a settled row keeps its outcome
(`Effect.settled`), the request never changes (`Effect.request`), and `RowOk`
is kept (`Effect.ok`).
-/

namespace CodeMate.Ledger

open Framework

/-- The settings the ledger reads; times are in seconds. -/
structure Settings where
  mcpExecutionMaxAttempts : Nat
  mcpExecutionLeaseSeconds : Nat
  mcpClientTimeoutSeconds : Nat
  mcpExecutionMaxCheckpointChars : Nat

/-- Never shorter than a legitimate call may take. -/
def Settings.effectiveExecutionLeaseSeconds (s : Settings) : Nat :=
  max 1 (max s.mcpExecutionLeaseSeconds (s.mcpClientTimeoutSeconds + 5))

/-- The bound on a row's attempts. -/
def Settings.attemptLimit (s : Settings) : Nat := max 1 s.mcpExecutionMaxAttempts

inductive ExecutionStatus
  | prepared
  | executing
  | succeeded
  | failed
  | unknown
  | reconciling
deriving DecidableEq, Repr

/-- `TERMINAL_EXECUTION_STATUSES`. -/
def ExecutionStatus.terminal : ExecutionStatus → Bool
  | .succeeded | .failed => true
  | _ => false

structure MCPToolExecution where
  id : String
  runId : String
  approvalId : Option String
  qualifiedName : String
  serverName : String
  toolName : String
  argumentsJson : Json
  argumentsHash : String
  idempotencyKey : String
  idempotencyMode : String
  retrySafe : Bool
  status : ExecutionStatus
  attemptCount : Nat
  recoveryCount : Nat
  deduplicationHits : Nat
  leaseToken : Option String
  leaseOwner : Option String
  leaseExpiresAt : Option Nat
  checkpointJson : Option Json
  checkpointHash : Option String
  resultJson : Option Json
  errorMessage : Option String
  reconciliationNote : Option String
  reconciledBy : Option String
  reconciledProvider : Option String
  version : Nat
  startedAt : Option Nat
  finishedAt : Option Nat
  reconciledAt : Option Nat
  updatedAt : Nat
deriving DecidableEq

/-- What the service raises; an in-progress or unsettled row comes with the message. -/
inductive LedgerError
  | notFound
  | conflict (message : String)
  | inProgress
  | reconciliationRequired (message : String)
deriving DecidableEq, Repr

/-- `text or default`. -/
def orElse (text : Option String) (default : String) : String :=
  match text with
  | some s => if s = "" then default else s
  | none => default

/-- `text[:n]`. -/
def truncate (n : Nat) (text : String) : String := String.ofList (text.toList.take n)

/-! ## `prepare` -/

/-- The row `prepare` inserts; a checkpoint over the size limit is refused. -/
def newRow (s : Settings) (codec : Codec) (id runId : String) (call : Call)
    (idempotencyKey idempotencyMode : String) (approvalId : Option String) (checkpoint : Option Json)
    (now : Nat) : Except LedgerError MCPToolExecution :=
  if (checkpoint.map fun c => (codec.canonicalJson c).length).getD 0 > s.mcpExecutionMaxCheckpointChars then
    .error (.conflict "MCP execution checkpoint exceeds the configured size limit")
  else
    .ok { id, runId, approvalId, idempotencyKey, idempotencyMode
          qualifiedName := call.qualifiedName
          serverName := call.server
          toolName := call.tool
          argumentsJson := call.arguments
          argumentsHash := codec.sha256Json call.arguments
          retrySafe := idempotencyMode == "metadata"
          status := .prepared
          attemptCount := 0
          recoveryCount := 0
          deduplicationHits := 0
          leaseToken := none
          leaseOwner := none
          leaseExpiresAt := none
          checkpointJson := checkpoint
          checkpointHash := checkpoint.map codec.sha256Json
          resultJson := none
          errorMessage := none
          reconciliationNote := none
          reconciledBy := none
          reconciledProvider := none
          version := 1
          startedAt := none
          finishedAt := none
          reconciledAt := none
          updatedAt := now }

/-- `_verify_same_request`: a key stays bound to the request it was prepared for. -/
def verifySameRequest (codec : Codec) (e : MCPToolExecution) (runId : String) (call : Call)
    (approvalId : Option String) : Except LedgerError Unit :=
  if e.runId ≠ runId ∨ e.approvalId ≠ approvalId ∨ e.qualifiedName ≠ call.qualifiedName ∨
      e.argumentsHash ≠ codec.sha256Json call.arguments then
    .error (.conflict "Idempotency key is already bound to a different MCP request")
  else .ok ()

/-! ## The locked transactions -/

/-- Whether the lease is still running. -/
def leaseLive (e : MCPToolExecution) (now : Nat) : Bool :=
  match e.leaseExpiresAt with
  | some t => decide (now < t)
  | none => false

/-- `_set_unknown`. -/
def setUnknown (e : MCPToolExecution) (reason : String) (incrementVersion : Bool) (now : Nat) :
    MCPToolExecution :=
  { e with
    status := .unknown
    errorMessage := some (truncate 4000 reason)
    leaseToken := none
    leaseOwner := none
    leaseExpiresAt := none
    finishedAt := none
    version := if incrementVersion then e.version + 1 else e.version
    updatedAt := now }

/-- `_recover_expired_locked`: only a request the server deduplicates by key
is scheduled again, and only within the attempts allowed. -/
def recoverExpiredLocked (s : Settings) (e : MCPToolExecution) (now : Nat) : MCPToolExecution :=
  let e := { e with
    recoveryCount := e.recoveryCount + 1
    leaseToken := none
    leaseOwner := none
    leaseExpiresAt := none
    version := e.version + 1
    updatedAt := now }
  if e.retrySafe ∧ e.attemptCount < s.mcpExecutionMaxAttempts then
    { e with
      status := .prepared
      errorMessage := some "Previous worker lease expired; retry scheduled with same key" }
  else
    setUnknown e "Worker lease expired after remote call may have started; reconciliation required"
      false now

/-- The row with a new lease, as `claim` writes it. -/
def acquire (s : Settings) (e : MCPToolExecution) (token owner : String) (now : Nat) :
    MCPToolExecution :=
  { e with
    status := .executing
    leaseToken := some token
    leaseOwner := some owner
    leaseExpiresAt := some (now + s.effectiveExecutionLeaseSeconds)
    attemptCount := e.attemptCount + 1
    startedAt := some (e.startedAt.getD now)
    version := e.version + 1
    updatedAt := now }

/-- The row after `execute_once` served it from the store. -/
def countHit (e : MCPToolExecution) (now : Nat) : MCPToolExecution :=
  { e with deduplicationHits := e.deduplicationHits + 1, version := e.version + 1, updatedAt := now }

/-- What `execute_once` returns from a settled row: the stored result and two markers. -/
def cachedResult (e : MCPToolExecution) : Json :=
  ((Json.obj (e.resultJson.getD (.obj [])).members).set "execution_id" (.str e.id)).set
    "deduplicated" (.bool true)

/-- What a transaction returns. -/
inductive Reply
  | leased (token : String)
  | cached (result : Json)
  | row
  | none
deriving DecidableEq

/-- `claim`, and on a settled row what `execute_once` does with it in the same
transaction. -/
def claim (s : Settings) (e : MCPToolExecution) (token owner : String) (now : Nat) :
    MCPToolExecution × Except LedgerError Reply :=
  match e.status with
  | .succeeded | .failed => (countHit e now, .ok (.cached (cachedResult e)))
  | .unknown | .reconciling =>
    (e, .error (.reconciliationRequired
      (orElse e.errorMessage "MCP execution requires reconciliation")))
  | .executing =>
    if leaseLive e now then (e, .error .inProgress)
    else
      let r := recoverExpiredLocked s e now
      if r.status = .prepared then (acquire s r token owner now, .ok (.leased token))
      else (r, .error (.reconciliationRequired (orElse r.errorMessage "MCP execution outcome is unknown")))
  | .prepared => (acquire s e token owner now, .ok (.leased token))

/-- The row as `complete` settles it. -/
def settle (codec : Codec) (e : MCPToolExecution) (result : Json) (failed : Bool) (now : Nat) :
    MCPToolExecution :=
  { e with
    status := if failed then .failed else .succeeded
    resultJson := some result
    errorMessage :=
      if failed then
        some (truncate 4000 (if result.flag "error" then codec.str ((result.get "error").getD .null)
          else "MCP tool returned an error"))
      else none
    leaseToken := none
    leaseOwner := none
    leaseExpiresAt := none
    finishedAt := some now
    version := e.version + 1
    updatedAt := now }

/-- `complete`: only the holder of the current lease settles the row. -/
def complete (codec : Codec) (e : MCPToolExecution) (token : String) (result : Json) (failed : Bool)
    (now : Nat) : MCPToolExecution × Except LedgerError Reply :=
  if e.status.terminal then (e, .ok .row)
  else if e.status ≠ .executing ∨ e.leaseToken ≠ some token then
    (e, .error (.conflict "MCP execution lease is no longer valid"))
  else (settle codec e result failed now, .ok .row)

/-- `mark_unknown`. -/
def markUnknown (e : MCPToolExecution) (token reason : String) (now : Nat) :
    MCPToolExecution × Except LedgerError Reply :=
  if e.status.terminal then (e, .ok .row)
  else if e.status ≠ .executing ∨ e.leaseToken ≠ some token then
    (e, .error (.conflict "MCP execution lease is no longer valid"))
  else (setUnknown e reason true now, .ok .row)

/-- `recover_stale`, as the watchdog job calls it. -/
def recoverStale (s : Settings) (e : MCPToolExecution) (now : Nat) :
    MCPToolExecution × Except LedgerError Reply :=
  if e.status ≠ .executing then (e, .ok .none)
  else if leaseLive e now then (e, .ok .none)
  else (recoverExpiredLocked s e now, .ok .row)

inductive ReconcileAction
  | confirmSucceeded
  | confirmFailed
  | retry
deriving DecidableEq, Repr

/-- The members every reconciled result carries. -/
def reconciledResult (e : MCPToolExecution) (result : Option Json) (ok : Bool) : Json :=
  (((Json.obj (result.getD (.obj [])).members).set "ok" (.bool ok)).set
    "qualified_name" (.str e.qualifiedName)).set "execution_id" (.str e.id)
    |>.set "idempotency_key" (.str e.idempotencyKey)

/-- The result `reconcile` stores with `confirm_failed`: the operator's error,
else the note, else a fixed text. -/
def confirmedFailure (e : MCPToolExecution) (note : Option String) (result : Option Json) : Json :=
  let given := result.getD (.obj [])
  ((reconciledResult e result false).set "error"
    (if given.flag "error" then (given.get "error").getD .null
     else .str (orElse note "Execution manually confirmed as failed"))).set "reconciled" (.bool true)

/-- The columns `reconcile` writes whatever the action. -/
def stampReconciled (e : MCPToolExecution) (note : Option String) (actor provider : String)
    (now : Nat) : MCPToolExecution :=
  { e with
    reconciliationNote := note
    reconciledBy := some actor
    reconciledProvider := some provider
    reconciledAt := some now
    version := e.version + 1
    updatedAt := now }

/-- `reconcile`, an operator's decision on an unknown outcome. -/
def reconcile (s : Settings) (codec : Codec) (e : MCPToolExecution) (action : ReconcileAction)
    (expectedVersion : Nat) (actor provider : String) (note : Option String) (result : Option Json)
    (now : Nat) : MCPToolExecution × Except LedgerError Reply :=
  if e.version ≠ expectedVersion then (e, .error (.conflict "MCP execution version conflict"))
  else if e.status ≠ .unknown then
    (e, .error (.conflict "MCP execution cannot be reconciled from its status"))
  else match action with
    | .retry =>
      if ¬ e.retrySafe then
        (e, .error (.conflict
          "Remote server did not declare metadata idempotency; retry is unsafe"))
      else if e.attemptCount ≥ s.mcpExecutionMaxAttempts then
        (e, .error (.conflict "MCP execution retry budget is exhausted"))
      else
        (stampReconciled { e with
          status := .prepared, resultJson := none, errorMessage := none, finishedAt := none }
          note actor provider now, .ok .row)
    | .confirmSucceeded =>
      (stampReconciled { e with
        status := .succeeded
        resultJson := some ((reconciledResult e result true).set "reconciled" (.bool true))
        errorMessage := none
        finishedAt := some now } note actor provider now, .ok .row)
    | .confirmFailed =>
      (stampReconciled { e with
        status := .failed
        resultJson := some (confirmedFailure e note result)
        errorMessage := some (truncate 4000
          (if (confirmedFailure e note result).flag "error" then
            codec.str (((confirmedFailure e note result).get "error").getD .null)
           else "Execution failed"))
        finishedAt := some now } note actor provider now, .ok .row)

/-- A locked transaction and its arguments. -/
inductive Transaction
  | claim (token owner : String)
  | complete (token : String) (result : Json) (failed : Bool)
  | markUnknown (token reason : String)
  | recoverStale
  | reconcile (action : ReconcileAction) (expectedVersion : Nat) (actor provider : String)
      (note : Option String) (result : Option Json)

/-- The row a transaction commits, and what it returns or raises. -/
def transact (s : Settings) (codec : Codec) (now : Nat) (t : Transaction) (e : MCPToolExecution) :
    MCPToolExecution × Except LedgerError Reply :=
  match t with
  | .claim token owner => claim s e token owner now
  | .complete token result failed => complete codec e token result failed now
  | .markUnknown token reason => markUnknown e token reason now
  | .recoverStale => recoverStale s e now
  | .reconcile action version actor provider note result =>
    reconcile s codec e action version actor provider note result now

/-! ## What a transaction can do to a row -/

/-- The lease a transaction hands out. -/
def leaseOf : Except LedgerError Reply → Option String
  | .ok (.leased token) => some token
  | _ => none

/-- All that a transaction can do to a row, and the guard it passed: it leaves
the row (`same`), counts a served request, grants a lease (to a prepared row,
or to one whose lease ran out and that may be tried again), takes an expired
lease away, settles the row or leaves it unknown on the word of the lease's
holder, or applies an operator's decision to an unknown outcome. -/
inductive Effect (s : Settings) (codec : Codec) (now : Nat) (e : MCPToolExecution) :
    Transaction → MCPToolExecution → Except LedgerError Reply → Prop
  | same {t : Transaction} {r : Except LedgerError Reply} : leaseOf r = none → Effect s codec now e t e r
  | hit {token owner : String} : e.status.terminal = true →
    Effect s codec now e (.claim token owner) (countHit e now) (.ok (.cached (cachedResult e)))
  | lease {token owner : String} : e.status = .prepared →
    Effect s codec now e (.claim token owner) (acquire s e token owner now) (.ok (.leased token))
  | takeOver {token owner : String} : e.status = .executing → leaseLive e now = false →
    e.retrySafe = true → e.attemptCount < s.mcpExecutionMaxAttempts →
    Effect s codec now e (.claim token owner) (acquire s (recoverExpiredLocked s e now) token owner now)
      (.ok (.leased token))
  | expire {t : Transaction} {r : Except LedgerError Reply} : leaseOf r = none →
    ((∃ token owner, t = .claim token owner) ∨ t = .recoverStale) →
    e.status = .executing → leaseLive e now = false →
    Effect s codec now e t (recoverExpiredLocked s e now) r
  | settle {token : String} {result : Json} {failed : Bool} : e.status = .executing →
    e.leaseToken = some token →
    Effect s codec now e (.complete token result failed) (settle codec e result failed now) (.ok .row)
  | doubt {token reason : String} : e.status = .executing → e.leaseToken = some token →
    Effect s codec now e (.markUnknown token reason) (setUnknown e reason true now) (.ok .row)
  | retry {version : Nat} {actor provider : String} {note : Option String} {result : Option Json} :
    e.status = .unknown → e.retrySafe = true → e.attemptCount < s.mcpExecutionMaxAttempts →
    Effect s codec now e (.reconcile .retry version actor provider note result)
      (stampReconciled { e with
        status := .prepared, resultJson := none, errorMessage := none, finishedAt := none }
        note actor provider now) (.ok .row)
  | confirm {action : ReconcileAction} {version : Nat} {actor provider : String}
      {note : Option String} {result : Option Json} {status : ExecutionStatus} {stored : Json}
      {message : Option String} : e.status = .unknown → status.terminal = true →
    Effect s codec now e (.reconcile action version actor provider note result)
      (stampReconciled { e with
        status, resultJson := some stored, errorMessage := message, finishedAt := some now }
        note actor provider now) (.ok .row)

section Effect

variable {s : Settings} {codec : Codec} {now : Nat} {t : Transaction} {e e' : MCPToolExecution}
  {r : Except LedgerError Reply}

theorem recoverExpiredLocked_prepared :
    (recoverExpiredLocked s e now).status = .prepared ↔
      e.retrySafe = true ∧ e.attemptCount < s.mcpExecutionMaxAttempts := by
  unfold recoverExpiredLocked setUnknown
  dsimp only
  split <;> simp_all

theorem claim_effect (token owner : String) :
    Effect s codec now e (.claim token owner) (claim s e token owner now).1
      (claim s e token owner now).2 := by
  unfold claim
  split
  · next h => exact .hit (by rw [h]; rfl)
  · next h => exact .hit (by rw [h]; rfl)
  · exact .same rfl
  · exact .same rfl
  · next h =>
    by_cases hl : leaseLive e now = true
    · rw [if_pos hl]; exact .same rfl
    · rw [if_neg hl]
      replace hl := Bool.not_eq_true _ ▸ hl
      by_cases hr : (recoverExpiredLocked s e now).status = .prepared
      · simp only [hr, if_true]
        obtain ⟨hsafe, hroom⟩ := recoverExpiredLocked_prepared.mp hr
        exact .takeOver h hl hsafe hroom
      · simp only [hr, if_false]
        exact .expire rfl (.inl ⟨token, owner, rfl⟩) h hl
  · next h => exact .lease h

theorem reconcile_effect (action : ReconcileAction) (version : Nat) (actor provider : String)
    (note : Option String) (result : Option Json) :
    Effect s codec now e (.reconcile action version actor provider note result)
      (reconcile s codec e action version actor provider note result now).1
      (reconcile s codec e action version actor provider note result now).2 := by
  unfold reconcile
  split
  · exact .same rfl
  · split
    · exact .same rfl
    · next hu =>
      have hu : e.status = .unknown := not_not.mp hu
      cases action with
      | confirmSucceeded => exact .confirm hu rfl
      | confirmFailed => exact .confirm hu rfl
      | retry =>
        dsimp only
        split
        · exact .same rfl
        · next hs =>
          split
          · exact .same rfl
          · next hn => exact .retry hu (not_not.mp hs) (Nat.lt_of_not_le hn)

/-- The one case analysis of the transactions; what follows here is proved from it. -/
theorem transact_effect (h : transact s codec now t e = (e', r)) : Effect s codec now e t e' r := by
  obtain ⟨rfl, rfl⟩ : (transact s codec now t e).1 = e' ∧ (transact s codec now t e).2 = r := by
    rw [h]; exact ⟨rfl, rfl⟩
  cases t with
  | claim token owner => exact claim_effect token owner
  | complete token result failed =>
    simp only [transact, complete]
    split
    · exact .same rfl
    · split
      · exact .same rfl
      · next hn =>
        obtain ⟨hx, ht⟩ := not_or.mp hn
        exact .settle (not_not.mp hx) (not_not.mp ht)
  | markUnknown token reason =>
    simp only [transact, markUnknown]
    split
    · exact .same rfl
    · split
      · exact .same rfl
      · next hn =>
        obtain ⟨hx, ht⟩ := not_or.mp hn
        exact .doubt (not_not.mp hx) (not_not.mp ht)
  | recoverStale =>
    simp only [transact, recoverStale]
    split
    · exact .same rfl
    · next hx =>
      split
      · exact .same rfl
      · next hl => exact .expire rfl (.inr rfl) (not_not.mp hx) (Bool.not_eq_true _ ▸ hl)
  | reconcile action version actor provider note result =>
    exact reconcile_effect action version actor provider note result

/-- The request a row is bound to. -/
structure SameRequest (e e' : MCPToolExecution) : Prop where
  id : e'.id = e.id
  runId : e'.runId = e.runId
  approvalId : e'.approvalId = e.approvalId
  qualifiedName : e'.qualifiedName = e.qualifiedName
  argumentsHash : e'.argumentsHash = e.argumentsHash
  idempotencyKey : e'.idempotencyKey = e.idempotencyKey
  retrySafe : e'.retrySafe = e.retrySafe

theorem SameRequest.refl (e : MCPToolExecution) : SameRequest e e := ⟨rfl, rfl, rfl, rfl, rfl, rfl, rfl⟩

theorem SameRequest.trans {a b c : MCPToolExecution} (h₁ : SameRequest a b) (h₂ : SameRequest b c) :
    SameRequest a c :=
  ⟨h₂.id.trans h₁.id, h₂.runId.trans h₁.runId, h₂.approvalId.trans h₁.approvalId,
    h₂.qualifiedName.trans h₁.qualifiedName, h₂.argumentsHash.trans h₁.argumentsHash,
    h₂.idempotencyKey.trans h₁.idempotencyKey, h₂.retrySafe.trans h₁.retrySafe⟩

/-- What holds of every row: the lease columns are set while it executes and
only then, the attempts stay within their bound (with one left while it is
prepared), a request that is not retry-safe is attempted once, and a settled
row has its result. -/
structure RowOk (s : Settings) (e : MCPToolExecution) : Prop where
  token : e.leaseToken.isSome = true ↔ e.status = .executing
  expiry : e.leaseExpiresAt.isSome = true ↔ e.status = .executing
  attempts : e.attemptCount ≤ s.attemptLimit
  room : e.status = .prepared → e.attemptCount < s.attemptLimit
  once : e.retrySafe = false → e.attemptCount ≤ 1
  untried : e.retrySafe = false → e.status = .prepared → e.attemptCount = 0
  stored : e.status.terminal = true → e.resultJson.isSome = true

theorem recoverExpiredLocked_cases (s : Settings) (e : MCPToolExecution) (now : Nat) :
    (e.retrySafe = true ∧ e.attemptCount < s.mcpExecutionMaxAttempts ∧
      (recoverExpiredLocked s e now).status = .prepared) ∨
    (recoverExpiredLocked s e now).status = .unknown := by
  unfold recoverExpiredLocked setUnknown
  dsimp only
  split
  · next h => exact .inl ⟨h.1, h.2, rfl⟩
  · exact .inr rfl

/-- The columns of a recovered row that do not depend on how it is recovered. -/
theorem recoverExpiredLocked_columns (s : Settings) (e : MCPToolExecution) (now : Nat) :
    SameRequest e (recoverExpiredLocked s e now) ∧
    (recoverExpiredLocked s e now).leaseToken = none ∧
    (recoverExpiredLocked s e now).leaseExpiresAt = none ∧
    (recoverExpiredLocked s e now).attemptCount = e.attemptCount ∧
    (recoverExpiredLocked s e now).version = e.version + 1 ∧
    (recoverExpiredLocked s e now).resultJson = e.resultJson := by
  unfold recoverExpiredLocked setUnknown
  dsimp only
  split <;> exact ⟨⟨rfl, rfl, rfl, rfl, rfl, rfl, rfl⟩, rfl, rfl, rfl, rfl, rfl⟩

theorem newRow_ok {id runId key mode : String} {call : Call} {approvalId : Option String}
    {checkpoint : Option Json}
    (h : newRow s codec id runId call key mode approvalId checkpoint now = .ok e) :
    RowOk s e ∧ e.id = id ∧ e.idempotencyKey = key ∧ e.status = .prepared ∧ e.attemptCount = 0 ∧
      e.leaseToken = none := by
  unfold newRow at h
  split at h
  · cases h
  obtain rfl := Except.ok.inj h
  refine ⟨⟨by simp, by simp, by simp, fun _ => ?_, by simp, by simp, by simp [ExecutionStatus.terminal]⟩,
    rfl, rfl, rfl, rfl, rfl⟩
  exact Nat.lt_of_lt_of_le Nat.zero_lt_one (Nat.le_max_left 1 _)

namespace Effect

/-- A change raises the version. -/
theorem version (h : Effect s codec now e t e' r) : e' = e ∨ e.version < e'.version := by
  have hrec := (recoverExpiredLocked_columns s e now).2.2.2.2.1
  cases h with
  | same => exact .inl rfl
  | takeOver | expire => exact .inr (by simp only [acquire, hrec]; omega)
  | hit | lease | settle | doubt | retry | confirm => exact .inr (Nat.lt_succ_self _)

theorem request (h : Effect s codec now e t e' r) : SameRequest e e' := by
  have hrec := (recoverExpiredLocked_columns s e now).1
  cases h with
  | same => exact .refl e
  | takeOver | expire => exact ⟨hrec.1, hrec.2, hrec.3, hrec.4, hrec.5, hrec.6, hrec.7⟩
  | hit | lease | settle | doubt | retry | confirm => exact ⟨rfl, rfl, rfl, rfl, rfl, rfl, rfl⟩

/-- A settled row keeps its status and its result. -/
theorem settled (h : Effect s codec now e t e' r) (hs : e.status.terminal = true) :
    e'.status = e.status ∧ e'.resultJson = e.resultJson := by
  cases h with
  | same | hit => exact ⟨rfl, rfl⟩
  | lease h | takeOver h | expire _ _ h | settle h | doubt h | retry h | confirm h =>
    rw [h] at hs; cases hs

/-- An attempt is counted for each lease granted, and for nothing else. -/
theorem attempts (h : Effect s codec now e t e' r) :
    e'.attemptCount = e.attemptCount + (leaseOf r).toList.length := by
  have hrec := (recoverExpiredLocked_columns s e now).2.2.2.1
  cases h with
  | same hr => rw [hr]; rfl
  | expire hr => rw [hr]; exact hrec
  | takeOver => simp only [acquire, hrec]; rfl
  | hit | lease | settle | doubt | retry | confirm => rfl

/-- The lease token of the row is the one it had, none, or the one just granted. -/
theorem leaseToken (h : Effect s codec now e t e' r) :
    (leaseOf r = none ∧ (e'.leaseToken = e.leaseToken ∨ e'.leaseToken = none)) ∨
    (leaseOf r).isSome = true ∧ e'.leaseToken = leaseOf r := by
  have hrec := (recoverExpiredLocked_columns s e now).2.1
  cases h with
  | same hr => exact .inl ⟨hr, .inl rfl⟩
  | expire hr => exact .inl ⟨hr, .inr hrec⟩
  | lease | takeOver => exact .inr ⟨rfl, rfl⟩
  | hit | retry | confirm => exact .inl ⟨rfl, .inl rfl⟩
  | settle | doubt => exact .inl ⟨rfl, .inr rfl⟩

/-- A lease is granted by `claim`, under the token it came with. -/
theorem leased {x : String} (h : Effect s codec now e t e' r) (hr : leaseOf r = some x) :
    (∃ owner, t = .claim x owner) ∧ r = .ok (.leased x) := by
  cases h with
  | same hn | expire hn => rw [hn] at hr; cases hr
  | lease | takeOver =>
    obtain rfl := Option.some.inj hr
    exact ⟨⟨_, rfl⟩, rfl⟩
  | hit | settle | doubt | retry | confirm => cases hr

/-- `complete` and `mark_unknown` change a row for the holder of its lease only. -/
theorem holder (h : Effect s codec now e t e' r) (hne : e' ≠ e) {token : String}
    (ht : (∃ result failed, t = .complete token result failed) ∨ ∃ reason, t = .markUnknown token reason) :
    e.status = .executing ∧ e.leaseToken = some token := by
  cases h with
  | same => exact absurd rfl hne
  | settle hx htok => rcases ht with ⟨_, _, h⟩ | ⟨_, h⟩ <;> cases h; exact ⟨hx, htok⟩
  | doubt hx htok => rcases ht with ⟨_, _, h⟩ | ⟨_, h⟩ <;> cases h; exact ⟨hx, htok⟩
  | expire _ hk =>
    rcases ht with ⟨_, _, rfl⟩ | ⟨_, rfl⟩ <;> rcases hk with ⟨_, _, hk⟩ | hk <;> cases hk
  | hit | lease | takeOver | retry | confirm => rcases ht with ⟨_, _, h⟩ | ⟨_, h⟩ <;> cases h

/-- A lease is granted within the attempts allowed, and to a request that is
not retry-safe only before its first attempt. -/
theorem lease_room (h : Effect s codec now e t e' r) (hok : RowOk s e) (hr : leaseOf r ≠ none) :
    e.attemptCount < s.attemptLimit ∧ (e.retrySafe = false → e.attemptCount = 0) := by
  cases h with
  | same hn | expire hn => exact absurd hn hr
  | lease hp => exact ⟨hok.room hp, fun hs => hok.untried hs hp⟩
  | takeOver _ _ hs hm =>
    exact ⟨Nat.lt_of_lt_of_le hm (Nat.le_max_right 1 _), fun hf => absurd (hs.symm.trans hf) nofun⟩
  | hit | settle | doubt | retry | confirm => exact absurd rfl hr

/-- Every transaction keeps a row in order. -/
theorem ok (h : Effect s codec now e t e' r) (hok : RowOk s e) : RowOk s e' := by
  obtain ⟨hreq, htok, hexp, hatt, hver, hres⟩ := recoverExpiredLocked_columns s e now
  have hlt {n : Nat} (hn : n < s.mcpExecutionMaxAttempts) : n < s.attemptLimit :=
    Nat.lt_of_lt_of_le hn (Nat.le_max_right 1 _)
  cases h with
  | same => exact hok
  | hit ht =>
    exact ⟨hok.token, hok.expiry, hok.attempts, hok.room, hok.once, hok.untried, hok.stored⟩
  | lease hp =>
    refine ⟨by simp [acquire], by simp [acquire], hok.room hp, by simp [acquire], fun hs => ?_,
      by simp [acquire], by simp [acquire, ExecutionStatus.terminal]⟩
    simp only [acquire, hok.untried hs hp, Nat.zero_add, Nat.le_refl]
  | takeOver hx _ hs hm =>
    refine ⟨by simp [acquire], by simp [acquire], ?_, by simp [acquire], fun hf => ?_,
      by simp [acquire], by simp [acquire, ExecutionStatus.terminal]⟩
    · show (recoverExpiredLocked s e now).attemptCount + 1 ≤ s.attemptLimit
      rw [hatt]; exact hlt hm
    · exact absurd (hs.symm.trans (hreq.retrySafe.symm.trans hf)) nofun
  | expire _ _ hx _ =>
    have hnot : (recoverExpiredLocked s e now).status ≠ .executing := by
      rcases recoverExpiredLocked_cases s e now with ⟨_, _, h⟩ | h <;> rw [h] <;> nofun
    have hterm : (recoverExpiredLocked s e now).status.terminal = false := by
      rcases recoverExpiredLocked_cases s e now with ⟨_, _, h⟩ | h <;> rw [h] <;> rfl
    refine ⟨by simp [htok, hnot], by simp [hexp, hnot], hatt ▸ hok.attempts, fun hp => ?_, fun hf => ?_,
      fun hf hp => ?_, fun ht => absurd (hterm.symm.trans ht) nofun⟩
    · rw [hatt]; exact hlt (recoverExpiredLocked_prepared.mp hp).2
    · rw [hatt]; exact hok.once (hreq.retrySafe ▸ hf)
    · have hs := (recoverExpiredLocked_prepared.mp hp).1
      exact absurd (hs.symm.trans (hreq.retrySafe.symm.trans hf)) nofun
  | settle hx _ =>
    refine ⟨?_, ?_, hok.attempts, ?_, hok.once, ?_, fun _ => rfl⟩ <;>
      simp only [Ledger.settle] <;> split <;> simp
  | doubt hx _ =>
    exact ⟨by simp [setUnknown], by simp [setUnknown], hok.attempts, by simp [setUnknown], hok.once,
      by simp [setUnknown], by simp [setUnknown, ExecutionStatus.terminal]⟩
  | retry hu hs hm =>
    have hn : e.leaseToken = none := by simpa [hu] using hok.token
    have hm' : e.leaseExpiresAt = none := by simpa [hu] using hok.expiry
    refine ⟨by simp [stampReconciled, hn], by simp [stampReconciled, hm'], hok.attempts, fun _ => hlt hm,
      hok.once, fun hf _ => absurd (hs.symm.trans hf) nofun, by simp [stampReconciled, ExecutionStatus.terminal]⟩
  | @confirm _ _ _ _ _ _ status _ _ hu ht =>
    have hn : e.leaseToken = none := by simpa [hu] using hok.token
    have hm : e.leaseExpiresAt = none := by simpa [hu] using hok.expiry
    refine ⟨?_, ?_, hok.attempts, ?_, hok.once, ?_, fun _ => rfl⟩ <;>
      cases status <;> simp_all [stampReconciled, ExecutionStatus.terminal]

end Effect

end Effect

end CodeMate.Ledger
