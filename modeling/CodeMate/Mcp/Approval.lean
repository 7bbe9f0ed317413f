import CodeMate.Framework.Session
import CodeMate.Mcp.Calls

/-!
# The row of an approval

The transactions of `MCPApprovalService` and those of the execution service on
the row of an approval, each as a function of the object that the session holds
(`transact`). `transact_request` and `transact_decision` say what they change:
never the request, and the decision only as `decide` and `expire` take it, so
that an approval is always taken before the row expires.
-/

namespace CodeMate.Mcp

open Framework

/-- Settings of the approval workflow; times are in seconds. -/
structure ApprovalSettings where
  mcpApprovalEnabled : Bool
  mcpApprovalTtlSeconds : Nat
  mcpApprovalResumeStaleSeconds : Nat
  mcpApprovalMaxCheckpointChars : Nat

inductive ApprovalStatus
  | pending
  | queued
  | resuming
  | completed
  | failed
  | reconciliationRequired
deriving DecidableEq, Repr

/-- `ACTIVE_APPROVAL_STATUSES`. -/
def ApprovalStatus.active : ApprovalStatus → Bool
  | pending | queued | resuming | reconciliationRequired => true
  | completed | failed => false

inductive Decision
  | approved
  | rejected
deriving DecidableEq, Repr

/-- The row of an approval, without the snapshots that are only shown. -/
structure MCPToolApproval where
  id : String
  runId : String
  qualifiedName : String
  serverName : String
  toolName : String
  argumentsJson : Json
  argumentsHash : String
  checkpointJson : Json
  checkpointHash : String
  status : ApprovalStatus
  decision : Option Decision
  decisionNote : Option String
  decidedBy : Option String
  decidedProvider : Option String
  decidedAt : Option Nat
  version : Nat
  requestedAt : Nat
  expiresAt : Nat
  executionStartedAt : Option Nat
  executionFinishedAt : Option Nat
  resultJson : Option Json
  errorMessage : Option String
  updatedAt : Nat
deriving DecidableEq

inductive ApprovalError
  | disabled
  | checkpointTooLarge
  | versionConflict
  | alreadyDecided
deriving DecidableEq, Repr

/-- Who decides, and what is noted. -/
structure Verdict where
  approve : Bool
  note : Option String
  actor : String
  provider : String
  expectedVersion : Nat

inductive Transaction
  | decide (verdict : Verdict)
  | expire
  | claimForResume
  | finish (result : Json) (failed : Bool)
  | requireReconciliation (errorMessage : Option String)
  | prepareResumeTarget

section

variable (s : ApprovalSettings) (codec : Codec)

/-- `create_pending` for a run without an active approval. -/
def newApproval (id runId : String) (call : Call) (checkpoint : Json) (now : Nat) :
    Except ApprovalError MCPToolApproval :=
  let checkpointData := (checkpoint.set "resume_from" (.str "mcp_observe")).set
    "mcp_pending_approval_id" (.str id)
  if !s.mcpApprovalEnabled then .error .disabled
  else if (codec.canonicalJson checkpointData).length > s.mcpApprovalMaxCheckpointChars then
    .error .checkpointTooLarge
  else .ok
    { id, runId
      qualifiedName := call.qualifiedName
      serverName := call.server
      toolName := call.tool
      argumentsJson := call.arguments
      argumentsHash := codec.sha256Json call.arguments
      checkpointJson := checkpointData
      checkpointHash := codec.sha256 (codec.canonicalJson checkpointData)
      status := .pending
      decision := none, decisionNote := none, decidedBy := none, decidedProvider := none, decidedAt := none
      version := 1
      requestedAt := now
      expiresAt := now + max 1 s.mcpApprovalTtlSeconds
      executionStartedAt := none, executionFinishedAt := none, resultJson := none, errorMessage := none
      updatedAt := now }

/-- `verify_checkpoint`. -/
def verifyCheckpoint (a : MCPToolApproval) : Bool :=
  codec.sha256 (codec.canonicalJson a.checkpointJson) = a.checkpointHash

/-- `decide`. -/
def decide (verdict : Verdict) (now : Nat) (a : MCPToolApproval) : MCPToolApproval × Except ApprovalError Bool :=
  let normalized := if verdict.approve then Decision.approved else .rejected
  if a.version ≠ verdict.expectedVersion then
    (a, if a.decision = some normalized then .ok false else .error .versionConflict)
  else if a.status ≠ .pending then
    (a, if a.decision = some normalized then .ok false else .error .alreadyDecided)
  else
    let expired := a.expiresAt ≤ now
    ({ a with
      decision := some (if expired then .rejected else normalized)
      decisionNote := if expired then some "Approval expired before decision" else verdict.note
      decidedBy := some verdict.actor
      decidedProvider := some verdict.provider
      decidedAt := some now
      status := .queued
      version := a.version + 1
      updatedAt := now }, .ok true)

/-- `expire`. -/
def expire (now : Nat) (a : MCPToolApproval) : MCPToolApproval × Bool :=
  if a.status ≠ .pending ∨ now < a.expiresAt then (a, false)
  else
    ({ a with
      decision := some .rejected
      decisionNote := some "Approval expired"
      decidedBy := some "system-expiry"
      decidedProvider := some "system"
      decidedAt := some now
      status := .queued
      version := a.version + 1
      updatedAt := now }, true)

/-- Whether a resume of the approval was started less than the stale time ago. -/
def resumeIsFresh (now : Nat) (a : MCPToolApproval) : Bool :=
  match a.executionStartedAt with
  | none => false
  | some started => now < started + max 1 s.mcpApprovalResumeStaleSeconds

/-- `claim_for_resume`. -/
def claimForResume (now : Nat) (a : MCPToolApproval) : MCPToolApproval × Bool :=
  if (a.status = .resuming ∧ ¬ resumeIsFresh s now a) ∨ a.status = .queued then
    ({ a with
      status := .resuming
      executionStartedAt := some now
      version := a.version + 1
      updatedAt := now }, true)
  else (a, false)

/-- `finish`. -/
def finish (result : Json) (failed : Bool) (now : Nat) (a : MCPToolApproval) : MCPToolApproval :=
  { a with
    status := if failed then .failed else .completed
    resultJson := some result
    errorMessage := if failed then
        some (String.ofList ((codec.str ((result.get "error").getD .null)).toList.take 4000))
      else none
    executionFinishedAt := some now
    version := a.version + 1
    updatedAt := now }

/-- The approval in `mark_run_waiting_reconciliation`. -/
def requireReconciliation (errorMessage : Option String) (now : Nat) (a : MCPToolApproval) : MCPToolApproval :=
  if a.status = .completed ∨ a.status = .failed then a
  else
    { a with
      status := .reconciliationRequired
      errorMessage
      version := a.version + 1
      updatedAt := now }

/-- `prepare_resume_target`. -/
def prepareResumeTarget (now : Nat) (a : MCPToolApproval) : MCPToolApproval :=
  if a.status = .reconciliationRequired ∨ a.status = .resuming ∨ a.status = .failed then
    { a with
      status := .queued
      errorMessage := none
      executionStartedAt := none
      executionFinishedAt := none
      version := a.version + 1
      updatedAt := now }
  else a

/-- A transaction on the object that the session holds. -/
def transact (now : Nat) (t : Transaction) (a : MCPToolApproval) : MCPToolApproval :=
  match t with
  | .decide verdict => (decide verdict now a).1
  | .expire => (expire now a).1
  | .claimForResume => (claimForResume s now a).1
  | .finish result failed => finish codec result failed now a
  | .requireReconciliation errorMessage => requireReconciliation errorMessage now a
  | .prepareResumeTarget => prepareResumeTarget now a

/-- `UPDATE mcp_tool_approvals SET …` for the columns changed in the object. -/
def overlay (c n d : MCPToolApproval) : MCPToolApproval where
  id := column c.id n.id d.id
  runId := column c.runId n.runId d.runId
  qualifiedName := column c.qualifiedName n.qualifiedName d.qualifiedName
  serverName := column c.serverName n.serverName d.serverName
  toolName := column c.toolName n.toolName d.toolName
  argumentsJson := column c.argumentsJson n.argumentsJson d.argumentsJson
  argumentsHash := column c.argumentsHash n.argumentsHash d.argumentsHash
  checkpointJson := column c.checkpointJson n.checkpointJson d.checkpointJson
  checkpointHash := column c.checkpointHash n.checkpointHash d.checkpointHash
  status := column c.status n.status d.status
  decision := column c.decision n.decision d.decision
  decisionNote := column c.decisionNote n.decisionNote d.decisionNote
  decidedBy := column c.decidedBy n.decidedBy d.decidedBy
  decidedProvider := column c.decidedProvider n.decidedProvider d.decidedProvider
  decidedAt := column c.decidedAt n.decidedAt d.decidedAt
  version := column c.version n.version d.version
  requestedAt := column c.requestedAt n.requestedAt d.requestedAt
  expiresAt := column c.expiresAt n.expiresAt d.expiresAt
  executionStartedAt := column c.executionStartedAt n.executionStartedAt d.executionStartedAt
  executionFinishedAt := column c.executionFinishedAt n.executionFinishedAt d.executionFinishedAt
  resultJson := column c.resultJson n.resultJson d.resultJson
  errorMessage := column c.errorMessage n.errorMessage d.errorMessage
  updatedAt := column c.updatedAt n.updatedAt d.updatedAt

def flush : Flush MCPToolApproval where
  overlay := overlay
  current c n := by simp only [overlay, column_current]
  unchanged c d := by simp only [overlay, column_unchanged]

end

/-! ## What a transaction changes -/

/-- The rows agree on the request. -/
structure SameRequest (a b : MCPToolApproval) : Prop where
  id : b.id = a.id
  runId : b.runId = a.runId
  qualifiedName : b.qualifiedName = a.qualifiedName
  argumentsHash : b.argumentsHash = a.argumentsHash
  expiresAt : b.expiresAt = a.expiresAt

variable {s : ApprovalSettings} {codec : Codec}

@[refl] theorem SameRequest.refl (a : MCPToolApproval) : SameRequest a a := ⟨rfl, rfl, rfl, rfl, rfl⟩

theorem SameRequest.trans {a b c : MCPToolApproval} (h : SameRequest a b) (h' : SameRequest b c) :
    SameRequest a c :=
  ⟨h'.id.trans h.id, h'.runId.trans h.runId, h'.qualifiedName.trans h.qualifiedName,
    h'.argumentsHash.trans h.argumentsHash, h'.expiresAt.trans h.expiresAt⟩

/-- A transaction leaves the request; and it leaves the decision, or takes it at `now`: an
approval before the row expires. -/
theorem transact_spec (s : ApprovalSettings) (codec : Codec) (now : Nat) (t : Transaction) (a : MCPToolApproval) :
    (SameRequest a (transact s codec now t a) ∧ (transact s codec now t a).argumentsJson = a.argumentsJson) ∧
      ((transact s codec now t a).decision = a.decision ∨
        ((transact s codec now t a).decision = some .approved → now < a.expiresAt)) := by
  cases t with
  | decide verdict =>
    dsimp only [transact]
    unfold Mcp.decide
    dsimp only
    split
    · exact ⟨⟨.refl a, rfl⟩, .inl rfl⟩
    split
    · exact ⟨⟨.refl a, rfl⟩, .inl rfl⟩
    · refine ⟨⟨⟨rfl, rfl, rfl, rfl, rfl⟩, rfl⟩, .inr fun h => ?_⟩
      dsimp only at h
      split at h
      · cases h
      · next hlive => exact Nat.lt_of_not_le hlive
  | expire =>
    dsimp only [transact]
    unfold Mcp.expire
    split
    · exact ⟨⟨.refl a, rfl⟩, .inl rfl⟩
    · exact ⟨⟨⟨rfl, rfl, rfl, rfl, rfl⟩, rfl⟩, .inr fun h => by cases h⟩
  | claimForResume =>
    dsimp only [transact]
    unfold Mcp.claimForResume
    split
    · exact ⟨⟨⟨rfl, rfl, rfl, rfl, rfl⟩, rfl⟩, .inl rfl⟩
    · exact ⟨⟨.refl a, rfl⟩, .inl rfl⟩
  | finish result failed => exact ⟨⟨⟨rfl, rfl, rfl, rfl, rfl⟩, rfl⟩, .inl rfl⟩
  | requireReconciliation errorMessage =>
    dsimp only [transact]
    unfold Mcp.requireReconciliation
    split
    · exact ⟨⟨.refl a, rfl⟩, .inl rfl⟩
    · exact ⟨⟨⟨rfl, rfl, rfl, rfl, rfl⟩, rfl⟩, .inl rfl⟩
  | prepareResumeTarget =>
    dsimp only [transact]
    unfold Mcp.prepareResumeTarget
    split
    · exact ⟨⟨⟨rfl, rfl, rfl, rfl, rfl⟩, rfl⟩, .inl rfl⟩
    · exact ⟨⟨.refl a, rfl⟩, .inl rfl⟩

/-- A flush of what a transaction changed leaves the request of the committed row. -/
theorem overlay_request (now : Nat) (t : Transaction) (c d : MCPToolApproval) :
    SameRequest d (overlay c (transact s codec now t c) d) := by
  obtain ⟨⟨h, _⟩, _⟩ := transact_spec s codec now t c
  refine ⟨?_, ?_, ?_, ?_, ?_⟩
  · simp only [overlay, h.id, column_unchanged]
  · simp only [overlay, h.runId, column_unchanged]
  · simp only [overlay, h.qualifiedName, column_unchanged]
  · simp only [overlay, h.argumentsHash, column_unchanged]
  · simp only [overlay, h.expiresAt, column_unchanged]

end CodeMate.Mcp
