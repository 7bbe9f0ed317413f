import CodeMate.Agent.State

/-!
# The row of an agent run

What the services write to the row: when a job starts or resumes the run, when
the run waits, and when it ends (`persistFinalState` stores the state that the
graph ended in, `finishInfraError` a failure outside it).
`persistFinalState_verified` is the check made there: a verified success is
stored with complete evidence or not at all.
-/

namespace CodeMate.Agent

open Framework Verification

/-- The row of a run; times are in seconds. -/
structure AgentRun where
  id : String
  repoId : String
  status : RunStatus
  finalDiff : Option String
  finalSummary : Option String
  testResult : Option Json
  iterations : Nat
  failureReason : Option String
  finishedAt : Option Nat
  updatedAt : Nat
deriving DecidableEq

/-- `state.get("verification_result") or state.get("test_result")`. -/
def finalResult (state : FixAgentState) : Option Json :=
  if state.verificationResult.truthy then some state.verificationResult else state.testResult

/-- Whether a final result is a dictionary with complete evidence. -/
def evidenceIsComplete (result : Option Json) : Bool :=
  match result with
  | some (.obj ms) => verificationEvidenceIsComplete (.obj ms)
  | _ => false

/-- `terminal_status_is_valid`. -/
def terminalStatusIsValid (requestedStatus : Option RunStatus) (result : Option Json) : Bool :=
  match requestedStatus with
  | none => false
  | some status => status.terminal && (status ≠ .verifiedSuccess || evidenceIsComplete result)

/-- `repr` of a status. -/
def statusRepr (status : Option RunStatus) : String :=
  match status with
  | none => "None"
  | some status => "'" ++ status.text ++ "'"

/-- `_persist_final_state`. -/
def persistFinalState (run : AgentRun) (state : FixAgentState) (now : Nat) : AgentRun :=
  let valid := terminalStatusIsValid state.status (finalResult state)
  let status := if valid then state.status.getD .infraError else .infraError
  let finalSummary :=
    if valid then state.finalSummary
    else some ("Invalid terminal verification status or evidence: " ++ statusRepr state.status)
  { run with
    status
    finalDiff := state.finalDiff
    finalSummary
    testResult := finalResult state
    iterations := state.iterations
    failureReason := if status = .verifiedSuccess then none else finalSummary
    finishedAt := some now
    updatedAt := now }

/-- `_finish_infra_error`. -/
def finishInfraError (run : AgentRun) (reason : String) (now : Nat) : AgentRun :=
  { run with
    status := .infraError
    failureReason := some reason
    finalSummary := some reason
    finishedAt := some now
    updatedAt := now }

/-- `run_fix`, before it invokes the graph. -/
def startRun (run : AgentRun) (now : Nat) : AgentRun := { run with status := .running, updatedAt := now }

/-- A resume, before it goes on. -/
def restartRun (run : AgentRun) (now : Nat) : AgentRun :=
  { run with status := .running, finalSummary := none, failureReason := none, updatedAt := now }

/-- `create_pending` on the run. -/
def waitForApproval (run : AgentRun) (now : Nat) : AgentRun :=
  { run with
    status := .waitingApproval
    finalSummary := some "Agent 正在等待 MCP 工具审批。"
    failureReason := none
    updatedAt := now }

/-- `mark_run_waiting_reconciliation` on the run. -/
def waitForReconciliation (run : AgentRun) (now : Nat) : AgentRun :=
  if run.status.terminal then run
  else
    { run with
      status := .waitingReconciliation
      finalSummary := some "Agent 正在等待 MCP 执行结果对账。"
      failureReason := none
      updatedAt := now }

/-- What a job does with the state that the graph returned. -/
def endInvocation (run : AgentRun) (state : FixAgentState) (now : Nat) : AgentRun :=
  if state.status = some .waitingApproval ∨ state.status = some .waitingReconciliation then run
  else persistFinalState run state now

theorem terminalStatusIsValid_terminal {status : RunStatus} {result : Option Json}
    (h : terminalStatusIsValid (some status) result = true) : status.terminal = true :=
  (Bool.and_eq_true _ _ ▸ h).1

/-- A run whose graph ended has a terminal status, whatever the state is. -/
theorem persistFinalState_terminal (run : AgentRun) (state : FixAgentState) (now : Nat) :
    (persistFinalState run state now).status.terminal = true := by
  unfold persistFinalState
  dsimp only
  split
  · next hvalid =>
    cases hs : state.status with
    | none => rfl
    | some status => exact terminalStatusIsValid_terminal (hs ▸ hvalid)
  · rfl

/-- A verified success is stored only with complete evidence. -/
theorem persistFinalState_verified {run : AgentRun} {state : FixAgentState} {now : Nat}
    (h : (persistFinalState run state now).status = .verifiedSuccess) :
    state.status = some .verifiedSuccess ∧ evidenceIsComplete (persistFinalState run state now).testResult = true := by
  unfold persistFinalState at h
  dsimp only at h
  split at h
  · next hvalid =>
    cases hs : state.status with
    | none => rw [hs] at h; cases h
    | some status =>
      obtain rfl : status = .verifiedSuccess := by simpa [hs] using h
      rw [hs] at hvalid
      have hcomplete : evidenceIsComplete (finalResult state) = true := by
        simpa [terminalStatusIsValid, RunStatus.terminal] using hvalid
      exact ⟨rfl, hcomplete⟩
  · cases h

end CodeMate.Agent
