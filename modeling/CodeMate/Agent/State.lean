import CodeMate.Mcp.Router
import CodeMate.Verification

/-!
# The state of a repair

`FixAgentState` is what the nodes of the repair graph share and the checkpoints
store, without the texts that only the model and the planner read. A key that
the initial state does not have is an `Option`: it stays absent until a node
sets it, and an invocation that starts from an input without it keeps what the
thread has (`merge`).
-/

namespace CodeMate.Agent

open Framework Mcp

/-- The settings that the agent's loop and the graph read; times are in seconds. -/
structure Settings where
  maxAgentIterations : Nat
  agentMaxLoopSeconds : Nat
  agentMaxPlannerCalls : Nat
  agentMaxPlannerTokens : Nat
  agentMaxNoProgressSteps : Nat
  agentMaxLocalToolCalls : Nat
  agentMaxReadLines : Nat
  agentMaxEvidenceItems : Nat
  agentMaxActionHistory : Nat
  allowedTestCommands : List String
  mcpToolRouterMaxRounds : Nat
  mcpToolRouterMaxCallsPerRun : Nat
  mcpApprovalEnabled : Bool

/-- A structured action of the planner, without its explanatory texts. -/
inductive Action
  | searchCode (query : String) (topK : Nat)
  | readFile (path : String) (startLine : Nat) (endLine : Option Nat)
    (range : 1 ≤ startLine ∧ ∀ last ∈ endLine, startLine ≤ last)
  | listFiles (pattern : Option String)
  | findSymbol (symbol : String)
  | findReferences (symbol : String)
  | getImportGraph (path direction : String) (depth : Nat)
  | getCallGraph (symbol direction : String) (depth : Nat)
  | runTests (command : String)
  | generatePatch
  | finish (reason : String)
deriving DecidableEq

namespace Action

def text : Action → String
  | searchCode .. => "SearchCode"
  | readFile .. => "ReadFile"
  | listFiles .. => "ListFiles"
  | findSymbol .. => "FindSymbol"
  | findReferences .. => "FindReferences"
  | getImportGraph .. => "GetImportGraph"
  | getCallGraph .. => "GetCallGraph"
  | runTests .. => "RunTests"
  | generatePatch => "GeneratePatch"
  | finish .. => "Finish"

/-- `model_dump(exclude={"hypothesis", "rationale"})`. -/
def dump (action : Action) : Json :=
  .obj (("action", .str action.text) :: match action with
    | searchCode query topK => [("query", .str query), ("top_k", .num topK)]
    | readFile path startLine endLine _ =>
      [("path", .str path), ("start_line", .num startLine),
        ("end_line", (endLine.map fun n => Json.num n).getD .null)]
    | listFiles pattern => [("pattern", .ofOption pattern)]
    | findSymbol symbol | findReferences symbol => [("symbol", .str symbol)]
    | getImportGraph path direction depth =>
      [("path", .str path), ("direction", .str direction), ("depth", .num depth)]
    | getCallGraph symbol direction depth =>
      [("symbol", .str symbol), ("direction", .str direction), ("depth", .num depth)]
    | runTests command => [("command", .str command)]
    | generatePatch => []
    | finish reason => [("reason", .str reason)])

/-- `action_fingerprint`. -/
def fingerprint (codec : Codec) (action : Action) : String := codec.sha256Json action.dump

end Action

inductive HistoryStatus
  | finished
  | accepted
  | completed
  | rejected
deriving DecidableEq, Repr

/-- An entry of `action_history`; `action` is `none` for one that is no valid
action, and a rejected entry may have no fingerprint. -/
structure HistoryEntry where
  sequence : Nat
  action : Option Action
  fingerprint : Option String
  status : HistoryStatus
deriving DecidableEq

inductive LoopRoute
  | plan
  | generate
  | final
deriving DecidableEq, Repr

/-- `action_outcome`, without the texts of an observation. -/
structure ActionOutcome where
  route : LoopRoute
  ok : Option Bool
  reason : Option String
  guardrail : Option String
deriving DecidableEq

/-- Where a saved state goes on. -/
inductive ResumeFrom
  | mcpCall
  | mcpObserve
deriving DecidableEq, Repr

structure FixAgentState where
  runId : String
  repoId : String
  resolvedTestCommand : Option String
  regressionTestCommand : Option String
  baselineTestResult : Json
  diagnosticTestResult : Json
  targetedTestResult : Json
  regressionTestResult : Json
  verificationResult : Json
  iterations : Nat
  maxIterations : Nat
  /-- `none` for a dictionary that is no valid action, as at the start. -/
  currentAction : Option Action
  actionOutcome : Option ActionOutcome
  actionHistory : List HistoryEntry
  evidenceFingerprints : List String
  localActionFingerprints : List String
  patchFingerprints : List String
  localToolCallCount : Nat
  localPlannerCallCount : Nat
  localPlannerTokenCount : Nat
  agentLoopStartedAt : Option Nat
  agentLoopDeadlineAt : Option Nat
  noProgressCount : Nat
  finishReason : Option String
  patchIsDuplicate : Bool
  mcpToolCatalog : List CatalogTool
  mcpToolPlan : Plan
  mcpRoundResults : List Json
  mcpObservations : List Json
  mcpRouterRound : Nat
  mcpCallCount : Nat
  mcpMaxRounds : Nat
  mcpMaxCalls : Nat
  mcpPendingApprovalId : Option String
  mcpPendingExecutionId : Option String
  mcpCallCursor : Nat
  resumeFrom : Option ResumeFrom
  patch : Option String
  applyResult : Option Json
  testResult : Option Json
  finalDiff : Option String
  finalSummary : Option String
  status : Option RunStatus

/-- `_initial_state`. -/
def initialState (s : Settings) (runId repoId : String) : FixAgentState where
  runId := runId
  repoId := repoId
  resolvedTestCommand := none
  regressionTestCommand := none
  baselineTestResult := .obj []
  diagnosticTestResult := .obj []
  targetedTestResult := .obj []
  regressionTestResult := .obj []
  verificationResult := .obj []
  iterations := 0
  maxIterations := s.maxAgentIterations
  currentAction := none
  actionOutcome := none
  actionHistory := []
  evidenceFingerprints := []
  localActionFingerprints := []
  patchFingerprints := []
  localToolCallCount := 0
  localPlannerCallCount := 0
  localPlannerTokenCount := 0
  agentLoopStartedAt := none
  agentLoopDeadlineAt := none
  noProgressCount := 0
  finishReason := none
  patchIsDuplicate := false
  mcpToolCatalog := []
  mcpToolPlan := .empty
  mcpRoundResults := []
  mcpObservations := []
  mcpRouterRound := 0
  mcpCallCount := 0
  mcpMaxRounds := s.mcpToolRouterMaxRounds
  mcpMaxCalls := s.mcpToolRouterMaxCallsPerRun
  mcpPendingApprovalId := none
  mcpPendingExecutionId := none
  mcpCallCursor := 0
  resumeFrom := none
  patch := none
  applyResult := none
  testResult := none
  finalDiff := none
  finalSummary := none
  status := none

/-- What the verdict on the run is made of. -/
structure Evidence where
  resolvedTestCommand : Option String
  regressionTestCommand : Option String
  baseline : Json
  targeted : Json
  regression : Json
  verification : Json
  applyResult : Option Json
  patch : Option String

namespace FixAgentState

/-- `state.get("apply_result") or {}`. -/
def applied (v : FixAgentState) : Json := v.applyResult.getD (.obj [])

def evidence (v : FixAgentState) : Evidence where
  resolvedTestCommand := v.resolvedTestCommand
  regressionTestCommand := v.regressionTestCommand
  baseline := v.baselineTestResult
  targeted := v.targetedTestResult
  regression := v.regressionTestResult
  verification := v.verificationResult
  applyResult := v.applyResult
  patch := v.patch

/-- An invocation with the input `v` on a thread that has the values `old`. -/
def merge (old : Option FixAgentState) (v : FixAgentState) : FixAgentState :=
  match old with
  | none => v
  | some old => { v with
      patch := v.patch.or old.patch
      applyResult := v.applyResult.or old.applyResult
      testResult := v.testResult.or old.testResult
      finalDiff := v.finalDiff.or old.finalDiff
      finalSummary := v.finalSummary.or old.finalSummary
      status := v.status.or old.status }

end FixAgentState

end CodeMate.Agent
