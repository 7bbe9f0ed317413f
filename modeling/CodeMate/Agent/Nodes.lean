import CodeMate.Mcp.Calls
import CodeMate.Agent.Executor

/-!
# The nodes of the repair graph

A node of the graph computes a new state from the state it is given and from
what the world answers while it runs (`Node.Reply`): the planner, the tools,
the test runner, the MCP servers. `Node.run` is that function; its `Output`
also has the events of the node (the tests that ran, the patches that were
applied, the calls that were sent) and the states it stored for a later resume.
-/

namespace CodeMate.Agent

open Framework Mcp Verification

inductive TestPhase
  | baseline
  | diagnostic
  | targeted
  | regression
deriving DecidableEq, Repr

def TestPhase.text : TestPhase → String
  | baseline => "baseline"
  | diagnostic => "diagnostic"
  | targeted => "targeted"
  | regression => "regression"

/-- What a run does to the world: the last is the replay of a saved patch in a
workspace that is rebuilt. -/
inductive Event
  | test (phase : TestPhase) (command : Option String) (result : Json)
  | applied (patch : String) (result : Json)
  | sent (request : Sent)
  | restored (patch : String)
deriving DecidableEq

/-- Whether an event applies a patch. -/
def Event.isPatch : Event → Bool
  | .applied .. => true
  | _ => false

/-- Parameters of the nodes; `check` is the JSON Schema validator. -/
structure Env where
  settings : Settings
  codec : Codec
  check : Json → Json → Option String

inductive Node
  | inspectRepository
  | reproduceFailure
  | initializeAgentLoop
  | planNextAction
  | executeLocalAction
  | planMCPTools
  | callMCPTools
  | observeMCP
  | pauseForApproval
  | pauseForReconciliation
  | generatePatch
  | applyPatch
  | targetedTests
  | regressionChecks
  | reflect
  | finalAnswer
deriving DecidableEq, Repr

/-- The nodes between the baseline and a patch. -/
def Node.investigates : Node → Bool
  | initializeAgentLoop | planNextAction | executeLocalAction | planMCPTools | callMCPTools | observeMCP
  | pauseForApproval | pauseForReconciliation => true
  | _ => false

/-- The commands that `inspect_repository` found. -/
structure Inspection where
  resolvedTestCommand : Option String
  regressionTestCommand : Option String

/-- The planner's action and the tokens it took, or its error, at the time `now`. -/
structure Planned where
  now : Nat
  answer : Except String (Action × Nat)

/-- What a local tool returned, at the time `now`. -/
structure Observed where
  now : Nat
  result : Json

/-- A round of the tool router: what it discovers, what the planner proposes
and the approval that is created or found; `router` is false where there is none. -/
structure Planning where
  router : Bool
  discovered : List CatalogTool
  proposed : List Json
  approvalId : String

/-- The client of an invocation, and what happens to each call. -/
structure Calling where
  router : Bool
  client : Servers
  authorize : String → String → Bool
  reply : Nat → CallReply

/-- What the world answers while a node runs. -/
def Node.Reply : Node → Type
  | inspectRepository => Inspection
  | initializeAgentLoop => Nat
  | planNextAction => Planned
  | executeLocalAction => Observed
  | planMCPTools => Planning
  | callMCPTools => Calling
  | reproduceFailure | applyPatch | targetedTests | regressionChecks => Json
  | generatePatch | finalAnswer => String
  | observeMCP | pauseForApproval | pauseForReconciliation | reflect => Unit

/-- What a node leaves: the new state, its events in their order, and the
states it stored with approvals and executions. -/
structure Output where
  state : FixAgentState
  events : List Event := []
  saved : List FixAgentState := []

/-- The result of `run_tests`, which notes the phase. -/
def runTests (phase : TestPhase) (result : Json) : Json := result.set "phase" (.str phase.text)

variable (env : Env)

def planNextAction (state : FixAgentState) (planned : Planned) : FixAgentState :=
  let (action, usedTokens) :=
    match LocalAgentExecutor.plannerBudgetViolation env.settings state planned.now with
    | some reason => (Action.finish reason, 0)
    | none =>
      match planned.answer with
      | .ok (action, usedTokens) => (action, usedTokens)
      | .error error => (.finish ("planner_error: " ++ error), 0)
  let newTokenCount := state.localPlannerTokenCount + usedTokens
  { state with
    currentAction :=
      if newTokenCount > env.settings.agentMaxPlannerTokens then
        some (.finish "agent_planner_token_budget_exhausted")
      else some action
    localPlannerCallCount := state.localPlannerCallCount + 1
    localPlannerTokenCount := newTokenCount }

/-- The calls of a plan that an approval puts off, as rejections. -/
def deferred (reason : String) (calls : List Call) : List Rejection :=
  calls.map fun call => ⟨call.qualifiedName, reason, none⟩

def planMCPTools (state : FixAgentState) (planning : Planning) : Output :=
  if !planning.router ∨ state.mcpRouterRound ≥ state.mcpMaxRounds then
    { state := { state with mcpToolPlan := .empty } }
  else
    let catalog := if state.mcpToolCatalog.isEmpty then planning.discovered else state.mcpToolCatalog
    let plan := Mcp.plan env.codec env.check catalog planning.proposed
      (state.mcpMaxCalls - state.mcpCallCount) state.mcpObservations
    match plan.approvalRequests with
    | [] =>
      { state := { state with mcpToolCatalog := catalog, mcpToolPlan := plan, mcpPendingApprovalId := none } }
    | requested :: others =>
      if env.settings.mcpApprovalEnabled then
        match catalog.find? (·.qualifiedName == requested.qualifiedName) with
        | none =>
          { state := { state with mcpToolCatalog := catalog, mcpToolPlan := plan, mcpPendingApprovalId := none } }
        | some _ =>
          { state := { state with
              mcpToolCatalog := catalog
              mcpToolPlan :=
                { calls := []
                  approvalRequests := [requested]
                  rejected := plan.rejected ++ deferred "approval_deferred" others ++
                    deferred "deferred_for_approval" plan.calls }
              mcpPendingApprovalId := some planning.approvalId }
            saved := [{ state with
              mcpToolCatalog := catalog
              mcpToolPlan := .empty
              mcpRoundResults := []
              resumeFrom := some .mcpObserve
              mcpPendingApprovalId := some planning.approvalId }] }
      else
        { state := { state with
            mcpToolCatalog := catalog
            mcpToolPlan :=
              { plan with
                approvalRequests := []
                rejected := plan.rejected ++ deferred "approval_workflow_disabled" (requested :: others) }
            mcpPendingApprovalId := none } }

/-- One call of `call_mcp_tools` under the ledger. -/
def callMCPTool (calling : Calling) (catalog : List CatalogTool) (call : Call) (reply : CallReply) :
    CallOutcome × Option Sent :=
  executeOnce calling.client (Mcp.execute env.codec env.check catalog calling.authorize call)
    (fun arguments result => .obj (answeredResult call.qualifiedName arguments result)) reply

/-- The loop of `call_mcp_tools` over the calls from `index` on. -/
def callMCPToolsFrom (calling : Calling) (state : FixAgentState) :
    List Call → Nat → List Json → Output
  | [], _, results =>
    { state := { state with
        mcpRoundResults := results
        mcpRouterRound := state.mcpRouterRound + 1
        mcpCallCount := state.mcpCallCount + state.mcpToolPlan.calls.length
        mcpCallCursor := 0
        mcpPendingExecutionId := none } }
  | call :: calls, index, results =>
    let checkpoint := { state with
      mcpRoundResults := results
      mcpCallCursor := index
      mcpPendingExecutionId := none
      resumeFrom := some .mcpCall }
    let (outcome, sent) := callMCPTool env calling state.mcpToolCatalog call (calling.reply index)
    let events := (sent.map Event.sent).toList
    let goOn (result : Json) : Output :=
      let rest := callMCPToolsFrom calling state calls (index + 1) (results ++ [result])
      { state := rest.state, events := events ++ rest.events, saved := checkpoint :: rest.saved }
    match outcome with
    | .reconciliation executionId | .inProgress executionId _ =>
      { state := { state with
          mcpRoundResults := results
          mcpCallCursor := index
          mcpPendingExecutionId := some executionId
          status := some .waitingReconciliation }
        events
        saved := [checkpoint] }
    | .error error => goOn (callError call.qualifiedName error)
    | .result result => goOn result

def callMCPTools (state : FixAgentState) (calling : Calling) : Output :=
  if calling.router then
    callMCPToolsFrom env calling state (state.mcpToolPlan.calls.drop state.mcpCallCursor)
      state.mcpCallCursor state.mcpRoundResults
  else { state := { state with mcpRoundResults := [] } }

def observeMCP (state : FixAgentState) : FixAgentState :=
  { state with
    mcpObservations := state.mcpObservations ++ state.mcpRoundResults
    mcpRoundResults := []
    mcpToolPlan := .empty
    mcpPendingApprovalId := none
    mcpPendingExecutionId := none
    mcpCallCursor := 0
    resumeFrom := none }

def generatePatch (state : FixAgentState) (patch : String) : FixAgentState :=
  let fingerprint := env.codec.sha256 patch
  let duplicate := fingerprint ∈ state.patchFingerprints
  { state with
    patch := some patch
    patchFingerprints :=
      if duplicate then state.patchFingerprints
      else lastItems env.settings.maxAgentIterations (state.patchFingerprints ++ [fingerprint])
    patchIsDuplicate := duplicate
    noProgressCount := if duplicate then state.noProgressCount + 1 else 0 }

/-- The targeted result of a patch that did not apply. -/
def patchError (applyResult : Json) : Json :=
  .obj
    [("passed", .bool false), ("exit_code", (applyResult.get "exit_code").getD (.num 1)),
      ("stdout", (applyResult.get "stdout").getD (.str "")),
      ("stderr", (applyResult.get "stderr").getD (.str "Patch did not apply.")), ("command", .null),
      ("tests_ran", .bool false), ("timed_out", .bool false), ("skipped_reason", .null),
      ("failure_kind", .str "patch_error"), ("phase", .str "targeted")]

def targetedTests (state : FixAgentState) (result : Json) : Output :=
  let ok := state.applied.flag "ok"
  let testResult := if ok then runTests .targeted result else patchError state.applied
  { state := { state with
      testResult := some testResult
      targetedTestResult := testResult
      regressionTestResult := .obj []
      iterations := state.iterations + 1 }
    events := if ok then [.test .targeted state.resolvedTestCommand testResult] else [] }

/-- `failure_summary` of `reflect`. -/
def failureSummary (failed : Json) : Json :=
  .obj
    [("phase", (failed.get "phase").getD .null), ("command", (failed.get "command").getD .null),
      ("tests_ran", (failed.get "tests_ran").getD .null), ("exit_code", (failed.get "exit_code").getD .null),
      ("stderr", .str (String.ofList ((textOr env.codec (failed.get "stderr") "").toList.take 4000)))]

def reflect (state : FixAgentState) : FixAgentState :=
  let failed := firstTruthy [state.regressionTestResult, state.targetedTestResult]
  let fingerprint := env.codec.sha256 (env.codec.dumps (failureSummary env failed))
  { state with
    patch := some ""
    patchIsDuplicate := false
    applyResult := some (.obj [])
    evidenceFingerprints :=
      if fingerprint ∈ state.evidenceFingerprints then state.evidenceFingerprints
      else lastItems env.settings.agentMaxEvidenceItems (state.evidenceFingerprints ++ [fingerprint])
    actionOutcome := some { route := .plan, ok := none, reason := none, guardrail := none } }

def finalAnswer (state : FixAgentState) (diff : String) : FixAgentState :=
  let applyResult := state.applyResult.getD .null
  let verificationResult := buildVerificationResult state.baselineTestResult state.targetedTestResult
    state.regressionTestResult applyResult
  let (status, reason) := verdict state.baselineTestResult state.targetedTestResult
    state.regressionTestResult applyResult
  { state with
    finalDiff := some diff
    finalSummary := some (verificationSummary status reason)
    status := some status
    verificationResult := verificationResult
    testResult := some verificationResult }

/-- A node of the graph. -/
def Node.run : (node : Node) → FixAgentState → node.Reply → Output
  | inspectRepository, state, (inspection : Inspection) =>
    { state := { state with
        resolvedTestCommand := inspection.resolvedTestCommand
        regressionTestCommand := inspection.regressionTestCommand } }
  | reproduceFailure, state, (result : Json) =>
    let result := runTests .baseline result
    { state := { state with baselineTestResult := result }
      events := [.test .baseline state.resolvedTestCommand result] }
  | initializeAgentLoop, state, (now : Nat) =>
    { state := { state with
        agentLoopStartedAt := some (state.agentLoopStartedAt.getD now)
        agentLoopDeadlineAt :=
          some (state.agentLoopDeadlineAt.getD (now + max 1 env.settings.agentMaxLoopSeconds)) } }
  | planNextAction, state, planned => { state := CodeMate.Agent.planNextAction env state planned }
  | executeLocalAction, state, (observed : Observed) =>
    let result := match state.currentAction with
      | some (.runTests _) => runTests .diagnostic observed.result
      | _ => observed.result
    let (next, ran) := LocalAgentExecutor.execute env.settings env.codec state state.currentAction
      observed.now result
    { state := next
      events := match ran with
        | some (.runTests command) => [.test .diagnostic command result]
        | _ => [] }
  | planMCPTools, state, planning => CodeMate.Agent.planMCPTools env state planning
  | callMCPTools, state, calling => CodeMate.Agent.callMCPTools env state calling
  | observeMCP, state, _ => { state := CodeMate.Agent.observeMCP state }
  | pauseForApproval, state, _ =>
    { state := { state with
        status := some .waitingApproval
        finalSummary := some "Agent 正在等待 MCP 工具审批。" } }
  | pauseForReconciliation, state, _ =>
    { state := { state with
        status := some .waitingReconciliation
        finalSummary := some "Agent 正在等待 MCP 执行结果对账。" } }
  | generatePatch, state, patch => { state := CodeMate.Agent.generatePatch env state patch }
  | applyPatch, state, (result : Json) =>
    { state := { state with applyResult := some result }
      events := [.applied (state.patch.getD "") result] }
  | targetedTests, state, result => CodeMate.Agent.targetedTests state result
  | regressionChecks, state, (result : Json) =>
    let result := runTests .regression result
    { state := { state with testResult := some result, regressionTestResult := result }
      events := [.test .regression state.regressionTestCommand result] }
  | reflect, state, _ => { state := CodeMate.Agent.reflect env state }
  | finalAnswer, state, diff => { state := CodeMate.Agent.finalAnswer state diff }

/-! ## What the investigation leaves alone -/

/-- The output has the evidence of the state, applies no patch and ends nothing. -/
structure Investigates (state : FixAgentState) (out : Output) : Prop where
  evidence : out.state.evidence = state.evidence
  status : out.state.status = state.status ∨ out.state.status = some .waitingApproval ∨
    out.state.status = some .waitingReconciliation
  events : ∀ event ∈ out.events, event.isPatch = false
  saved : ∀ stored ∈ out.saved, stored.evidence = state.evidence

variable {env} {state : FixAgentState}

theorem Investigates.of_state {next : FixAgentState} (hevidence : next.evidence = state.evidence)
    (hstatus : next.status = state.status ∨ next.status = some .waitingApproval ∨
      next.status = some .waitingReconciliation) : Investigates state { state := next } :=
  ⟨hevidence, hstatus, fun _ h => absurd h List.not_mem_nil, fun _ h => absurd h List.not_mem_nil⟩

theorem planMCPTools_investigates (planning : Planning) :
    Investigates state (planMCPTools env state planning) := by
  unfold planMCPTools
  split
  · exact .of_state rfl (.inl rfl)
  dsimp only
  split
  · exact .of_state rfl (.inl rfl)
  split
  · split
    · exact .of_state rfl (.inl rfl)
    · refine ⟨rfl, .inl rfl, fun _ h => absurd h List.not_mem_nil, fun stored hm => ?_⟩
      obtain rfl := List.mem_singleton.mp hm
      rfl
  · exact .of_state rfl (.inl rfl)

theorem callMCPToolsFrom_investigates (calling : Calling) (calls : List Call) (index : Nat)
    (results : List Json) : Investigates state (callMCPToolsFrom env calling state calls index results) := by
  induction calls generalizing index results with
  | nil => exact .of_state rfl (.inl rfl)
  | cons call calls ih =>
    have hsent (sent : Option Sent) : ∀ event ∈ (sent.map Event.sent).toList, event.isPatch = false := by
      cases sent with
      | none => exact fun _ hm => absurd hm List.not_mem_nil
      | some sent =>
        intro event hm
        obtain rfl := List.mem_singleton.mp hm
        rfl
    have hgoOn (result : Json) (events : List Event) (he : ∀ event ∈ events, event.isPatch = false)
        (checkpoint : FixAgentState) (hc : checkpoint.evidence = state.evidence) :
        Investigates state
          { state := (callMCPToolsFrom env calling state calls (index + 1) (results ++ [result])).state
            events := events ++ (callMCPToolsFrom env calling state calls (index + 1) (results ++ [result])).events
            saved := checkpoint :: (callMCPToolsFrom env calling state calls (index + 1)
              (results ++ [result])).saved } := by
      have hrest := ih (index + 1) (results ++ [result])
      refine ⟨hrest.evidence, hrest.status, fun event hm => ?_, fun stored hm => ?_⟩
      · rcases List.mem_append.mp hm with hm | hm
        · exact he event hm
        · exact hrest.events event hm
      · rcases List.mem_cons.mp hm with rfl | hm
        · exact hc
        · exact hrest.saved stored hm
    unfold callMCPToolsFrom
    dsimp only
    split
    · refine ⟨rfl, .inr (.inr rfl), hsent _, fun stored hm => ?_⟩
      obtain rfl := List.mem_singleton.mp hm
      rfl
    · refine ⟨rfl, .inr (.inr rfl), hsent _, fun stored hm => ?_⟩
      obtain rfl := List.mem_singleton.mp hm
      rfl
    · exact hgoOn _ _ (hsent _) _ rfl
    · exact hgoOn _ _ (hsent _) _ rfl

theorem callMCPTools_investigates (calling : Calling) :
    Investigates state (callMCPTools env state calling) := by
  unfold callMCPTools
  split
  · exact callMCPToolsFrom_investigates ..
  · exact .of_state rfl (.inl rfl)

theorem run_investigates (env : Env) (state : FixAgentState) {node : Node} (h : node.investigates = true) (reply : node.Reply) :
    Investigates state (node.run env state reply) := by
  cases node <;> try cases h
  case executeLocalAction =>
    obtain ⟨hevidence, hstatus⟩ := LocalAgentExecutor.execute_keeps ..
    refine ⟨hevidence, .inl hstatus, fun event hm => ?_, fun _ h => absurd h List.not_mem_nil⟩
    dsimp only [Node.run] at hm
    split at hm
    · obtain rfl := List.mem_singleton.mp hm
      rfl
    · cases hm
  case planMCPTools => exact planMCPTools_investigates _
  case callMCPTools => exact callMCPTools_investigates _
  case pauseForApproval => exact .of_state rfl (.inr (.inl rfl))
  case pauseForReconciliation => exact .of_state rfl (.inr (.inr rfl))
  all_goals exact .of_state rfl (.inl rfl)

end CodeMate.Agent
