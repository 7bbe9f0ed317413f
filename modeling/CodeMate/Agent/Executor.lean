import CodeMate.Agent.State

/-!
# The local executor

`LocalAgentExecutor.execute` checks the planner's action against the budgets
and runs it: `result` is what the tool returned, which only an action that is
dispatched reads. Nothing that the executor does changes the evidence of the
verdict (`execute_keeps`).
-/

namespace CodeMate.Agent

open Framework

/-- `items[-limit:]`. -/
def lastItems {α : Type*} (limit : Nat) (items : List α) : List α :=
  if limit = 0 then items else items.drop (items.length - limit)

theorem lastItems_of_le {α : Type*} {limit : Nat} {items : List α} (h : items.length ≤ limit) :
    lastItems limit items = items := by
  unfold lastItems
  split
  · rfl
  · rw [Nat.sub_eq_zero_of_le h]
    rfl

namespace LocalAgentExecutor

variable (s : Settings) (codec : Codec)

/-- `_deadline_reached`. -/
def deadlineReached (state : FixAgentState) (now : Nat) : Bool :=
  match state.agentLoopDeadlineAt with
  | none => false
  | some deadline => deadline ≤ now

/-- `planner_budget_violation`. -/
def plannerBudgetViolation (state : FixAgentState) (now : Nat) : Option String :=
  if deadlineReached state now then some "agent_loop_time_budget_exhausted"
  else if state.localPlannerCallCount ≥ s.agentMaxPlannerCalls then some "agent_planner_call_budget_exhausted"
  else if state.localPlannerTokenCount ≥ s.agentMaxPlannerTokens then some "agent_planner_token_budget_exhausted"
  else if state.noProgressCount ≥ s.agentMaxNoProgressSteps then some "agent_no_progress_limit_reached"
  else none

/-- `_tool_budget_violation`. -/
def toolBudgetViolation (state : FixAgentState) (now : Nat) : Option String :=
  if deadlineReached state now then some "agent_loop_time_budget_exhausted"
  else if state.localToolCallCount ≥ s.agentMaxLocalToolCalls then some "agent_local_tool_call_budget_exhausted"
  else none

/-- `_append_history`. -/
def appendHistory (state : FixAgentState) (action : Action) (status : HistoryStatus) : List HistoryEntry :=
  lastItems s.agentMaxActionHistory (state.actionHistory ++
    [⟨state.actionHistory.length + 1, some action, some (action.fingerprint codec), status⟩])

/-- `_guardrail_rejection`. -/
def guardrailRejection (state : FixAgentState) (rawAction : Option Action) (reason : String) : FixAgentState :=
  let noProgressCount := state.noProgressCount + 1
  let route := if noProgressCount ≥ s.agentMaxNoProgressSteps then LoopRoute.final else .plan
  { state with
    currentAction := rawAction
    actionOutcome := some { route, ok := some false, reason := none, guardrail := some reason }
    actionHistory := lastItems s.agentMaxActionHistory
      (state.actionHistory ++ [⟨state.actionHistory.length + 1, rawAction, none, .rejected⟩])
    noProgressCount
    finishReason := if route = .final then some reason else none }

/-- `_forced_finish`. -/
def forcedFinish (state : FixAgentState) (action : Action) (reason : String) : FixAgentState :=
  { state with
    currentAction := some action
    actionOutcome := some { route := .final, ok := some false, reason := none, guardrail := some reason }
    actionHistory := appendHistory s codec state action .rejected
    finishReason := some reason }

/-- `made_progress` of `_build_evidence`. -/
def madeProgress (result : Json) : Bool :=
  match result with
  | .obj _ => result.flag "content" || result.flag "tests_ran" || result.flag "nodes" || result.flag "edges"
  | _ => result.truthy

/-- The fingerprint of `_build_evidence`. -/
def evidenceFingerprint (result : Json) : String := codec.sha256 (codec.dumps result)

/-- The refusal of an action that a tool would run. -/
def toolRejection (state : FixAgentState) (action : Action) : Option String :=
  if action.fingerprint codec ∈ state.localActionFingerprints then some "duplicate_local_action"
  else match action with
    | .readFile _ startLine endLine _ =>
      let endLine := endLine.getD (startLine + s.agentMaxReadLines - 1)
      if endLine - startLine + 1 > s.agentMaxReadLines then some "read_line_budget_exceeded" else none
    | .runTests command =>
      if command ∉ s.allowedTestCommands then some "test_command_not_allowlisted" else none
    | _ => none

/-- `execute` from the call of the tool on. -/
def observe (state : FixAgentState) (action : Action) (result : Json) : FixAgentState :=
  let novel := evidenceFingerprint codec result ∉ state.evidenceFingerprints
  let noProgressCount := if novel ∧ madeProgress result then 0 else state.noProgressCount + 1
  let route := if noProgressCount ≥ s.agentMaxNoProgressSteps then LoopRoute.final else .plan
  { state with
    currentAction := some action
    actionOutcome := some { route, ok := some true, reason := none, guardrail := none }
    actionHistory := appendHistory s codec state action .completed
    evidenceFingerprints :=
      if novel then lastItems s.agentMaxEvidenceItems
        (state.evidenceFingerprints ++ [evidenceFingerprint codec result])
      else state.evidenceFingerprints
    localActionFingerprints :=
      lastItems s.agentMaxActionHistory (state.localActionFingerprints ++ [action.fingerprint codec])
    localToolCallCount := state.localToolCallCount + 1
    noProgressCount
    finishReason := if route = .final then some "agent_no_progress_limit_reached" else none
    diagnosticTestResult := match action with
      | .runTests _ => result
      | _ => state.diagnosticTestResult }

/-- `execute`, with the action that a tool ran. -/
def execute (state : FixAgentState) (rawAction : Option Action) (now : Nat) (result : Json) :
    FixAgentState × Option Action :=
  match rawAction with
  | none => (guardrailRejection s state none "invalid_action_schema", none)
  | some (.finish reason) =>
    ({ state with
      currentAction := some (.finish reason)
      actionOutcome := some { route := .final, ok := some true, reason := some reason, guardrail := none }
      actionHistory := appendHistory s codec state (.finish reason) .finished
      finishReason := some reason }, none)
  | some .generatePatch =>
    ({ state with
      currentAction := some .generatePatch
      actionOutcome := some { route := .generate, ok := some true, reason := none, guardrail := none }
      actionHistory := appendHistory s codec state .generatePatch .accepted
      finishReason := none }, none)
  | some action =>
    match toolBudgetViolation s state now with
    | some reason => (forcedFinish s codec state action reason, none)
    | none =>
      match toolRejection s codec state action with
      | some reason => (guardrailRejection s state (some action) reason, none)
      | none => (observe s codec state action result, some action)

end LocalAgentExecutor

/-- The executor leaves the evidence and the status alone. -/
theorem LocalAgentExecutor.execute_keeps (s : Settings) (codec : Codec) (state : FixAgentState)
    (rawAction : Option Action) (now : Nat) (result : Json) :
    (execute s codec state rawAction now result).1.evidence = state.evidence ∧
      (execute s codec state rawAction now result).1.status = state.status := by
  unfold execute
  split
  · exact ⟨rfl, rfl⟩
  · exact ⟨rfl, rfl⟩
  · exact ⟨rfl, rfl⟩
  split
  · exact ⟨rfl, rfl⟩
  split <;> exact ⟨rfl, rfl⟩

end CodeMate.Agent
