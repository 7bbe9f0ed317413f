import CodeMate.Framework.Run
import CodeMate.Agent.Nodes

/-!
# The repair graph

The routes between the nodes (`after`) and the runs of the graph on its
checkpointed thread (`repair`): the steps are the jobs' invocations, the nodes,
the crashes of a node whose state is then lost, and the resumes from a state
that was stored with an approval or an execution. A job may stop after any
node and a resume may come at any time, with any state stored so far.
-/

namespace CodeMate.Agent

open Framework Mcp Verification

/-- The truth value of an optional text. -/
def truthyText (text : Option String) : Bool := (nonempty text).isSome

def afterReflect (state : FixAgentState) : Node :=
  if truthyText state.finishReason then .finalAnswer else .planNextAction

def afterLocalAction (state : FixAgentState) : Node :=
  match state.actionOutcome with
  | some { route := .generate, .. } => .planMCPTools
  | some { route := .final, .. } => .finalAnswer
  | _ => .planNextAction

def afterPatchGeneration (state : FixAgentState) : Node :=
  if state.patchIsDuplicate then .planNextAction else .applyPatch

def afterMcpPlan (state : FixAgentState) : Node :=
  if truthyText state.mcpPendingApprovalId then .pauseForApproval
  else if state.mcpToolPlan.calls.isEmpty then .generatePatch
  else .callMCPTools

def afterMcpObserve (state : FixAgentState) : Node :=
  if state.mcpRouterRound ≥ state.mcpMaxRounds then .generatePatch
  else if state.mcpCallCount ≥ state.mcpMaxCalls then .generatePatch
  else .planMCPTools

def afterMcpCall (state : FixAgentState) : Node :=
  if truthyText state.mcpPendingExecutionId then .pauseForReconciliation else .observeMCP

def graphEntry (state : FixAgentState) : Node :=
  match state.resumeFrom with
  | some .mcpCall => .callMCPTools
  | some .mcpObserve => .observeMCP
  | none => .inspectRepository

def afterTargetedTests (state : FixAgentState) : Node :=
  match routeAfterTargetedTests state.applied state.targetedTestResult state.iterations state.maxIterations with
  | .regression => .regressionChecks
  | .reflect => .reflect
  | .final => .finalAnswer

def afterRegressionChecks (state : FixAgentState) : Node :=
  match routeAfterRegressionChecks state.regressionTestResult state.iterations state.maxIterations with
  | .reflect => .reflect
  | _ => .finalAnswer

/-- The edges of `build_fix_graph`; `none` is the end. -/
def after : Node → FixAgentState → Option Node
  | .inspectRepository, _ => some .reproduceFailure
  | .reproduceFailure, state =>
    some (if routeAfterReproduction state.baselineTestResult then .initializeAgentLoop else .finalAnswer)
  | .initializeAgentLoop, _ => some .planNextAction
  | .planNextAction, _ => some .executeLocalAction
  | .executeLocalAction, state => some (afterLocalAction state)
  | .planMCPTools, state => some (afterMcpPlan state)
  | .callMCPTools, state => some (afterMcpCall state)
  | .observeMCP, state => some (afterMcpObserve state)
  | .generatePatch, state => some (afterPatchGeneration state)
  | .applyPatch, _ => some .targetedTests
  | .targetedTests, state => some (afterTargetedTests state)
  | .regressionChecks, state => some (afterRegressionChecks state)
  | .reflect, state => some (afterReflect state)
  | .pauseForApproval, _ | .pauseForReconciliation, _ | .finalAnswer, _ => none

/-- `nodes_requiring_applied_patch`. -/
def requiresAppliedPatch : Node → Bool
  | .targetedTests | .regressionChecks | .reflect | .finalAnswer => true
  | _ => false

/-- The patch that `_rehydrate_checkpoint_workspace` replays. -/
def rehydrated (state : FixAgentState) (next : Node) : Option String :=
  if truthyText state.patch ∧ state.applied.flag "ok" ∧ requiresAppliedPatch next then state.patch else none

/-- Whether a checkpoint without a next node needs no more work. -/
def checkpointIsComplete (state : FixAgentState) : Bool :=
  match state.status with
  | none => false
  | some status => status.terminal || status = .waitingApproval || status = .waitingReconciliation

/-- The thread of a run: its values and the next node, `none` at the end. -/
abbrev Thread := FixAgentState × Option Node

/-- An invocation with an input that starts the graph. -/
def enter (old : Option FixAgentState) (input : FixAgentState) : Thread :=
  let values := FixAgentState.merge old input
  (values, some (graphEntry values))

/-- The state that `resume_from_approval` goes on with. -/
def resumedFromApproval (state : FixAgentState) (result : Json) (approved : Bool) : FixAgentState :=
  { state with
    mcpRoundResults := [result]
    mcpRouterRound := state.mcpRouterRound + 1
    mcpCallCount := state.mcpCallCount + if approved then 1 else 0
    mcpPendingApprovalId := none
    mcpToolCatalog := []
    resumeFrom := some .mcpObserve
    status := some .running }

/-- The state that `resume_from_execution` goes on with. -/
def resumedFromExecution (state : FixAgentState) : FixAgentState :=
  { state with resumeFrom := some .mcpCall, status := some .running }

/-- A run: its thread, the states stored with approvals and executions, and
its events, the last one first. -/
structure Repair where
  thread : Option Thread
  saved : List FixAgentState
  log : List Event

namespace Repair

def empty : Repair := ⟨none, [], []⟩

/-- Logs the events and the stored states of a node. -/
def note (w : Repair) (events : List Event) (saved : List FixAgentState) : Repair :=
  { w with saved := w.saved ++ saved, log := events.reverse ++ w.log }

end Repair

/-- A step of a run. A crash comes after some of the node's events and stored states. -/
inductive Step
  | invoke
  | node (node : Node) (reply : node.Reply)
  | crash (node : Node) (reply : node.Reply) (events saved : Nat)
  | resumeApproval (index : Nat) (result : Json) (approved : Bool)
  | resumeExecution (index : Nat)

variable (env : Env) (input : FixAgentState)

/-- `_invoke_fix_graph` with the initial state, up to the nodes. -/
def invoke (w : Repair) : Repair :=
  match w.thread with
  | none => { w with thread := some (enter none input) }
  | some (state, none) =>
    if checkpointIsComplete state then w else { w with thread := some (enter (some state) input) }
  | some (state, some next) => w.note ((rehydrated state next).map Event.restored).toList []

/-- `_invoke_fix_graph` with a state that was stored. -/
def resume (w : Repair) (state : FixAgentState) : Repair :=
  { w with thread := some (enter (w.thread.map (·.1)) state) }

def step (w : Repair) : Step → Option Repair
  | .invoke => some (invoke input w)
  | .node node reply =>
    match w.thread with
    | some (state, some next) =>
      if next = node then
        let out := node.run env state reply
        some { w.note out.events out.saved with thread := some (out.state, after node out.state) }
      else none
    | _ => none
  | .crash node reply events saved =>
    match w.thread with
    | some (state, some next) =>
      if next = node then
        let out := node.run env state reply
        some (w.note (out.events.take events) (out.saved.take saved))
      else none
    | _ => none
  | .resumeApproval index result approved =>
    w.saved[index]?.map fun state => resume w (resumedFromApproval state result approved)
  | .resumeExecution index => w.saved[index]?.map fun state => resume w (resumedFromExecution state)

/-- The runs of the repair graph of one agent run. -/
def repair : System Repair Step := .ofStep (· = Repair.empty) (step env input)

/-- What a step does, with its guards. -/
inductive Move (w : Repair) : Step → Repair → Prop
  | invoke : Move w .invoke (invoke input w)
  | node {node : Node} {reply : node.Reply} {state : FixAgentState}
    (ht : w.thread = some (state, some node)) : Move w (.node node reply)
      { w.note (node.run env state reply).events (node.run env state reply).saved with
        thread := some ((node.run env state reply).state, after node (node.run env state reply).state) }
  | crash {node : Node} {reply : node.Reply} {events saved : Nat} {state : FixAgentState}
    (ht : w.thread = some (state, some node)) : Move w (.crash node reply events saved)
      (w.note ((node.run env state reply).events.take events) ((node.run env state reply).saved.take saved))
  | resumeApproval {index : Nat} {result : Json} {approved : Bool} {stored : FixAgentState}
    (hm : stored ∈ w.saved) : Move w (.resumeApproval index result approved)
      (resume w (resumedFromApproval stored result approved))
  | resumeExecution {index : Nat} {stored : FixAgentState} (hm : stored ∈ w.saved) :
    Move w (.resumeExecution index) (resume w (resumedFromExecution stored))

theorem step_move {w w' : Repair} {e : Step} (h : step env input w e = some w') : Move env input w e w' := by
  cases e with
  | invoke =>
    obtain rfl := Option.some.inj h
    exact .invoke
  | node node reply =>
    unfold step at h
    dsimp only at h
    split at h
    · next state next ht =>
      split at h
      · next heq =>
        obtain rfl := heq
        obtain rfl := Option.some.inj h
        exact .node ht
      · cases h
    · cases h
  | crash node reply events saved =>
    unfold step at h
    dsimp only at h
    split at h
    · next state next ht =>
      split at h
      · next heq =>
        obtain rfl := heq
        obtain rfl := Option.some.inj h
        exact .crash ht
      · cases h
    · cases h
  | resumeApproval index result approved =>
    obtain ⟨stored, hm, rfl⟩ := Option.map_eq_some_iff.mp h
    exact .resumeApproval (List.mem_of_getElem? hm)
  | resumeExecution index =>
    obtain ⟨stored, hm, rfl⟩ := Option.map_eq_some_iff.mp h
    exact .resumeExecution (List.mem_of_getElem? hm)

/-! ## A sample run -/

def sampleSettings : Settings where
  maxAgentIterations := 3
  agentMaxLoopSeconds := 600
  agentMaxPlannerCalls := 12
  agentMaxPlannerTokens := 20000
  agentMaxNoProgressSteps := 3
  agentMaxLocalToolCalls := 10
  agentMaxReadLines := 400
  agentMaxEvidenceItems := 20
  agentMaxActionHistory := 40
  allowedTestCommands := ["pytest -q"]
  mcpToolRouterMaxRounds := 2
  mcpToolRouterMaxCallsPerRun := 4
  mcpApprovalEnabled := true

def sampleEnv : Env where
  settings := sampleSettings
  codec := ⟨fun _ => "", fun _ => "", id, fun _ => ""⟩
  check _ _ := none

def testRan (passed : Bool) : Json :=
  .obj [("tests_ran", .bool true), ("passed", .bool passed), ("exit_code", .num (if passed then 0 else 1))]

/-- A run up to the first action of the planner, with a baseline that fails. -/
def reproducedSteps : List Step :=
  [.invoke, .node .inspectRepository ⟨some "pytest -q", some "pytest -q"⟩,
    .node .reproduceFailure (testRan false), .node .initializeAgentLoop (0 : Nat)]

end CodeMate.Agent
