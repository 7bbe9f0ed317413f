import CodeMate.Agent.Graph
import CodeMate.Agent.RunRow

/-!
# Redelivery of `run_fix`

`runFix` on a run, with the checkpointed thread that its invocation finds. A
row that is not terminal is set to `running` and committed before the checkpoint
is looked at, and a checkpoint that waits is returned without a write.

`run_fix_redelivered` says exactly when a run whose graph has stopped is left as
it was; `waiting_lost` is a run that waits for an approval and is left running.
-/

namespace CodeMate.Lifecycle

open Framework Agent

/-- What a job meets: a failure before the checkpoint is read, and how the graph ends. -/
structure Invocation where
  failure : Option String
  graph : Except String FixAgentState

/-- `_invoke_fix_graph`, as a job sees it. -/
def invokeFixGraph (thread : Option Thread) (input : FixAgentState) (i : Invocation) : Except String FixAgentState :=
  match i.failure, thread with
  | some error, _ => .error error
  | none, some (values, none) =>
    if checkpointIsComplete values ∧ input.resumeFrom = none then .ok values else i.graph
  | none, _ => i.graph

/-- `run_fix`; `repository` is whether the run's repository has a path. -/
def runFix (run : AgentRun) (repository : Bool) (thread : Option Thread) (input : FixAgentState)
    (i : Invocation) (now : Nat) : AgentRun :=
  if run.status.terminal then run
  else if !repository then finishInfraError run "Repository workspace is not available." now
  else
    let run := startRun run now
    match invokeFixGraph thread input i with
    | .ok state => endInvocation run state now
    | .error error => finishInfraError run error now

/-- The rows agree apart from `updated_at`. -/
def SameRow (a b : AgentRun) : Prop := { a with updatedAt := 0 } = { b with updatedAt := 0 }

instance (a b : AgentRun) : Decidable (SameRow a b) := inferInstanceAs (Decidable (_ = _))

/-- A checkpoint that needs no more work is what the invocation returns. -/
theorem invokeFixGraph_stopped {values input : FixAgentState} {i : Invocation}
    (hstopped : checkpointIsComplete values = true) (hinput : input.resumeFrom = none) :
    invokeFixGraph (some (values, none)) input i = (i.failure.map Except.error).getD (.ok values) := by
  unfold invokeFixGraph
  cases i.failure with
  | some error => rfl
  | none => exact if_pos ⟨hstopped, hinput⟩

/-- The condition under which a redelivery leaves the row. -/
def LeavesRow (run : AgentRun) (repository : Bool) (values : FixAgentState) (i : Invocation) : Prop :=
  run.status.terminal = true ∨
    (repository = true ∧ i.failure = none ∧ run.status = .running ∧
      (values.status = some .waitingApproval ∨ values.status = some .waitingReconciliation))

theorem SameRow.status {a b : AgentRun} (h : SameRow a b) : a.status = b.status := (AgentRun.mk.inj h).2.2.1

theorem sameRow_startRun {run : AgentRun} {now : Nat} : SameRow run (startRun run now) ↔ run.status = .running := by
  refine ⟨fun h => h.status, fun h => ?_⟩
  unfold SameRow startRun
  rw [← h]

/-- A row that a failure or a final state ended is not one that was still open. -/
theorem not_sameRow_of_terminal {a b : AgentRun} (ha : a.status.terminal = false) (hb : b.status.terminal = true) :
    ¬ SameRow a b := fun h => by rw [h.status, hb] at ha; cases ha

/-- A redelivered `run_fix` leaves the row of a run whose graph has stopped if
and only if the row is terminal, or is `running` over a checkpoint that waits. -/
theorem run_fix_redelivered (run : AgentRun) (repository : Bool) (values input : FixAgentState)
    (i : Invocation) (now : Nat) (hstopped : checkpointIsComplete values = true) (hinput : input.resumeFrom = none) :
    SameRow run (runFix run repository (some (values, none)) input i now) ↔ LeavesRow run repository values i := by
  unfold runFix LeavesRow
  cases hterminal : run.status.terminal with
  | true => exact ⟨fun _ => .inl rfl, fun _ => rfl⟩
  | false =>
    rw [if_neg Bool.false_ne_true]
    cases repository with
    | false =>
      refine ⟨fun h => absurd h (not_sameRow_of_terminal hterminal rfl), fun h => ?_⟩
      rcases h with h | ⟨h, _⟩ <;> cases h
    | true =>
      rw [if_neg (by decide)]
      rw [invokeFixGraph_stopped hstopped hinput]
      cases hfailure : i.failure with
      | some error =>
        refine ⟨fun h => absurd h (not_sameRow_of_terminal hterminal rfl), fun h => ?_⟩
        rcases h with h | ⟨_, h, _⟩ <;> cases h
      | none =>
        dsimp only [Option.map_none, Option.getD_none, endInvocation]
        split
        · next hwaiting =>
          rw [sameRow_startRun]
          refine ⟨fun h => .inr ⟨rfl, rfl, h, hwaiting⟩, fun h => ?_⟩
          rcases h with h | ⟨_, _, h, _⟩
          · cases h
          · exact h
        · next hended =>
          refine ⟨fun h => absurd h (not_sameRow_of_terminal hterminal (persistFinalState_terminal ..)), fun h => ?_⟩
          rcases h with h | ⟨_, _, _, h⟩
          · cases h
          · exact absurd h hended

/-- A run that waits for an approval, as `create_pending` left it. -/
def waitingRun : AgentRun where
  id := "run"
  repoId := "repo"
  status := .waitingApproval
  finalDiff := none
  finalSummary := some "Agent 正在等待 MCP 工具审批。"
  testResult := none
  iterations := 0
  failureReason := none
  finishedAt := none
  updatedAt := 10

/-- Its checkpoint, after `PauseForApproval`. -/
def waitingValues : FixAgentState :=
  { initialState sampleSettings "run" "repo" with
    status := some .waitingApproval
    mcpPendingApprovalId := some "a" }

/-- The redelivered job leaves the waiting run in `running`. -/
theorem waiting_lost :
    checkpointIsComplete waitingValues = true ∧
    (runFix waitingRun true (some (waitingValues, none)) (initialState sampleSettings "run" "repo")
      ⟨none, .ok waitingValues⟩ 20).status = .running ∧
    ¬ SameRow waitingRun (runFix waitingRun true (some (waitingValues, none))
      (initialState sampleSettings "run" "repo") ⟨none, .ok waitingValues⟩ 20) :=
  ⟨rfl, rfl, fun h => by cases h.status⟩

/-- A terminal row is left, and so is one that a lost lease left in `running`. -/
theorem run_fix_redelivered_sample :
    SameRow { waitingRun with status := .running } (runFix { waitingRun with status := .running } true
      (some (waitingValues, none)) (initialState sampleSettings "run" "repo") ⟨none, .ok waitingValues⟩ 20) :=
  (run_fix_redelivered { waitingRun with status := .running } true waitingValues
    (initialState sampleSettings "run" "repo") ⟨none, .ok waitingValues⟩ 20 rfl rfl).mpr
    (.inr ⟨rfl, rfl, rfl, .inl rfl⟩)

end CodeMate.Lifecycle
