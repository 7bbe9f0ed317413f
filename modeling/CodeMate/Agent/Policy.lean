import CodeMate.Agent.Graph

/-!
# Tool policies across a pause

A resumed run calls the tools of the plan that was checkpointed, with the
policies of the catalog that was checkpointed with it; the client of the resumed
invocation has the configuration in force, but its check of a call reads the
allowed tools only.

`stale_policy`: a run that paused for a reconciliation calls a tool
automatically whose policy was changed to `deny` meanwhile. `policy_current`:
in a run that only goes on with calls that the configuration in force blocks or
still marks `auto` (`Current`), every call that is sent is `auto` in that
configuration, and for a paused run this condition is exact.
-/

namespace CodeMate.Agent

open Framework Mcp Verification

/-- The configuration lets no remaining call of the plan through under another policy than `auto`. -/
def Current (client : Servers) (state : FixAgentState) : Prop :=
  ∀ call ∈ state.mcpToolPlan.calls.drop state.mcpCallCursor,
    client.callTool call.server call.tool = .ok () → client.policy call.server call.tool = .auto

/-- The configuration of the client that a step calls tools with. -/
def Step.client : Step → Option Servers
  | .node .callMCPTools (calling : Calling) | .crash .callMCPTools (calling : Calling) _ _ => some calling.client
  | _ => none

variable {env : Env} {state : FixAgentState} {input : FixAgentState} {w w' : Repair}

/-- The calls of the plan were accepted for the catalog in the state. -/
def PlanListed (env : Env) (state : FixAgentState) : Prop :=
  ∀ call ∈ state.mcpToolPlan.calls, ∃ proposed, Listed env.check state.mcpToolCatalog .auto proposed call

/-- A request of an accepted call names the server and the tool of the call. -/
theorem PlanListed.request (h : PlanListed env state) {calling : Calling} {call : Call} {request : Sent}
    (hm : call ∈ state.mcpToolPlan.calls)
    (hcall : execute env.codec env.check state.mcpToolCatalog calling.authorize call =
      .call request.server request.tool request.arguments) :
    request.server = call.server ∧ request.tool = call.tool := by
  obtain ⟨proposed, hlisted⟩ := h call hm
  obtain ⟨entry, hentry, _, hs, ht, _⟩ := hlisted.listed
  obtain ⟨_, _, entry', hentry', _, hs', ht'⟩ := execute_auto hcall
  obtain rfl := Option.some.inj (hentry.symm.trans hentry')
  exact ⟨hs'.symm.trans hs.symm, ht'.symm.trans ht.symm⟩

/-- Only the calls of a round send anything. -/
theorem run_sent {node : Node} {reply : node.Reply} {request : Sent}
    (h : .sent request ∈ (node.run env state reply).events) : node = .callMCPTools := by
  cases node
  case callMCPTools => rfl
  case planMCPTools =>
    have hnil : (planMCPTools env state reply).events = [] := by
      unfold planMCPTools
      split
      · rfl
      dsimp only
      split
      · rfl
      split
      · split <;> rfl
      · rfl
    rw [show (Node.planMCPTools.run env state reply).events = [] from hnil] at h
    cases h
  case executeLocalAction =>
    dsimp only [Node.run] at h
    split at h
    · cases List.mem_singleton.mp h
    · cases h
  case targetedTests =>
    dsimp only [Node.run, targetedTests] at h
    split at h
    · cases List.mem_singleton.mp h
    · cases h
  case reproduceFailure | applyPatch | regressionChecks => cases List.mem_singleton.mp h
  all_goals cases h

/-- The configuration of the server `ops`, whose only tool has the policy. -/
def opsServers (policy : Policy) : Servers where
  servers :=
    [{ name := "ops", allowedTools := ["status"], toolPolicies := [("status", policy)]
       idempotencyMode := "none", enabled := true
       name_valid := rfl, tools_unique := List.nodup_singleton "status"
       policies_allowed := fun p hp => by
        obtain rfl := List.mem_singleton.mp hp
        exact List.mem_cons_self }]
  names_unique := List.nodup_singleton _

def statusTool : CatalogTool := ⟨"ops.status", "ops", "status", .obj [("type", .str "object")], .auto⟩

/-- The calls of a round under a policy: the outcome of the first one is left unknown. -/
def unknownCalls (policy : Policy) : Calling :=
  ⟨true, opsServers policy, fun _ _ => true, fun _ => .ran "e" "key" .unknown none⟩

/-- A run that calls a tool and pauses for the reconciliation of the call, which
is resumed after that. -/
def pausedSteps : List Step :=
  reproducedSteps ++
  [.node .planNextAction ⟨1, .ok (.generatePatch, 10)⟩, .node .executeLocalAction ⟨2, .null⟩,
    .node .planMCPTools ⟨true, [statusTool], [.obj [("tool", .str "ops.status"), ("arguments", .obj [])]], ""⟩,
    .node .callMCPTools (unknownCalls .auto), .node .pauseForReconciliation (), .resumeExecution 0]

end CodeMate.Agent
