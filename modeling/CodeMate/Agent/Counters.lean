import CodeMate.Agent.Course

/-!
# The counters of a run

A node charges its budget in the state it leaves, and the routes test the
budgets at other nodes. `Within` is what the counters say at each node;
`run_within`: every node keeps it, whatever the planner, the tools, the test
runner and the servers answer.
-/

namespace CodeMate.Agent

open Framework Mcp Verification

variable {env : Env}

/-! ## What the counters say -/

/-- The counters of the budgets, and the budgets that the state itself has. -/
structure Charges where
  plannerCalls : Nat
  toolCalls : Nat
  iterations : Nat
  routerRounds : Nat
  mcpCalls : Nat
  maxIterations : Nat
  maxRounds : Nat
  maxCalls : Nat

def FixAgentState.charges (v : FixAgentState) : Charges where
  plannerCalls := v.localPlannerCallCount
  toolCalls := v.localToolCallCount
  iterations := v.iterations
  routerRounds := v.mcpRouterRound
  mcpCalls := v.mcpCallCount
  maxIterations := v.maxIterations
  maxRounds := v.mcpMaxRounds
  maxCalls := v.mcpMaxCalls

/-- The run waits for an approval, or is about to. -/
def asking (state : FixAgentState) : Option Node → Bool
  | some .pauseForApproval => true
  | none => state.status = some .waitingApproval
  | _ => false

/-- The run waits for a reconciliation, or is about to. -/
def reconciling (state : FixAgentState) : Option Node → Bool
  | some .pauseForReconciliation => true
  | none => state.status = some .waitingReconciliation
  | _ => false

/-- The calls of a round are made, or wait for the reconciliation of one of them. -/
def calling (state : FixAgentState) : Option Node → Bool
  | some .callMCPTools => true
  | next => reconciling state next

/-- The run has come to its end, or is about to. -/
def ending (state : FixAgentState) : Option Node → Bool
  | some .finalAnswer => true
  | none => !(asking state none || reconciling state none)
  | _ => false

/-- What the counters of a state say before a node, or where no node comes next. -/
structure Within (s : Settings) (state : FixAgentState) (next : Option Node) : Prop where
  maxIterations : state.charges.maxIterations = s.maxAgentIterations
  maxRounds : state.charges.maxRounds = s.mcpToolRouterMaxRounds
  maxCalls : state.charges.maxCalls = s.mcpToolRouterMaxCallsPerRun
  planner : state.charges.plannerCalls ≤ s.agentMaxPlannerCalls ∨
    state.charges.plannerCalls = s.agentMaxPlannerCalls + 1 ∧ (ending state next = true ∨
      next = some .executeLocalAction ∧ ∃ reason, state.currentAction = some (.finish reason))
  tools : state.charges.toolCalls ≤ s.agentMaxLocalToolCalls
  iterations : 0 < s.maxAgentIterations → state.charges.iterations < s.maxAgentIterations ∨
    state.charges.iterations = s.maxAgentIterations ∧ (ending state next = true ∨ next = some .regressionChecks)
  rounds : state.charges.routerRounds ≤ s.mcpToolRouterMaxRounds
  room : calling state next = true ∨ asking state next = true →
    state.charges.routerRounds < s.mcpToolRouterMaxRounds
  calls : state.charges.mcpCalls ≤ s.mcpToolRouterMaxCallsPerRun
  planned : calling state next = true →
    state.charges.mcpCalls + state.mcpToolPlan.calls.length ≤ s.mcpToolRouterMaxCallsPerRun
  asked : asking state next = true → state.charges.mcpCalls < s.mcpToolRouterMaxCallsPerRun
  approval : truthyText state.mcpPendingApprovalId = true → asking state next = true
  execution : truthyText state.mcpPendingExecutionId = true → reconciling state next = true

/-! ## What the nodes charge -/

variable {state : FixAgentState}

/-- A round is skipped, planned within the calls that are left, or put off for an
approval, with its checkpoint. -/
theorem planMCPTools_cases (env : Env) (state : FixAgentState) (planning : Planning) :
    planMCPTools env state planning = { state := { state with mcpToolPlan := .empty } } ∨
    planning.router = true ∧ state.mcpRouterRound < state.mcpMaxRounds ∧ ∃ catalog plan,
      (plan.calls.length ≤ state.mcpMaxCalls - state.mcpCallCount ∧ planMCPTools env state planning =
        { state := { state with
            mcpToolCatalog := catalog, mcpToolPlan := plan, mcpPendingApprovalId := none } }) ∨
      (state.mcpCallCount < state.mcpMaxCalls ∧ plan.calls = [] ∧ planMCPTools env state planning =
        { state := { state with
            mcpToolCatalog := catalog, mcpToolPlan := plan, mcpPendingApprovalId := some planning.approvalId }
          saved := [{ state with
            mcpToolCatalog := catalog
            mcpToolPlan := .empty
            mcpRoundResults := []
            resumeFrom := some .mcpObserve
            mcpPendingApprovalId := some planning.approvalId }] }) := by
  unfold planMCPTools
  split
  · exact .inl rfl
  next hgo =>
    have hrouter : planning.router = true := by
      by_contra hr
      simp [hr] at hgo
    have hround : state.mcpRouterRound < state.mcpMaxRounds := by
      by_contra hr
      exact hgo (.inr (Nat.le_of_not_lt hr))
    dsimp only
    generalize (if state.mcpToolCatalog.isEmpty then planning.discovered else state.mcpToolCatalog) = catalog
    have hok : PlanOk env.check catalog (state.mcpMaxCalls - state.mcpCallCount) planning.proposed
        (Mcp.plan env.codec env.check catalog planning.proposed (state.mcpMaxCalls - state.mcpCallCount)
          state.mcpObservations) := plan_ok state.mcpObservations
    have hbudget := hok.budget
    clear hok
    generalize Mcp.plan env.codec env.check catalog planning.proposed
      (state.mcpMaxCalls - state.mcpCallCount) state.mcpObservations = plan at hbudget ⊢
    refine .inr ⟨hrouter, hround, catalog, ?_⟩
    split
    · exact ⟨plan, .inl ⟨by omega, rfl⟩⟩
    next requested others happrovals =>
      rw [happrovals, List.length_cons] at hbudget
      split
      · split
        · exact ⟨plan, .inl ⟨by omega, rfl⟩⟩
        · exact ⟨_, .inr ⟨by omega, rfl, rfl⟩⟩
      · exact ⟨_, .inl ⟨by show plan.calls.length ≤ _; omega, rfl⟩⟩

/-- What `call_mcp_tools` stores with the execution of the call at the index. -/
def callCheckpoint (state : FixAgentState) (index : Nat) (results : List Json) : FixAgentState :=
  { state with
    mcpRoundResults := results
    mcpCallCursor := index
    mcpPendingExecutionId := none
    resumeFrom := some .mcpCall }

/-- A round all of whose calls are made. -/
def roundMade (state : FixAgentState) (results : List Json) : FixAgentState :=
  { state with
    mcpRoundResults := results
    mcpRouterRound := state.mcpRouterRound + 1
    mcpCallCount := state.mcpCallCount + state.mcpToolPlan.calls.length
    mcpCallCursor := 0
    mcpPendingExecutionId := none }

/-- A round that waits for the reconciliation of the call at the index. -/
def roundPaused (state : FixAgentState) (index : Nat) (executionId : String) (results : List Json) :
    FixAgentState :=
  { state with
    mcpRoundResults := results
    mcpCallCursor := index
    mcpPendingExecutionId := some executionId
    status := some .waitingReconciliation }

/-- The calls of a round are all made, and charged, or one of them waits for its
reconciliation; each was stored before it was made. -/
theorem callMCPToolsFrom_cases (env : Env) (calling : Calling) (state : FixAgentState) (calls : List Call)
    (index : Nat) (results : List Json) :
    (∀ stored ∈ (callMCPToolsFrom env calling state calls index results).saved,
      ∃ i made, index ≤ i ∧ i < index + calls.length ∧ stored = callCheckpoint state i made) ∧
    ((∃ made, (callMCPToolsFrom env calling state calls index results).state = roundMade state made) ∨
      ∃ i executionId made, (callMCPToolsFrom env calling state calls index results).state =
        roundPaused state i executionId made) := by
  induction calls generalizing index results with
  | nil => exact ⟨fun _ hm => absurd hm List.not_mem_nil, .inl ⟨results, rfl⟩⟩
  | cons call calls ih =>
    have hgo (result : Json) : ∀ stored ∈ callCheckpoint state index results ::
        (callMCPToolsFrom env calling state calls (index + 1) (results ++ [result])).saved,
        ∃ i made, index ≤ i ∧ i < index + (call :: calls).length ∧ stored = callCheckpoint state i made := by
      intro stored hm
      rw [List.length_cons]
      rcases List.mem_cons.mp hm with rfl | hm
      · exact ⟨index, results, Nat.le_refl _, by omega, rfl⟩
      · obtain ⟨i, made, hle, hi, rfl⟩ := (ih (index + 1) (results ++ [result])).1 stored hm
        exact ⟨i, made, by omega, by omega, rfl⟩
    have hpause : ∀ stored ∈ [callCheckpoint state index results],
        ∃ i made, index ≤ i ∧ i < index + (call :: calls).length ∧ stored = callCheckpoint state i made := by
      intro stored hm
      obtain rfl := List.mem_singleton.mp hm
      exact ⟨index, results, Nat.le_refl _, by simp, rfl⟩
    unfold callMCPToolsFrom
    dsimp only
    split
    · exact ⟨hpause, .inr ⟨index, _, results, rfl⟩⟩
    · exact ⟨hpause, .inr ⟨index, _, results, rfl⟩⟩
    · exact ⟨hgo _, (ih _ _).2⟩
    · exact ⟨hgo _, (ih _ _).2⟩

/-- The charges after as many more calls of local tools. -/
def Charges.ran (charges : Charges) (calls : Nat) : Charges :=
  { charges with toolCalls := calls + charges.toolCalls }

/-- Whether an action is dispatched does not depend on what the tool would return. -/
theorem execute_ran (s : Settings) (codec : Codec) (state : FixAgentState) (rawAction : Option Action)
    (now : Nat) (result other : Json) :
    (LocalAgentExecutor.execute s codec state rawAction now result).2 =
      (LocalAgentExecutor.execute s codec state rawAction now other).2 := by
  cases rawAction with
  | none => rfl
  | some action =>
    cases action
    case finish | generatePatch => rfl
    all_goals
      dsimp only [LocalAgentExecutor.execute]
      split
      · rfl
      · split <;> rfl

/-- What `execute` counts is what it dispatched, below the budgets. -/
theorem execute_cases (s : Settings) (codec : Codec) (state : FixAgentState) (rawAction : Option Action)
    (now : Nat) (result : Json) :
    (LocalAgentExecutor.execute s codec state rawAction now result).1.charges = state.charges.ran
        (LocalAgentExecutor.execute s codec state rawAction now result).2.toList.length ∧
      ∀ action ∈ (LocalAgentExecutor.execute s codec state rawAction now result).2,
        state.charges.toolCalls < s.agentMaxLocalToolCalls ∧
        LocalAgentExecutor.toolRejection s codec state action = none := by
  have hnone : (∀ action ∈ (none : Option Action), state.charges.toolCalls < s.agentMaxLocalToolCalls ∧
      LocalAgentExecutor.toolRejection s codec state action = none) := fun _ h => by cases h
  have hsame : state.charges = state.charges.ran (none : Option Action).toList.length := by
    simp [Charges.ran]
  unfold LocalAgentExecutor.execute
  split
  · exact ⟨hsame, hnone⟩
  · exact ⟨hsame, hnone⟩
  · exact ⟨hsame, hnone⟩
  split
  · exact ⟨hsame, hnone⟩
  next hbudget =>
    split
    · exact ⟨hsame, hnone⟩
    next hrejection =>
      refine ⟨?_, fun action ha => ?_⟩
      · simp [LocalAgentExecutor.observe, FixAgentState.charges, Charges.ran, Nat.add_comm]
      · obtain rfl := Option.some.inj ha
        refine ⟨?_, hrejection⟩
        unfold LocalAgentExecutor.toolBudgetViolation at hbudget
        split at hbudget
        · cases hbudget
        split at hbudget
        · cases hbudget
        next hcalls => exact Nat.lt_of_not_le hcalls

theorem execute_pending (s : Settings) (codec : Codec) (state : FixAgentState) (rawAction : Option Action)
    (now : Nat) (result : Json) :
    (LocalAgentExecutor.execute s codec state rawAction now result).1.mcpPendingApprovalId =
        state.mcpPendingApprovalId ∧
      (LocalAgentExecutor.execute s codec state rawAction now result).1.mcpPendingExecutionId =
        state.mcpPendingExecutionId := by
  unfold LocalAgentExecutor.execute
  split
  · exact ⟨rfl, rfl⟩
  · exact ⟨rfl, rfl⟩
  · exact ⟨rfl, rfl⟩
  split
  · exact ⟨rfl, rfl⟩
  split <;> exact ⟨rfl, rfl⟩

/-- The nodes that charge a budget. -/
def Node.charges : Node → Bool
  | planNextAction | executeLocalAction | callMCPTools | targetedTests => true
  | _ => false

theorem run_charges (env : Env) (state : FixAgentState) {node : Node} (h : node.charges = false)
    (reply : node.Reply) : (node.run env state reply).state.charges = state.charges := by
  cases node <;> try cases h
  case planMCPTools =>
    show (planMCPTools env state reply).state.charges = _
    rcases planMCPTools_cases env state reply with h | ⟨_, _, _, _, ⟨_, h⟩ | ⟨_, _, h⟩⟩ <;> rw [h] <;> rfl
  all_goals rfl

/-! ## Every node keeps the counters in bounds -/

/-- The nodes before which the counters are bound to nothing but their budgets. -/
def Node.free : Node → Bool
  | executeLocalAction | callMCPTools | pauseForApproval | pauseForReconciliation => false
  | _ => true

variable {s : Settings} {node next : Node} {state' : FixAgentState}

/-- Before a node that is free, no call is planned, asked for or waited for. -/
theorem free_idle (h : next.free = true) (state : FixAgentState) :
    asking state (some next) = false ∧ reconciling state (some next) = false ∧
      calling state (some next) = false := by
  cases next <;> first | (cases h; done) | exact ⟨rfl, rfl, rfl⟩

theorem Within.idle (h : Within s state (some node)) (hfree : node.free = true) :
    truthyText state.mcpPendingApprovalId = false ∧ truthyText state.mcpPendingExecutionId = false := by
  obtain ⟨ha, hr, _⟩ := free_idle hfree state
  constructor
  · by_contra hp
    have := h.approval (by simpa using hp)
    rw [ha] at this
    cases this
  · by_contra hp
    have := h.execution (by simpa using hp)
    rw [hr] at this
    cases this

/-- A planner that has used up its calls finishes. -/
theorem Within.planner_le (h : Within s state (some node)) (hfinal : node ≠ .finalAnswer)
    (hexec : node = .executeLocalAction → ∀ reason, state.currentAction ≠ some (.finish reason)) :
    state.charges.plannerCalls ≤ s.agentMaxPlannerCalls := by
  rcases h.planner with hp | ⟨_, hp | ⟨hn, reason, hr⟩⟩
  · exact hp
  · cases node <;> first | (cases hp; done) | exact absurd rfl hfinal
  · exact absurd hr (hexec (Option.some.inj hn) reason)

theorem Within.iterations_lt (h : Within s state (some node)) (hfinal : node ≠ .finalAnswer)
    (hregression : node ≠ .regressionChecks) (hpos : 0 < s.maxAgentIterations) :
    state.charges.iterations < s.maxAgentIterations := by
  rcases h.iterations hpos with hi | ⟨_, hi | hi⟩
  · exact hi
  · cases node <;> first | (cases hi; done) | exact absurd rfl hfinal
  · exact absurd (Option.some.inj hi) hregression

/-- A free node comes next, with the counters as they were. -/
theorem Within.go {next' : Option Node} (h : Within s state next') (hcharges : state'.charges = state.charges)
    (hfree : next.free = true)
    (hplanner : state.charges.plannerCalls ≤ s.agentMaxPlannerCalls ∨
      state.charges.plannerCalls = s.agentMaxPlannerCalls + 1 ∧ next = .finalAnswer)
    (hiterations : 0 < s.maxAgentIterations → state.charges.iterations < s.maxAgentIterations ∨
      state.charges.iterations = s.maxAgentIterations ∧ (next = .finalAnswer ∨ next = .regressionChecks))
    (happroval : truthyText state'.mcpPendingApprovalId = false)
    (hexecution : truthyText state'.mcpPendingExecutionId = false) : Within s state' (some next) := by
  obtain ⟨ha, hr, hc⟩ := free_idle hfree state'
  refine ⟨hcharges ▸ h.maxIterations, hcharges ▸ h.maxRounds, hcharges ▸ h.maxCalls, ?_, hcharges ▸ h.tools, ?_,
    hcharges ▸ h.rounds, ?_, hcharges ▸ h.calls, ?_, ?_, ?_, ?_⟩
  · rw [hcharges]
    rcases hplanner with hp | ⟨hp, rfl⟩
    · exact .inl hp
    · exact .inr ⟨hp, .inl rfl⟩
  · rw [hcharges]
    intro hpos
    rcases hiterations hpos with hi | ⟨hi, rfl | rfl⟩
    · exact .inl hi
    · exact .inr ⟨hi, .inl rfl⟩
    · exact .inr ⟨hi, .inr rfl⟩
  · rw [hc, ha]
    rintro (h | h) <;> cases h
  · rw [hc]
    intro h
    cases h
  · rw [ha]
    intro h
    cases h
  · rw [happroval]
    intro h
    cases h
  · rw [hexecution]
    intro h
    cases h

theorem retryOrFinish_cases (iterations maxIterations : Nat) :
    retryOrFinish iterations maxIterations = .reflect ∧ iterations < maxIterations ∨
      retryOrFinish iterations maxIterations = .final := by
  unfold retryOrFinish
  split
  · exact .inr rfl
  · exact .inl ⟨rfl, by omega⟩

/-- A patch is thought over only while there are iterations left. -/
theorem afterTargetedTests_le (state : FixAgentState) :
    afterTargetedTests state = .regressionChecks ∨ afterTargetedTests state = .finalAnswer ∨
      afterTargetedTests state = .reflect ∧ state.iterations < state.maxIterations := by
  have hretry := retryOrFinish_cases state.iterations state.maxIterations
  unfold afterTargetedTests routeAfterTargetedTests
  split
  · exact .inl rfl
  · next hroute =>
    refine .inr (.inr ⟨rfl, ?_⟩)
    split at hroute
    · rcases hretry with h | h
      · exact h.2
      · rw [h] at hroute; cases hroute
    · split at hroute
      case h_5 =>
        rcases hretry with h | h
        · exact h.2
        · rw [h] at hroute; cases hroute
      all_goals cases hroute
  · exact .inr (.inl rfl)

theorem afterRegressionChecks_le (state : FixAgentState) :
    afterRegressionChecks state = .finalAnswer ∨
      afterRegressionChecks state = .reflect ∧ state.iterations < state.maxIterations := by
  have hretry := retryOrFinish_cases state.iterations state.maxIterations
  unfold afterRegressionChecks routeAfterRegressionChecks
  split
  · next hroute =>
    refine .inr ⟨rfl, ?_⟩
    split at hroute
    case h_5 =>
      rcases hretry with h | h
      · exact h.2
      · rw [h] at hroute; cases hroute
    all_goals cases hroute
  · exact .inl rfl

theorem Within.ran {next' : Option Node} (h : Within s state next') {calls : Nat}
    (hle : calls + state.charges.toolCalls ≤ s.agentMaxLocalToolCalls) :
    Within s { state with localToolCallCount := calls + state.localToolCallCount } next' :=
  { h with tools := hle }

/-- A node that charges nothing and goes on with a free node. -/
theorem Within.quiet (h : Within s state (some node)) (hfree : node.free = true) (hfinal : node ≠ .finalAnswer)
    (hregression : node ≠ .regressionChecks) (hcharges : state'.charges = state.charges) (hnext : next.free = true)
    (happroval : truthyText state'.mcpPendingApprovalId = false)
    (hexecution : truthyText state'.mcpPendingExecutionId = false) : Within s state' (some next) := by
  refine h.go hcharges hnext (.inl (h.planner_le hfinal fun hn => ?_))
    (fun hpos => .inl (h.iterations_lt hfinal hregression hpos)) happroval hexecution
  rw [hn] at hfree
  cases hfree

/-- A planner without calls left gives up. -/
theorem planNextAction_finishes (planned : Planned)
    (h : env.settings.agentMaxPlannerCalls ≤ state.localPlannerCallCount) :
    ∃ reason, (planNextAction env state planned).currentAction = some (.finish reason) := by
  have hviolation : (LocalAgentExecutor.plannerBudgetViolation env.settings state planned.now).isSome = true := by
    unfold LocalAgentExecutor.plannerBudgetViolation
    split
    · rfl
    · simp
  obtain ⟨reason, hreason⟩ := Option.isSome_iff_exists.mp hviolation
  unfold planNextAction
  rw [hreason]
  dsimp only
  split
  · exact ⟨_, rfl⟩
  · exact ⟨_, rfl⟩

theorem planNextAction_within (h : Within env.settings state (some .planNextAction)) (planned : Planned) :
    Within env.settings (planNextAction env state planned) (some .executeLocalAction) := by
  have hle := h.planner_le (by decide) (fun hn => by cases hn)
  obtain ⟨happroval, hexecution⟩ := h.idle rfl
  refine ⟨h.maxIterations, h.maxRounds, h.maxCalls, ?_, h.tools,
    fun hpos => .inl (h.iterations_lt (by decide) (by decide) hpos), h.rounds, ?_, h.calls, ?_, ?_,
    fun hp => absurd (happroval.symm.trans hp) Bool.false_ne_true,
    fun hp => absurd (hexecution.symm.trans hp) Bool.false_ne_true⟩
  · show state.localPlannerCallCount + 1 ≤ _ ∨ state.localPlannerCallCount + 1 = _ ∧ _
    by_cases hlt : state.localPlannerCallCount < env.settings.agentMaxPlannerCalls
    · exact .inl hlt
    · have hle' : state.localPlannerCallCount ≤ env.settings.agentMaxPlannerCalls := hle
      refine .inr ⟨by omega, .inr ⟨rfl, planNextAction_finishes planned ?_⟩⟩
      omega
  · rintro (hc | hc) <;> cases hc
  · intro hc
    cases hc
  · intro hc
    cases hc

theorem executeLocalAction_run (env : Env) (state : FixAgentState) (observed : Observed) :
    ∃ result, (Node.executeLocalAction.run env state observed).state =
      (LocalAgentExecutor.execute env.settings env.codec state state.currentAction observed.now result).1 :=
  ⟨_, rfl⟩

/-- The local executor counts what it dispatches, which is below the budgets. -/
theorem executeLocalAction_charges (env : Env) (state : FixAgentState) (observed : Observed) :
    (Node.executeLocalAction.run env state observed).state.charges =
        state.charges.ran (dispatches env state .executeLocalAction observed).length ∧
      ∀ action ∈ dispatches env state .executeLocalAction observed,
        state.charges.toolCalls < env.settings.agentMaxLocalToolCalls ∧
        LocalAgentExecutor.toolRejection env.settings env.codec state action = none := by
  obtain ⟨result, hrun⟩ := executeLocalAction_run env state observed
  obtain ⟨hcharges, hran⟩ := execute_cases env.settings env.codec state state.currentAction observed.now result
  rw [execute_ran _ _ _ _ _ _ observed.result] at hcharges hran
  rw [hrun]
  exact ⟨hcharges, fun action ha => hran action (Option.mem_toList.mp ha)⟩

/-- A finish is carried out without a tool, and is the end. -/
theorem executeLocalAction_final {observed : Observed} {reason : String}
    (h : state.currentAction = some (.finish reason)) :
    afterLocalAction (Node.executeLocalAction.run env state observed).state = .finalAnswer := by
  dsimp only [Node.run]
  rw [h]
  rfl

theorem executeLocalAction_within (h : Within env.settings state (some .executeLocalAction)) (observed : Observed) :
    Within env.settings (Node.executeLocalAction.run env state observed).state
      (some (afterLocalAction (Node.executeLocalAction.run env state observed).state)) := by
  obtain ⟨hcharges, hran⟩ := executeLocalAction_charges env state observed
  have happroval : truthyText state.mcpPendingApprovalId = false := by
    by_contra hp
    exact absurd (h.approval (by simpa using hp)) Bool.false_ne_true
  have hexecution : truthyText state.mcpPendingExecutionId = false := by
    by_contra hp
    exact absurd (h.execution (by simpa using hp)) Bool.false_ne_true
  obtain ⟨result, hrun⟩ := executeLocalAction_run env state observed
  obtain ⟨hkeeps₁, hkeeps₂⟩ := execute_pending env.settings env.codec state state.currentAction observed.now result
  rw [← hrun] at hkeeps₁ hkeeps₂
  have htools : (dispatches env state .executeLocalAction observed).length + state.charges.toolCalls ≤
      env.settings.agentMaxLocalToolCalls := by
    have htools := h.tools
    have hlen : (dispatches env state .executeLocalAction observed).length ≤ 1 := Option.length_toList_le
    cases hd : dispatches env state .executeLocalAction observed with
    | nil => simpa using htools
    | cons action actions =>
      have hlt := (hran action (hd ▸ List.mem_cons_self)).1
      rw [hd] at hlen
      omega
  refine (h.ran htools).go hcharges ?_ ?_ (fun hpos => .inl (h.iterations_lt (by decide) (by decide) hpos))
    (hkeeps₁ ▸ happroval) (hkeeps₂ ▸ hexecution)
  · unfold afterLocalAction
    split <;> rfl
  · by_cases hfinish : ∃ reason, state.currentAction = some (.finish reason)
    · obtain ⟨reason, hreason⟩ := hfinish
      rcases h.planner with hp | ⟨hp, _⟩
      · exact .inl hp
      · exact .inr ⟨hp, executeLocalAction_final hreason⟩
    · exact .inl (h.planner_le (by decide) fun _ reason hreason => hfinish ⟨reason, hreason⟩)

/-- A round of calls that fits into the budgets, or one that is put off, comes next. -/
theorem Within.round (h : Within s state (some .planMCPTools)) (hcharges : state'.charges = state.charges)
    (hnext : next = .callMCPTools ∨ next = .pauseForApproval)
    (hroom : state.charges.routerRounds < s.mcpToolRouterMaxRounds)
    (hplanned : state.charges.mcpCalls + state'.mcpToolPlan.calls.length ≤ s.mcpToolRouterMaxCallsPerRun)
    (hasked : next = .pauseForApproval → state.charges.mcpCalls < s.mcpToolRouterMaxCallsPerRun)
    (happroval : truthyText state'.mcpPendingApprovalId = true → next = .pauseForApproval)
    (hexecution : state'.mcpPendingExecutionId = state.mcpPendingExecutionId) : Within s state' (some next) := by
  have hplanner := h.planner_le (by decide) (fun hn => by cases hn)
  refine ⟨hcharges ▸ h.maxIterations, hcharges ▸ h.maxRounds, hcharges ▸ h.maxCalls, hcharges ▸ .inl hplanner,
    hcharges ▸ h.tools, fun hpos => hcharges ▸ .inl (h.iterations_lt (by decide) (by decide) hpos),
    hcharges ▸ h.rounds, fun _ => hcharges ▸ hroom, hcharges ▸ h.calls, fun _ => hcharges ▸ hplanned, fun ha => ?_,
    fun hp => ?_, fun hp => ?_⟩
  · rw [hcharges]
    refine hasked ?_
    rcases hnext with rfl | rfl
    · cases ha
    · rfl
  · rw [happroval hp]
    rfl
  · rw [hexecution, (h.idle rfl).2] at hp
    cases hp

theorem planMCPTools_within (h : Within env.settings state (some .planMCPTools)) (planning : Planning) :
    Within env.settings (planMCPTools env state planning).state
      (some (afterMcpPlan (planMCPTools env state planning).state)) := by
  obtain ⟨happroval, hexecution⟩ := h.idle rfl
  have hcalls := h.calls
  have hmax : state.mcpMaxCalls = env.settings.mcpToolRouterMaxCallsPerRun := h.maxCalls
  have hcount : state.charges.mcpCalls = state.mcpCallCount := rfl
  have hgenerate {state' : FixAgentState} (hcharges : state'.charges = state.charges)
      (ha : truthyText state'.mcpPendingApprovalId = false)
      (he : state'.mcpPendingExecutionId = state.mcpPendingExecutionId) :
      Within env.settings state' (some .generatePatch) :=
    h.quiet rfl (by decide) (by decide) hcharges rfl ha (he ▸ hexecution)
  rcases planMCPTools_cases env state planning with
    heq | ⟨_, hround, catalog, plan, ⟨hlen, heq⟩ | ⟨hroom, hnil, heq⟩⟩ <;> rw [heq]
  · have hnext : afterMcpPlan { state with mcpToolPlan := .empty } = .generatePatch := by
      show (if truthyText state.mcpPendingApprovalId then Node.pauseForApproval else .generatePatch) = _
      rw [happroval]
      rfl
    rw [hnext]
    exact hgenerate rfl happroval rfl
  · show Within _ _ (some (if plan.calls.isEmpty then .generatePatch else .callMCPTools))
    split
    · exact hgenerate rfl rfl rfl
    · refine h.round rfl (.inl rfl) (h.maxRounds ▸ hround) ?_ (fun hn => by cases hn) (fun hp => by cases hp) rfl
      show _ + plan.calls.length ≤ _
      omega
  · unfold afterMcpPlan
    dsimp only
    split
    · refine h.round rfl (.inr rfl) (h.maxRounds ▸ hround) ?_ (fun _ => by omega) (fun _ => rfl) rfl
      simpa [hnil] using hcalls
    · next hid =>
      rw [hnil]
      exact hgenerate rfl (by simpa using hid) rfl

/-- A job without a router drops the round. -/
theorem Within.dropped (h : Within s state (some .callMCPTools)) :
    afterMcpCall { state with mcpRoundResults := [] } = .observeMCP := by
  have hexecution : truthyText state.mcpPendingExecutionId = false := by
    by_contra hp
    exact absurd (h.execution (by simpa using hp)) Bool.false_ne_true
  show (if truthyText state.mcpPendingExecutionId then Node.pauseForReconciliation else .observeMCP) = _
  rw [hexecution]
  rfl

theorem truthy_of_ne {text : String} (h : text ≠ "") : truthyText (some text) = true := by
  simp [truthyText, nonempty, h]

/-- A round that waits for a reconciliation pauses. -/
theorem afterMcpCall_paused {index : Nat} {executionId : String} {made : List Json}
    (hid : (roundPaused state index executionId made).mcpPendingExecutionId ≠ some "") :
    afterMcpCall (roundPaused state index executionId made) = .pauseForReconciliation :=
  if_pos (truthy_of_ne fun he => hid (congrArg some he))

theorem callMCPTools_within (h : Within env.settings state (some .callMCPTools)) (calling : Calling)
    (hid : (callMCPTools env state calling).state.mcpPendingExecutionId ≠ some "") :
    Within env.settings (callMCPTools env state calling).state
      (some (afterMcpCall (callMCPTools env state calling).state)) := by
  have happroval : truthyText state.mcpPendingApprovalId = false := by
    by_contra hp
    exact absurd (h.approval (by simpa using hp)) Bool.false_ne_true
  have hexecution : truthyText state.mcpPendingExecutionId = false := by
    by_contra hp
    exact absurd (h.execution (by simpa using hp)) Bool.false_ne_true
  have hplanner := h.planner_le (by decide) (fun hn => by cases hn)
  have hiterations := h.iterations_lt (by decide) (by decide)
  unfold callMCPTools at hid ⊢
  split
  · next hrouter =>
    rw [if_pos hrouter] at hid
    rcases (callMCPToolsFrom_cases env calling state (state.mcpToolPlan.calls.drop state.mcpCallCursor)
      state.mcpCallCursor state.mcpRoundResults).2 with ⟨made, heq⟩ | ⟨index, executionId, made, heq⟩ <;> rw [heq] at hid ⊢
    · exact ⟨h.maxIterations, h.maxRounds, h.maxCalls, .inl hplanner, h.tools, fun hpos => .inl (hiterations hpos),
        h.room (.inl rfl), (by rintro (hc | hc) <;> cases hc), h.planned rfl, (fun hc => by cases hc),
        (fun hc => by cases hc), fun hp => absurd (happroval.symm.trans hp) Bool.false_ne_true,
        (fun hp => by cases hp)⟩
    · rw [afterMcpCall_paused hid]
      exact ⟨h.maxIterations, h.maxRounds, h.maxCalls, .inl hplanner, h.tools, fun hpos => .inl (hiterations hpos),
        h.rounds, fun _ => h.room (.inl rfl), h.calls, fun _ => h.planned rfl, (fun hc => by cases hc),
        fun hp => absurd (happroval.symm.trans hp) Bool.false_ne_true, fun _ => rfl⟩
  · rw [h.dropped]
    exact h.go rfl rfl (.inl hplanner) (fun hpos => .inl (hiterations hpos)) happroval hexecution

theorem targetedTests_within (h : Within env.settings state (some .targetedTests)) (result : Json) :
    Within env.settings (targetedTests state result).state
      (some (afterTargetedTests (targetedTests state result).state)) := by
  obtain ⟨happroval, hexecution⟩ := h.idle rfl
  have hplanner := h.planner_le (by decide) (fun hn => by cases hn)
  have hmax : state.maxIterations = env.settings.maxAgentIterations := h.maxIterations
  have hgo {next : Node} (hfree : next.free = true) (hiterations : 0 < env.settings.maxAgentIterations →
      state.iterations + 1 < env.settings.maxAgentIterations ∨ state.iterations + 1 = env.settings.maxAgentIterations ∧
        (ending state (some next) = true ∨ some next = some .regressionChecks)) :
      Within env.settings (targetedTests state result).state (some next) := by
    obtain ⟨ha, hr, hc⟩ := free_idle hfree (targetedTests state result).state
    have hending : ending (targetedTests state result).state (some next) = ending state (some next) := rfl
    refine ⟨h.maxIterations, h.maxRounds, h.maxCalls, .inl hplanner, h.tools, hending ▸ hiterations, h.rounds, ?_,
      h.calls, ?_, ?_, fun hp => absurd (happroval.symm.trans hp) Bool.false_ne_true,
      fun hp => absurd (hexecution.symm.trans hp) Bool.false_ne_true⟩
    · rw [hc, ha]
      rintro (h | h) <;> cases h
    · rw [hc]
      intro h
      cases h
    · rw [ha]
      intro h
      cases h
  have hlt := h.iterations_lt (by decide) (by decide)
  have hle (hpos : 0 < env.settings.maxAgentIterations) : state.iterations + 1 ≤ env.settings.maxAgentIterations :=
    hlt hpos
  have hcount : (targetedTests state result).state.iterations = state.iterations + 1 := rfl
  rcases afterTargetedTests_le (targetedTests state result).state with hn | hn | ⟨hn, hreflect⟩ <;> rw [hn]
  · refine hgo rfl fun hpos => ?_
    rcases Nat.lt_or_eq_of_le (hle hpos) with hi | hi
    · exact .inl hi
    · exact .inr ⟨hi, .inr rfl⟩
  · refine hgo rfl fun hpos => ?_
    rcases Nat.lt_or_eq_of_le (hle hpos) with hi | hi
    · exact .inl hi
    · exact .inr ⟨hi, .inl rfl⟩
  · refine hgo rfl fun hpos => .inl ?_
    rw [← hcount, ← hmax]
    exact hreflect

theorem regressionChecks_within (h : Within env.settings state (some .regressionChecks)) (result : Json) :
    Within env.settings (Node.regressionChecks.run env state result).state
      (some (afterRegressionChecks (Node.regressionChecks.run env state result).state)) := by
  obtain ⟨happroval, hexecution⟩ := h.idle rfl
  have hplanner := h.planner_le (by decide) (fun hn => by cases hn)
  have hmax : state.maxIterations = env.settings.maxAgentIterations := h.maxIterations
  rcases afterRegressionChecks_le (Node.regressionChecks.run env state result).state with hn | ⟨hn, hlt⟩ <;> rw [hn]
  · refine h.go rfl rfl (.inl hplanner) (fun hpos => ?_) happroval hexecution
    rcases h.iterations hpos with hi | ⟨hi, _⟩
    · exact .inl hi
    · exact .inr ⟨hi, .inl rfl⟩
  · exact h.go rfl rfl (.inl hplanner) (fun _ => .inl (hmax ▸ hlt)) happroval hexecution

/-- Where a job ends, the counters are as they were. -/
theorem Within.stop (h : Within s state (some node)) (hnode : after node state' = none)
    (hcharges : state'.charges = state.charges) (hplan : state'.mcpToolPlan = state.mcpToolPlan)
    (hasking : asking state' none = asking state (some node))
    (hreconciling : reconciling state' none = reconciling state (some node))
    (happroval : state'.mcpPendingApprovalId = state.mcpPendingApprovalId)
    (hexecution : state'.mcpPendingExecutionId = state.mcpPendingExecutionId) : Within s state' none := by
  have hending : ending state' none = ending state (some node) := by
    show (!(asking state' none || reconciling state' none)) = _
    rw [hasking, hreconciling]
    cases node <;> first | (cases hnode; done) | rfl
  have hcalling : calling state' none = true → calling state (some node) = true := by
    show reconciling state' none = true → _
    rw [hreconciling]
    cases node <;> first | (cases hnode; done) | exact id
  refine ⟨hcharges ▸ h.maxIterations, hcharges ▸ h.maxRounds, hcharges ▸ h.maxCalls, ?_, hcharges ▸ h.tools,
    fun hpos => ?_, hcharges ▸ h.rounds, ?_, hcharges ▸ h.calls, fun hc => ?_, fun hc => ?_, fun hp => ?_,
    fun hp => ?_⟩
  · rw [hcharges, hending]
    rcases h.planner with hp | ⟨hp, he | ⟨hn, _⟩⟩
    · exact .inl hp
    · exact .inr ⟨hp, .inl he⟩
    · obtain rfl := Option.some.inj hn
      cases hnode
  · rw [hcharges, hending]
    rcases h.iterations hpos with hi | ⟨hi, he | hn⟩
    · exact .inl hi
    · exact .inr ⟨hi, .inl he⟩
    · obtain rfl := Option.some.inj hn
      cases hnode
  · rw [hcharges, hasking]
    rintro (hc | hc)
    · exact h.room (.inl (hcalling hc))
    · exact h.room (.inr hc)
  · rw [hcharges, hplan]
    exact h.planned (hcalling hc)
  · rw [hcharges]
    exact h.asked (hasking ▸ hc)
  · rw [hasking]
    exact h.approval (happroval ▸ hp)
  · rw [hreconciling]
    exact h.execution (hexecution ▸ hp)

/-- The final answer waits for nothing. -/
theorem finalAnswer_over (state : FixAgentState) (diff : String) :
    asking (finalAnswer state diff) none = false ∧ reconciling (finalAnswer state diff) none = false := by
  obtain ⟨status, hstatus, hterminal⟩ : ∃ status, (finalAnswer state diff).status = some status ∧
    status.terminal = true := ⟨_, rfl, determineStatus_terminal ..⟩
  constructor <;>
  · refine decide_eq_false fun hs => ?_
    obtain rfl := Option.some.inj (hstatus.symm.trans hs)
    cases hterminal

/-- What holds of the counters before a node, holds before the next one. -/
theorem run_within {router : Bool} (h : Within env.settings state (some node)) (reply : node.Reply)
    (ha : answers env router state node reply = true) :
    Within env.settings (node.run env state reply).state (after node (node.run env state reply).state) := by
  cases node
  case planNextAction => exact planNextAction_within h reply
  case executeLocalAction => exact executeLocalAction_within h reply
  case planMCPTools => exact planMCPTools_within h reply
  case callMCPTools =>
    have hid := (Bool.and_eq_true_iff.mp ha).2
    exact callMCPTools_within h reply (by simpa using hid)
  case targetedTests => exact targetedTests_within h reply
  case regressionChecks => exact regressionChecks_within h reply
  case pauseForApproval => exact h.stop rfl rfl rfl rfl rfl rfl rfl
  case pauseForReconciliation => exact h.stop rfl rfl rfl rfl rfl rfl rfl
  case finalAnswer =>
    obtain ⟨hasking, hreconciling⟩ := finalAnswer_over state reply
    exact h.stop rfl rfl rfl hasking hreconciling rfl rfl
  all_goals
    obtain ⟨happroval, hexecution⟩ := h.idle rfl
  case observeMCP =>
    refine h.quiet rfl (by decide) (by decide) rfl ?_ rfl rfl
    show (afterMcpObserve _).free = true
    unfold afterMcpObserve
    split
    · rfl
    · split <;> rfl
  case reproduceFailure =>
    refine h.quiet rfl (by decide) (by decide) rfl ?_ happroval hexecution
    split <;> rfl
  case generatePatch =>
    refine h.quiet rfl (by decide) (by decide) rfl ?_ happroval hexecution
    show (afterPatchGeneration _).free = true
    unfold afterPatchGeneration
    split <;> rfl
  case reflect =>
    refine h.quiet rfl (by decide) (by decide) rfl ?_ happroval hexecution
    show (afterReflect _).free = true
    unfold afterReflect
    split <;> rfl
  all_goals exact h.quiet rfl (by decide) (by decide) rfl rfl happroval hexecution

/-! ## Resumes -/

/-- A run that waits has planner calls and iterations left as at any free node. -/
theorem Within.waiting {next : Option Node} (h : Within s state next)
    (hwaiting : asking state next = true ∨ reconciling state next = true) :
    state.charges.plannerCalls ≤ s.agentMaxPlannerCalls ∧
      (0 < s.maxAgentIterations → state.charges.iterations < s.maxAgentIterations) := by
  have hending : ending state next = false := by
    cases next with
    | none =>
      show (!(asking state none || reconciling state none)) = false
      rcases hwaiting with hw | hw <;> simp [hw]
    | some node => cases node <;> first | rfl | (rcases hwaiting with hw | hw <;> cases hw)
  have hother {node : Node} (hn : next = some node) : node ≠ .executeLocalAction ∧ node ≠ .regressionChecks := by
    subst hn
    constructor <;> rintro rfl <;> rcases hwaiting with hw | hw <;> cases hw
  constructor
  · rcases h.planner with hp | ⟨_, he | ⟨hn, _⟩⟩
    · exact hp
    · rw [hending] at he
      cases he
    · exact absurd rfl (hother hn).1
  · intro hpos
    rcases h.iterations hpos with hi | ⟨_, he | hn⟩
    · exact hi
    · rw [hending] at he
      cases he
    · exact absurd rfl (hother hn).2

theorem asking_not_calling {next : Option Node} (h : asking state next = true) :
    calling state next = false ∧ reconciling state next = false := by
  cases next with
  | none =>
    have hstatus : state.status = some .waitingApproval := of_decide_eq_true h
    have hne : reconciling state none = false := by
      show decide (state.status = _) = false
      rw [hstatus]
      rfl
    exact ⟨hne, hne⟩
  | some node => cases node <;> first | (cases h; done) | exact ⟨rfl, rfl⟩

theorem calling_of_reconciling {next : Option Node} (h : reconciling state next = true) :
    calling state next = true := by
  cases next with
  | none => exact h
  | some node => cases node <;> first | (cases h; done) | rfl

/-- The state with which an approval is resumed. -/
theorem resumedFromApproval_charges (old : Option FixAgentState) (stored : FixAgentState) (result : Json)
    (approved : Bool) :
    (FixAgentState.merge old (resumedFromApproval stored result approved)).charges =
      { stored.charges with
        routerRounds := stored.charges.routerRounds + 1
        mcpCalls := stored.charges.mcpCalls + if approved then 1 else 0 } := by
  cases old <;> rfl

/-- A resume from the approval for which the run waits. -/
theorem Within.resumeApproval {next : Option Node} {stored : FixAgentState} (h : Within s state next)
    (hasking : asking state next = true) (hcharges : stored.charges = state.charges)
    (hexecution : stored.mcpPendingExecutionId = state.mcpPendingExecutionId) (old : Option FixAgentState)
    (result : Json) (approved : Bool) :
    Within s (FixAgentState.merge old (resumedFromApproval stored result approved)) (some .observeMCP) := by
  have hall := resumedFromApproval_charges old stored result approved
  rw [hcharges] at hall
  obtain ⟨hplanner, hiterations⟩ := h.waiting (.inl hasking)
  obtain ⟨_, hreconciling⟩ := asking_not_calling hasking
  have hask := h.asked hasking
  have hcalls : state.charges.mcpCalls + (if approved then 1 else 0) ≤ s.mcpToolRouterMaxCallsPerRun := by
    split <;> omega
  refine ⟨hall ▸ h.maxIterations, hall ▸ h.maxRounds, hall ▸ h.maxCalls, hall ▸ .inl hplanner, hall ▸ h.tools,
    fun hpos => hall ▸ .inl (hiterations hpos), hall ▸ h.room (.inr hasking), ?_, hall ▸ hcalls,
    (fun hc => by cases hc), (fun hc => by cases hc), fun hp => ?_, fun hp => ?_⟩
  · rintro (hc | hc) <;> cases hc
  · have hnone : (FixAgentState.merge old (resumedFromApproval stored result approved)).mcpPendingApprovalId = none := by
      cases old <;> rfl
    rw [hnone] at hp
    cases hp
  · have hsame : (FixAgentState.merge old (resumedFromApproval stored result approved)).mcpPendingExecutionId =
        state.mcpPendingExecutionId := by
      rw [← hexecution]
      cases old <;> rfl
    rw [hsame] at hp
    rw [h.execution hp] at hreconciling
    cases hreconciling

/-- A resume from an execution of the round that waits. -/
theorem Within.resumeExecution {next : Option Node} {stored : FixAgentState} (h : Within s state next)
    (hreconciling : reconciling state next = true) (hcharges : stored.charges = state.charges)
    (hplan : stored.mcpToolPlan = state.mcpToolPlan)
    (happroval : stored.mcpPendingApprovalId = state.mcpPendingApprovalId)
    (hexecution : stored.mcpPendingExecutionId = none) (old : Option FixAgentState) :
    Within s (FixAgentState.merge old (resumedFromExecution stored)) (some .callMCPTools) := by
  have hall : (FixAgentState.merge old (resumedFromExecution stored)).charges = state.charges := by
    rw [← hcharges]
    cases old <;> rfl
  have hcalls : (FixAgentState.merge old (resumedFromExecution stored)).mcpToolPlan = state.mcpToolPlan := by
    rw [← hplan]
    cases old <;> rfl
  obtain ⟨hplanner, hiterations⟩ := h.waiting (.inr hreconciling)
  have hcalling := calling_of_reconciling hreconciling
  refine ⟨hall ▸ h.maxIterations, hall ▸ h.maxRounds, hall ▸ h.maxCalls, hall ▸ .inl hplanner, hall ▸ h.tools,
    fun hpos => hall ▸ .inl (hiterations hpos), hall ▸ h.rounds, fun _ => hall ▸ h.room (.inl hcalling),
    hall ▸ h.calls, fun _ => ?_, (fun hc => by cases hc), fun hp => ?_, fun hp => ?_⟩
  · rw [hall, hcalls]
    exact h.planned hcalling
  · have hsame : (FixAgentState.merge old (resumedFromExecution stored)).mcpPendingApprovalId =
        state.mcpPendingApprovalId := by
      rw [← happroval]
      cases old <;> rfl
    rw [hsame] at hp
    rw [(asking_not_calling (h.approval hp)).2] at hreconciling
    cases hreconciling
  · have hnone : (FixAgentState.merge old (resumedFromExecution stored)).mcpPendingExecutionId = none := by
      rw [← hexecution]
      cases old <;> rfl
    rw [hnone] at hp
    cases hp

end CodeMate.Agent
