import Mathlib.Data.Finset.Card
import CodeMate.Agent.Counters
import CodeMate.Agent.Policy

/-!
# The budgets of a run

What a run has spent, against its budgets: the dispatched tools, the patch
iterations, the rounds of the tool router and the MCP executions, of which there
is one for each idempotency key (`executions`) and one for each approved call.

A resume goes on with the counters of a stored state, and nothing ties it to the
pause in which the run waits. `budgets_exceeded`: a pause that is resumed a second
time takes the counters back. `budgets_kept`: where each resume continues the
pause in which the run waits (`continues`), and no round is planned that already
has executions (`fresh`), every budget holds in every state.
-/

namespace CodeMate.Agent

open Framework Mcp Verification

/-! ## Executions -/

/-- The state was stored with the execution of a call. -/
def FixAgentState.forCall (v : FixAgentState) : Bool := v.resumeFrom = some .mcpCall

/-- What the idempotency key of the call of a stored state is made of. -/
def FixAgentState.executionKey (v : FixAgentState) : Nat × Nat × Option Call :=
  (v.mcpRouterRound, v.mcpCallCursor, v.mcpToolPlan.calls[v.mcpCallCursor]?)

/-- The executions that the rounds of a run prepared, one for each idempotency key. -/
def executions (saved : List FixAgentState) : Finset (Nat × Nat × Option Call) :=
  ((saved.filter (·.forCall)).map (·.executionKey)).toFinset

/-- The executions of the rounds before a round. -/
def executionsBefore (round : Nat) (saved : List FixAgentState) : Finset (Nat × Nat × Option Call) :=
  (executions saved).filter (·.1 < round)

variable {saved more : List FixAgentState} {state state' stored : FixAgentState} {round : Nat}

theorem mem_executions {key : Nat × Nat × Option Call} :
    key ∈ executions saved ↔ ∃ stored ∈ saved, stored.forCall = true ∧ stored.executionKey = key := by
  simp [executions, and_assoc]

/-- States that were stored with approvals have no execution of their own. -/
theorem executions_append (h : ∀ stored ∈ more, stored.forCall = false) :
    executions (saved ++ more) = executions saved := by
  have hnil : more.filter (·.forCall) = [] := by
    rw [List.filter_eq_nil_iff]
    intro stored hm
    rw [h stored hm]
    exact Bool.false_ne_true
  unfold executions
  rw [List.filter_append, hnil, List.append_nil]

/-- The executions before a round are all of them where no later one has any. -/
theorem executionsBefore_eq (h : ∀ stored ∈ saved, stored.forCall = true → stored.mcpRouterRound < round) :
    executionsBefore round saved = executions saved := by
  refine Finset.filter_true_of_mem fun key hk => ?_
  obtain ⟨stored, hm, hc, rfl⟩ := mem_executions.mp hk
  exact h stored hm hc

/-- A round has at most an execution for each of its calls. -/
theorem card_executions_le (calls : List Call) (h : ∀ stored ∈ saved, stored.forCall = true →
      stored.mcpRouterRound ≤ round ∧ (stored.mcpRouterRound = round →
        stored.mcpToolPlan.calls = calls ∧ stored.mcpCallCursor < calls.length)) :
    (executions saved).card ≤ (executionsBefore round saved).card + calls.length := by
  have hlast : (executions saved).filter (¬ ·.1 < round) ⊆
      (Finset.range calls.length).image fun i => (round, i, calls[i]?) := by
    intro key hk
    obtain ⟨hk, hround⟩ := Finset.mem_filter.mp hk
    obtain ⟨stored, hm, hc, rfl⟩ := mem_executions.mp hk
    obtain ⟨hle, hsame⟩ := h stored hm hc
    have heq : stored.mcpRouterRound = round := Nat.le_antisymm hle (Nat.le_of_not_lt hround)
    obtain ⟨hcalls, hcursor⟩ := hsame heq
    refine Finset.mem_image.mpr ⟨stored.mcpCallCursor, Finset.mem_range.mpr hcursor, ?_⟩
    rw [← heq, ← hcalls]
    rfl
  have hcard := (Finset.card_le_card hlast).trans Finset.card_image_le
  rw [Finset.card_range] at hcard
  have hsplit := Finset.card_filter_add_card_filter_not (s := executions saved) (·.1 < round)
  unfold executionsBefore
  omega

/-! ## The conditions -/

/-- A resume continues the pause in which the run waits, from a state stored with it. -/
def continues (w : Course) : Step → Bool
  | .resumeApproval index _ _ =>
    match w.repair.thread with
    | some (state, next) => asking state next && index + 1 == w.repair.saved.length
    | none => false
  | .resumeExecution index =>
    match w.repair.thread, w.repair.saved[index]? with
    | some (state, next), some stored => reconciling state next && stored.forCall &&
      stored.mcpRouterRound == state.mcpRouterRound && stored.mcpCallCursor == state.mcpCallCursor
    | _, _ => false
  | _ => true

/-- No execution belongs to the round that the state is in. -/
def unstarted (saved : List FixAgentState) (state : FixAgentState) : Bool :=
  saved.all fun stored => !stored.forCall || stored.mcpRouterRound != state.mcpRouterRound

/-- A round that is planned has no executions yet. -/
def fresh (w : Course) : Step → Bool
  | .node .planMCPTools (planning : Planning) =>
    !planning.router || (w.repair.thread.map (·.1)).all (unstarted w.repair.saved)
  | _ => true

/-- The condition under which the budgets are kept. -/
def proper (w : Course) (e : Step × Bool) : Bool := continues w e.1 && fresh w e.1

/-- The limits that have to be positive at startup. -/
abbrev Settings.valid (s : Settings) : Prop :=
  1 ≤ s.maxAgentIterations ∧ 1 ≤ s.agentMaxLocalToolCalls ∧ 1 ≤ s.agentMaxPlannerCalls ∧
  1 ≤ s.agentMaxPlannerTokens ∧ 1 ≤ s.agentMaxLoopSeconds ∧ 1 ≤ s.agentMaxNoProgressSteps ∧
  1 ≤ s.agentMaxReadLines ∧ 1 ≤ s.agentMaxEvidenceItems ∧ 1 ≤ s.agentMaxActionHistory

/-- The lines that a dispatch of the action reads. -/
def linesRead (s : Settings) : Action → Nat
  | .readFile _ startLine endLine _ => endLine.getD (startLine + s.agentMaxReadLines - 1) - startLine + 1
  | _ => 0

/-- A request that was sent is the one that the router makes of the call of an execution. -/
def SentByExecution (env : Env) (w : Repair) : Prop :=
  ∀ request, .sent request ∈ w.log → ∃ key ∈ executions w.saved, ∃ call ∈ key.2.2, ∃ catalog authorize,
    execute env.codec env.check catalog authorize call = .call request.server request.tool request.arguments

/-- Every budget of the run holds. -/
structure Budgets (env : Env) (w : Course) : Prop where
  counted : ∀ state next, w.repair.thread = some (state, next) → w.dispatched.length = state.localToolCallCount
  tools : w.dispatched.length ≤ env.settings.agentMaxLocalToolCalls
  iterations : ∀ state next, w.repair.thread = some (state, next) →
    state.iterations ≤ env.settings.maxAgentIterations
  rounds : ∀ state next, w.repair.thread = some (state, next) →
    state.mcpRouterRound ≤ env.settings.mcpToolRouterMaxRounds
  calls : (executions w.repair.saved).card + w.approved ≤ env.settings.mcpToolRouterMaxCallsPerRun
  sent : SentByExecution env w.repair
  lines : ∀ action ∈ w.dispatched, linesRead env.settings action ≤ env.settings.agentMaxReadLines

/-! ## What a run keeps -/

/-- A state that was stored with an execution of the round in which the run is. -/
structure Alike (stored state : FixAgentState) : Prop where
  charges : stored.charges = state.charges
  plan : stored.mcpToolPlan = state.mcpToolPlan
  approval : stored.mcpPendingApprovalId = state.mcpPendingApprovalId
  execution : stored.mcpPendingExecutionId = none
  cursor : stored.mcpCallCursor < state.mcpToolPlan.calls.length

/-- What is stored and spent, before a node or where no node comes next. -/
structure Held (s : Settings) (w : Course) (state : FixAgentState) (next : Option Node) : Prop where
  within : Within s state next
  complete : next = none → checkpointIsComplete state = true
  counted : w.dispatched.length = state.charges.toolCalls
  lines : ∀ action ∈ w.dispatched, linesRead s action ≤ s.agentMaxReadLines
  rounds : ∀ stored ∈ w.repair.saved, stored.forCall = true →
    stored.charges.routerRounds ≤ state.charges.routerRounds
  alike : calling state next = true → ∀ stored ∈ w.repair.saved, stored.forCall = true →
    stored.charges.routerRounds = state.charges.routerRounds → Alike stored state
  asked : asking state next = true → unstarted w.repair.saved state = true ∧
    ∀ stored, w.repair.saved.getLast? = some stored →
      stored.charges = state.charges ∧ stored.mcpPendingExecutionId = state.mcpPendingExecutionId
  spent : (executionsBefore state.charges.routerRounds w.repair.saved).card + w.approved ≤ state.charges.mcpCalls
  total : (executions w.repair.saved).card + w.approved ≤ s.mcpToolRouterMaxCallsPerRun

theorem unstarted_iff : unstarted saved state = true ↔ ∀ stored ∈ saved, stored.forCall = true →
    stored.charges.routerRounds ≠ state.charges.routerRounds := by
  simp [unstarted, List.all_eq_true, FixAgentState.charges, imp_iff_not_or]

/-- The nodes that lead to a round of calls or end a job in one. -/
def Node.inRound : Node → Bool
  | planMCPTools | callMCPTools | pauseForApproval | pauseForReconciliation => true
  | _ => false

variable {env : Env} {s : Settings} {w w' : Course} {node : Node} {next : Option Node}

/-- No other node leads to the calls of a round or to a pause. -/
theorem after_idle (env : Env) (state : FixAgentState) (h : node.inRound = false) (reply : node.Reply) :
    asking (node.run env state reply).state (after node (node.run env state reply).state) = false ∧
      calling (node.run env state reply).state (after node (node.run env state reply).state) = false := by
  cases node <;> try cases h
  case finalAnswer => exact finalAnswer_over state reply
  case reproduceFailure =>
    dsimp only [after]
    split <;> exact ⟨rfl, rfl⟩
  case executeLocalAction =>
    dsimp only [after, afterLocalAction]
    split <;> exact ⟨rfl, rfl⟩
  case observeMCP =>
    dsimp only [after, afterMcpObserve]
    split
    · exact ⟨rfl, rfl⟩
    · split <;> exact ⟨rfl, rfl⟩
  case generatePatch =>
    dsimp only [after, afterPatchGeneration]
    split <;> exact ⟨rfl, rfl⟩
  case targetedTests =>
    dsimp only [after, afterTargetedTests]
    split <;> exact ⟨rfl, rfl⟩
  case regressionChecks =>
    dsimp only [after, afterRegressionChecks]
    split <;> exact ⟨rfl, rfl⟩
  case reflect =>
    dsimp only [after, afterReflect]
    split <;> exact ⟨rfl, rfl⟩
  all_goals exact ⟨rfl, rfl⟩

/-- Outside the rounds a node stores nothing and charges no round. -/
theorem run_outside (env : Env) (state : FixAgentState) (h : node.inRound = false) (reply : node.Reply) :
    (node.run env state reply).saved = [] ∧
      (node.run env state reply).state.charges.routerRounds = state.charges.routerRounds ∧
      (node.run env state reply).state.charges.mcpCalls = state.charges.mcpCalls ∧
      (node.run env state reply).state.charges.toolCalls =
        (dispatches env state node reply).length + state.charges.toolCalls := by
  cases node <;> try cases h
  case executeLocalAction =>
    obtain ⟨hcharges, _⟩ := executeLocalAction_charges env state reply
    rw [hcharges]
    exact ⟨rfl, rfl, rfl, rfl⟩
  all_goals exact ⟨rfl, rfl, rfl, (Nat.zero_add _).symm⟩

/-- Where a run ends, its checkpoint is complete. -/
theorem run_complete (env : Env) (state : FixAgentState) (reply : node.Reply)
    (h : after node (node.run env state reply).state = none) :
    checkpointIsComplete (node.run env state reply).state = true := by
  cases node <;> try cases h
  case finalAnswer =>
    obtain ⟨status, hstatus, hterminal⟩ : ∃ status, (finalAnswer state reply).status = some status ∧
      status.terminal = true := ⟨_, rfl, determineStatus_terminal ..⟩
    show checkpointIsComplete (finalAnswer state reply) = true
    unfold checkpointIsComplete
    rw [hstatus]
    simp [hterminal]
  all_goals rfl

/-- An action that is not rejected reads no more lines than allowed. -/
theorem linesRead_le {codec : Codec} {action : Action}
    (h : LocalAgentExecutor.toolRejection s codec state action = none) : linesRead s action ≤ s.agentMaxReadLines := by
  cases action
  case readFile path startLine endLine range =>
    unfold LocalAgentExecutor.toolRejection at h
    split at h
    · cases h
    dsimp only at h
    split at h
    · cases h
    next hlines => exact Nat.le_of_not_lt hlines
  all_goals exact Nat.zero_le _

theorem dispatches_lines {reply : node.Reply} {action : Action} (h : action ∈ dispatches env state node reply) :
    linesRead env.settings action ≤ env.settings.agentMaxReadLines := by
  cases node <;> try cases h
  case executeLocalAction => exact linesRead_le ((executeLocalAction_charges env state reply).2 action h).2

/-- A node outside the rounds keeps what is stored and spent. -/
theorem held_outside (h : Held env.settings w state (some node)) (hnode : node.inRound = false) (reply : node.Reply)
    (hwithin : Within env.settings (node.run env state reply).state (after node (node.run env state reply).state))
    (hsaved : w'.repair.saved = w.repair.saved ++ (node.run env state reply).saved)
    (hdispatched : w'.dispatched = dispatches env state node reply ++ w.dispatched)
    (happroved : w'.approved = w.approved) :
    Held env.settings w' (node.run env state reply).state (after node (node.run env state reply).state) := by
  obtain ⟨hnil, hrounds, hcalls, htools⟩ := run_outside env state hnode reply
  obtain ⟨hasking, hcalling⟩ := after_idle env state hnode reply
  rw [hnil, List.append_nil] at hsaved
  refine ⟨hwithin, run_complete env state reply, ?_, fun action ha => ?_, ?_, ?_, ?_, ?_, ?_⟩
  · rw [hdispatched, List.length_append, htools, h.counted]
  · rw [hdispatched] at ha
    rcases List.mem_append.mp ha with ha | ha
    · exact dispatches_lines ha
    · exact h.lines action ha
  · rw [hsaved, hrounds]
    exact h.rounds
  · rw [hcalling]
    intro hc
    cases hc
  · rw [hasking]
    intro hc
    cases hc
  · rw [hsaved, hrounds, hcalls, happroved]
    exact h.spent
  · rw [hsaved, happroved]
    exact h.total

/-- The counters stay, and nothing is stored with an execution. -/
theorem held_same {next' : Option Node} (h : Held s w state next) (hwithin : Within s state' next')
    (hcomplete : next' = none → checkpointIsComplete state' = true) (hsaved : w'.repair.saved = w.repair.saved ++ more)
    (hmore : ∀ stored ∈ more, stored.forCall = false) (hdispatched : w'.dispatched = w.dispatched)
    (happroved : w'.approved = w.approved) (hcharges : state'.charges = state.charges)
    (halike : calling state' next' = true → ∀ stored ∈ w.repair.saved, stored.forCall = true →
      stored.charges.routerRounds = state.charges.routerRounds → Alike stored state')
    (hasked : asking state' next' = true → unstarted w.repair.saved state = true ∧
      ∀ stored, w'.repair.saved.getLast? = some stored →
        stored.charges = state'.charges ∧ stored.mcpPendingExecutionId = state'.mcpPendingExecutionId) :
    Held s w' state' next' := by
  have hold {stored : FixAgentState} (hm : stored ∈ w'.repair.saved) (hc : stored.forCall = true) :
      stored ∈ w.repair.saved := by
    rw [hsaved] at hm
    rcases List.mem_append.mp hm with hm | hm
    · exact hm
    · rw [hmore stored hm] at hc
      cases hc
  have hexecutions : executions w'.repair.saved = executions w.repair.saved := by
    rw [hsaved, executions_append hmore]
  refine ⟨hwithin, hcomplete, ?_, hdispatched ▸ h.lines, ?_, ?_, ?_, ?_, ?_⟩
  · rw [hdispatched, hcharges]
    exact h.counted
  · rw [hcharges]
    exact fun stored hm hc => h.rounds stored (hold hm hc) hc
  · rw [hcharges]
    exact fun hcalling stored hm hc => halike hcalling stored (hold hm hc) hc
  · refine fun hasking => ⟨unstarted_iff.mpr fun stored hm hc => ?_, (hasked hasking).2⟩
    rw [hcharges]
    exact unstarted_iff.mp (hasked hasking).1 stored (hold hm hc) hc
  · rw [hcharges, happroved]
    unfold executionsBefore
    rw [hexecutions]
    exact h.spent
  · rw [hexecutions, happroved]
    exact h.total

/-- Planning a round that has no executions yet. -/
theorem held_plan (h : Held env.settings w state (some .planMCPTools)) (planning : Planning)
    (hfresh : planning.router = true → unstarted w.repair.saved state = true)
    (hwithin : Within env.settings (planMCPTools env state planning).state
      (some (afterMcpPlan (planMCPTools env state planning).state)))
    (hsaved : w'.repair.saved = w.repair.saved ++ (planMCPTools env state planning).saved)
    (hdispatched : w'.dispatched = w.dispatched) (happroved : w'.approved = w.approved) :
    Held env.settings w' (planMCPTools env state planning).state
      (some (afterMcpPlan (planMCPTools env state planning).state)) := by
  have hnone (hstart : unstarted w.repair.saved state = true) {P : FixAgentState → Prop} :
      ∀ stored ∈ w.repair.saved, stored.forCall = true →
        stored.charges.routerRounds = state.charges.routerRounds → P stored :=
    fun stored hm hc heq => absurd heq (unstarted_iff.mp hstart stored hm hc)
  obtain ⟨happroval, _⟩ := h.within.idle rfl
  rcases planMCPTools_cases env state planning with
    heq | ⟨hrouter, _, catalog, plan, ⟨_, heq⟩ | ⟨_, _, heq⟩⟩ <;> rw [heq] at hsaved hwithin ⊢
  · have hnext : afterMcpPlan { state with mcpToolPlan := .empty } = .generatePatch := by
      show (if truthyText state.mcpPendingApprovalId then Node.pauseForApproval else .generatePatch) = _
      rw [happroval]
      rfl
    rw [hnext] at hwithin ⊢
    exact held_same h hwithin (fun hn => by cases hn) hsaved (fun _ hm => by cases hm) hdispatched happroved rfl
      (fun hc => by cases hc) (fun hc => by cases hc)
  · refine held_same h hwithin (fun hn => by cases hn) hsaved (fun _ hm => by cases hm) hdispatched happroved rfl
      (fun _ => hnone (hfresh hrouter)) fun hasking => ?_
    have hnext : afterMcpPlan { state with
        mcpToolCatalog := catalog, mcpToolPlan := plan, mcpPendingApprovalId := none } =
        if plan.calls.isEmpty then .generatePatch else .callMCPTools := rfl
    rw [hnext] at hasking
    split at hasking <;> cases hasking
  · refine held_same h hwithin (fun hn => by cases hn) hsaved (fun stored hm => ?_) hdispatched happroved rfl
      (fun _ => hnone (hfresh hrouter)) fun _ => ⟨hfresh hrouter, fun stored hlast => ?_⟩
    · obtain rfl := List.mem_singleton.mp hm
      rfl
    · rw [hsaved, List.getLast?_append] at hlast
      obtain rfl := Option.some.inj hlast
      exact ⟨rfl, rfl⟩

/-- What was stored for a round that is made or waits stays alike it. -/
theorem Alike.of_eq (h : Alike stored state) (hcharges : state'.charges = state.charges)
    (hplan : state'.mcpToolPlan = state.mcpToolPlan)
    (happroval : state'.mcpPendingApprovalId = state.mcpPendingApprovalId) : Alike stored state' :=
  ⟨h.charges.trans hcharges.symm, h.plan.trans hplan.symm, h.approval.trans happroval.symm, h.execution,
    hplan ▸ h.cursor⟩

/-- A round that is made has an execution at most for each of its calls. -/
theorem Held.card_le (h : Held s w state next) (hcalling : calling state next = true) :
    (executions w.repair.saved).card ≤ (executionsBefore state.charges.routerRounds w.repair.saved).card +
      state.mcpToolPlan.calls.length := by
  refine card_executions_le _ fun stored hm hc => ⟨h.rounds stored hm hc, fun heq => ?_⟩
  have halike := h.alike hcalling stored hm hc heq
  exact ⟨congrArg Plan.calls halike.plan, halike.cursor⟩

/-- The calls of a round are stored before they are made. -/
theorem held_checkpoints (h : Held s w state (some .callMCPTools))
    (hsaved : w'.repair.saved = w.repair.saved ++ more)
    (hmore : ∀ stored ∈ more, ∃ i made, i < state.mcpToolPlan.calls.length ∧ stored = callCheckpoint state i made)
    (hdispatched : w'.dispatched = w.dispatched) (happroved : w'.approved = w.approved) :
    Held s w' state (some .callMCPTools) := by
  have hrounds : ∀ stored ∈ w'.repair.saved, stored.forCall = true →
      stored.charges.routerRounds ≤ state.charges.routerRounds := by
    intro stored hm hc
    rw [hsaved] at hm
    rcases List.mem_append.mp hm with hm | hm
    · exact h.rounds stored hm hc
    · obtain ⟨i, made, _, rfl⟩ := hmore stored hm
      exact Nat.le_refl _
  have halike : ∀ stored ∈ w'.repair.saved, stored.forCall = true →
      stored.charges.routerRounds = state.charges.routerRounds → Alike stored state := by
    intro stored hm hc heq
    rw [hsaved] at hm
    rcases List.mem_append.mp hm with hm | hm
    · exact h.alike rfl stored hm hc heq
    · obtain ⟨i, made, hi, rfl⟩ := hmore stored hm
      exact ⟨rfl, rfl, rfl, rfl, hi⟩
  have hbefore : executionsBefore state.charges.routerRounds w'.repair.saved =
      executionsBefore state.charges.routerRounds w.repair.saved := by
    refine Finset.ext fun key => ?_
    simp only [executionsBefore, Finset.mem_filter, mem_executions]
    refine and_congr_left fun hlt => ⟨?_, ?_⟩
    · rintro ⟨stored, hm, hc, rfl⟩
      rw [hsaved] at hm
      rcases List.mem_append.mp hm with hm | hm
      · exact ⟨stored, hm, hc, rfl⟩
      · obtain ⟨i, made, _, rfl⟩ := hmore stored hm
        exact absurd hlt (Nat.lt_irrefl _)
    · rintro ⟨stored, hm, hc, rfl⟩
      exact ⟨stored, hsaved ▸ List.mem_append_left _ hm, hc, rfl⟩
  have hspent : (executionsBefore state.charges.routerRounds w'.repair.saved).card + w'.approved ≤
      state.charges.mcpCalls := by
    rw [hbefore, happroved]
    exact h.spent
  refine ⟨h.within, (fun hn => by cases hn), hdispatched ▸ h.counted, hdispatched ▸ h.lines, hrounds,
    fun _ => halike, (fun hc => by cases hc), hspent, ?_⟩
  have hcard : (executions w'.repair.saved).card ≤
      (executionsBefore state.charges.routerRounds w'.repair.saved).card + state.mcpToolPlan.calls.length :=
    card_executions_le state.mcpToolPlan.calls fun stored hm hc => ⟨hrounds stored hm hc, fun heq =>
      ⟨congrArg Plan.calls (halike stored hm hc heq).plan, (halike stored hm hc heq).cursor⟩⟩
  have hplanned := h.within.planned rfl
  omega

/-- A round that is made is charged for all its calls. -/
theorem held_made (h : Held s w state (some .callMCPTools)) (made : List Json)
    (hwithin : Within s (roundMade state made) (some .observeMCP)) :
    Held s w (roundMade state made) (some .observeMCP) := by
  have hlater : ∀ stored ∈ w.repair.saved, stored.forCall = true →
      stored.mcpRouterRound < state.charges.routerRounds + 1 :=
    fun stored hm hc => Nat.lt_succ_of_le (h.rounds stored hm hc)
  refine ⟨hwithin, (fun hn => by cases hn), h.counted, h.lines, fun stored hm hc => (hlater stored hm hc).le,
    (fun hc => by cases hc), (fun hc => by cases hc), ?_, h.total⟩
  have hcard := h.card_le rfl
  have hspent := h.spent
  show (executionsBefore (state.charges.routerRounds + 1) w.repair.saved).card + w.approved ≤
    state.charges.mcpCalls + state.mcpToolPlan.calls.length
  rw [executionsBefore_eq hlater]
  omega

theorem held_call (h : Held env.settings w state (some .callMCPTools)) (calling : Calling)
    (hid : (callMCPTools env state calling).state.mcpPendingExecutionId ≠ some "")
    (hsaved : w'.repair.saved = w.repair.saved ++ (callMCPTools env state calling).saved)
    (hdispatched : w'.dispatched = w.dispatched) (happroved : w'.approved = w.approved) :
    Held env.settings w' (callMCPTools env state calling).state
      (some (afterMcpCall (callMCPTools env state calling).state)) := by
  have hwithin := callMCPTools_within h.within calling hid
  unfold callMCPTools at hid hsaved hwithin ⊢
  split
  · next hrouter =>
    rw [if_pos hrouter] at hid hsaved hwithin
    obtain ⟨hstored, hstate⟩ := callMCPToolsFrom_cases env calling state
      (state.mcpToolPlan.calls.drop state.mcpCallCursor) state.mcpCallCursor state.mcpRoundResults
    have hcheckpoints : Held env.settings w' state (some .callMCPTools) := by
      refine held_checkpoints h hsaved (fun stored hm => ?_) hdispatched happroved
      obtain ⟨i, made, hle, hi, rfl⟩ := hstored stored hm
      rw [List.length_drop] at hi
      exact ⟨i, made, by omega, rfl⟩
    rcases hstate with ⟨made, heq⟩ | ⟨index, executionId, made, heq⟩ <;> rw [heq] at hid hwithin ⊢
    · exact held_made hcheckpoints made hwithin
    · rw [afterMcpCall_paused hid] at hwithin ⊢
      exact held_same hcheckpoints hwithin (fun hn => by cases hn) (List.append_nil _).symm
        (fun _ hm => by cases hm) rfl rfl rfl
        (fun _ stored hm hc heq => (hcheckpoints.alike rfl stored hm hc heq).of_eq rfl rfl rfl) (fun hc => by cases hc)
  · next hrouter =>
    rw [if_neg hrouter] at hsaved hwithin
    rw [h.within.dropped] at hwithin ⊢
    exact held_same h hwithin (fun hn => by cases hn) hsaved (fun _ hm => by cases hm) hdispatched happroved rfl
      (fun hc => by cases hc) (fun hc => by cases hc)

/-- A pause ends the job with what it held. -/
theorem held_pause (h : Held env.settings w state (some node)) (hnode : node.pauses = true) (reply : node.Reply)
    (hwithin : Within env.settings (node.run env state reply).state (after node (node.run env state reply).state))
    (hsaved : w'.repair.saved = w.repair.saved ++ (node.run env state reply).saved)
    (hdispatched : w'.dispatched = dispatches env state node reply ++ w.dispatched)
    (happroved : w'.approved = w.approved) :
    Held env.settings w' (node.run env state reply).state (after node (node.run env state reply).state) := by
  cases node <;> try cases hnode
  case pauseForApproval =>
    refine held_same h hwithin (fun _ => rfl) hsaved (fun _ hm => by cases hm) hdispatched happroved rfl
      (fun hc => by cases hc) fun _ => ⟨(h.asked rfl).1, fun stored hlast => (h.asked rfl).2 stored ?_⟩
    rwa [hsaved, show (Node.pauseForApproval.run env state reply).saved = [] from rfl, List.append_nil] at hlast
  case pauseForReconciliation =>
    exact held_same h hwithin (fun _ => rfl) hsaved (fun _ hm => by cases hm) hdispatched happroved rfl
      (fun _ stored hm hc heq => (h.alike rfl stored hm hc heq).of_eq rfl rfl rfl) (fun hc => by cases hc)

theorem held_resumeApproval (h : Held s w state next) (old : Option FixAgentState) (hasking : asking state next = true)
    (hlast : w.repair.saved.getLast? = some stored) (result : Json) (approved router : Bool) :
    Held s { w with
        repair := resume w.repair (resumedFromApproval stored result approved)
        router
        approved := w.approved + if approved then 1 else 0 }
      (FixAgentState.merge old (resumedFromApproval stored result approved)) (some .observeMCP) := by
  obtain ⟨hstart, hstored⟩ := h.asked hasking
  obtain ⟨hcharges, hexecution⟩ := hstored stored hlast
  have hall := resumedFromApproval_charges old stored result approved
  rw [hcharges] at hall
  have hwithin := h.within.resumeApproval hasking hcharges hexecution old result approved
  have hbefore : ∀ stored ∈ w.repair.saved, stored.forCall = true → stored.mcpRouterRound < state.charges.routerRounds :=
    fun stored hm hc => Nat.lt_of_le_of_ne (h.rounds stored hm hc) (unstarted_iff.mp hstart stored hm hc)
  have hspent := h.spent
  rw [executionsBefore_eq hbefore] at hspent
  refine ⟨hwithin, (fun hn => by cases hn), ?_, h.lines, fun stored hm hc => ?_, (fun hc => by cases hc),
    (fun hc => by cases hc), ?_, ?_⟩
  · rw [hall]
    exact h.counted
  · rw [hall]
    exact Nat.le_succ_of_le (h.rounds stored hm hc)
  · rw [hall]
    show (executionsBefore (state.charges.routerRounds + 1) w.repair.saved).card +
      (w.approved + if approved then 1 else 0) ≤ state.charges.mcpCalls + if approved then 1 else 0
    rw [executionsBefore_eq fun stored hm hc => Nat.lt_succ_of_lt (hbefore stored hm hc)]
    omega
  · have hcalls := hwithin.calls
    rw [hall] at hcalls
    show (executions w.repair.saved).card + (w.approved + if approved then 1 else 0) ≤ _
    have hle : state.charges.mcpCalls + (if approved then 1 else 0) ≤ s.mcpToolRouterMaxCallsPerRun := hcalls
    omega

theorem held_resumeExecution (h : Held s w state next) (old : Option FixAgentState) (hreconciling : reconciling state next = true)
    (hm : stored ∈ w.repair.saved) (hcall : stored.forCall = true) (hround : stored.mcpRouterRound = state.mcpRouterRound) (router : Bool) :
    Held s { w with repair := resume w.repair (resumedFromExecution stored), router }
      (FixAgentState.merge old (resumedFromExecution stored)) (some .callMCPTools) := by
  have hcalling := calling_of_reconciling hreconciling
  have halike := h.alike hcalling stored hm hcall hround
  have hwithin := h.within.resumeExecution hreconciling halike.charges halike.plan halike.approval halike.execution old
  have hall : (FixAgentState.merge old (resumedFromExecution stored)).charges = state.charges := by
    cases old <;> exact halike.charges
  have hplan : (FixAgentState.merge old (resumedFromExecution stored)).mcpToolPlan = state.mcpToolPlan := by
    cases old <;> exact halike.plan
  have happroval : (FixAgentState.merge old (resumedFromExecution stored)).mcpPendingApprovalId =
      state.mcpPendingApprovalId := by
    cases old <;> exact halike.approval
  refine ⟨hwithin, (fun hn => by cases hn), hall ▸ h.counted, h.lines, hall ▸ h.rounds, fun _ other hm hc heq => ?_,
    (fun hc => by cases hc), hall ▸ h.spent, h.total⟩
  rw [hall] at heq
  exact (h.alike hcalling other hm hc heq).of_eq hall hplan happroval

/-! ## Every step keeps it -/

/-- What holds between the steps of a run. -/
structure Kept (s : Settings) (w : Course) : Prop where
  fresh : w.repair.thread = none → w.repair.saved = [] ∧ w.dispatched = [] ∧ w.approved = 0
  thread : ∀ state next, w.repair.thread = some (state, next) → Held s w state next

theorem Kept.of_thread {thread : Thread} (ht : w.repair.thread = some thread) (h : Held s w thread.1 thread.2) :
    Kept s w where
  fresh hnone := by
    rw [ht] at hnone
    cases hnone
  thread state next hs := by
    obtain rfl := Option.some.inj (ht.symm.trans hs)
    exact h

theorem held_start (runId repoId : String) (hsaved : w.repair.saved = []) (hdispatched : w.dispatched = [])
    (happroved : w.approved = 0) : Held s w (initialState s runId repoId) (some .inspectRepository) := by
  have hwithin : Within s (initialState s runId repoId) (some .inspectRepository) :=
    ⟨rfl, rfl, rfl, .inl (Nat.zero_le _), Nat.zero_le _, .inl, Nat.zero_le _, (by rintro (hc | hc) <;> cases hc),
      Nat.zero_le _, (fun hc => by cases hc), (fun hc => by cases hc), (fun hp => by cases hp),
      (fun hp => by cases hp)⟩
  have hnone : ∀ stored ∈ w.repair.saved, stored.forCall = true → False := by
    rw [hsaved]
    exact fun _ hm => by cases hm
  refine ⟨hwithin, (fun hn => by cases hn), ?_, ?_, fun stored hm hc => (hnone stored hm hc).elim,
    (fun hc => by cases hc), (fun hc => by cases hc), ?_, ?_⟩
  · rw [hdispatched]
    rfl
  · rw [hdispatched]
    exact fun _ hm => by cases hm
  · rw [hsaved, happroved]
    exact Nat.zero_le _
  · rw [hsaved, happroved]
    exact Nat.zero_le _

/-- A job that takes over does not touch what is held. -/
theorem Held.of_eq (h : Held s w state next) (hsaved : w'.repair.saved = w.repair.saved)
    (hdispatched : w'.dispatched = w.dispatched) (happroved : w'.approved = w.approved) : Held s w' state next :=
  ⟨h.within, h.complete, hdispatched ▸ h.counted, hdispatched ▸ h.lines, hsaved ▸ h.rounds, hsaved ▸ h.alike,
    hsaved ▸ h.asked, hsaved ▸ happroved ▸ h.spent, hsaved ▸ happroved ▸ h.total⟩

theorem kept_invoke {runId repoId : String} (h : Kept env.settings w) (router : Bool) :
    Kept env.settings { w with repair := invoke (initialState env.settings runId repoId) w.repair, router } := by
  cases ht : w.repair.thread with
  | none =>
    obtain ⟨hsaved, hdispatched, happroved⟩ := h.fresh ht
    unfold invoke
    rw [ht]
    exact .of_thread rfl (held_start runId repoId hsaved hdispatched happroved)
  | some thread =>
    obtain ⟨state, next⟩ := thread
    have hheld := h.thread state next ht
    cases next with
    | none =>
      unfold invoke
      simp only [ht, hheld.complete rfl, if_true]
      exact .of_thread ht (hheld.of_eq rfl rfl rfl)
    | some node =>
      unfold invoke
      simp only [ht]
      exact .of_thread ht (hheld.of_eq (by simp [Repair.note]) rfl rfl)

/-- A resume from an approval that continues the pause has the last state that was stored. -/
theorem continues_approval {index : Nat} {result : Json} {approved : Bool}
    (h : continues w (.resumeApproval index result approved) = true) (hm : w.repair.saved[index]? = some stored) :
    ∃ state next, w.repair.thread = some (state, next) ∧ asking state next = true ∧
      w.repair.saved.getLast? = some stored := by
  cases ht : w.repair.thread with
  | none => simp [continues, ht] at h
  | some thread =>
    obtain ⟨state, next⟩ := thread
    simp only [continues, ht, Bool.and_eq_true, beq_iff_eq] at h
    refine ⟨state, next, rfl, h.1, ?_⟩
    rw [List.getLast?_eq_getElem?, ← h.2]
    exact hm

theorem continues_execution {index : Nat} (h : continues w (.resumeExecution index) = true)
    (hm : w.repair.saved[index]? = some stored) :
    ∃ state next, w.repair.thread = some (state, next) ∧ reconciling state next = true ∧ stored.forCall = true ∧
      stored.mcpRouterRound = state.mcpRouterRound := by
  cases ht : w.repair.thread with
  | none => simp [continues, ht] at h
  | some thread =>
    obtain ⟨state, next⟩ := thread
    simp only [continues, ht, hm, Bool.and_eq_true, beq_iff_eq] at h
    exact ⟨state, next, rfl, h.1.1.1, h.1.1.2, h.1.2⟩

theorem kept_step {runId repoId : String} {e : Step × Bool} (h : Kept env.settings w) (hproper : proper w e = true)
    (hs : Course.step env (initialState env.settings runId repoId) w e = some w') : Kept env.settings w' := by
  obtain ⟨hcontinues, hfresh⟩ := Bool.and_eq_true_iff.mp hproper
  cases Course.step_move hs with
  | invoke => exact kept_invoke h _
  | @node node reply router state ht ha =>
    have hheld := h.thread _ _ ht
    have hwithin := run_within hheld.within reply ha
    refine .of_thread rfl ?_
    by_cases hnode : node.inRound = false
    · exact held_outside hheld hnode reply hwithin rfl rfl rfl
    · cases node <;> try exact absurd rfl hnode
      case planMCPTools =>
        refine held_plan hheld reply (fun hrouter => ?_) hwithin rfl rfl rfl
        have hfresh' : (!(Planning.router reply) || unstarted w.repair.saved state) = true := by
          simpa [fresh, ht] using hfresh
        rw [hrouter] at hfresh'
        exact hfresh'
      case callMCPTools =>
        exact held_call hheld reply (by simpa using (Bool.and_eq_true_iff.mp ha).2) rfl rfl rfl
      case pauseForApproval => exact held_pause hheld rfl reply hwithin rfl rfl rfl
      case pauseForReconciliation => exact held_pause hheld rfl reply hwithin rfl rfl rfl
  | @resumeApproval index result approved router stored hm =>
    obtain ⟨state, next, ht, hasking, hlast⟩ := continues_approval hcontinues hm
    exact .of_thread (congrArg some (enter_approval ..))
      (held_resumeApproval (h.thread _ _ ht) _ hasking hlast result approved router)
  | @resumeExecution index router stored hm =>
    obtain ⟨state, next, ht, hreconciling, hcall, hround⟩ := continues_execution hcontinues hm
    exact .of_thread (congrArg some (enter_execution ..))
      (held_resumeExecution (h.thread _ _ ht) _ hreconciling (List.mem_of_getElem? hm) hcall hround router)

theorem inductive_kept (env : Env) (runId repoId : String) :
    ((course env (initialState env.settings runId repoId)).only fun w e => proper w e = true).Inductive
      (Kept env.settings) where
  start hs := by
    obtain rfl := hs
    exact ⟨fun _ => ⟨rfl, rfl, rfl⟩, fun _ _ ht => by cases ht⟩
  step h hs := kept_step h hs.1 hs.2

/-- What the loop sends is the call of a state that it stored before. -/
theorem callMCPToolsFrom_sent {calling : Calling} {calls : List Call} {index : Nat} {results : List Json}
    {request : Sent} (hcalls : state.mcpToolPlan.calls.drop index = calls)
    (h : .sent request ∈ (callMCPToolsFrom env calling state calls index results).events) :
    ∃ stored ∈ (callMCPToolsFrom env calling state calls index results).saved, stored.forCall = true ∧
      ∃ call ∈ stored.executionKey.2.2, ∃ catalog authorize, execute env.codec env.check catalog authorize call =
        .call request.server request.tool request.arguments := by
  induction calls generalizing index results with
  | nil => cases h
  | cons call calls ih =>
    have hcall : state.mcpToolPlan.calls[index]? = some call := by
      rw [← List.head?_drop, hcalls]
      rfl
    have hrest : state.mcpToolPlan.calls.drop (index + 1) = calls := by
      rw [← List.drop_drop, hcalls]
      rfl
    have hown (hm : .sent request ∈ ((callMCPTool env calling state.mcpToolCatalog call
        (calling.reply index)).2.map Event.sent).toList) :
        (callCheckpoint state index results).forCall = true ∧
        ∃ call ∈ (callCheckpoint state index results).executionKey.2.2, ∃ catalog authorize,
          execute env.codec env.check catalog authorize call =
            .call request.server request.tool request.arguments := by
      obtain ⟨sent, hsent, heq⟩ := Option.map_eq_some_iff.mp (Option.mem_toList.mp hm)
      obtain rfl := Event.sent.inj heq
      exact ⟨rfl, call, hcall, _, _, (executeOnce_sent hsent).1⟩
    have hgo {result : Json} (hm : .sent request ∈ ((callMCPTool env calling state.mcpToolCatalog call
        (calling.reply index)).2.map Event.sent).toList ++
        (callMCPToolsFrom env calling state calls (index + 1) (results ++ [result])).events) :
        ∃ stored ∈ callCheckpoint state index results ::
          (callMCPToolsFrom env calling state calls (index + 1) (results ++ [result])).saved, stored.forCall = true ∧
          ∃ call ∈ stored.executionKey.2.2, ∃ catalog authorize,
            execute env.codec env.check catalog authorize call =
              .call request.server request.tool request.arguments := by
      rcases List.mem_append.mp hm with hm | hm
      · exact ⟨_, List.mem_cons_self, hown hm⟩
      · obtain ⟨stored, hs, hrequest⟩ := ih hrest hm
        exact ⟨stored, List.mem_cons_of_mem _ hs, hrequest⟩
    unfold callMCPToolsFrom at h ⊢
    dsimp only at h ⊢
    split at h
    · exact ⟨_, List.mem_singleton_self _, hown h⟩
    · exact ⟨_, List.mem_singleton_self _, hown h⟩
    · exact hgo h
    · exact hgo h

theorem run_sent_stored {reply : node.Reply} {request : Sent}
    (h : .sent request ∈ (node.run env state reply).events) :
    ∃ stored ∈ (node.run env state reply).saved, stored.forCall = true ∧
      ∃ call ∈ stored.executionKey.2.2, ∃ catalog authorize, execute env.codec env.check catalog authorize call =
        .call request.server request.tool request.arguments := by
  obtain rfl := run_sent h
  change .sent request ∈ (callMCPTools env state reply).events at h
  show ∃ stored ∈ (callMCPTools env state reply).saved, _
  unfold callMCPTools at h ⊢
  split at h
  · next hrouter =>
    rw [if_pos hrouter]
    exact callMCPToolsFrom_sent rfl h
  · cases h

theorem sent_step {input : FixAgentState} {e : Step × Bool} (h : SentByExecution env w.repair)
    (hs : Course.step env input w e = some w') : SentByExecution env w'.repair := by
  cases Course.step_move hs with
  | invoke =>
    unfold invoke
    split
    · exact h
    · split <;> exact h
    · intro request hm
      have hm' : .sent request ∈ w.repair.log := by
        rcases List.mem_append.mp hm with hm | hm
        · obtain ⟨_, _, heq⟩ := Option.map_eq_some_iff.mp (Option.mem_toList.mp (List.mem_reverse.mp hm))
          cases heq
        · exact hm
      obtain ⟨key, hk, hrequest⟩ := h request hm'
      exact ⟨key, by simpa [Repair.note] using hk, hrequest⟩
  | @node node reply router state ht ha =>
    intro request hm
    rcases List.mem_append.mp hm with hm | hm
    · obtain ⟨stored, hs, hc, hrequest⟩ := run_sent_stored (List.mem_reverse.mp hm)
      exact ⟨_, mem_executions.mpr ⟨stored, List.mem_append_right _ hs, hc, rfl⟩, hrequest⟩
    · obtain ⟨key, hk, hrequest⟩ := h request hm
      obtain ⟨stored, hs, hc, rfl⟩ := mem_executions.mp hk
      exact ⟨_, mem_executions.mpr ⟨stored, List.mem_append_left _ hs, hc, rfl⟩, hrequest⟩
  | resumeApproval hm => exact h
  | resumeExecution hm => exact h

theorem inductive_sent (env : Env) (input : FixAgentState) :
    (course env input).Inductive fun w => SentByExecution env w.repair where
  start hs := by
    obtain rfl := hs
    exact fun _ hm => by cases hm
  step h hs := sent_step h hs

theorem Kept.budgets (h : Kept env.settings w) (hvalid : env.settings.valid) (hsent : SentByExecution env w.repair) :
    Budgets env w := by
  cases ht : w.repair.thread with
  | none =>
    obtain ⟨hsaved, hdispatched, happroved⟩ := h.fresh ht
    refine ⟨fun state next h => ?_, ?_, fun state next h => ?_, fun state next h => ?_, ?_, hsent, ?_⟩
    · rw [ht] at h
      cases h
    · rw [hdispatched]
      exact Nat.zero_le _
    · rw [ht] at h
      cases h
    · rw [ht] at h
      cases h
    · rw [hsaved, happroved]
      exact Nat.zero_le _
    · rw [hdispatched]
      exact fun _ hm => by cases hm
  | some thread =>
    have hheld := h.thread _ _ ht
    refine ⟨fun state next h => ?_, hheld.counted ▸ hheld.within.tools, fun state next h => ?_, fun state next h => ?_,
      hheld.total, hsent, hheld.lines⟩
    · obtain rfl := Option.some.inj (ht.symm.trans h)
      exact hheld.counted
    · obtain rfl := Option.some.inj (ht.symm.trans h)
      rcases hheld.within.iterations hvalid.1 with hi | ⟨hi, _⟩
      · exact hi.le
      · exact hi.le
    · obtain rfl := Option.some.inj (ht.symm.trans h)
      exact hheld.within.rounds

/-- The budgets hold in every state of a run that meets the condition. -/
theorem budgets_kept (env : Env) (runId repoId : String) (hvalid : env.settings.valid) {w : Course}
    (hw : ((course env (initialState env.settings runId repoId)).only fun w e => proper w e = true).Reachable w) :
    Budgets env w := by
  have hkept := (inductive_kept env runId repoId).reachable hw
  obtain ⟨w₀, es, hstart, hrun⟩ := hw
  exact hkept.budgets hvalid ((inductive_sent env _).reachable ⟨w₀, es, hstart, hrun.of_only⟩)

/-! ## A pause that is resumed twice -/

/-- The calls of a round whose executions are settled. -/
def settledCalls : Calling := ⟨true, opsServers .auto, fun _ _ => true, fun _ => .stored .null⟩

/-- The rest of a run that was resumed from an execution: it dispatches a tool, and ends. -/
def resumedSteps : List Step :=
  [.node .callMCPTools settledCalls, .node .observeMCP (), .node .planMCPTools ⟨true, [], [], ""⟩,
    .node .generatePatch "first", .node .applyPatch (.obj [("ok", .bool true)]),
    .node .targetedTests (testRan false), .node .reflect (),
    .node .planNextAction ⟨3, .ok (.listFiles none, 10)⟩, .node .executeLocalAction ⟨4, .null⟩,
    .node .planNextAction ⟨5, .ok (.finish "no cause found", 10)⟩, .node .executeLocalAction ⟨6, .null⟩,
    .node .finalAnswer ""]

/-- A run that pauses for a reconciliation and is resumed after it. -/
def resumedOnceSteps : List (Step × Bool) := (pausedSteps ++ resumedSteps).map fun e => (e, true)

theorem budgets_kept_sample : ∃ w,
    ((course sampleEnv (initialState sampleSettings "run" "repo")).only fun w e => proper w e = true).Reachable w ∧
    w.dispatched = [.listFiles none] ∧ (executions w.repair.saved).card = 1 ∧ Budgets sampleEnv w := by
  obtain ⟨w, hw⟩ : ∃ w, resumedOnceSteps.foldlM (fun w e => if proper w e = true then
      Course.step sampleEnv (initialState sampleSettings "run" "repo") w e else none) Course.empty = some w := ⟨_, rfl⟩
  have hreach : ((course sampleEnv (initialState sampleSettings "run" "repo")).only fun w e =>
      proper w e = true).Reachable w := ⟨_, resumedOnceSteps, rfl, .only_of_foldlM hw⟩
  have hbudgets := budgets_kept sampleEnv "run" "repo" (by decide) hreach
  obtain rfl := Option.some.inj hw
  exact ⟨_, hreach, rfl, rfl, hbudgets⟩

/-- The pause is resumed once more when the run has ended: the counter of the
local tools is back at zero, with a tool dispatched. -/
theorem budgets_exceeded : ∃ w state, sampleSettings.valid ∧
    (course sampleEnv (initialState sampleSettings "run" "repo")).Reachable w ∧
    w.repair.thread = some (state, some .callMCPTools) ∧ state.localToolCallCount = 0 ∧
    w.dispatched = [.listFiles none] ∧ ¬ Budgets sampleEnv w := by
  obtain ⟨w, hw⟩ : ∃ w, (resumedOnceSteps ++ [(Step.resumeExecution 0, true)]).foldlM
      (Course.step sampleEnv (initialState sampleSettings "run" "repo")) Course.empty = some w := ⟨_, rfl⟩
  have hreach : (course sampleEnv (initialState sampleSettings "run" "repo")).Reachable w :=
    ⟨_, _, rfl, .of_foldlM hw⟩
  obtain rfl := Option.some.inj hw
  refine ⟨_, _, by decide, hreach, rfl, rfl, rfl, fun h => ?_⟩
  exact absurd (h.counted _ _ rfl) (by decide)

end CodeMate.Agent
