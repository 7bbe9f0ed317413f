import CodeMate.Agent.Budgets

/-!
# The repair graph terminates

The graph has a cycle through the planner, one through the rounds of the tool
router and one through the patches, and each is left by its own counter. `left`
bounds the nodes that may still run before the next resume: every node takes from
it (`run_left`), and a resume adds a constant.

`graph_terminates`: in a run each of whose pauses is resumed at most once, the
planner is asked at most once more than it may be, and the nodes that run are
bounded by the planner's calls, the rounds and the pauses.
-/

namespace CodeMate.Agent

open Framework Mcp Verification

/-- How far a node is from the end of the graph, but for the planner's calls and the rounds. -/
def Node.height (router : Bool) : Node → Nat
  | finalAnswer | pauseForApproval | pauseForReconciliation => 1
  | planNextAction => 2
  | reflect | initializeAgentLoop => 3
  | regressionChecks | reproduceFailure => 4
  | targetedTests | inspectRepository => 5
  | applyPatch => 6
  | generatePatch => 7
  -- without a router the calls are dropped and the round is not charged
  | callMCPTools => if router then 8 else 11
  | planMCPTools => 9
  | observeMCP | executeLocalAction => 10

/-- The nodes that may still run before the next resume. -/
def left (s : Settings) (router : Bool) (charges : Charges) (next : Option Node) : Nat :=
  9 * (s.agentMaxPlannerCalls + 1 - charges.plannerCalls) +
    3 * (s.mcpToolRouterMaxRounds - charges.routerRounds) + (next.map (Node.height router)).getD 0

variable {env : Env} {s : Settings} {router : Bool} {state : FixAgentState} {node : Node} {charges : Charges}

/-- A node that goes on to a lower one, without a planner's call or a round. -/
theorem left_lower {next : Option Node} (h : (next.map (Node.height router)).getD 0 < node.height router) :
    left s router charges next + 1 ≤ left s router charges (some node) := by
  have hheight : ((some node).map (Node.height router)).getD 0 = node.height router := rfl
  unfold left
  omega

theorem left_ran {next : Option Node} {calls : Nat} : left s router (charges.ran calls) next = left s router charges next :=
  rfl

theorem callMCPTools_left (h : Within env.settings state (some .callMCPTools)) (calling : Calling)
    (ha : answers env router state .callMCPTools calling = true) :
    left env.settings router (callMCPTools env state calling).state.charges
      (some (afterMcpCall (callMCPTools env state calling).state)) + 1 ≤
      left env.settings router state.charges (some .callMCPTools) := by
  obtain ⟨hrouter, hid⟩ := Bool.and_eq_true_iff.mp ha
  have hrouter : calling.router = router := eq_of_beq hrouter
  have hid : (callMCPTools env state calling).state.mcpPendingExecutionId ≠ some "" := by simpa using hid
  have hroom := h.room (.inl rfl)
  unfold callMCPTools at hid ⊢
  split
  · next hcalls =>
    rw [if_pos hcalls] at hid
    rw [← hrouter, hcalls]
    rcases (callMCPToolsFrom_cases env calling state (state.mcpToolPlan.calls.drop state.mcpCallCursor)
      state.mcpCallCursor state.mcpRoundResults).2 with ⟨made, heq⟩ | ⟨index, executionId, made, heq⟩ <;>
      rw [heq] at hid ⊢
    · -- the round that is charged pays for the way back to the planning of the next one
      show 9 * (_ - state.charges.plannerCalls) + 3 * (_ - (state.charges.routerRounds + 1)) + 10 + 1 ≤
        9 * (_ - state.charges.plannerCalls) + 3 * (_ - state.charges.routerRounds) + 8
      omega
    · rw [afterMcpCall_paused hid]
      exact left_lower (by simp [Node.height])
  · next hdropped =>
    have hfalse : router = false := by
      rw [← hrouter]
      simpa using hdropped
    rw [h.dropped, hfalse]
    exact left_lower (by simp [Node.height])

/-- Every node leaves fewer nodes to run. -/
theorem run_left (h : Within env.settings state (some node)) (reply : node.Reply)
    (ha : answers env router state node reply = true) :
    left env.settings router (node.run env state reply).state.charges
      (after node (node.run env state reply).state) + 1 ≤ left env.settings router state.charges (some node) := by
  cases node
  case planNextAction =>
    have hle := h.planner_le (by decide) (fun hn => by cases hn)
    show 9 * (_ - (state.charges.plannerCalls + 1)) + 3 * (_ - state.charges.routerRounds) + 10 + 1 ≤
      9 * (_ - state.charges.plannerCalls) + 3 * (_ - state.charges.routerRounds) + 2
    omega
  case executeLocalAction =>
    rw [(executeLocalAction_charges env state reply).1, left_ran]
    refine left_lower ?_
    dsimp only [after, afterLocalAction]
    split <;> simp [Node.height]
  case planMCPTools =>
    have hrouter : Planning.router reply = router := by simpa [answers] using ha
    have hcharges : (Node.planMCPTools.run env state reply).state.charges = state.charges := run_charges env state rfl reply
    rw [hcharges]
    refine left_lower ?_
    show Node.height router (afterMcpPlan (planMCPTools env state reply).state) < 9
    unfold afterMcpPlan
    split
    · simp [Node.height]
    split
    · simp [Node.height]
    next hcalls =>
      -- only a round that has a router has calls
      rcases planMCPTools_cases env state reply with heq | ⟨hplanned, _⟩
      · exact absurd (by rw [heq]; rfl) hcalls
      · rw [← hrouter, hplanned]
        simp [Node.height]
  case callMCPTools => exact callMCPTools_left h reply ha
  case observeMCP =>
    refine left_lower ?_
    dsimp only [after, afterMcpObserve]
    split
    · simp [Node.height]
    · split <;> simp [Node.height]
  case reproduceFailure =>
    refine left_lower ?_
    dsimp only [after]
    split <;> simp [Node.height]
  case generatePatch =>
    refine left_lower ?_
    dsimp only [after, afterPatchGeneration]
    split <;> simp [Node.height]
  case targetedTests =>
    refine left_lower ?_
    dsimp only [after, afterTargetedTests]
    split <;> simp [Node.height]
  case regressionChecks =>
    refine left_lower ?_
    dsimp only [after, afterRegressionChecks]
    split <;> simp [Node.height]
  case reflect =>
    refine left_lower ?_
    dsimp only [after, afterReflect]
    split <;> simp [Node.height]
  all_goals exact left_lower (by simp [after, Node.height])

/-! ## Runs -/

/-- A job that takes over between two nodes has a router if the job before it had one. -/
def sameRouter (w : Course) : Step × Bool → Bool
  | (.invoke, router) =>
    match w.repair.thread with
    | some (_, some _) => router == w.router
    | _ => true
  | _ => true

/-- Each pause is resumed at most once, while the run waits in it. -/
def steady (w : Course) (e : Step × Bool) : Bool := continues w e.1 && sameRouter w e

/-- The nodes that may run before the first pause. -/
def firstNodes (s : Settings) : Nat := 9 * (s.agentMaxPlannerCalls + 1) + 3 * s.mcpToolRouterMaxRounds + 5

/-- The run waits in a pause, or is about to. -/
def waiting (state : FixAgentState) (next : Option Node) : Bool := asking state next || reconciling state next

/-- The nodes that ran, with those that may run, before a node or where no node comes next. -/
structure Bounded (s : Settings) (w : Course) (state : FixAgentState) (next : Option Node) : Prop where
  plans : w.visits.count .planNextAction = state.charges.plannerCalls
  nodes : w.visits.length + left s w.router state.charges next + (if waiting state next then 11 else 0) ≤
    firstNodes s + 11 * w.pauses
  /-- A job with a router plans no round that has executions. -/
  started : w.router = true → next ≠ none → calling state next = false → unstarted w.repair.saved state = true

variable {w w' : Course} {state' : FixAgentState} {saved more : List FixAgentState}

/-- Only a node that leads to a pause, or is one, leaves the run waiting. -/
theorem waiting_after (h : Within env.settings state (some node)) (reply : node.Reply)
    (ha : answers env router state node reply = true) :
    waiting (node.run env state reply).state (after node (node.run env state reply).state) =
      (node.pauses || (after node (node.run env state reply).state).any Node.pauses) := by
  have hsome (next : Node) (state : FixAgentState) : waiting state (some next) = next.pauses := by
    cases next <;> rfl
  cases hafter : after node (node.run env state reply).state with
  | some next =>
    rw [hsome, Option.any_some]
    cases node <;> first | (cases hafter; done) | rfl
  | none =>
    cases node <;> first | rfl | (cases hafter; done) | skip
    case finalAnswer =>
      obtain ⟨hasking, hreconciling⟩ := finalAnswer_over state reply
      show (asking (finalAnswer state reply) none || reconciling (finalAnswer state reply) none) = _
      rw [hasking, hreconciling]
      rfl

theorem unstarted_of_append (h : unstarted saved state = true) (hmore : ∀ stored ∈ more, stored.forCall = false)
    (hround : state'.charges.routerRounds = state.charges.routerRounds) : unstarted (saved ++ more) state' = true := by
  refine unstarted_iff.mpr fun stored hm hc => ?_
  rcases List.mem_append.mp hm with hm | hm
  · rw [hround]
    exact unstarted_iff.mp h stored hm hc
  · rw [hmore stored hm] at hc
    cases hc

/-- A round that is planned or made leaves the round that comes next without executions. -/
theorem run_started (hheld : Held env.settings w state (some node)) (reply : node.Reply)
    (ha : answers env true state node reply = true)
    (h : calling state (some node) = false → unstarted w.repair.saved state = true)
    (hnext : after node (node.run env state reply).state ≠ none)
    (hcalling : calling (node.run env state reply).state (after node (node.run env state reply).state) = false) :
    unstarted (w.repair.saved ++ (node.run env state reply).saved) (node.run env state reply).state = true := by
  by_cases hnode : node.inRound = false
  · obtain ⟨hnil, hrounds, _⟩ := run_outside env state hnode reply
    rw [hnil]
    refine unstarted_of_append (h ?_) (fun _ hm => by cases hm) hrounds
    cases node <;> first | rfl | cases hnode
  · cases node <;> try exact absurd rfl hnode
    case planMCPTools =>
      refine unstarted_of_append (h rfl) (fun stored hm => ?_) ?_
      · have hm' : stored ∈ (planMCPTools env state reply).saved := hm
        rcases planMCPTools_cases env state reply with heq | ⟨_, _, _, _, ⟨_, heq⟩ | ⟨_, _, heq⟩⟩ <;> rw [heq] at hm'
        · cases hm'
        · cases hm'
        · obtain rfl := List.mem_singleton.mp hm'
          rfl
      · rw [run_charges env state rfl reply]
    case callMCPTools =>
      obtain ⟨hrouter, hid⟩ := Bool.and_eq_true_iff.mp ha
      have hrouter : Calling.router reply = true := eq_of_beq hrouter
      have hid : (callMCPTools env state reply).state.mcpPendingExecutionId ≠ some "" := by simpa using hid
      have hrun : Node.callMCPTools.run env state reply = callMCPToolsFrom env reply state
          (state.mcpToolPlan.calls.drop state.mcpCallCursor) state.mcpCallCursor state.mcpRoundResults := if_pos hrouter
      obtain ⟨hstored, hstate⟩ := callMCPToolsFrom_cases env reply state
        (state.mcpToolPlan.calls.drop state.mcpCallCursor) state.mcpCallCursor state.mcpRoundResults
      rw [show callMCPTools env state reply = _ from hrun] at hid
      rw [hrun] at hcalling ⊢
      rcases hstate with ⟨made, heq⟩ | ⟨index, executionId, made, heq⟩ <;> rw [heq] at hid hcalling ⊢
      · refine unstarted_iff.mpr fun stored hm hc => Nat.ne_of_lt (Nat.lt_succ_of_le ?_)
        rcases List.mem_append.mp hm with hm | hm
        · exact hheld.rounds stored hm hc
        · obtain ⟨i, made, _, _, rfl⟩ := hstored stored hm
          exact Nat.le_refl _
      · have hcalling' : Agent.calling (roundPaused state index executionId made)
          (some (afterMcpCall (roundPaused state index executionId made))) = false := hcalling
        rw [afterMcpCall_paused hid] at hcalling'
        cases hcalling'
    case pauseForApproval => exact absurd rfl hnext
    case pauseForReconciliation => exact absurd rfl hnext

/-- A node other than the planner's is no call of it. -/
theorem run_plans (env : Env) (state : FixAgentState) (node : Node) (reply : node.Reply) :
    (node.run env state reply).state.charges.plannerCalls =
      state.charges.plannerCalls + if node = .planNextAction then 1 else 0 := by
  cases node
  case executeLocalAction =>
    rw [(executeLocalAction_charges env state reply).1]
    rfl
  case callMCPTools =>
    show (callMCPTools env state reply).state.charges.plannerCalls = _
    unfold callMCPTools
    split
    · rcases (callMCPToolsFrom_cases env reply state (state.mcpToolPlan.calls.drop state.mcpCallCursor)
        state.mcpCallCursor state.mcpRoundResults).2 with ⟨made, heq⟩ | ⟨index, executionId, made, heq⟩ <;>
        rw [heq] <;> rfl
    · rfl
  case planMCPTools =>
    rw [run_charges env state rfl reply]
    rfl
  all_goals rfl

theorem bounded_node (h : Bounded env.settings w state (some node)) (hheld : Held env.settings w state (some node))
    (reply : node.Reply) (ha : answers env w.router state node reply = true) (hrouter : w'.router = w.router)
    (hvisits : w'.visits = node :: w.visits)
    (hpauses : w'.pauses = w.pauses + if (after node (node.run env state reply).state).any Node.pauses then 1 else 0)
    (hsaved : w'.repair.saved = w.repair.saved ++ (node.run env state reply).saved) :
    Bounded env.settings w' (node.run env state reply).state (after node (node.run env state reply).state) := by
  refine ⟨?_, ?_, fun hr hnext hcalling => ?_⟩
  · rw [hvisits, List.count_cons, run_plans, h.plans]
    simp
  · have hnodes := h.nodes
    have hleft := run_left hheld.within reply ha
    have hwaits : waiting state (some node) = node.pauses := by
      cases node <;> rfl
    have hone : node.pauses = true → (after node (node.run env state reply).state).any Node.pauses = false := by
      cases node <;> first | (intro hn; cases hn; done) | exact fun _ => rfl
    rw [hwaits] at hnodes
    rw [hrouter, hvisits, hpauses, waiting_after hheld.within reply ha, List.length_cons]
    cases hn : node.pauses with
    | true =>
      rw [hn] at hnodes
      rw [hone hn]
      simp only [Bool.or_false, if_true, Bool.false_eq_true, if_false] at hnodes ⊢
      omega
    | false =>
      rw [hn] at hnodes
      rw [Bool.false_or]
      simp only [Bool.false_eq_true, if_false] at hnodes
      split <;> omega
  · rw [hrouter] at hr
    rw [hsaved]
    rw [hr] at ha
    exact run_started hheld reply ha (h.started hr nofun) hnext hcalling

/-- What holds between the steps of a run whose pauses are resumed at most once. -/
structure Paced (s : Settings) (w : Course) : Prop where
  kept : Kept s w
  fresh : w.repair.thread = none → w.visits = []
  thread : ∀ state next, w.repair.thread = some (state, next) → Bounded s w state next

theorem Paced.of_thread {thread : Thread} (hkept : Kept s w) (ht : w.repair.thread = some thread)
    (h : Bounded s w thread.1 thread.2) : Paced s w where
  kept := hkept
  fresh hnone := by
    rw [ht] at hnone
    cases hnone
  thread state next hs := by
    obtain rfl := Option.some.inj (ht.symm.trans hs)
    exact h

/-- A step in which a pause is resumed at most once keeps the budgets. -/
theorem Paced.proper {input : FixAgentState} {e : Step × Bool} (h : Paced s w) (hsteady : steady w e = true)
    (hs : Course.step env input w e = some w') : proper w e = true := by
  refine Bool.and_eq_true_iff.mpr ⟨(Bool.and_eq_true_iff.mp hsteady).1, ?_⟩
  cases Course.step_move hs with
  | @node node reply router state ht ha =>
    cases node <;> try rfl
    case planMCPTools =>
      show (!(Planning.router reply) || (w.repair.thread.map (·.1)).all (unstarted w.repair.saved)) = true
      cases hr : w.router with
      | false =>
        rw [hr] at ha
        rw [show Planning.router reply = false from eq_of_beq ha]
        rfl
      | true =>
        rw [ht]
        show (_ || unstarted w.repair.saved state) = true
        rw [(h.thread state _ ht).started hr nofun rfl, Bool.or_true]
  | invoke | resumeApproval | resumeExecution => rfl

theorem bounded_resumeApproval {next : Option Node} {stored : FixAgentState} (h : Bounded s w state next)
    (hheld : Held s w state next) (hasking : asking state next = true) (hcharges : stored.charges = state.charges)
    (old : Option FixAgentState) (result : Json) (approved router : Bool) :
    Bounded s { w with
        repair := resume w.repair (resumedFromApproval stored result approved)
        router
        approved := w.approved + if approved then 1 else 0 }
      (FixAgentState.merge old (resumedFromApproval stored result approved)) (some .observeMCP) := by
  have hall := resumedFromApproval_charges old stored result approved
  rw [hcharges] at hall
  have hnodes := h.nodes
  have hroom := hheld.within.room (.inr hasking)
  have hwaiting : waiting state next = true := by
    unfold waiting
    rw [hasking, Bool.true_or]
  rw [if_pos hwaiting] at hnodes
  refine ⟨?_, ?_, fun _ _ _ => unstarted_iff.mpr fun stored hm hc => ?_⟩
  · rw [hall]
    exact h.plans
  · rw [hall]
    show w.visits.length + (9 * (_ - state.charges.plannerCalls) + 3 * (_ - (state.charges.routerRounds + 1)) + 10) + 0 ≤
      firstNodes s + 11 * w.pauses
    unfold left at hnodes
    omega
  · rw [hall]
    exact Nat.ne_of_lt (Nat.lt_succ_of_le (hheld.rounds stored hm hc))

theorem bounded_resumeExecution {next : Option Node} {stored : FixAgentState} (h : Bounded s w state next)
    (hreconciling : reconciling state next = true) (hcharges : stored.charges = state.charges)
    (old : Option FixAgentState) (router : Bool) :
    Bounded s { w with repair := resume w.repair (resumedFromExecution stored), router }
      (FixAgentState.merge old (resumedFromExecution stored)) (some .callMCPTools) := by
  have hall : (FixAgentState.merge old (resumedFromExecution stored)).charges = state.charges := by
    cases old <;> exact hcharges
  have hnodes := h.nodes
  have hheight : Node.height router .callMCPTools ≤ 11 := by
    cases router <;> decide
  have hwaiting : waiting state next = true := by
    unfold waiting
    rw [hreconciling, Bool.or_true]
  rw [if_pos hwaiting] at hnodes
  refine ⟨?_, ?_, fun _ _ hc => by cases hc⟩
  · rw [hall]
    exact h.plans
  · rw [hall]
    show w.visits.length + (9 * (_ - state.charges.plannerCalls) + 3 * (_ - state.charges.routerRounds) +
      Node.height router .callMCPTools) + 0 ≤ firstNodes s + 11 * w.pauses
    unfold left at hnodes
    omega

theorem bounded_start (runId repoId : String) (hvisits : w.visits = []) (hsaved : w.repair.saved = []) :
    Bounded s w (initialState s runId repoId) (some .inspectRepository) := by
  refine ⟨?_, ?_, fun _ _ _ => ?_⟩
  · rw [hvisits]
    rfl
  · rw [hvisits]
    show 0 + firstNodes s + 0 ≤ _
    omega
  · rw [hsaved]
    rfl

theorem paced_invoke {runId repoId : String} (h : Paced env.settings w) (hsame : sameRouter w (.invoke, router) = true)
    (hkept : Kept env.settings
      { w with repair := invoke (initialState env.settings runId repoId) w.repair, router }) :
    Paced env.settings { w with repair := invoke (initialState env.settings runId repoId) w.repair, router } := by
  cases ht : w.repair.thread with
  | none =>
    have hthread : (invoke (initialState env.settings runId repoId) w.repair).thread =
        some (initialState env.settings runId repoId, some .inspectRepository) := by
      unfold invoke
      rw [ht]
      rfl
    refine .of_thread hkept hthread (bounded_start runId repoId (h.fresh ht) ?_)
    unfold invoke
    rw [ht]
    exact (h.kept.fresh ht).1
  | some thread =>
    obtain ⟨state, next⟩ := thread
    obtain ⟨hplans, hnodes, hstarted⟩ := h.thread state next ht
    cases next with
    | none =>
      have hthread : invoke (initialState env.settings runId repoId) w.repair = w.repair := by
        unfold invoke
        simp only [ht, (h.kept.thread _ _ ht).complete rfl, if_true]
      rw [hthread] at hkept ⊢
      exact .of_thread hkept ht ⟨hplans, hnodes, fun _ hn => absurd rfl hn⟩
    | some node =>
      have hrouter : router = w.router := by
        unfold sameRouter at hsame
        simp only [ht] at hsame
        exact eq_of_beq hsame
      have hrepair : invoke (initialState env.settings runId repoId) w.repair =
          w.repair.note ((rehydrated state node).map Event.restored).toList [] := by
        unfold invoke
        simp only [ht]
      rw [hrepair, hrouter] at hkept ⊢
      refine .of_thread hkept ht ⟨hplans, hnodes, fun hr hn hc => ?_⟩
      rw [← hstarted hr hn hc]
      exact congrArg (unstarted · state) (List.append_nil _)

theorem paced_step {runId repoId : String} {e : Step × Bool} (h : Paced env.settings w) (hsteady : steady w e = true)
    (hs : Course.step env (initialState env.settings runId repoId) w e = some w') : Paced env.settings w' := by
  have hkept := kept_step h.kept (h.proper hsteady hs) hs
  obtain ⟨hcontinues, hsame⟩ := Bool.and_eq_true_iff.mp hsteady
  cases Course.step_move hs with
  | invoke => exact paced_invoke h hsame hkept
  | @node node reply router state ht ha =>
    exact .of_thread hkept rfl (bounded_node (h.thread _ _ ht) (h.kept.thread _ _ ht) reply ha rfl rfl rfl rfl)
  | @resumeApproval index result approved router stored hm =>
    obtain ⟨state, next, ht, hasking, hlast⟩ := continues_approval hcontinues hm
    have hheld := h.kept.thread _ _ ht
    exact .of_thread hkept (congrArg some (enter_approval ..)) (bounded_resumeApproval (h.thread _ _ ht) hheld hasking
      ((hheld.asked hasking).2 stored hlast).1 _ result approved router)
  | @resumeExecution index router stored hm =>
    obtain ⟨state, next, ht, hreconciling, hcall, hround⟩ := continues_execution hcontinues hm
    have halike := (h.kept.thread _ _ ht).alike (calling_of_reconciling hreconciling) stored
      (List.mem_of_getElem? hm) hcall hround
    exact .of_thread hkept (congrArg some (enter_execution ..))
      (bounded_resumeExecution (h.thread _ _ ht) hreconciling halike.charges _ router)

theorem inductive_paced (env : Env) (runId repoId : String) :
    ((course env (initialState env.settings runId repoId)).only fun w e => steady w e = true).Inductive
      (Paced env.settings) where
  start hs := by
    obtain rfl := hs
    exact ⟨(inductive_kept env runId repoId).start rfl, fun _ => rfl, fun _ _ ht => by cases ht⟩
  step h hs := paced_step h hs.1 hs.2

/-- The planner's calls and the nodes of a run are bounded by its settings and its pauses. -/
theorem graph_terminates (env : Env) (runId repoId : String) {w : Course}
    (hw : ((course env (initialState env.settings runId repoId)).only fun w e => steady w e = true).Reachable w) :
    w.visits.count .planNextAction ≤ env.settings.agentMaxPlannerCalls + 1 ∧
      w.visits.length ≤ 9 * (env.settings.agentMaxPlannerCalls + 1) + 3 * env.settings.mcpToolRouterMaxRounds + 5 +
        11 * w.pauses := by
  have hpaced := (inductive_paced env runId repoId).reachable hw
  cases ht : w.repair.thread with
  | none =>
    rw [hpaced.fresh ht]
    exact ⟨Nat.zero_le _, Nat.zero_le _⟩
  | some thread =>
    have hbounded := hpaced.thread _ _ ht
    have hwithin := (hpaced.kept.thread _ _ ht).within
    constructor
    · rw [hbounded.plans]
      rcases hwithin.planner with hp | ⟨hp, _⟩ <;> omega
    · have hnodes := hbounded.nodes
      unfold firstNodes at hnodes
      omega

theorem graph_terminates_sample : ∃ w,
    ((course sampleEnv (initialState sampleSettings "run" "repo")).only fun w e => steady w e = true).Reachable w ∧
    w.pauses = 1 ∧ w.visits.count .planNextAction = 3 ∧ w.visits.length ≤ 9 * 13 + 3 * 2 + 5 + 11 := by
  obtain ⟨w, hw⟩ : ∃ w, resumedOnceSteps.foldlM (fun w e => if steady w e = true then
      Course.step sampleEnv (initialState sampleSettings "run" "repo") w e else none) Course.empty = some w := ⟨_, rfl⟩
  have hreach : ((course sampleEnv (initialState sampleSettings "run" "repo")).only fun w e =>
      steady w e = true).Reachable w := ⟨_, resumedOnceSteps, rfl, .only_of_foldlM hw⟩
  have hnodes := (graph_terminates sampleEnv "run" "repo" hreach).2
  obtain rfl := Option.some.inj hw
  exact ⟨_, hreach, rfl, rfl, hnodes⟩

end CodeMate.Agent
