import CodeMate.Agent.Budgets

/-!
# Requests that are not repeated

The local executor rejects an action whose fingerprint is in the history of the
state, and a patch is applied only when its fingerprint is new. The history of
the actions has `agentMaxActionHistory` entries, whatever the number of tool
calls that a run may make: `action_repeated` is a run in which an action has
fallen out of it and is dispatched again.

`requests_distinct`: where every dispatch comes with at most so many calls
before it, every resume goes on with the history of the thread and no node
crashes after its tool call or its patch (`remembers`), no fingerprint is
dispatched twice and no text is applied twice. `remembers_node`: the first of
the three holds in every run where the tool calls are limited to one more than
the history has entries.
-/

namespace CodeMate.Agent

open Framework Mcp Verification

/-- The text of a patch that an event applies. -/
def Event.patch? : Event → Option String
  | .applied patch _ => some patch
  | _ => none

/-- The patches that a run applied, the last one first; the replay of a saved patch is none of them. -/
def Repair.applied (w : Repair) : List String := w.log.filterMap Event.patch?

/-- A run with the actions that its local tools were called for, the last one first. -/
structure Acted where
  repair : Repair
  dispatched : List Action

def Acted.empty : Acted := ⟨Repair.empty, []⟩

variable (env : Env) (input : FixAgentState)

/-- The tool calls of a step; the flag says whether a node that crashes had made its call. -/
def dispatchedBy (w : Repair) : Step × Bool → List Action
  | (.node node reply, _) => (w.thread.map fun thread => dispatches env thread.1 node reply).getD []
  | (.crash node reply _ _, true) => (w.thread.map fun thread => dispatches env thread.1 node reply).getD []
  | _ => []

def Acted.step (w : Acted) (e : Step × Bool) : Option Acted :=
  (Agent.step env input w.repair e.1).map fun repair => ⟨repair, dispatchedBy env w.repair e ++ w.dispatched⟩

/-- The runs of one agent run, with its tool calls. -/
def acted : System Acted (Step × Bool) := .ofStep (· = Acted.empty) (Acted.step env input)

/-- The two states have the same history of requests. -/
def sameRequests (stored state : FixAgentState) : Bool :=
  stored.localToolCallCount == state.localToolCallCount &&
    stored.localActionFingerprints == state.localActionFingerprints &&
    stored.patchFingerprints == state.patchFingerprints

/-- The history has an entry for all that the run has done before a dispatch, and
for all that it will have done after the step. -/
def remembers (w : Acted) : Step × Bool → Bool
  | (.node node reply, _) => w.repair.thread.all fun thread =>
    (dispatches env thread.1 node reply).isEmpty ||
      decide (thread.1.localToolCallCount ≤ env.settings.agentMaxActionHistory)
  | (.crash node reply events saved, called) =>
    (dispatchedBy env w.repair (.crash node reply events saved, called)).isEmpty &&
      (node != .applyPatch || events == 0)
  | (.resumeApproval index _ _, _) | (.resumeExecution index, _) =>
    w.repair.saved[index]?.all fun stored => w.repair.thread.any fun thread => sameRequests stored thread.1
  | (.invoke, _) => true

/-- No tool call of the run has the fingerprint of another, and no two applied patches have the same text. -/
def Distinct (w : Acted) : Prop :=
  (w.dispatched.map (·.fingerprint env.codec)).Nodup ∧ w.repair.applied.Nodup

/-! ## What the nodes do to the history -/

/-- What the replay checks read, and the iterations that bound the patches. -/
structure Marks where
  toolCalls : Nat
  actions : List String
  patches : List String
  iterations : Nat
  maxIterations : Nat

def FixAgentState.marks (v : FixAgentState) : Marks where
  toolCalls := v.localToolCallCount
  actions := v.localActionFingerprints
  patches := v.patchFingerprints
  iterations := v.iterations
  maxIterations := v.maxIterations

/-- The nodes that deal with a request. -/
def Node.requests : Node → Bool
  | executeLocalAction | generatePatch | applyPatch | targetedTests => true
  | _ => false

variable {env} {state state' : FixAgentState} {node : Node} {next : Option Node}

theorem planMCPTools_marks (planning : Planning) :
    (planMCPTools env state planning).state.marks = state.marks ∧
      ∀ stored ∈ (planMCPTools env state planning).saved, stored.marks = state.marks := by
  rcases planMCPTools_cases env state planning with h | ⟨_, _, _, _, ⟨_, h⟩ | ⟨_, _, h⟩⟩
  · rw [h]
    exact ⟨rfl, List.forall_mem_nil _⟩
  · rw [h]
    exact ⟨rfl, List.forall_mem_nil _⟩
  · rw [h]
    exact ⟨rfl, List.forall_mem_singleton.mpr rfl⟩

theorem callMCPTools_marks (calling : Calling) :
    (callMCPTools env state calling).state.marks = state.marks ∧
      ∀ stored ∈ (callMCPTools env state calling).saved, stored.marks = state.marks := by
  unfold callMCPTools
  split
  · obtain ⟨hsaved, hstate⟩ := callMCPToolsFrom_cases env calling state
      (state.mcpToolPlan.calls.drop state.mcpCallCursor) state.mcpCallCursor state.mcpRoundResults
    refine ⟨?_, fun stored hm => ?_⟩
    · rcases hstate with ⟨made, h⟩ | ⟨index, executionId, made, h⟩ <;> rw [h] <;> rfl
    · obtain ⟨index, made, _, _, rfl⟩ := hsaved stored hm
      rfl
  · exact ⟨rfl, List.forall_mem_nil _⟩

/-- The other nodes leave the history alone, and so do the states that they store. -/
theorem run_marks (env : Env) (state : FixAgentState) (h : node.requests = false) (reply : node.Reply) :
    (node.run env state reply).state.marks = state.marks ∧
      ∀ stored ∈ (node.run env state reply).saved, stored.marks = state.marks := by
  cases node <;> try cases h
  case planMCPTools => exact planMCPTools_marks reply
  case callMCPTools => exact callMCPTools_marks reply
  all_goals exact ⟨rfl, List.forall_mem_nil _⟩

/-- The other nodes do not lead to the application of a patch. -/
theorem after_requests (state : FixAgentState) (h : node.requests = false) :
    after node state ≠ some .applyPatch ∧ after node state ≠ some .targetedTests := by
  cases node <;> try cases h
  case reproduceFailure =>
    dsimp only [after]
    split <;> exact ⟨by decide, by decide⟩
  case planMCPTools =>
    dsimp only [after, afterMcpPlan]
    split
    · exact ⟨by decide, by decide⟩
    · split <;> exact ⟨by decide, by decide⟩
  case callMCPTools =>
    dsimp only [after, afterMcpCall]
    split <;> exact ⟨by decide, by decide⟩
  case observeMCP =>
    dsimp only [after, afterMcpObserve]
    split
    · exact ⟨by decide, by decide⟩
    · split <;> exact ⟨by decide, by decide⟩
  case regressionChecks =>
    dsimp only [after, afterRegressionChecks]
    split <;> exact ⟨by decide, by decide⟩
  case reflect =>
    dsimp only [after, afterReflect]
    split <;> exact ⟨by decide, by decide⟩
  all_goals exact ⟨by simp [after], by simp [after]⟩

/-- Only the application of a patch applies one. -/
theorem run_patch (env : Env) (state : FixAgentState) (h : node ≠ .applyPatch) (reply : node.Reply) :
    ∀ event ∈ (node.run env state reply).events, event.patch? = none := by
  have hone (event : Event) (he : event.patch? = none) : ∀ e ∈ [event], e.patch? = none := by
    intro e hm
    obtain rfl := List.mem_singleton.mp hm
    exact he
  by_cases hi : node.investigates = true
  · intro event hm
    have hpatch := (run_investigates env state hi reply).events event hm
    cases event with
    | applied => cases hpatch
    | _ => rfl
  · cases node <;> try exact absurd rfl hi
    case applyPatch => exact absurd rfl h
    case targetedTests =>
      dsimp only [Node.run, targetedTests]
      split
      · exact hone _ rfl
      · exact List.forall_mem_nil _
    case reproduceFailure => exact hone _ rfl
    case regressionChecks => exact hone _ rfl
    all_goals exact List.forall_mem_nil _

/-- The executor dispatches nothing and leaves the history alone, or it dispatches a
new action and enters it. -/
theorem execute_marks (s : Settings) (codec : Codec) (state : FixAgentState) (rawAction : Option Action)
    (now : Nat) (result : Json) :
    (LocalAgentExecutor.execute s codec state rawAction now result).2 = none ∧
        (LocalAgentExecutor.execute s codec state rawAction now result).1.marks = state.marks ∨
      ∃ action, (LocalAgentExecutor.execute s codec state rawAction now result).2 = some action ∧
        action.fingerprint codec ∉ state.localActionFingerprints ∧
        (LocalAgentExecutor.execute s codec state rawAction now result).1.marks =
          { state.marks with
            toolCalls := state.localToolCallCount + 1
            actions := lastItems s.agentMaxActionHistory
              (state.localActionFingerprints ++ [action.fingerprint codec]) } := by
  unfold LocalAgentExecutor.execute
  split
  · exact .inl ⟨rfl, rfl⟩
  · exact .inl ⟨rfl, rfl⟩
  · exact .inl ⟨rfl, rfl⟩
  split
  · exact .inl ⟨rfl, rfl⟩
  split
  · exact .inl ⟨rfl, rfl⟩
  next action _ _ _ _ _ hrejection =>
    refine .inr ⟨_, rfl, fun hm => ?_, rfl⟩
    unfold LocalAgentExecutor.toolRejection at hrejection
    rw [if_pos hm] at hrejection
    cases hrejection

theorem executeLocalAction_marks (observed : Observed) :
    dispatches env state .executeLocalAction observed = [] ∧
        (Node.executeLocalAction.run env state observed).state.marks = state.marks ∨
      ∃ action, dispatches env state .executeLocalAction observed = [action] ∧
        action.fingerprint env.codec ∉ state.localActionFingerprints ∧
        (Node.executeLocalAction.run env state observed).state.marks =
          { state.marks with
            toolCalls := state.localToolCallCount + 1
            actions := lastItems env.settings.agentMaxActionHistory
              (state.localActionFingerprints ++ [action.fingerprint env.codec]) } := by
  obtain ⟨result, hrun⟩ := executeLocalAction_run env state observed
  have hran := execute_ran env.settings env.codec state state.currentAction observed.now result observed.result
  rw [hrun]
  unfold dispatches
  dsimp only
  rw [← hran]
  rcases execute_marks env.settings env.codec state state.currentAction observed.now result with
    ⟨hnone, hmarks⟩ | ⟨action, hsome, hnew, hmarks⟩
  · rw [hnone]
    exact .inl ⟨rfl, hmarks⟩
  · rw [hsome]
    exact .inr ⟨action, rfl, hnew, hmarks⟩

/-! ## What a run keeps -/

/-- The nodes before which the iterations may be used up. -/
def Node.spent : Node → Bool
  | regressionChecks | finalAnswer => true
  | _ => false

/-- The nodes between the generation of a patch and the count of its iteration. -/
def untested : Option Node → Nat
  | some .applyPatch | some .targetedTests => 1
  | _ => 0

/-- A state from which another patch can be entered. -/
structure Spare (s : Settings) (state : FixAgentState) : Prop where
  limit : state.marks.maxIterations = s.maxAgentIterations
  left : state.marks.iterations < s.maxAgentIterations
  room : state.marks.patches.length ≤ state.marks.iterations

/-- What the run has done is in the history of the state, with room for what it may do. -/
structure Recorded (env : Env) (w : Acted) (state : FixAgentState) (next : Option Node) : Prop where
  counted : w.dispatched.length = state.marks.toolCalls
  actions : state.marks.toolCalls ≤ env.settings.agentMaxActionHistory →
    state.marks.actions = (w.dispatched.map (·.fingerprint env.codec)).reverse
  patches : ∀ patch ∈ w.repair.applied, env.codec.sha256 patch ∈ state.marks.patches
  complete : next = none → checkpointIsComplete state = true
  limit : state.marks.maxIterations = env.settings.maxAgentIterations
  left : ∀ node, next = some node → node.spent = false →
    state.marks.iterations < env.settings.maxAgentIterations
  room : state.marks.patches.length ≤ state.marks.iterations + untested next
  fresh : next = some .applyPatch → state.patch.getD "" ∉ w.repair.applied ∧
    env.codec.sha256 (state.patch.getD "") ∈ state.marks.patches

/-- What a run keeps. -/
structure Remembered (env : Env) (w : Acted) : Prop where
  distinct : Distinct env w
  saved : ∀ stored ∈ w.repair.saved, Spare env.settings stored
  start : w.repair.thread = none → w.dispatched = [] ∧ w.repair.applied = []
  thread : ∀ state next, w.repair.thread = some (state, next) → Recorded env w state next

variable {w w' : Acted}

theorem untested_of_ne (happly : next ≠ some .applyPatch) (htests : next ≠ some .targetedTests) :
    untested next = 0 := by
  unfold untested
  split
  · exact absurd rfl happly
  · exact absurd rfl htests
  · rfl

theorem Recorded.spare (h : Recorded env w state (some node)) (hspent : node.spent = false)
    (hrequests : node.requests = false) : Spare env.settings state := by
  have hroom := h.room
  rw [untested_of_ne (fun hn => by obtain rfl := Option.some.inj hn; cases hrequests)
    (fun hn => by obtain rfl := Option.some.inj hn; cases hrequests)] at hroom
  exact ⟨h.limit, h.left node rfl hspent, hroom⟩

/-- A step with no dispatch and no patch, after which no patch is about to be applied. -/
theorem Recorded.same (h : Recorded env w state next) {next' : Option Node} (hmarks : state'.marks = state.marks)
    (hdispatched : w'.dispatched = w.dispatched) (happlied : w'.repair.applied = w.repair.applied)
    (hcomplete : next' = none → checkpointIsComplete state' = true)
    (hleft : ∀ node, next' = some node → node.spent = false →
      state.marks.iterations < env.settings.maxAgentIterations)
    (hroom : state.marks.patches.length ≤ state.marks.iterations)
    (happly : next' ≠ some .applyPatch) : Recorded env w' state' next' := by
  refine ⟨?_, ?_, ?_, hcomplete, ?_, ?_, ?_, fun hn => absurd hn happly⟩
  · rw [hdispatched, hmarks]
    exact h.counted
  · rw [hdispatched, hmarks]
    exact h.actions
  · rw [happlied, hmarks]
    exact h.patches
  · rw [hmarks]
    exact h.limit
  · rw [hmarks]
    exact hleft
  · rw [hmarks]
    exact hroom.trans (Nat.le_add_right _ _)

/-- A node that deals with no request. -/
theorem recorded_idle (h : Recorded env w state (some node)) (hnode : node.requests = false) (reply : node.Reply)
    (hdispatched : w'.dispatched = w.dispatched) (happlied : w'.repair.applied = w.repair.applied) :
    Recorded env w' (node.run env state reply).state (after node (node.run env state reply).state) := by
  obtain ⟨hmarks, _⟩ := run_marks env state hnode reply
  have hroom := h.room
  rw [untested_of_ne (fun hn => by obtain rfl := Option.some.inj hn; cases hnode)
    (fun hn => by obtain rfl := Option.some.inj hn; cases hnode)] at hroom
  refine h.same hmarks hdispatched happlied (run_complete env state reply) (fun other hother hspent => ?_) hroom
    (after_requests _ hnode).1
  by_cases hleft : node.spent = false
  · exact h.left node rfl hleft
  · cases node <;> try exact absurd rfl hleft
    case finalAnswer => cases hother
    case regressionChecks =>
      rcases afterRegressionChecks_le (Node.regressionChecks.run env state reply).state with hend | ⟨_, hlt⟩
      · change some (afterRegressionChecks _) = _ at hother
        rw [hend] at hother
        obtain rfl := Option.some.inj hother
        cases hspent
      · exact hlt.trans_eq h.limit

theorem afterLocalAction_ne (state : FixAgentState) : afterLocalAction state ≠ .applyPatch := by
  unfold afterLocalAction
  split <;> decide

/-- An action that is dispatched is new, as long as the history has all of them. -/
theorem recorded_execute (h : Recorded env w state (some .executeLocalAction)) (hdistinct : Distinct env w)
    (observed : Observed) (happlied : w'.repair.applied = w.repair.applied)
    (hdispatched : w'.dispatched = dispatches env state .executeLocalAction observed ++ w.dispatched)
    (hcovered : dispatches env state .executeLocalAction observed = [] ∨
      state.localToolCallCount ≤ env.settings.agentMaxActionHistory) :
    (w'.dispatched.map (·.fingerprint env.codec)).Nodup ∧
      Recorded env w' (Node.executeLocalAction.run env state observed).state
        (some (afterLocalAction (Node.executeLocalAction.run env state observed).state)) := by
  have hnext : some (afterLocalAction (Node.executeLocalAction.run env state observed).state) ≠ some .applyPatch :=
    fun hn => afterLocalAction_ne _ (Option.some.inj hn)
  rcases executeLocalAction_marks observed with ⟨hnone, hmarks⟩ | ⟨action, hone, hnew, hmarks⟩
  · rw [hnone] at hdispatched
    refine ⟨?_, h.same hmarks hdispatched happlied (fun hn => by cases hn) (fun _ _ _ => h.left _ rfl rfl) h.room
      hnext⟩
    rw [hdispatched]
    exact hdistinct.1
  · rw [hone] at hdispatched hcovered
    have hle : state.localToolCallCount ≤ env.settings.agentMaxActionHistory :=
      hcovered.resolve_left (List.cons_ne_nil _ _)
    have hactions := h.actions hle
    have hcounted := h.counted
    have hlength : state.localActionFingerprints.length = state.localToolCallCount := by
      change state.localActionFingerprints = _ at hactions
      rw [hactions, List.length_reverse, List.length_map]
      exact hcounted
    refine ⟨?_, ?_, fun hle' => ?_, ?_, (fun hn => by cases hn), ?_, fun _ _ _ => ?_, ?_, fun hn => absurd hn hnext⟩
    · rw [hdispatched]
      refine List.nodup_cons.mpr ⟨fun hm => hnew ?_, hdistinct.1⟩
      change state.localActionFingerprints = _ at hactions
      rw [hactions]
      exact List.mem_reverse.mpr hm
    · rw [hdispatched, hmarks]
      show w.dispatched.length + 1 = state.localToolCallCount + 1
      rw [hcounted]
      rfl
    · rw [hmarks] at hle' ⊢
      show lastItems _ _ = _
      have hfits : (state.localActionFingerprints ++ [action.fingerprint env.codec]).length ≤
          env.settings.agentMaxActionHistory := by
        rw [List.length_append, hlength]
        exact hle'
      change state.localActionFingerprints = _ at hactions
      rw [lastItems_of_le hfits, hdispatched, hactions]
      simp
    · rw [happlied, hmarks]
      exact h.patches
    · rw [hmarks]
      exact h.limit
    · rw [hmarks]
      exact h.left _ rfl rfl
    · rw [hmarks]
      exact h.room.trans (Nat.le_add_right _ _)

/-- A patch that is not rejected is new, and has room in the history. -/
theorem recorded_generate (h : Recorded env w state (some .generatePatch)) (patch : String)
    (hdispatched : w'.dispatched = w.dispatched) (happlied : w'.repair.applied = w.repair.applied) :
    Recorded env w' (generatePatch env state patch)
      (some (afterPatchGeneration (generatePatch env state patch))) := by
  by_cases hduplicate : env.codec.sha256 patch ∈ state.patchFingerprints
  · have hnext : afterPatchGeneration (generatePatch env state patch) = .planNextAction := by
      unfold afterPatchGeneration generatePatch
      simp [hduplicate]
    have hmarks : (generatePatch env state patch).marks = state.marks := by
      unfold FixAgentState.marks generatePatch
      simp [hduplicate]
    rw [hnext]
    exact h.same hmarks hdispatched happlied (fun hn => by cases hn) (fun _ _ _ => h.left _ rfl rfl) h.room
      (by decide)
  · have hroom : state.patchFingerprints.length ≤ state.iterations := h.room
    have hleft : state.iterations < env.settings.maxAgentIterations := h.left _ rfl rfl
    have hnext : afterPatchGeneration (generatePatch env state patch) = .applyPatch := by
      unfold afterPatchGeneration generatePatch
      simp [hduplicate]
    have hpatches : (generatePatch env state patch).patchFingerprints =
        state.patchFingerprints ++ [env.codec.sha256 patch] := by
      unfold generatePatch
      dsimp only
      rw [if_neg hduplicate, lastItems_of_le]
      rw [List.length_append, List.length_singleton]
      omega
    rw [hnext]
    refine ⟨?_, ?_, fun old hm => ?_, (fun hn => by cases hn), h.limit, fun _ _ _ => hleft, ?_, fun _ => ⟨?_, ?_⟩⟩
    · rw [hdispatched]
      exact h.counted
    · rw [hdispatched]
      exact h.actions
    · rw [happlied] at hm
      show _ ∈ (generatePatch env state patch).patchFingerprints
      rw [hpatches]
      exact List.mem_append_left _ (h.patches old hm)
    · show (generatePatch env state patch).patchFingerprints.length ≤ state.iterations + 1
      rw [hpatches, List.length_append, List.length_singleton]
      omega
    · rw [happlied]
      exact fun hm => hduplicate (h.patches patch hm)
    · show _ ∈ (generatePatch env state patch).patchFingerprints
      rw [hpatches]
      exact List.mem_append_right _ (List.mem_singleton_self _)

/-- A patch that is applied is one that was not applied before. -/
theorem recorded_apply (h : Recorded env w state (some .applyPatch)) (hdistinct : Distinct env w) (result : Json)
    (hdispatched : w'.dispatched = w.dispatched)
    (happlied : w'.repair.applied = state.patch.getD "" :: w.repair.applied) :
    w'.repair.applied.Nodup ∧
      Recorded env w' (Node.applyPatch.run env state result).state (some .targetedTests) := by
  obtain ⟨hnew, hentered⟩ := h.fresh rfl
  refine ⟨?_, ?_, ?_, fun patch hm => ?_, (fun hn => by cases hn), h.limit, fun _ _ _ => h.left _ rfl rfl, h.room,
    fun hn => by cases hn⟩
  · rw [happlied]
    exact List.nodup_cons.mpr ⟨hnew, hdistinct.2⟩
  · rw [hdispatched]
    exact h.counted
  · rw [hdispatched]
    exact h.actions
  · rw [happlied] at hm
    rcases List.mem_cons.mp hm with rfl | hm
    · exact hentered
    · exact h.patches patch hm

/-- The tests of a patch count its iteration. -/
theorem recorded_tests (h : Recorded env w state (some .targetedTests)) (result : Json)
    (hdispatched : w'.dispatched = w.dispatched) (happlied : w'.repair.applied = w.repair.applied) :
    Recorded env w' (targetedTests state result).state
      (some (afterTargetedTests (targetedTests state result).state)) := by
  have hroom : state.patchFingerprints.length ≤ state.iterations + 1 := h.room
  have hnext := afterTargetedTests_le (targetedTests state result).state
  refine ⟨?_, ?_, ?_, (fun hn => by cases hn), h.limit, fun other hother hspent => ?_, ?_, fun hn => ?_⟩
  · rw [hdispatched]
    exact h.counted
  · rw [hdispatched]
    exact h.actions
  · rw [happlied]
    exact h.patches
  · obtain rfl := Option.some.inj hother
    rcases hnext with hn | hn | ⟨_, hlt⟩
    · rw [hn] at hspent
      cases hspent
    · rw [hn] at hspent
      cases hspent
    · exact hlt.trans_eq h.limit
  · exact hroom.trans (Nat.le_add_right _ _)
  · rcases hnext with h | h | ⟨h, _⟩ <;> rw [h] at hn <;> cases hn

theorem applied_note (w : Repair) (events : List Event) (saved : List FixAgentState) :
    (w.note events saved).applied = (events.filterMap Event.patch?).reverse ++ w.applied := by
  simp [Repair.applied, Repair.note]

/-- Events that apply no patch do not show among the applied ones. -/
theorem applied_quiet {w : Repair} {events : List Event} {saved : List FixAgentState}
    (h : ∀ event ∈ events, event.patch? = none) : (w.note events saved).applied = w.applied := by
  rw [applied_note, List.filterMap_eq_nil_iff.mpr h]
  rfl

/-- What a node stores has room for another patch. -/
theorem run_spare (h : Recorded env w state (some node)) (reply : node.Reply) :
    ∀ stored ∈ (node.run env state reply).saved, Spare env.settings stored := by
  intro stored hm
  by_cases hnode : node.requests = false ∧ node.spent = false
  · have hspare := h.spare hnode.2 hnode.1
    have hmarks := (run_marks env state hnode.1 reply).2 stored hm
    refine ⟨?_, ?_, ?_⟩
    · rw [hmarks]
      exact hspare.limit
    · rw [hmarks]
      exact hspare.left
    · rw [hmarks]
      exact hspare.room
  · cases node <;> first | exact absurd ⟨rfl, rfl⟩ hnode | cases hm

theorem remembered_node (h : Remembered env w) (ht : w.repair.thread = some (state, some node)) (reply : node.Reply)
    (hcovered : dispatches env state node reply = [] ∨
      state.localToolCallCount ≤ env.settings.agentMaxActionHistory)
    (hthread : w'.repair.thread =
      some ((node.run env state reply).state, after node (node.run env state reply).state))
    (hsaved : w'.repair.saved = w.repair.saved ++ (node.run env state reply).saved)
    (happlied : w'.repair.applied =
      ((node.run env state reply).events.filterMap Event.patch?).reverse ++ w.repair.applied)
    (hdispatched : w'.dispatched = dispatches env state node reply ++ w.dispatched) : Remembered env w' := by
  have hrecorded := h.thread state _ ht
  have hquiet (hn : node ≠ .applyPatch) : w'.repair.applied = w.repair.applied := by
    rw [happlied, List.filterMap_eq_nil_iff.mpr (run_patch env state hn reply)]
    rfl
  have hall : Distinct env w' ∧
      Recorded env w' (node.run env state reply).state (after node (node.run env state reply).state) := by
    by_cases hnode : node.requests = false
    · have hnone : dispatches env state node reply = [] := by
        cases node <;> first | rfl | cases hnode
      have happly : node ≠ .applyPatch := fun hn => by
        rw [hn] at hnode
        cases hnode
      rw [hnone] at hdispatched
      refine ⟨?_, recorded_idle hrecorded hnode reply hdispatched (hquiet happly)⟩
      unfold Distinct
      rw [hdispatched, hquiet happly]
      exact h.distinct
    · cases node <;> try exact absurd rfl hnode
      case executeLocalAction =>
        have hsame := hquiet (by decide)
        obtain ⟨hnodup, hnext⟩ := recorded_execute hrecorded h.distinct reply hsame hdispatched hcovered
        exact ⟨⟨hnodup, hsame ▸ h.distinct.2⟩, hnext⟩
      case generatePatch =>
        have hsame := hquiet (by decide)
        refine ⟨?_, recorded_generate hrecorded reply hdispatched hsame⟩
        unfold Distinct
        rw [hdispatched, hsame]
        exact h.distinct
      case applyPatch =>
        obtain ⟨hnodup, hnext⟩ := recorded_apply hrecorded h.distinct reply hdispatched happlied
        refine ⟨⟨?_, hnodup⟩, hnext⟩
        rw [hdispatched]
        exact h.distinct.1
      case targetedTests =>
        have hsame := hquiet (by decide)
        refine ⟨?_, recorded_tests hrecorded reply hdispatched hsame⟩
        unfold Distinct
        rw [hdispatched, hsame]
        exact h.distinct
  refine ⟨hall.1, fun stored hm => ?_, fun hn => ?_, fun state' next' ht' => ?_⟩
  · rw [hsaved] at hm
    rcases List.mem_append.mp hm with hm | hm
    · exact h.saved stored hm
    · exact run_spare hrecorded reply stored hm
  · rw [hthread] at hn
    cases hn
  · rw [hthread] at ht'
    obtain ⟨rfl, rfl⟩ := Prod.mk.inj (Option.some.inj ht')
    exact hall.2

/-- A step that leaves the thread where it is. -/
theorem Remembered.stay (h : Remembered env w) (hthread : w'.repair.thread = w.repair.thread)
    (hdispatched : w'.dispatched = w.dispatched) (happlied : w'.repair.applied = w.repair.applied)
    (hsaved : ∀ stored ∈ w'.repair.saved, Spare env.settings stored) : Remembered env w' := by
  have hdistinct : Distinct env w' := by
    unfold Distinct
    rw [hdispatched, happlied]
    exact h.distinct
  refine ⟨hdistinct, hsaved, fun hn => ?_, fun state next ht => ?_⟩
  · rw [hdispatched, happlied]
    exact h.start (hthread ▸ hn)
  · have hrecorded := h.thread state next (hthread ▸ ht)
    refine ⟨?_, ?_, ?_, hrecorded.complete, hrecorded.limit, hrecorded.left, hrecorded.room, ?_⟩
    · rw [hdispatched]
      exact hrecorded.counted
    · rw [hdispatched]
      exact hrecorded.actions
    · rw [happlied]
      exact hrecorded.patches
    · rw [happlied]
      exact hrecorded.fresh

theorem remembered_invoke {runId repoId : String} (h : Remembered env w) (hvalid : env.settings.valid) :
    Remembered env ⟨invoke (initialState env.settings runId repoId) w.repair, w.dispatched⟩ := by
  cases ht : w.repair.thread with
  | none =>
    obtain ⟨hdispatched, happlied⟩ := h.start ht
    unfold invoke
    rw [ht]
    refine ⟨h.distinct, h.saved, (fun hn => by cases hn), fun state next hs => ?_⟩
    obtain ⟨rfl, rfl⟩ := Prod.mk.inj (Option.some.inj hs)
    refine ⟨?_, fun _ => ?_, fun patch hm => ?_, (fun hn => by cases hn), rfl, fun _ _ _ => ?_, Nat.zero_le _,
      fun hn => by cases hn⟩
    · rw [hdispatched]
      rfl
    · rw [hdispatched]
      rfl
    · have hm' : patch ∈ w.repair.applied := hm
      rw [happlied] at hm'
      exact absurd hm' List.not_mem_nil
    · exact hvalid.1
  | some thread =>
    obtain ⟨state, next⟩ := thread
    cases next with
    | none =>
      unfold invoke
      simp only [ht, (h.thread state none ht).complete rfl, if_true]
      exact h
    | some next =>
      unfold invoke
      simp only [ht]
      refine h.stay rfl rfl (applied_quiet fun event hm => ?_) fun stored hm => ?_
      · obtain ⟨patch, _, rfl⟩ := Option.map_eq_some_iff.mp (Option.mem_toList.mp hm)
        rfl
      · exact h.saved stored (by simpa [Repair.note] using hm)

theorem remembered_resume (h : Remembered env w) {stored resumed old : FixAgentState} {next : Node}
    {oldNext : Option Node} (hm : stored ∈ w.repair.saved) (ht : w.repair.thread = some (old, oldNext))
    (hsame : sameRequests stored old = true) (hmarks : resumed.marks = stored.marks)
    (hnext : next = .observeMCP ∨ next = .callMCPTools) :
    Remembered env ⟨{ w.repair with thread := some (resumed, some next) }, w.dispatched⟩ := by
  have hrecorded := h.thread old oldNext ht
  have hspare := h.saved stored hm
  simp only [sameRequests, Bool.and_eq_true, beq_iff_eq] at hsame
  obtain ⟨⟨hcalls, hactions⟩, hpatches⟩ := hsame
  refine ⟨h.distinct, h.saved, (fun hn => by cases hn), fun state next' hs => ?_⟩
  obtain ⟨rfl, rfl⟩ := Prod.mk.inj (Option.some.inj hs)
  refine ⟨?_, ?_, ?_, (fun hn => by cases hn), ?_, fun _ _ _ => ?_, ?_, fun hn => ?_⟩
  · rw [hmarks]
    exact hrecorded.counted.trans hcalls.symm
  · rw [hmarks]
    intro hle
    exact hactions.trans (hrecorded.actions (hcalls.symm.trans_le hle))
  · rw [hmarks]
    intro patch happlied
    show _ ∈ stored.patchFingerprints
    rw [hpatches]
    exact hrecorded.patches patch happlied
  · rw [hmarks]
    exact hspare.limit
  · rw [hmarks]
    exact hspare.left
  · rw [hmarks]
    exact hspare.room.trans (Nat.le_add_right _ _)
  · rcases hnext with rfl | rfl <;> cases hn

/-- The resume that the condition admits goes on with the history of the thread. -/
theorem remembers_resume {index : Nat} {stored : FixAgentState} (hm : w.repair.saved[index]? = some stored)
    (h : (w.repair.saved[index]?.all fun stored => w.repair.thread.any fun thread =>
      sameRequests stored thread.1) = true) :
    ∃ old oldNext, w.repair.thread = some (old, oldNext) ∧ sameRequests stored old = true := by
  rw [hm] at h
  cases ht : w.repair.thread with
  | none =>
    rw [ht] at h
    cases h
  | some thread =>
    rw [ht] at h
    exact ⟨thread.1, thread.2, rfl, h⟩

theorem remembered_step {runId repoId : String} {e : Step × Bool} (hvalid : env.settings.valid)
    (h : Remembered env w) (hremembers : remembers env w e = true)
    (hs : Acted.step env (initialState env.settings runId repoId) w e = some w') : Remembered env w' := by
  obtain ⟨repair, hstep, rfl⟩ := Option.map_eq_some_iff.mp hs
  obtain ⟨e, called⟩ := e
  cases e with
  | invoke =>
    obtain rfl := Option.some.inj hstep
    exact remembered_invoke h hvalid
  | node node reply =>
    cases step_move _ _ hstep with
    | @node _ _ state ht =>
      have hby : dispatchedBy env w.repair (.node node reply, called) = dispatches env state node reply := by
        unfold dispatchedBy
        rw [ht]
        rfl
      simp only [remembers, ht, Option.all_some, Bool.or_eq_true, List.isEmpty_iff,
        decide_eq_true_eq] at hremembers
      exact remembered_node h ht reply hremembers rfl rfl
        (applied_note w.repair _ (node.run env state reply).saved) (by rw [hby])
  | crash node reply events saved =>
    simp only [remembers, Bool.and_eq_true, List.isEmpty_iff] at hremembers
    obtain ⟨hnone, hpatch⟩ := hremembers
    cases step_move _ _ hstep with
    | @crash _ _ _ _ state ht =>
      refine h.stay rfl (by rw [hnone]; rfl) (applied_quiet fun event hm => ?_) fun stored hm => ?_
      · by_cases hnode : node = .applyPatch
        · have hzero : events = 0 := by simpa [hnode] using hpatch
          rw [hzero] at hm
          cases hm
        · exact run_patch env state hnode reply event (List.mem_of_mem_take hm)
      · rcases List.mem_append.mp hm with hm | hm
        · exact h.saved stored hm
        · exact run_spare (h.thread state _ ht) reply stored (List.mem_of_mem_take hm)
  | resumeApproval index result approved =>
    obtain ⟨stored, hm, rfl⟩ := Option.map_eq_some_iff.mp hstep
    obtain ⟨old, oldNext, ht, hsame⟩ := remembers_resume hm hremembers
    unfold resume
    rw [enter_approval]
    refine remembered_resume h (List.mem_of_getElem? hm) ht hsame ?_ (.inl rfl)
    cases w.repair.thread <;> rfl
  | resumeExecution index =>
    obtain ⟨stored, hm, rfl⟩ := Option.map_eq_some_iff.mp hstep
    obtain ⟨old, oldNext, ht, hsame⟩ := remembers_resume hm hremembers
    unfold resume
    rw [enter_execution]
    refine remembered_resume h (List.mem_of_getElem? hm) ht hsame ?_ (.inr rfl)
    cases w.repair.thread <;> rfl

theorem inductive_remembered (env : Env) (runId repoId : String) (hvalid : env.settings.valid) :
    ((acted env (initialState env.settings runId repoId)).only fun w e => remembers env w e = true).Inductive
      (Remembered env) where
  start hs := by
    obtain rfl := hs
    exact ⟨⟨List.nodup_nil, List.nodup_nil⟩, List.forall_mem_nil _, fun _ => ⟨rfl, rfl⟩,
      fun _ _ ht => by cases ht⟩
  step h hs := remembered_step hvalid h hs.1 hs.2

/-- In a run that remembers what it did, no request is dispatched and no patch applied a second time. -/
theorem requests_distinct (env : Env) (runId repoId : String) (hvalid : env.settings.valid) {w : Acted}
    (hw : ((acted env (initialState env.settings runId repoId)).only fun w e =>
      remembers env w e = true).Reachable w) : Distinct env w :=
  ((inductive_remembered env runId repoId hvalid).reachable hw).distinct

/-- The history never runs over where the tool calls are limited to one more than it has entries. -/
theorem remembers_node (hlimit : env.settings.agentMaxLocalToolCalls ≤ env.settings.agentMaxActionHistory + 1)
    (w : Acted) (node : Node) (reply : node.Reply) (called : Bool) :
    remembers env w (.node node reply, called) = true := by
  simp only [remembers, Option.all_eq_true, Bool.or_eq_true, List.isEmpty_iff, decide_eq_true_eq]
  intro thread _
  cases node <;> first | exact .inl rfl | skip
  case executeLocalAction =>
    refine or_iff_not_imp_left.mpr fun hne => ?_
    obtain ⟨action, ha⟩ := List.exists_mem_of_ne_nil _ hne
    have hlt := ((executeLocalAction_charges env thread.1 reply).2 action ha).1
    have hcalls : thread.1.localToolCallCount < env.settings.agentMaxLocalToolCalls := hlt
    omega

/-! ## An action that is repeated -/

def jsonText : Json → String
  | .str text => text
  | _ => ""

/-- Fingerprints that tell the patterns of two listings apart. -/
def listingCodec : Codec where
  canonicalJson value := jsonText ((value.get "pattern").getD .null)
  dumps := jsonText
  sha256 := id
  str _ := ""

/-- The sample settings with a history of as many actions. -/
def historyEnv (limit : Nat) : Env where
  settings := { sampleSettings with agentMaxActionHistory := limit }
  codec := listingCodec
  check _ _ := none

/-- A run that lists the files of a pattern, those of another one and those of the first one again. -/
def listingSteps : List Step :=
  reproducedSteps ++
    [.node .planNextAction ⟨1, .ok (.listFiles "*.py", 10)⟩, .node .executeLocalAction ⟨2, .str "a.py"⟩,
      .node .planNextAction ⟨3, .ok (.listFiles "*.md", 10)⟩, .node .executeLocalAction ⟨4, .str "b.md"⟩,
      .node .planNextAction ⟨5, .ok (.listFiles "*.py", 10)⟩, .node .executeLocalAction ⟨6, .str "a.py"⟩]

/-- A patch after it, that fails and is generated again. -/
def patchedSteps : List Step :=
  listingSteps ++
    [.node .planNextAction ⟨7, .ok (.generatePatch, 10)⟩, .node .executeLocalAction ⟨8, .null⟩,
      .node .planMCPTools ⟨false, [], [], ""⟩, .node .generatePatch "first",
      .node .applyPatch (.obj [("ok", .bool true)]), .node .targetedTests (testRan false), .node .reflect (),
      .node .planNextAction ⟨9, .ok (.generatePatch, 10)⟩, .node .executeLocalAction ⟨10, .null⟩,
      .node .planMCPTools ⟨false, [], [], ""⟩, .node .generatePatch "first"]

theorem requests_distinct_sample : ∃ w,
    ((acted (historyEnv 40) (initialState (historyEnv 40).settings "run" "repo")).only fun w e =>
      remembers (historyEnv 40) w e = true).Reachable w ∧
    w.dispatched = [.listFiles "*.md", .listFiles "*.py"] ∧ w.repair.applied = ["first"] ∧
    Distinct (historyEnv 40) w := by
  obtain ⟨w, hw⟩ : ∃ w, (patchedSteps.map fun e => (e, false)).foldlM (fun w e =>
      if remembers (historyEnv 40) w e = true then
        Acted.step (historyEnv 40) (initialState (historyEnv 40).settings "run" "repo") w e
      else none) Acted.empty = some w := ⟨_, rfl⟩
  have hreach : ((acted (historyEnv 40) (initialState (historyEnv 40).settings "run" "repo")).only fun w e =>
      remembers (historyEnv 40) w e = true).Reachable w := ⟨_, _, rfl, .only_of_foldlM hw⟩
  have hdistinct := requests_distinct (historyEnv 40) "run" "repo" (by decide) hreach
  obtain rfl := Option.some.inj hw
  exact ⟨_, hreach, rfl, rfl, hdistinct⟩

/-- A history of one action forgets the first listing with the second. -/
theorem action_repeated : ∃ w, (historyEnv 1).settings.valid ∧
    (acted (historyEnv 1) (initialState (historyEnv 1).settings "run" "repo")).Reachable w ∧
    w.dispatched = [.listFiles "*.py", .listFiles "*.md", .listFiles "*.py"] ∧ ¬ Distinct (historyEnv 1) w := by
  obtain ⟨w, hw⟩ : ∃ w, (listingSteps.map fun e => (e, false)).foldlM
      (Acted.step (historyEnv 1) (initialState (historyEnv 1).settings "run" "repo")) Acted.empty = some w := ⟨_, rfl⟩
  have hreach : (acted (historyEnv 1) (initialState (historyEnv 1).settings "run" "repo")).Reachable w :=
    ⟨_, _, rfl, .of_foldlM hw⟩
  obtain rfl := Option.some.inj hw
  exact ⟨_, by decide, hreach, rfl, fun h => absurd h.1 (by decide)⟩

end CodeMate.Agent
