import CodeMate.Framework.Log
import CodeMate.Agent.Graph
import CodeMate.Agent.RunRow

/-!
# The evidence of a verified success

What the state of a run says about its log. The results of a patch attempt are
left behind on every way back to the planner (`Evidence.Clean`), the node that
is next tells which of the results in the state belong to the last patch that
was applied (`Evidence.At`), and every step keeps this (`Inv`, `inductive_inv`),
also a resume from any state that was stored before.

`verified_success_sound`: a run that ends verified has a baseline that failed
before any patch, and both suites passed after the last patch was applied.
-/

namespace CodeMate.Agent

open Framework Mcp Verification

namespace Evidence

/-- The baseline ran before any patch was applied. -/
def Reproduced (log : List Event) (e : Evidence) : Prop :=
  .test .baseline e.resolvedTestCommand e.baseline ∈ Log.before Event.isPatch log

/-- No targeted result counts unless the patch failed to apply. -/
def Clean (e : Evidence) : Prop :=
  e.targeted = .obj [] ∨ ∃ result, e.applyResult = some result ∧ result.flag "ok" = false

/-- The patch and its result are those that were applied last. -/
def Applied (log : List Event) (e : Evidence) : Prop :=
  ∃ result, e.applyResult = some result ∧
    Log.last Event.isPatch log = some (.applied (e.patch.getD "") result)

/-- The targeted result was made since the last patch was applied. -/
def Targeted (log : List Event) (e : Evidence) : Prop :=
  .test .targeted e.resolvedTestCommand e.targeted ∈ Log.since Event.isPatch log

/-- The regression result was made since the last patch was applied. -/
def Regression (log : List Event) (e : Evidence) : Prop :=
  .test .regression e.regressionTestCommand e.regression ∈ Log.since Event.isPatch log

/-- Whether the last patch was applied. -/
def ok (e : Evidence) : Bool := (e.applyResult.getD (.obj [])).flag "ok"

/-- What the evidence says about the log when a node is next. -/
def At (log : List Event) (e : Evidence) : Node → Prop
  | .inspectRepository | .reproduceFailure => (∀ event ∈ log, event.isPatch = false) ∧ e.targeted = .obj []
  | .targetedTests => Reproduced log e ∧ Applied log e
  | .regressionChecks =>
    Reproduced log e ∧ Applied log e ∧ e.ok = true ∧ classifyTestResult e.targeted = .passed ∧ Targeted log e
  | .reflect => Reproduced log e
  | .finalAnswer =>
    Reproduced log e ∧ (e.ok = true → classifyTestResult e.targeted = .passed →
      classifyTestResult e.regression = .passed → Applied log e ∧ Targeted log e ∧ Regression log e)
  | _ => Reproduced log e ∧ Clean e

/-- The evidence of a verified success. -/
structure Verified (log : List Event) (e : Evidence) : Prop where
  reproduced : Reproduced log e
  baseline_failed : classifyTestResult e.baseline = .failed
  applied : Applied log e
  applied_ok : e.ok = true
  targeted : Targeted log e
  targeted_passed : classifyTestResult e.targeted = .passed
  regression : Regression log e
  regression_passed : classifyTestResult e.regression = .passed
  verification : e.verification =
    buildVerificationResult e.baseline e.targeted e.regression (e.applyResult.getD .null)

variable {log : List Event} {e : Evidence} {events : List Event}

theorem Reproduced.append (h : Reproduced log e) (events : List Event) : Reproduced (events ++ log) e :=
  Log.mem_before_append h events

theorem Applied.append (h : Applied log e) (he : ∀ event ∈ events, event.isPatch = false) :
    Applied (events ++ log) e := by
  obtain ⟨result, hr, hl⟩ := h
  exact ⟨result, hr, (Log.last_append he).trans hl⟩

theorem Targeted.append (h : Targeted log e) (he : ∀ event ∈ events, event.isPatch = false) :
    Targeted (events ++ log) e := by
  unfold Targeted
  rw [Log.since_append he]
  exact List.mem_append_right _ h

theorem Regression.append (h : Regression log e) (he : ∀ event ∈ events, event.isPatch = false) :
    Regression (events ++ log) e := by
  unfold Regression
  rw [Log.since_append he]
  exact List.mem_append_right _ h

/-- Events that apply no patch change nothing of what the evidence says. -/
theorem At.append {node : Node} (h : At log e node) (he : ∀ event ∈ events, event.isPatch = false) :
    At (events ++ log) e node := by
  cases node with
  | inspectRepository | reproduceFailure =>
    refine ⟨fun event hm => ?_, h.2⟩
    rcases List.mem_append.mp hm with hm | hm
    · exact he event hm
    · exact h.1 event hm
  | targetedTests => exact ⟨h.1.append _, h.2.append he⟩
  | regressionChecks =>
    obtain ⟨hb, ha, hok, hp, ht⟩ := h
    exact ⟨hb.append _, ha.append he, hok, hp, ht.append he⟩
  | reflect => exact Reproduced.append h _
  | finalAnswer =>
    refine ⟨h.1.append _, fun hok ht hr => ?_⟩
    obtain ⟨ha, htar, hreg⟩ := h.2 hok ht hr
    exact ⟨ha.append he, htar.append he, hreg.append he⟩
  | _ => exact ⟨h.1.append _, h.2⟩

theorem Verified.append (h : Verified log e) (he : ∀ event ∈ events, event.isPatch = false) :
    Verified (events ++ log) e :=
  { h with
    reproduced := h.reproduced.append _
    applied := h.applied.append he
    targeted := h.targeted.append he
    regression := h.regression.append he }

/-- Nodes that do not ask for more than a reproduction and clean evidence. -/
def laterNode : Node → Bool
  | .inspectRepository | .reproduceFailure | .targetedTests | .regressionChecks => false
  | _ => true

/-- With clean evidence there is no success to claim. -/
theorem At.of_clean (hb : Reproduced log e) (hc : Clean e) {node : Node} (hn : laterNode node = true) :
    At log e node := by
  cases node with
  | inspectRepository | reproduceFailure | targetedTests | regressionChecks => cases hn
  | reflect => exact hb
  | finalAnswer =>
    refine ⟨hb, fun hok ht => ?_⟩
    rcases hc with hc | ⟨result, hr, hf⟩
    · rw [hc] at ht; cases ht
    · rw [ok, hr, Option.getD_some, hf] at hok; cases hok
  | _ => exact ⟨hb, hc⟩

end Evidence

open Evidence

/-! ## One step -/

variable {env : Env} {state : FixAgentState} {log : List Event}

/-- What a thread says about the log. -/
def Sound (log : List Event) : Thread → Prop
  | (state, some next) => state.status ≠ some .verifiedSuccess ∧ At log state.evidence next
  | (state, none) => checkpointIsComplete state = true ∧
    (state.status = some .verifiedSuccess → Verified log state.evidence)

theorem Sound.append {thread : Thread} {events : List Event} (h : Sound log thread)
    (he : ∀ event ∈ events, event.isPatch = false) : Sound (events ++ log) thread := by
  obtain ⟨state, _ | next⟩ := thread
  · exact ⟨h.1, fun hs => (h.2 hs).append he⟩
  · exact ⟨h.1, h.2.append he⟩

/-- The investigation and the generation of a patch lead to no test phase. -/
theorem laterNode_after {node next : Node} (hn : node.investigates = true ∨ node = .generatePatch)
    (h : after node state = some next) : laterNode next = true := by
  cases node <;> first | (rcases hn with hn | hn <;> cases hn; done) | skip
  all_goals first | (cases h; done) | obtain rfl := Option.some.inj h
  case executeLocalAction =>
    unfold afterLocalAction
    split <;> rfl
  case planMCPTools =>
    unfold afterMcpPlan
    split
    · rfl
    · split <;> rfl
  case callMCPTools =>
    unfold afterMcpCall
    split <;> rfl
  case observeMCP =>
    unfold afterMcpObserve
    split
    · rfl
    · split <;> rfl
  case generatePatch =>
    unfold afterPatchGeneration
    split <;> rfl
  all_goals rfl

/-- An investigating node keeps what the thread says. -/
theorem investigates_sound {node : Node} (hn : node.investigates = true) (reply : node.Reply)
    (hs : state.status ≠ some .verifiedSuccess) (hb : Reproduced log state.evidence)
    (hc : Clean state.evidence) :
    Sound ((node.run env state reply).events.reverse ++ log)
      ((node.run env state reply).state, after node (node.run env state reply).state) := by
  have hinv := run_investigates env state hn reply
  have hstatus : (node.run env state reply).state.status ≠ some .verifiedSuccess := by
    rcases hinv.status with h | h | h <;> rw [h]
    · exact hs
    · nofun
    · nofun
  have hb' := hb.append (node.run env state reply).events.reverse
  rw [← hinv.evidence] at hb' hc
  cases hnext : after node (node.run env state reply).state with
  | some next => exact ⟨hstatus, At.of_clean hb' hc (laterNode_after (.inl hn) hnext)⟩
  | none =>
    refine ⟨?_, fun h => absurd h hstatus⟩
    cases node <;> first | (cases hn; done) | (cases hnext; done) | rfl

/-- A targeted phase is followed by regression checks only if it passed. -/
theorem afterTargetedTests_cases (state : FixAgentState) :
    (afterTargetedTests state = .regressionChecks ∧ state.applied.flag "ok" = true ∧
      classifyTestResult state.targetedTestResult = .passed) ∨
    afterTargetedTests state = .reflect ∨ afterTargetedTests state = .finalAnswer := by
  have hretry : ∀ n m, retryOrFinish n m = .reflect ∨ retryOrFinish n m = .final := fun n m => by
    unfold retryOrFinish
    split
    · exact .inr rfl
    · exact .inl rfl
  unfold afterTargetedTests routeAfterTargetedTests
  by_cases hok : state.applied.flag "ok" = true
  · rw [hok]
    cases hclass : classifyTestResult state.targetedTestResult with
    | passed => exact .inl ⟨rfl, rfl, rfl⟩
    | failed =>
      rcases hretry state.iterations state.maxIterations with h | h <;> simp [h]
    | _ => exact .inr (.inr rfl)
  · rcases hretry state.iterations state.maxIterations with h | h <;> simp [hok, h]

theorem afterRegressionChecks_cases (state : FixAgentState) :
    afterRegressionChecks state = .reflect ∨ afterRegressionChecks state = .finalAnswer := by
  unfold afterRegressionChecks
  split
  · exact .inl rfl
  · exact .inr rfl

theorem targetedTests_sound (result : Json) (hs : state.status ≠ some .verifiedSuccess)
    (h : At log state.evidence .targetedTests) :
    Sound ((targetedTests state result).events.reverse ++ log)
      ((targetedTests state result).state, some (afterTargetedTests (targetedTests state result).state)) := by
  obtain ⟨hb, ha⟩ := h
  have hevents : ∀ event ∈ (targetedTests state result).events.reverse, event.isPatch = false := by
    intro event hm
    unfold targetedTests at hm
    dsimp only at hm
    split at hm
    · obtain rfl := List.mem_singleton.mp (List.mem_reverse.mp hm)
      rfl
    · cases hm
  have hb' := hb.append (targetedTests state result).events.reverse
  have ha' := ha.append hevents
  refine ⟨hs, ?_⟩
  rcases afterTargetedTests_cases (targetedTests state result).state with ⟨hn, hok, hpass⟩ | hn | hn <;> rw [hn]
  · refine ⟨hb', ha', hok, hpass, ?_⟩
    have hok' : state.applied.flag "ok" = true := hok
    unfold Targeted
    rw [Log.since_append hevents]
    refine List.mem_append_left _ (List.mem_reverse.mpr ?_)
    simp [targetedTests, hok', FixAgentState.evidence]
  · exact hb'
  · exact ⟨hb', fun _ _ hr => by cases hr⟩

theorem regressionChecks_sound (result : Json) (hs : state.status ≠ some .verifiedSuccess)
    (h : At log state.evidence .regressionChecks) :
    Sound ((Node.regressionChecks.run env state result).events.reverse ++ log)
      ((Node.regressionChecks.run env state result).state,
        after .regressionChecks (Node.regressionChecks.run env state result).state) := by
  obtain ⟨hb, ha, hok, hpass, ht⟩ := h
  have hevents : ∀ event ∈ (Node.regressionChecks.run env state result).events.reverse,
      event.isPatch = false := by
    intro event hm
    obtain rfl := List.mem_singleton.mp (List.mem_reverse.mp hm)
    rfl
  have hb' := hb.append (Node.regressionChecks.run env state result).events.reverse
  refine ⟨hs, ?_⟩
  rcases afterRegressionChecks_cases (Node.regressionChecks.run env state result).state with hn | hn <;> rw [hn]
  · exact hb'
  · refine ⟨hb', fun _ _ _ => ⟨ha.append hevents, ht.append hevents, ?_⟩⟩
    unfold Regression
    rw [Log.since_append hevents]
    exact List.mem_append_left _ List.mem_cons_self

theorem finalAnswer_sound (diff : String) (h : At log state.evidence .finalAnswer) :
    Sound log (finalAnswer state diff, none) := by
  have hstatus : (finalAnswer state diff).status = some (verdict state.baselineTestResult
    state.targetedTestResult state.regressionTestResult (state.applyResult.getD .null)).1 := rfl
  refine ⟨?_, fun hv => ?_⟩
  · unfold checkpointIsComplete
    rw [hstatus]
    simp [verdict, determineStatus_terminal]
  · rw [hstatus] at hv
    obtain ⟨hbase, hok, ht, hr⟩ := verdict_verified (Option.some.inj hv)
    have hok' : state.evidence.ok = true := by
      cases ha : state.applyResult with
      | none => rw [ha] at hok; cases hok
      | some result => rw [ha] at hok; simpa [Evidence.ok, FixAgentState.evidence, ha] using hok
    obtain ⟨ha, htar, hreg⟩ := h.2 hok' ht hr
    exact ⟨h.1, hbase, ha, hok', htar, ht, hreg, hr, rfl⟩

/-- A node keeps what the thread says of the log, with its events. -/
theorem run_sound {node : Node} (reply : node.Reply) (hs : state.status ≠ some .verifiedSuccess)
    (h : At log state.evidence node) :
    Sound ((node.run env state reply).events.reverse ++ log)
      ((node.run env state reply).state, after node (node.run env state reply).state) := by
  cases hn : node.investigates with
  | true =>
    have hbc : Reproduced log state.evidence ∧ Clean state.evidence := by cases node <;> first | exact h | cases hn
    exact investigates_sound hn reply hs hbc.1 hbc.2
  | false =>
    cases node <;> first | (cases hn; done) | skip
    case inspectRepository => exact ⟨hs, h⟩
    case reproduceFailure =>
      refine ⟨hs, At.of_clean ?_ (.inl ?_) ?_⟩
      · refine Log.mem_before (fun event hm => ?_) List.mem_cons_self
        rcases List.mem_cons.mp hm with rfl | hm
        · rfl
        · exact h.1 event hm
      · exact h.2
      · split <;> rfl
    case generatePatch =>
      refine ⟨hs, At.of_clean ?_ ?_ (laterNode_after (.inr rfl) rfl)⟩
      · exact h.1
      · exact h.2
    case applyPatch =>
      exact ⟨hs, Reproduced.append h.1 [_], _, rfl, Log.last_mark rfl⟩
    case targetedTests => exact targetedTests_sound reply hs h
    case regressionChecks => exact regressionChecks_sound reply hs h
    case reflect =>
      refine ⟨hs, At.of_clean ?_ (.inr ⟨.obj [], ?_, rfl⟩) ?_⟩
      · exact h
      · rfl
      · unfold afterReflect
        split <;> rfl
    case finalAnswer => exact finalAnswer_sound reply h

/-- What a node stores for a resume. -/
theorem run_saved {node : Node} (reply : node.Reply) {stored : FixAgentState}
    (h : At log state.evidence node) (hm : stored ∈ (node.run env state reply).saved) :
    Reproduced log stored.evidence ∧ Clean stored.evidence := by
  cases hn : node.investigates with
  | true =>
    rw [(run_investigates env state hn reply).saved stored hm]
    cases node <;> first | exact h | cases hn
  | false => cases node <;> first | (cases hn; done) | cases hm

/-- Only the application of a patch marks the log. -/
theorem run_events (env : Env) (state : FixAgentState) {node : Node} (reply : node.Reply) :
    node = .applyPatch ∨ ∀ event ∈ (node.run env state reply).events, event.isPatch = false := by
  cases hn : node.investigates with
  | true => exact .inr (run_investigates env state hn reply).events
  | false =>
    cases node <;> first | (cases hn; done) | skip
    case applyPatch => exact .inl rfl
    case reproduceFailure | regressionChecks =>
      refine .inr fun event hm => ?_
      obtain rfl := List.mem_singleton.mp hm
      rfl
    case targetedTests =>
      refine .inr fun event hm => ?_
      dsimp only [Node.run, targetedTests] at hm
      split at hm
      · obtain rfl := List.mem_singleton.mp hm
        rfl
      · cases hm
    all_goals exact .inr fun _ hm => absurd hm List.not_mem_nil

/-! ## Runs -/

/-- What holds between the steps of a run. -/
structure Inv (w : Repair) : Prop where
  fresh : w.thread = none → w.saved = [] ∧ w.log = []
  saved : ∀ stored ∈ w.saved, Reproduced w.log stored.evidence ∧ Clean stored.evidence
  thread : ∀ thread, w.thread = some thread → Sound w.log thread

/-- A run that gets more events and stored states. -/
theorem Inv.note {w w' : Repair} {events : List Event} {saved : List FixAgentState} (h : Inv w)
    (hsaved : w'.saved = w.saved ++ saved) (hlog : w'.log = events.reverse ++ w.log)
    (hstored : ∀ stored ∈ saved, Reproduced w.log stored.evidence ∧ Clean stored.evidence)
    {thread : Thread} (hthread : w'.thread = some thread) (hsound : Sound (events.reverse ++ w.log) thread) :
    Inv w' where
  fresh hnone := by rw [hthread] at hnone; cases hnone
  saved stored hm := by
    rw [hsaved] at hm
    have hb : Reproduced w.log stored.evidence ∧ Clean stored.evidence := by
      rcases List.mem_append.mp hm with hm | hm
      · exact h.saved stored hm
      · exact hstored stored hm
    rw [hlog]
    exact ⟨hb.1.append _, hb.2⟩
  thread t ht := by
    obtain rfl := Option.some.inj (hthread.symm.trans ht)
    rw [hlog]
    exact hsound

/-- A stored state that is laid over the thread is as clean as it was. -/
theorem clean_merge (old : Option FixAgentState) (h : Clean state.evidence) :
    Clean (FixAgentState.merge old state).evidence := by
  cases old with
  | none => exact h
  | some old =>
    rcases h with h | ⟨result, hr, hf⟩
    · exact .inl h
    · have hr' : state.applyResult = some result := hr
      exact .inr ⟨result, by simp [FixAgentState.merge, FixAgentState.evidence, hr'], hf⟩

theorem merge_reproduced (old : Option FixAgentState) (h : Reproduced log state.evidence) :
    Reproduced log (FixAgentState.merge old state).evidence := by
  cases old <;> exact h

/-- Resuming from a state that was stored, at the node it names. -/
theorem inv_resume {w : Repair} {stored : FixAgentState} (h : Inv w)
    (hb : Reproduced w.log stored.evidence) (hc : Clean stored.evidence)
    (hfrom : stored.resumeFrom ≠ none) (hstatus : stored.status = some .running) : Inv (resume w stored) where
  fresh := nofun
  saved := h.saved
  thread t ht := by
    obtain rfl := Option.some.inj ht
    have hs : (FixAgentState.merge (w.thread.map (·.1)) stored).status = some .running := by
      cases w.thread with
      | none => exact hstatus
      | some t => simp [FixAgentState.merge, hstatus]
    have hf : (FixAgentState.merge (w.thread.map (·.1)) stored).resumeFrom = stored.resumeFrom := by
      cases w.thread <;> rfl
    refine ⟨by rw [hs]; nofun, At.of_clean (merge_reproduced _ hb) (clean_merge _ hc) ?_⟩
    unfold graphEntry
    rw [hf]
    cases hr : stored.resumeFrom with
    | none => exact absurd hr hfrom
    | some target => cases target <;> rfl

theorem inv_invoke {runId repoId : String} {w : Repair} (h : Inv w) :
    Inv (invoke (initialState env.settings runId repoId) w) := by
  unfold invoke
  split
  · next hnone =>
    obtain ⟨hsaved, hlog⟩ := h.fresh hnone
    refine ⟨nofun, h.saved, fun t ht => ?_⟩
    obtain rfl := Option.some.inj ht
    refine ⟨nofun, fun event hm => ?_, rfl⟩
    rw [hlog] at hm
    cases hm
  · next state hstate =>
    rw [if_pos (h.thread _ hstate).1]
    exact h
  · next state next hstate =>
    have hevents : ∀ event ∈ ((rehydrated state next).map Event.restored).toList.reverse,
        event.isPatch = false := by
      intro event hm
      obtain ⟨patch, _, rfl⟩ := Option.map_eq_some_iff.mp (Option.mem_toList.mp (List.mem_reverse.mp hm))
      rfl
    exact h.note rfl rfl (fun _ hm => absurd hm List.not_mem_nil) hstate ((h.thread _ hstate).append hevents)

theorem inv_step {runId repoId : String} {w w' : Repair} {e : Step} (h : Inv w)
    (hstep : step env (initialState env.settings runId repoId) w e = some w') : Inv w' := by
  cases step_move _ _ hstep with
  | invoke => exact inv_invoke h
  | @node node reply state ht =>
    obtain ⟨hs, hat⟩ := h.thread _ ht
    exact h.note rfl rfl (fun stored hm => run_saved reply hat hm) rfl (run_sound reply hs hat)
  | @crash node reply events saved state ht =>
    obtain ⟨hs, hat⟩ := h.thread _ ht
    refine h.note rfl rfl (fun stored hm => run_saved reply hat (List.mem_of_mem_take hm)) ht ⟨hs, ?_⟩
    rcases run_events env state reply with rfl | hevents
    · exact ⟨hat.1.append _, hat.2⟩
    · exact hat.append fun event hm => hevents event (List.mem_of_mem_take (List.mem_reverse.mp hm))
  | resumeApproval hm =>
    obtain ⟨hb, hc⟩ := h.saved _ hm
    exact inv_resume h hb hc (fun hf => by cases hf) rfl
  | resumeExecution hm =>
    obtain ⟨hb, hc⟩ := h.saved _ hm
    exact inv_resume h hb hc (fun hf => by cases hf) rfl

theorem inductive_inv (env : Env) (runId repoId : String) :
    (repair env (initialState env.settings runId repoId)).Inductive Inv where
  start hs := by
    obtain rfl := hs
    exact ⟨fun _ => ⟨rfl, rfl⟩, fun _ hm => absurd hm List.not_mem_nil, fun _ ht => by cases ht⟩
  step h hstep := inv_step h hstep

/-- A run that ends verified, and what is stored of it. -/
theorem verified_success_sound (env : Env) (runId repoId : String) {w : Repair} {state : FixAgentState}
    {next : Option Node} (hw : (repair env (initialState env.settings runId repoId)).Reachable w)
    (hthread : w.thread = some (state, next)) :
    (state.status = some .verifiedSuccess → Verified w.log state.evidence) ∧
    ∀ run now, (persistFinalState run state now).status = .verifiedSuccess →
      Verified w.log state.evidence ∧
      evidenceIsComplete (persistFinalState run state now).testResult = true ∧
      (persistFinalState run state now).testResult =
        some (buildVerificationResult state.baselineTestResult state.targetedTestResult
          state.regressionTestResult (state.applyResult.getD .null)) := by
  have hinv := (inductive_inv env runId repoId).reachable hw
  have hverified : state.status = some .verifiedSuccess → Verified w.log state.evidence := fun hs => by
    have hsound := hinv.thread _ hthread
    cases next with
    | none => exact hsound.2 hs
    | some next => exact absurd hs hsound.1
  refine ⟨hverified, fun run now h => ?_⟩
  obtain ⟨hs, hcomplete⟩ := persistFinalState_verified h
  have hv := hverified hs
  have hresult : state.verificationResult = buildVerificationResult state.baselineTestResult
    state.targetedTestResult state.regressionTestResult (state.applyResult.getD .null) := hv.verification
  refine ⟨hv, hcomplete, ?_⟩
  show finalResult state = _
  rw [finalResult, hresult]
  rfl

/-- An attempt with a patch that applies, up to its targeted tests. -/
def attemptSteps (patch : String) (passed : Bool) : List Step :=
  [.node .planNextAction ⟨1, .ok (.generatePatch, 10)⟩, .node .executeLocalAction ⟨2, .null⟩,
    .node .planMCPTools ⟨false, [], [], ""⟩, .node .generatePatch patch,
    .node .applyPatch (.obj [("ok", .bool true)]), .node .targetedTests (testRan passed)]

/-- A run whose second patch passes both suites, with a crash in the last one. -/
def verifiedSteps : List Step :=
  reproducedSteps ++ attemptSteps "first" false ++ [.node .reflect ()] ++ attemptSteps "second" true ++
  [.crash .regressionChecks (testRan false) 1 0, .invoke, .node .regressionChecks (testRan true),
    .node .finalAnswer "diff"]

theorem verified_success_sample : ∃ w state,
    (repair sampleEnv (initialState sampleSettings "run" "repo")).Reachable w ∧
    w.thread = some (state, none) ∧ Verified w.log state.evidence :=
  ⟨_, _, ⟨_, verifiedSteps, rfl, .of_foldlM rfl⟩, rfl, (verified_success_sound sampleEnv "run" "repo"
    ⟨_, verifiedSteps, rfl, .of_foldlM rfl⟩ rfl).1 rfl⟩

end CodeMate.Agent
