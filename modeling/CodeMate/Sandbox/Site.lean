import CodeMate.Agent.Graph
import CodeMate.Sandbox.Workspace

/-!
# A run with its workspace

The repair graph of a run (`Agent.step`) together with the workspace that its
nodes work in (`siteStep`): an invocation makes a new workspace from the
checkout as it is then, and replays the saved patch where the next node needs
it; a node answers with what the workspace operations return; the workspace is
lost with the invocation. One invocation is active at a time.

`site_move` is the inversion of a step, and `site_repair` says that the steps
are those of the repair graph.
-/

namespace CodeMate.Sandbox

open Framework Agent

/-- An application of a patch: the base tree of the workspace, and the workspace before it. -/
structure Attempt where
  base : Tree
  before : Repo
  patch : String

/-- The workspace of an invocation, and the base tree of the checkout that it was copied from. -/
structure Workspace where
  base : Tree
  repo : Repo

structure Site where
  repair : Repair
  checkout : Checkout
  workspace : Option Workspace
  /-- The last application of a patch. -/
  attempt : Option Attempt

inductive SiteStep
  /-- A step of the graph; `written` are the files that a test command leaves. -/
  | agent (e : Agent.Step) (written : Tree)
  /-- The invocation ends, or its worker is lost. -/
  | leave
  | reindex (checkout : Checkout)

variable (git : Git) (repr : String → String) (env : Env) (input : FixAgentState)

/-- What a node does to the workspace; `none` where the reply is not what the workspace gives. -/
def act (state : FixAgentState) (ws : Repo) (written : Tree) : (node : Node) → node.Reply → Option Repo
  | .applyPatch, (result : Json) =>
    let (ws', applied) := applyPatch git repr ws (state.patch.getD "")
    if result = applied.toJson then some ws' else none
  | .finalAnswer, (diff : String) => if diff = gitDiff git ws then some ws else none
  | .reflect, _ => some (resetWorkspace git ws)
  | .reproduceFailure, _ | .regressionChecks, _ => some (runTests ws written)
  | .targetedTests, _ => some (if state.applied.flag "ok" then runTests ws written else ws)
  | .executeLocalAction, _ =>
    match state.currentAction with
    | some (.runTests _) => some (runTests ws written)
    | _ => some ws
  | _, _ => some ws

/-- The patch that an invocation replays. -/
def replayed (thread : Option Thread) : Option String :=
  match thread with
  | some (state, some next) => rehydrated state next
  | _ => none

/-- The attempt that a node makes. -/
def attemptOf (w : Site) (ws : Workspace) (state : FixAgentState) (node : Node) : Option Attempt :=
  if node = .applyPatch then some ⟨ws.base, ws.repo, state.patch.getD ""⟩ else w.attempt

/-- `_invoke_fix_graph` up to the nodes; without a workspace where the replay fails. -/
def invokeSite (w : Site) : Site :=
  let fresh := createWorkspace w.checkout
  match replayed w.repair.thread with
  | none =>
    { w with repair := Agent.invoke input w.repair, workspace := some ⟨w.checkout.base, fresh⟩ }
  | some patch =>
    if (applyPatch git repr fresh patch).2.ok then
      { w with
        repair := Agent.invoke input w.repair
        workspace := some ⟨w.checkout.base, (applyPatch git repr fresh patch).1⟩
        attempt := some ⟨w.checkout.base, fresh, patch⟩ }
    else w

def siteStep (w : Site) : SiteStep → Option Site
  | .agent .invoke _ => if w.workspace.isSome then none else some (invokeSite git repr input w)
  | .agent (.node node reply) written =>
    match w.workspace, w.repair.thread with
    | some ws, some (state, some _) =>
      match act git repr state ws.repo written node reply, Agent.step env input w.repair (.node node reply) with
      | some repo, some repair =>
        some { w with repair, workspace := some { ws with repo }, attempt := attemptOf w ws state node }
      | _, _ => none
    | _, _ => none
  | .agent (.crash node reply events saved) _ =>
    if w.workspace.isSome then
      (Agent.step env input w.repair (.crash node reply events saved)).map fun repair =>
        { w with repair, workspace := none }
    else none
  | .agent e _ =>
    if w.workspace.isSome then none
    else (Agent.step env input w.repair e).map fun repair =>
      { w with repair, workspace := some ⟨w.checkout.base, createWorkspace w.checkout⟩ }
  | .leave => some { w with workspace := none }
  | .reindex checkout => some { w with checkout }

/-- A run that was not invoked yet. -/
def Site.initial (checkout : Checkout) : Site := ⟨.empty, checkout, none, none⟩

/-- The runs of one agent run with its workspace, from a checkout. -/
def site : System Site SiteStep := .ofStep (fun w => ∃ checkout, w = .initial checkout) (siteStep git repr env input)

/-- What a step does, with its guards. -/
inductive SiteMove (w : Site) : SiteStep → Site → Prop
  | fresh {written : Tree} : w.workspace = none → replayed w.repair.thread = none →
      SiteMove w (.agent .invoke written)
        { w with
          repair := Agent.invoke input w.repair
          workspace := some ⟨w.checkout.base, createWorkspace w.checkout⟩ }
  | replay {written : Tree} {patch : String} : w.workspace = none → replayed w.repair.thread = some patch →
      (applyPatch git repr (createWorkspace w.checkout) patch).2.ok = true →
      SiteMove w (.agent .invoke written)
        { w with
          repair := Agent.invoke input w.repair
          workspace := some ⟨w.checkout.base, (applyPatch git repr (createWorkspace w.checkout) patch).1⟩
          attempt := some ⟨w.checkout.base, createWorkspace w.checkout, patch⟩ }
  | replayFails {written : Tree} {patch : String} : w.workspace = none → replayed w.repair.thread = some patch →
      (applyPatch git repr (createWorkspace w.checkout) patch).2.ok = false →
      SiteMove w (.agent .invoke written) w
  | node {node : Node} {reply : node.Reply} {written : Tree} {ws : Workspace} {state : FixAgentState} {repo : Repo} :
      w.workspace = some ws → w.repair.thread = some (state, some node) →
      act git repr state ws.repo written node reply = some repo →
      SiteMove w (.agent (.node node reply) written)
        { w with
          repair :=
            { w.repair.note (node.run env state reply).events (node.run env state reply).saved with
              thread := some ((node.run env state reply).state, after node (node.run env state reply).state) }
          workspace := some { ws with repo }
          attempt := attemptOf w ws state node }
  | crash {node : Node} {reply : node.Reply} {events saved : Nat} {written : Tree} {repair : Repair}
      {state : FixAgentState} : w.repair.thread = some (state, some node) →
      repair.thread = w.repair.thread → Agent.step env input w.repair (.crash node reply events saved) = some repair →
      SiteMove w (.agent (.crash node reply events saved) written) { w with repair, workspace := none }
  | resume {e : Agent.Step} {written : Tree} {stored : FixAgentState} :
      w.workspace = none → stored.resumeFrom ≠ none → stored.status = some .running →
      Agent.step env input w.repair e = some (Agent.resume w.repair stored) →
      (∃ s ∈ w.repair.saved, s.evidence = stored.evidence) →
      SiteMove w (.agent e written)
        { w with
          repair := Agent.resume w.repair stored
          workspace := some ⟨w.checkout.base, createWorkspace w.checkout⟩ }
  | leave : SiteMove w .leave { w with workspace := none }
  | reindex {checkout : Checkout} : SiteMove w (.reindex checkout) { w with checkout }

theorem site_move {w w' : Site} {e : SiteStep} (h : siteStep git repr env input w e = some w') :
    SiteMove git repr env input w e w' := by
  cases e with
  | leave =>
    obtain rfl := Option.some.inj h
    exact .leave
  | reindex checkout =>
    obtain rfl := Option.some.inj h
    exact .reindex
  | agent e written =>
    cases e with
    | invoke =>
      dsimp only [siteStep] at h
      split at h
      · cases h
      next hidle =>
      have hnone : w.workspace = none := Option.not_isSome_iff_eq_none.mp hidle
      obtain rfl := Option.some.inj h
      unfold invokeSite
      dsimp only
      split
      · next hreplayed => exact .fresh hnone hreplayed
      · next patch hreplayed =>
        split
        · next hok => exact .replay hnone hreplayed hok
        · next hfails => exact .replayFails hnone hreplayed (Bool.eq_false_iff.mpr hfails)
    | node node reply =>
      dsimp only [siteStep] at h
      split at h
      · next ws state next hws ht =>
        split at h
        · next repo repair hact hstep =>
          obtain rfl := Option.some.inj h
          cases step_move _ _ hstep with
          | node ht' =>
            obtain rfl := (Prod.mk.inj (Option.some.inj (ht.symm.trans ht'))).1
            exact .node hws ht' hact
        · cases h
      · cases h
    | crash node reply events saved =>
      dsimp only [siteStep] at h
      split at h
      · obtain ⟨repair, hstep, rfl⟩ := Option.map_eq_some_iff.mp h
        cases step_move _ _ hstep with
        | crash ht => exact .crash ht rfl hstep
      · cases h
    | resumeApproval index result approved =>
      dsimp only [siteStep] at h
      split at h
      · cases h
      next hidle =>
      obtain ⟨repair, hstep, rfl⟩ := Option.map_eq_some_iff.mp h
      cases step_move _ _ hstep with
      | resumeApproval hm =>
        exact .resume (Option.not_isSome_iff_eq_none.mp hidle) (fun hf => by cases hf) rfl hstep ⟨_, hm, rfl⟩
    | resumeExecution index =>
      dsimp only [siteStep] at h
      split at h
      · cases h
      next hidle =>
      obtain ⟨repair, hstep, rfl⟩ := Option.map_eq_some_iff.mp h
      cases step_move _ _ hstep with
      | resumeExecution hm =>
        exact .resume (Option.not_isSome_iff_eq_none.mp hidle) (fun hf => by cases hf) rfl hstep ⟨_, hm, rfl⟩

/-- The step of the repair graph that a step is, if any. -/
theorem site_repair {w w' : Site} {e : SiteStep} (h : siteStep git repr env input w e = some w') :
    w'.repair = w.repair ∨ ∃ e, Agent.step env input w.repair e = some w'.repair := by
  cases site_move _ _ _ _ h with
  | fresh => exact .inr ⟨.invoke, rfl⟩
  | replay => exact .inr ⟨.invoke, rfl⟩
  | replayFails => exact .inl rfl
  | @node node reply written ws state repo hws ht hact =>
    refine .inr ⟨.node node reply, ?_⟩
    dsimp only [Agent.step]
    rw [ht]
    exact if_pos rfl
  | crash _ _ hstep => exact .inr ⟨_, hstep⟩
  | resume _ _ _ hstep => exact .inr ⟨_, hstep⟩
  | leave => exact .inl rfl
  | reindex => exact .inl rfl

/-- What holds along the runs of the repair graph holds along the runs with a workspace. -/
theorem site_inductive {I : Repair → Prop} (h : (repair env input).Inductive I) :
    (site git repr env input).Inductive fun w => I w.repair where
  start hs := by
    obtain ⟨checkout, rfl⟩ := hs
    exact h.start rfl
  step hi hs := by
    rcases site_repair _ _ _ _ hs with heq | ⟨e, he⟩
    · rw [heq]
      exact hi
    · exact h.step hi he

end CodeMate.Sandbox
