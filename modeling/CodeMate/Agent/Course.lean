import CodeMate.Agent.Graph

/-!
# The course of a run

A run of the repair graph with what its budgets are about (`Course`): the nodes
that ran, the pauses it came to, the actions that the local executor dispatched
and the approved calls. A job has a tool router or none for all its nodes, no
node crashes, and a job may stop between two nodes.
-/

namespace CodeMate.Agent

open Framework Mcp Verification

/-- A run with the nodes that ran and the dispatched actions, both last first. -/
structure Course where
  repair : Repair
  /-- Whether the job that runs has a tool router. -/
  router : Bool
  visits : List Node
  pauses : Nat
  dispatched : List Action
  approved : Nat

def Course.empty : Course := ⟨Repair.empty, false, [], 0, [], 0⟩

/-- The actions that a node dispatches to a local tool. -/
def dispatches (env : Env) (state : FixAgentState) : (node : Node) → node.Reply → List Action
  | .executeLocalAction, (observed : Observed) =>
    (LocalAgentExecutor.execute env.settings env.codec state state.currentAction observed.now
      observed.result).2.toList
  | _, _ => []

/-- What the world may answer to a job with or without a router; an execution has an id. -/
def answers (env : Env) (router : Bool) (state : FixAgentState) : (node : Node) → node.Reply → Bool
  | .planMCPTools, (planning : Planning) => planning.router == router
  | .callMCPTools, (calling : Calling) => calling.router == router &&
    (callMCPTools env state calling).state.mcpPendingExecutionId != some ""
  | _, _ => true

/-- The node is one of the two that end a job for a pause. -/
def Node.pauses : Node → Bool
  | pauseForApproval | pauseForReconciliation => true
  | _ => false

variable (env : Env) (input : FixAgentState)

namespace Course

/-- A step of a run; the flag says whether a job that begins with it has a router. -/
def step (w : Course) : Step × Bool → Option Course
  | (.node node reply, _) =>
    match w.repair.thread with
    | some (state, some next) =>
      if next = node ∧ answers env w.router state node reply then
        (Agent.step env input w.repair (.node node reply)).map fun repair =>
          { w with
            repair
            visits := node :: w.visits
            pauses := w.pauses + if (after node (node.run env state reply).state).any Node.pauses then 1 else 0
            dispatched := dispatches env state node reply ++ w.dispatched }
      else none
    | _ => none
  | (.crash .., _) => none
  | (.resumeApproval index result approved, router) =>
    (Agent.step env input w.repair (.resumeApproval index result approved)).map fun repair =>
      { w with repair, router, approved := w.approved + if approved then 1 else 0 }
  | (e, router) => (Agent.step env input w.repair e).map fun repair => { w with repair, router }

end Course

/-- The runs of one agent run in which no node crashes. -/
def course : System Course (Step × Bool) := .ofStep (· = Course.empty) (Course.step env input)

/-- What a step does, with its guards. -/
inductive Course.Move (w : Course) : Step × Bool → Course → Prop
  | invoke {router : Bool} : Course.Move w (.invoke, router)
      { w with repair := Agent.invoke input w.repair, router }
  | node {node : Node} {reply : node.Reply} {router : Bool} {state : FixAgentState}
    (ht : w.repair.thread = some (state, some node)) (ha : answers env w.router state node reply = true) :
    Course.Move w (.node node reply, router)
      { w with
        repair :=
          { w.repair.note (node.run env state reply).events (node.run env state reply).saved with
            thread := some ((node.run env state reply).state, after node (node.run env state reply).state) }
        visits := node :: w.visits
        pauses := w.pauses + if (after node (node.run env state reply).state).any Node.pauses then 1 else 0
        dispatched := dispatches env state node reply ++ w.dispatched }
  | resumeApproval {index : Nat} {result : Json} {approved router : Bool} {stored : FixAgentState}
    (hm : w.repair.saved[index]? = some stored) :
    Course.Move w (.resumeApproval index result approved, router)
      { w with
        repair := resume w.repair (resumedFromApproval stored result approved)
        router
        approved := w.approved + if approved then 1 else 0 }
  | resumeExecution {index : Nat} {router : Bool} {stored : FixAgentState}
    (hm : w.repair.saved[index]? = some stored) : Course.Move w (.resumeExecution index, router)
      { w with repair := resume w.repair (resumedFromExecution stored), router }

variable {env input}

theorem Course.step_move {w w' : Course} {e : Step × Bool} (h : Course.step env input w e = some w') :
    Course.Move env input w e w' := by
  obtain ⟨e, router⟩ := e
  cases e with
  | invoke =>
    obtain rfl := Option.some.inj h
    exact .invoke
  | node node reply =>
    unfold step at h
    dsimp only at h
    split at h
    · next state next ht =>
      split at h
      · next hok =>
        obtain ⟨rfl, ha⟩ := hok
        obtain ⟨repair, hr, rfl⟩ := Option.map_eq_some_iff.mp h
        unfold Agent.step at hr
        simp only [ht, if_true] at hr
        obtain rfl := Option.some.inj hr
        exact .node ht ha
      · cases h
    · cases h
  | crash => cases h
  | resumeApproval index result approved =>
    obtain ⟨repair, hr, rfl⟩ := Option.map_eq_some_iff.mp h
    obtain ⟨stored, hm, rfl⟩ := Option.map_eq_some_iff.mp hr
    exact .resumeApproval hm
  | resumeExecution index =>
    obtain ⟨repair, hr, rfl⟩ := Option.map_eq_some_iff.mp h
    obtain ⟨stored, hm, rfl⟩ := Option.map_eq_some_iff.mp hr
    exact .resumeExecution hm

/-- A resume from an approval goes on with the observation of its result. -/
theorem enter_approval (old : Option FixAgentState) (stored : FixAgentState) (result : Json) (approved : Bool) :
    enter old (resumedFromApproval stored result approved) =
      (FixAgentState.merge old (resumedFromApproval stored result approved), some .observeMCP) := by
  cases old <;> rfl

/-- A resume from an execution goes on with the calls of its round. -/
theorem enter_execution (old : Option FixAgentState) (stored : FixAgentState) :
    enter old (resumedFromExecution stored) =
      (FixAgentState.merge old (resumedFromExecution stored), some .callMCPTools) := by
  cases old <;> rfl

end CodeMate.Agent
