import CodeMate.Ledger.Atomic
import CodeMate.Mcp.Approval
import CodeMate.Agent.RunRow

/-!
# The jobs of a run

Workers execute jobs for one run at the same time (`lifecycle`): `run_fix` and
the resumes, whoever put them into the queue and as often as it delivers them.
A job reads and writes the rows at its entry check (`enter`), rebuilds the run's
workspace directory (`createWorkspace`), runs nodes that may write the rows
(`node`) and ends (`finish`); it may be lost at any point (`crash`). The API,
the watchdog and the expiry jobs change the rows of approvals and executions in
between.

`step_move` is the inversion of a step. From it, `step_inFlight` and
`step_workspace` say what a step does to the workers, and `step_run` what it
does to the row of the run.
-/

namespace CodeMate.Lifecycle

open Framework Agent Mcp

/-- A job of the run. -/
inductive Job
  | runFix
  | resumeFromApproval (approvalId : String)
  | resumeFromExecution (executionId : String)
deriving DecidableEq

/-- Where a worker is in a job; `approval` is the approval that the job resumes. -/
inductive Phase
  | idle
  | delivered (job : Job)
  | entered (approval : Option String)
  | active (approval : Option String)
deriving DecidableEq

/-- Whether the job was let in by its entry check and has not ended. -/
def Phase.inFlight : Phase → Bool
  | entered _ | active _ => true
  | idle | delivered _ => false

/-- Whether the job's graph invocation has its workspace. -/
def Phase.isActive : Phase → Bool
  | active _ => true
  | _ => false

structure World (ω : Type*) where
  run : AgentRun
  /-- The run's repository has a path. -/
  repository : Bool
  approvals : AList fun _ : String => MCPToolApproval
  executions : Ledger.Rows
  phase : ω → Phase
  /-- The worker that made the directory at the run's workspace path. -/
  workspace : Option ω

/-- What a node writes to the rows. -/
inductive NodeWrite
  | nothing
  | requestApproval (id : String) (call : Call) (checkpoint : Json)
  | waitForReconciliation

/-- How a job ends after its entry. -/
inductive Ending
  | returned (state : FixAgentState)
  | raised (error : String)
  | reconciliation (errorMessage : Option String)
  | inProgress

inductive Event (ω : Type*)
  | deliver (k : ω) (job : Job)
  | enter (k : ω) (now : Nat)
  | finishApproval (k : ω) (result : Json) (failed : Bool) (now : Nat)
  | createWorkspace (k : ω)
  | node (k : ω) (write : NodeWrite) (now : Nat)
  | prepareExecution (k : ω) (request : Ledger.Request) (id : String) (now : Nat)
  | finish (k : ω) (ending : Ending) (now : Nat)
  | crash (k : ω)
  | approval (id : String) (t : Mcp.Transaction) (now : Nat)
  | execution (id : String) (t : Ledger.Transaction) (now : Nat)

section Step

variable {ω : Type*} [DecidableEq ω] (s : ApprovalSettings) (ls : Ledger.Settings) (codec : Codec)

def World.goto (w : World ω) (k : ω) (phase : Phase) : World ω :=
  { w with phase := fun k' => if k' = k then phase else w.phase k' }

/-- Whether a checkpoint is the run's. -/
def checkpointMatches (run : AgentRun) (checkpoint : Json) : Bool :=
  checkpoint.get "run_id" = some (.str run.id) ∧ checkpoint.get "repo_id" = some (.str run.repoId)

/-- `verify_checkpoint` of an execution. -/
def verifyExecutionCheckpoint (e : Ledger.MCPToolExecution) : Bool :=
  match e.checkpointJson, e.checkpointHash with
  | some checkpoint, some hash => codec.sha256 (codec.canonicalJson checkpoint) = hash
  | _, _ => false

/-- The approval that `claim_for_resume` gives a job. -/
def claimable (w : World ω) (id : String) (now : Nat) : Option MCPToolApproval :=
  (w.approvals.lookup id).filter fun a => (claimForResume s now a).2

/-- What a job comes to at its entry. -/
inductive Entry
  | refused
  | failed (approval : Option String) (error : String)
  | passed (approval : Option String)
deriving DecidableEq

/-- The entry of `resume_from_approval`. -/
def enterApproval (w : World ω) (id : String) (now : Nat) : Entry :=
  match claimable s w id now with
  | none => .refused
  | some a =>
    if !Mcp.verifyCheckpoint codec a then .failed (some id) "MCP approval checkpoint integrity check failed"
    else if !checkpointMatches w.run a.checkpointJson then
      .failed (some id) "MCP approval checkpoint does not match the Agent Run"
    else .passed (some id)

/-- The entry of a job, on the committed rows. -/
def entry (w : World ω) (job : Job) (now : Nat) : Entry :=
  match job with
  | .runFix =>
    if w.run.status.terminal then .refused
    else if !w.repository then .failed none "Repository workspace is not available."
    else .passed none
  | .resumeFromApproval id => enterApproval s codec w id now
  | .resumeFromExecution id =>
    match w.executions.lookup id with
    | none => .refused
    | some e =>
      match e.approvalId with
      | some approvalId => enterApproval s codec w approvalId now
      | none =>
        if !verifyExecutionCheckpoint codec e then .failed none "MCP execution checkpoint integrity check failed"
        else if !checkpointMatches w.run (e.checkpointJson.getD .null) then
          .failed none "MCP execution checkpoint does not match the Agent Run"
        else .passed none

/-- The row of an approval after a transaction. -/
def World.approve (w : World ω) (id : String) (t : Mcp.Transaction) (now : Nat) : World ω :=
  match w.approvals.lookup id with
  | none => w
  | some a => { w with approvals := w.approvals.insert id (Mcp.transact s codec now t a) }

/-- The rows after `claim_for_resume` of a job that has an approval. -/
def World.claim (w : World ω) (approval : Option String) (now : Nat) : World ω :=
  match approval with
  | none => w
  | some id => w.approve s codec id .claimForResume now

/-- The row of the run when a job goes on. -/
def goOn (job : Job) (run : AgentRun) (now : Nat) : AgentRun :=
  match job with
  | .runFix => startRun run now
  | _ => restartRun run now

/-- The approval of a job that failed. -/
def World.failApproval (w : World ω) (approval : Option String) (error : String) (now : Nat) : World ω :=
  match approval with
  | none => w
  | some id => w.approve s codec id (.finish (.obj [("ok", .bool false), ("error", .str error)]) true) now

/-- The entry of the job that was delivered to `k`. -/
def World.enter (w : World ω) (k : ω) (job : Job) (now : Nat) : World ω :=
  match entry s codec w job now with
  | .refused => w.goto k .idle
  | .failed approval error =>
    let w := (w.claim s codec approval now).failApproval s codec approval error now
    { w with run := finishInfraError w.run error now }.goto k .idle
  | .passed approval =>
    let w := w.claim s codec approval now
    { w with run := goOn job w.run now }.goto k (.entered approval)

/-- What a node of an active graph writes; a run has one active approval at a time. -/
def World.write (w : World ω) (write : NodeWrite) (now : Nat) : Option (World ω) :=
  match write with
  | .nothing => some w
  | .requestApproval id call checkpoint =>
    if w.approvals.entries.any fun a => a.2.status.active then some w
    else if id ∈ w.approvals then none
    else match newApproval s codec id w.run.id call checkpoint now with
      | .error _ => none
      | .ok a => some { w with approvals := w.approvals.insert id a, run := waitForApproval w.run now }
  | .waitForReconciliation => some { w with run := waitForReconciliation w.run now }

/-- The rows after the end of a job with the approval `approval`. -/
def World.end (w : World ω) (approval : Option String) (ending : Ending) (now : Nat) : World ω :=
  match ending with
  | .returned state => { w with run := endInvocation w.run state now }
  | .raised error =>
    let w := w.failApproval s codec approval error now
    { w with run := finishInfraError w.run error now }
  | .reconciliation errorMessage =>
    let w := { w with run := waitForReconciliation w.run now }
    match approval with
    | none => w
    | some id => w.approve s codec id (.requireReconciliation errorMessage) now
  | .inProgress => w

def step (w : World ω) : Event ω → Option (World ω)
  | .deliver k job => if w.phase k = .idle then some (w.goto k (.delivered job)) else none
  | .enter k now =>
    match w.phase k with
    | .delivered job => some (w.enter s codec k job now)
    | _ => none
  | .finishApproval k result failed now =>
    match w.phase k with
    | .entered (some id) => some (w.approve s codec id (.finish result failed) now)
    | _ => none
  | .createWorkspace k =>
    match w.phase k with
    | .entered approval => some { w.goto k (.active approval) with workspace := some k }
    | _ => none
  | .node k write now => if (w.phase k).isActive then w.write s codec write now else none
  | .prepareExecution k request id now =>
    if (w.phase k).inFlight ∧ id ∉ w.executions then
      match Ledger.prepare ls codec w.executions request id now with
      | .error _ => none
      | .ok (executions, _) => some { w with executions }
    else none
  | .finish k ending now =>
    match w.phase k, ending with
    | .entered _, .returned _ => none
    | .entered approval, _ => some ((w.end s codec approval ending now).goto k .idle)
    | .active approval, _ => some { (w.end s codec approval ending now).goto k .idle with workspace := none }
    | _, _ => none
  | .crash k => some (w.goto k .idle)
  | .approval id t now => some (w.approve s codec id t now)
  | .execution id t now => some { w with executions := (Ledger.locked ls codec now t w.executions id).1 }

/-- A run that no worker has a job of yet, in any rows. -/
def lifecycle : System (World ω) (Event ω) :=
  .ofStep (fun w => ∀ k, w.phase k = .idle) (step s ls codec)

/-- Whether the entry check of a job does not refuse it. -/
def admits (w : World ω) (job : Job) (now : Nat) : Prop := entry s codec w job now ≠ .refused

/-- Whether the entry check of a job lets it in. -/
def letsIn (w : World ω) (job : Job) (now : Nat) : Prop := ∃ approval, entry s codec w job now = .passed approval

/-! ## What the parts of a step leave -/

variable {w w' : World ω} {k k' : ω} {phase : Phase}

@[simp] theorem goto_run : (w.goto k phase).run = w.run := rfl

@[simp] theorem goto_workspace : (w.goto k phase).workspace = w.workspace := rfl

@[simp] theorem goto_phase_self : (w.goto k phase).phase k = phase := if_pos rfl

@[simp] theorem goto_phase_of_ne (h : k' ≠ k) : (w.goto k phase).phase k' = w.phase k' := if_neg h

/-- The worlds agree apart from the rows of approvals and executions. -/
structure SameJobs (w w' : World ω) : Prop where
  run : w'.run = w.run
  phase : w'.phase = w.phase
  workspace : w'.workspace = w.workspace

omit [DecidableEq ω] in
theorem approve_same (w : World ω) (id : String) (t : Mcp.Transaction) (now : Nat) :
    SameJobs w (w.approve s codec id t now) := by
  unfold World.approve
  split <;> exact ⟨rfl, rfl, rfl⟩

omit [DecidableEq ω] in
theorem claim_same (w : World ω) (approval : Option String) (now : Nat) :
    SameJobs w (w.claim s codec approval now) := by
  cases approval with
  | none => exact ⟨rfl, rfl, rfl⟩
  | some id => exact approve_same s codec w id _ now

omit [DecidableEq ω] in
theorem failApproval_same (w : World ω) (approval : Option String) (error : String) (now : Nat) :
    SameJobs w (w.failApproval s codec approval error now) := by
  cases approval with
  | none => exact ⟨rfl, rfl, rfl⟩
  | some id => exact approve_same s codec w id _ now

omit [DecidableEq ω] in
/-- The end of a job changes only rows. -/
theorem end_same (w : World ω) (approval : Option String) (ending : Ending) (now : Nat) :
    (w.end s codec approval ending now).phase = w.phase ∧
      (w.end s codec approval ending now).workspace = w.workspace := by
  cases ending with
  | returned state => exact ⟨rfl, rfl⟩
  | raised error =>
    have h := failApproval_same s codec w approval error now
    exact ⟨h.phase, h.workspace⟩
  | reconciliation errorMessage =>
    cases approval with
    | none => exact ⟨rfl, rfl⟩
    | some id =>
      have h := approve_same s codec { w with run := waitForReconciliation w.run now } id
        (.requireReconciliation errorMessage) now
      exact ⟨h.phase, h.workspace⟩
  | inProgress => exact ⟨rfl, rfl⟩

variable {s ls codec}

omit [DecidableEq ω] in
/-- A node changes only rows, and does not end the run. -/
theorem write_same {write : NodeWrite} {now : Nat} (h : w.write s codec write now = some w') :
    w'.phase = w.phase ∧ w'.workspace = w.workspace ∧ (w'.run = w.run ∨ w'.run.status.terminal = false) := by
  cases write with
  | nothing =>
    obtain rfl := Option.some.inj h
    exact ⟨rfl, rfl, .inl rfl⟩
  | requestApproval id call checkpoint =>
    dsimp only [World.write] at h
    split at h
    · obtain rfl := Option.some.inj h
      exact ⟨rfl, rfl, .inl rfl⟩
    split at h
    · cases h
    split at h
    · cases h
    · obtain rfl := Option.some.inj h
      exact ⟨rfl, rfl, .inr rfl⟩
  | waitForReconciliation =>
    obtain rfl := Option.some.inj h
    refine ⟨rfl, rfl, ?_⟩
    unfold waitForReconciliation
    dsimp only
    split
    · exact .inl rfl
    · exact .inr rfl

/-! ## The steps -/

/-- The steps, with what each needs. -/
inductive Move (s : ApprovalSettings) (ls : Ledger.Settings) (codec : Codec) (w : World ω) : Event ω → World ω → Prop
  | deliver {k : ω} {job : Job} :
      w.phase k = .idle → Move s ls codec w (.deliver k job) (w.goto k (.delivered job))
  | refused {k : ω} {job : Job} {now : Nat} :
      w.phase k = .delivered job → entry s codec w job now = .refused →
      Move s ls codec w (.enter k now) (w.goto k .idle)
  | failed {k : ω} {job : Job} {now : Nat} {approval : Option String} {error : String} {w₁ : World ω} :
      w.phase k = .delivered job → entry s codec w job now = .failed approval error → SameJobs w w₁ →
      Move s ls codec w (.enter k now) ({ w₁ with run := finishInfraError w.run error now }.goto k .idle)
  | passed {k : ω} {job : Job} {now : Nat} {approval : Option String} {w₁ : World ω} :
      w.phase k = .delivered job → entry s codec w job now = .passed approval → SameJobs w w₁ →
      Move s ls codec w (.enter k now) ({ w₁ with run := goOn job w.run now }.goto k (.entered approval))
  | createWorkspace {k : ω} {approval : Option String} :
      w.phase k = .entered approval →
      Move s ls codec w (.createWorkspace k) { w.goto k (.active approval) with workspace := some k }
  | node {k : ω} {write : NodeWrite} {now : Nat} {w' : World ω} :
      (w.phase k).inFlight = true → w.write s codec write now = some w' →
      Move s ls codec w (.node k write now) w'
  | finish {k : ω} {approval : Option String} {ending : Ending} {now : Nat} {workspace : Option ω} :
      (w.phase k).inFlight = true →
      Move s ls codec w (.finish k ending now)
        { (w.end s codec approval ending now).goto k .idle with workspace := workspace }
  | crash {k : ω} : Move s ls codec w (.crash k) (w.goto k .idle)
  | rows {e : Event ω} {w' : World ω} : SameJobs w w' → Move s ls codec w e w'

theorem isActive_inFlight {phase : Phase} (h : phase.isActive = true) : phase.inFlight = true := by
  cases phase with
  | active => rfl
  | _ => cases h

/-- The inversion of a step. -/
theorem step_move {e : Event ω} (h : step s ls codec w e = some w') : Move s ls codec w e w' := by
  cases e with
  | deliver k job =>
    dsimp only [step] at h
    split at h
    · next hidle =>
      obtain rfl := Option.some.inj h
      exact .deliver hidle
    · cases h
  | enter k now =>
    dsimp only [step] at h
    split at h
    · next job hdelivered =>
      obtain rfl := Option.some.inj h
      unfold World.enter
      split
      · next hentry => exact .refused hdelivered hentry
      · next approval error hentry =>
        have hclaim := claim_same s codec w approval now
        have hfail := failApproval_same s codec (w.claim s codec approval now) approval error now
        dsimp only
        rw [hfail.run, hclaim.run]
        exact .failed hdelivered hentry
          ⟨hfail.run.trans hclaim.run, hfail.phase.trans hclaim.phase, hfail.workspace.trans hclaim.workspace⟩
      · next approval hentry =>
        have hclaim := claim_same s codec w approval now
        dsimp only
        rw [hclaim.run]
        exact .passed hdelivered hentry hclaim
    · cases h
  | finishApproval k result failed now =>
    dsimp only [step] at h
    split at h
    · obtain rfl := Option.some.inj h
      exact .rows (approve_same ..)
    · cases h
  | createWorkspace k =>
    dsimp only [step] at h
    split at h
    · next approval hentered =>
      obtain rfl := Option.some.inj h
      exact .createWorkspace hentered
    · cases h
  | node k write now =>
    dsimp only [step] at h
    split at h
    · next hactive => exact .node (isActive_inFlight hactive) h
    · cases h
  | prepareExecution k request id now =>
    dsimp only [step] at h
    split at h
    · split at h
      · cases h
      · obtain rfl := Option.some.inj h
        exact .rows ⟨rfl, rfl, rfl⟩
    · cases h
  | finish k ending now =>
    dsimp only [step] at h
    split at h
    · cases h
    · next approval hentered _ =>
      obtain rfl := Option.some.inj h
      exact .finish (congrArg Phase.inFlight hentered)
    · next approval hactive =>
      obtain rfl := Option.some.inj h
      exact .finish (congrArg Phase.inFlight hactive)
    · cases h
  | crash k =>
    obtain rfl := Option.some.inj h
    exact .crash
  | approval id t now =>
    obtain rfl := Option.some.inj h
    exact .rows (approve_same ..)
  | execution id t now =>
    obtain rfl := Option.some.inj h
    exact .rows ⟨rfl, rfl, rfl⟩

theorem inFlight_goto (h : ((w.goto k phase).phase k').inFlight = true) :
    (k' = k ∧ phase.inFlight = true) ∨ (w.phase k').inFlight = true := by
  by_cases hk : k' = k
  · subst hk
    rw [goto_phase_self] at h
    exact .inl ⟨rfl, h⟩
  · rw [goto_phase_of_ne hk] at h
    exact .inr h

/-- A worker is in flight after a step if it was before, or if the step lets its job in. -/
theorem step_inFlight {e : Event ω} (h : step s ls codec w e = some w') (hk : (w'.phase k).inFlight = true) :
    (w.phase k).inFlight = true ∨
      ∃ job now, e = .enter k now ∧ w.phase k = .delivered job ∧ letsIn s codec w job now := by
  cases step_move h with
  | deliver =>
    rcases inFlight_goto hk with ⟨_, hk⟩ | hk
    · cases hk
    · exact .inl hk
  | refused =>
    rcases inFlight_goto hk with ⟨_, hk⟩ | hk
    · cases hk
    · exact .inl hk
  | @failed _ job now approval error w₁ _ _ hsame =>
    rcases inFlight_goto (w := { w₁ with run := finishInfraError w.run error now }) hk with ⟨_, hk⟩ | hk
    · cases hk
    · exact .inl (hsame.phase ▸ hk)
  | @passed _ job now approval w₁ hdelivered hentry hsame =>
    rcases inFlight_goto (w := { w₁ with run := goOn job w.run now }) hk with ⟨rfl, _⟩ | hk
    · exact .inr ⟨job, now, rfl, hdelivered, approval, hentry⟩
    · exact .inl (hsame.phase ▸ hk)
  | createWorkspace hentered =>
    rcases inFlight_goto hk with ⟨rfl, _⟩ | hk
    · exact .inl (congrArg Phase.inFlight hentered)
    · exact .inl hk
  | node _ hwrite => exact .inl ((write_same hwrite).1 ▸ hk)
  | @finish _ approval ending now =>
    rcases inFlight_goto (w := w.end s codec approval ending now) hk with ⟨_, hk⟩ | hk
    · cases hk
    · exact .inl ((end_same s codec w approval ending now).1 ▸ hk)
  | crash =>
    rcases inFlight_goto hk with ⟨_, hk⟩ | hk
    · cases hk
    · exact .inl hk
  | rows hsame => exact .inl (hsame.phase ▸ hk)

/-- A graph has its workspace after a step if it had it before and no other worker in flight
took it, or if the step created it for the graph. -/
theorem step_workspace {e : Event ω} (h : step s ls codec w e = some w') (hk : (w'.phase k).isActive = true) :
    w'.workspace = some k ∨
      (w.phase k).isActive = true ∧ (w'.workspace = w.workspace ∨ ∃ k', k' ≠ k ∧ (w.phase k').inFlight = true) := by
  have hother {u : World ω} {k' : ω} {phase : Phase} (hu : u.phase = w.phase) (hphase : phase.isActive = false)
      (hk : ((u.goto k' phase).phase k).isActive = true) : k' ≠ k ∧ (w.phase k).isActive = true := by
    by_cases hne : k = k'
    · subst hne
      rw [goto_phase_self, hphase] at hk
      cases hk
    · rw [goto_phase_of_ne hne, hu] at hk
      exact ⟨Ne.symm hne, hk⟩
  cases step_move h with
  | deliver => exact .inr ⟨(hother rfl rfl hk).2, .inl rfl⟩
  | refused => exact .inr ⟨(hother rfl rfl hk).2, .inl rfl⟩
  | @failed _ _ now _ error w₁ _ _ hsame =>
    exact .inr ⟨(hother (u := { w₁ with run := finishInfraError w.run error now }) hsame.phase rfl hk).2,
      .inl hsame.workspace⟩
  | @passed _ job now _ w₁ _ _ hsame =>
    exact .inr ⟨(hother (u := { w₁ with run := goOn job w.run now }) hsame.phase rfl hk).2, .inl hsame.workspace⟩
  | @createWorkspace k' approval hentered =>
    by_cases hne : k = k'
    · exact .inl (congrArg some hne.symm)
    · rw [show (({ w.goto k' (.active approval) with workspace := some k' } : World ω).phase k) = w.phase k from
        goto_phase_of_ne hne] at hk
      exact .inr ⟨hk, .inr ⟨k', Ne.symm hne, congrArg Phase.inFlight hentered⟩⟩
  | node _ hwrite =>
    obtain ⟨hphase, hworkspace, _⟩ := write_same hwrite
    exact .inr ⟨hphase ▸ hk, .inl hworkspace⟩
  | @finish k' approval ending now workspace hflight =>
    obtain ⟨hne, hactive⟩ := hother (u := w.end s codec approval ending now) (end_same ..).1 rfl hk
    exact .inr ⟨hactive, .inr ⟨k', hne, hflight⟩⟩
  | crash => exact .inr ⟨(hother rfl rfl hk).2, .inl rfl⟩
  | rows hsame => exact .inr ⟨hsame.phase ▸ hk, .inl hsame.workspace⟩

/-- A step that ends the run takes a worker out of flight, or one that its job's check failed. -/
theorem step_terminal {e : Event ω} (h : step s ls codec w e = some w') (ht : w'.run.status.terminal = true) :
    w.run.status.terminal = true ∨ ∃ k, (w'.phase k).inFlight = false ∧
      (∀ k', k' ≠ k → w'.phase k' = w.phase k') ∧ ((w.phase k).inFlight = true ∨
        ∃ job now, e = .enter k now ∧ w.phase k = .delivered job ∧ admits s codec w job now) := by
  cases step_move h with
  | deliver => exact .inl ht
  | refused => exact .inl ht
  | @failed k job now approval error w₁ hdelivered hentry hsame =>
    refine .inr ⟨k, congrArg Phase.inFlight goto_phase_self, fun k' hne => ?_, .inr ⟨job, now, rfl, hdelivered, ?_⟩⟩
    · exact (goto_phase_of_ne hne).trans (congrFun hsame.phase k')
    · unfold admits
      rw [hentry]
      exact Entry.noConfusion
  | @passed _ job => cases job <;> cases ht
  | createWorkspace => exact .inl ht
  | node _ hwrite =>
    rcases (write_same hwrite).2.2 with hrun | hrun
    · exact .inl (hrun ▸ ht)
    · rw [hrun] at ht
      cases ht
  | @finish k approval ending now workspace hflight =>
    refine .inr ⟨k, congrArg Phase.inFlight goto_phase_self, fun k' hne => ?_, .inl hflight⟩
    exact (goto_phase_of_ne hne).trans (congrFun (end_same ..).1 k')
  | crash => exact .inl ht
  | rows hsame => exact .inl (hsame.run ▸ ht)

end Step

end CodeMate.Lifecycle
