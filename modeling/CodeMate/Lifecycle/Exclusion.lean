import CodeMate.Lifecycle.Jobs

/-!
# One graph invocation at a time

No entry check of a job looks for another worker: `run_fix` goes on with every
row that is not terminal, a resume of an execution with every row. Under the
condition that a job is let in only where no worker is in flight (`Alone`),
`one_invocation` gives every active graph its own workspace. The condition is
needed: a job let in beside another one can become active beside it, and
`two_invocations` is a run in which a second job recreates the directory that
the first one works in.
-/

namespace CodeMate.Lifecycle

open Framework Agent Mcp

variable {ω : Type*} [DecidableEq ω] {s : ApprovalSettings} {ls : Ledger.Settings} {codec : Codec} {w w' : World ω}

/-- A job is let in only where no worker is in flight. -/
def Alone (s : ApprovalSettings) (codec : Codec) (w : World ω) (e : Event ω) : Prop :=
  ∀ k job now, e = .enter k now → w.phase k = .delivered job → letsIn s codec w job now →
    ∀ k', (w.phase k').inFlight = false

/-- At most one worker is in flight, and a graph that is active has the workspace. -/
structure Exclusive (w : World ω) : Prop where
  unique {k k' : ω} : (w.phase k).inFlight = true → (w.phase k').inFlight = true → k = k'
  workspace {k : ω} : (w.phase k).isActive = true → w.workspace = some k

theorem Exclusive.step {e : Event ω} (h : Exclusive w) (halone : Alone s codec w e)
    (hs : step s ls codec w e = some w') : Exclusive w' := by
  refine ⟨fun {k k'} hk hk' => ?_, fun {k} hk => ?_⟩
  · rcases step_inFlight hs hk with hk | ⟨job, now, rfl, hdelivered, hin⟩
    · rcases step_inFlight hs hk' with hk' | ⟨job, now, rfl, hdelivered, hin⟩
      · exact h.unique hk hk'
      · exact absurd hk (by rw [halone _ job now rfl hdelivered hin k]; exact Bool.false_ne_true)
    · rcases step_inFlight hs hk' with hk' | ⟨_, _, heq, _⟩
      · exact absurd hk' (by rw [halone _ job now rfl hdelivered hin k']; exact Bool.false_ne_true)
      · cases heq
        rfl
  · rcases step_workspace hs hk with hw | ⟨hactive, hw | ⟨k', hne, hflight⟩⟩
    · exact hw
    · rw [hw]
      exact h.workspace hactive
    · exact absurd (h.unique hflight (isActive_inFlight hactive)) hne

theorem exclusive_inductive (s : ApprovalSettings) (ls : Ledger.Settings) (codec : Codec) :
    ((lifecycle (ω := ω) s ls codec).only (Alone s codec)).Inductive Exclusive where
  start hidle := by
    refine ⟨fun {k _} hk => ?_, fun {k} hk => ?_⟩
    · rw [hidle k] at hk
      cases hk
    · rw [hidle k] at hk
      cases hk
  step h hs := h.step hs.1 hs.2

theorem step_createWorkspace {k : ω} {approval : Option String} (h : w.phase k = .entered approval) :
    step s ls codec w (.createWorkspace k) = some { w.goto k (.active approval) with workspace := some k } := by
  dsimp only [step]
  rw [h]

/-- The entry of a job that is let in. -/
theorem step_letsIn (ls : Ledger.Settings) {k : ω} {job : Job} {now : Nat} (hdelivered : w.phase k = .delivered job)
    (hin : letsIn s codec w job now) : ∃ approval w₁,
      step s ls codec w (.enter k now) = some w₁ ∧ w₁.run = goOn job w.run now ∧
      w₁.phase k = .entered approval ∧ ∀ k', k' ≠ k → w₁.phase k' = w.phase k' := by
  obtain ⟨approval, hentry⟩ := hin
  have hclaim := claim_same s codec w approval now
  refine ⟨approval, w.enter s codec k job now, ?_, ?_⟩
  · dsimp only [step]
    rw [hdelivered]
  · unfold World.enter
    rw [hentry]
    refine ⟨congrArg (goOn job · now) hclaim.run, goto_phase_self, fun k' hne => ?_⟩
    exact (goto_phase_of_ne hne).trans (congrFun hclaim.phase k')

/-- From its entry on, a worker becomes active whatever the others do. -/
theorem run_active (s : ApprovalSettings) (ls : Ledger.Settings) (codec : Codec) {k : ω}
    (h : (w.phase k).inFlight = true) : ∃ es w',
    (lifecycle s ls codec).Run w es w' ∧ (w'.phase k).isActive = true ∧ ∀ k', k' ≠ k → w'.phase k' = w.phase k' := by
  cases hphase : w.phase k with
  | idle | delivered =>
    rw [hphase] at h
    cases h
  | entered approval =>
    refine ⟨_, _, .single (step_createWorkspace hphase), congrArg Phase.isActive goto_phase_self, fun k' hne => ?_⟩
    exact goto_phase_of_ne hne
  | active approval => exact ⟨[], w, .nil, congrArg Phase.isActive hphase, fun _ _ => rfl⟩

/-- In a run in which a job is let in only where no worker is in flight, at most
one graph is active, it has the workspace, and no workspace is created
meanwhile. A job that is let in beside a worker in flight can become active
beside it. -/
theorem one_invocation (s : ApprovalSettings) (ls : Ledger.Settings) (codec : Codec) :
    (∀ {w : World ω}, ((lifecycle s ls codec).only (Alone s codec)).Reachable w →
      (∀ k k', (w.phase k).isActive = true → (w.phase k').isActive = true → k = k') ∧
      (∀ k, (w.phase k).isActive = true → w.workspace = some k) ∧
      ∀ k w', step s ls codec w (.createWorkspace k) = some w' → ∀ k', (w.phase k').isActive = false) ∧
    ∀ {w : World ω} {k k' : ω} {job : Job} {now : Nat}, k' ≠ k → (w.phase k').inFlight = true →
      w.phase k = .delivered job → letsIn s codec w job now →
      ∃ es w', (lifecycle s ls codec).Run w es w' ∧ (w'.phase k).isActive = true ∧ (w'.phase k').isActive = true := by
  refine ⟨fun {w} hw => ?_, fun {w k k' job now} hne hflight hdelivered hin => ?_⟩
  · have h : Exclusive w := (exclusive_inductive s ls codec).reachable hw
    refine ⟨fun k k' hk hk' => h.unique (isActive_inFlight hk) (isActive_inFlight hk'),
      fun k hk => h.workspace hk, fun k w' hs k' => ?_⟩
    cases hactive : (w.phase k').isActive with
    | false => rfl
    | true =>
      dsimp only [step] at hs
      split at hs
      · next approval hentered =>
        have heq : k = k' := h.unique (congrArg Phase.inFlight hentered) (isActive_inFlight hactive)
        rw [← heq, hentered] at hactive
        cases hactive
      · cases hs
  · obtain ⟨approval, w₁, hs, _, hentered, hothers⟩ := step_letsIn ls hdelivered hin
    obtain ⟨es, w₂, hrun, hactive, hkeep⟩ :=
      run_active s ls codec (w := w₁) (k := k') (by rw [hothers k' hne]; exact hflight)
    have hphase : w₂.phase k = .entered approval := (hkeep k hne.symm).trans hentered
    refine ⟨_, _, .cons hs (hrun.snoc (step_createWorkspace hphase)), congrArg Phase.isActive goto_phase_self, ?_⟩
    exact (congrArg Phase.isActive (goto_phase_of_ne hne)).trans hactive

/-- The row of a new run. -/
def newRun : AgentRun where
  id := "run"
  repoId := "repo"
  status := .pending
  finalDiff := none
  finalSummary := none
  testResult := none
  iterations := 0
  failureReason := none
  finishedAt := none
  updatedAt := 0

def sampleApprovals : ApprovalSettings := ⟨true, 3600, 300, 1000⟩

def sampleLifecycle : System (World Bool) (Event Bool) :=
  lifecycle sampleApprovals Ledger.sampleSettings Ledger.sampleCodec

def newWorld : World Bool := ⟨newRun, true, ∅, ∅, fun _ => .idle, none⟩

/-- A call that the run makes, with its checkpoint. -/
def statusRequest : Ledger.Request where
  runId := "run"
  call := ⟨"ops.status", "ops", "status", .obj []⟩
  idempotencyKey := "key"
  idempotencyMode := "none"
  approvalId := none
  checkpoint := some (.obj [("run_id", .str "run"), ("repo_id", .str "repo")])

def firstInvocation : List (Event Bool) := [.deliver false .runFix, .enter false 1, .createWorkspace false]

/-- The first worker makes the call and goes on; then an operator resumes the execution. -/
def secondDelivered : List (Event Bool) :=
  firstInvocation ++
  [.prepareExecution false statusRequest "e" 2, .execution "e" (.claim "t" "pid:1") 3,
    .execution "e" (.complete "t" (.obj [("ok", .bool true)]) false) 4, .node false .nothing 5,
    .deliver true (.resumeFromExecution "e")]

/-- The row of the execution lets the second worker in, whatever the first one does. -/
theorem second_delivered : ∃ w, sampleLifecycle.Reachable w ∧ (w.phase false).isActive = true ∧
    w.phase true = .delivered (.resumeFromExecution "e") ∧
    letsIn sampleApprovals Ledger.sampleCodec w (.resumeFromExecution "e") 6 :=
  ⟨_, ⟨newWorld, secondDelivered, fun _ => rfl, .of_foldlM rfl⟩, rfl, rfl, none, rfl⟩

/-- The second worker is let in and recreates the directory in which the first one works. -/
theorem two_invocations : ∃ w w' : World Bool,
    sampleLifecycle.Reachable w ∧
    (w.phase false).isActive = true ∧ w.workspace = some false ∧
    sampleLifecycle.Run w [.enter true 6, .createWorkspace true] w' ∧
    (w'.phase false).isActive = true ∧ (w'.phase true).isActive = true ∧ w'.workspace = some true :=
  ⟨_, _, ⟨newWorld, secondDelivered, fun _ => rfl, .of_foldlM rfl⟩, rfl, rfl, .of_foldlM rfl, rfl, rfl, rfl⟩

/-- One worker alone meets the condition; the second job of `two_invocations` does not. -/
theorem one_invocation_sample :
    (∃ w : World Bool, (sampleLifecycle.only (Alone sampleApprovals Ledger.sampleCodec)).Reachable w ∧
      (w.phase false).isActive = true ∧ (w.phase true).isActive = false) ∧
    ∃ w, sampleLifecycle.Reachable w ∧ ∃ es w', sampleLifecycle.Run w es w' ∧
      (w'.phase true).isActive = true ∧ (w'.phase false).isActive = true := by
  refine ⟨?_, ?_⟩
  · have hrun : (sampleLifecycle.only (Alone sampleApprovals Ledger.sampleCodec)).Run newWorld firstInvocation _ :=
      .cons ⟨fun _ _ _ he => (by cases he), rfl⟩ (.cons ⟨fun _ _ _ _ _ _ k' => (by cases k' <;> rfl), rfl⟩
        (.single ⟨fun _ _ _ he => (by cases he), rfl⟩))
    have hone := (one_invocation (ω := Bool) sampleApprovals Ledger.sampleSettings Ledger.sampleCodec).1
      ⟨_, _, fun _ => rfl, hrun⟩
    refine ⟨_, ⟨_, _, fun _ => rfl, hrun⟩, rfl, ?_⟩
    exact Bool.eq_false_iff.mpr fun h => Bool.false_ne_true (hone.1 false true rfl h)
  · obtain ⟨w, hw, hactive, hdelivered, hin⟩ := second_delivered
    exact ⟨w, hw, (one_invocation sampleApprovals Ledger.sampleSettings Ledger.sampleCodec).2
      (by decide) (isActive_inFlight hactive) hdelivered hin⟩

end CodeMate.Lifecycle
