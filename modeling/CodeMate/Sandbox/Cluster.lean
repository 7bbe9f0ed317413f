import CodeMate.Sandbox.Handlers

/-!
# Jobs in a cluster

`execute_kubernetes` in steps, by any number of attempts against one cluster.
A Job is addressed by a name that has only the first eight characters of the
execution id, and a Job of that name that is already there is taken for the
attempt's own, so an attempt may return the result of another
(`job_taken_over`). `results_own` is what holds as long as each attempt creates
its Job when there is none of that name and no other attempt is at work with one.
-/

namespace CodeMate.Sandbox

open Framework

/-- What the manifest of a Job has from its request. -/
structure JobManifest where
  name : String
  activeDeadlineSeconds : Int
  image : String
  command : List String
  subPath : String
  deriving DecidableEq

def kubernetesJobManifest (request : ExecutionRequest) : JobManifest where
  name := "codemate-" ++ (request.executionId.take 8).toString
  activeDeadlineSeconds := request.timeoutSeconds
  image := request.image
  command := ["sh", "-lc", request.shellCommand]
  subPath := request.executionId

/-- A Job with the attempt that created it, and what has come of it so far. -/
structure Job where
  manifest : JobManifest
  creator : Nat
  succeeded : Nat := 0
  failed : Nat := 0
  logs : String := ""
  nodeName : Option String := none
  deriving DecidableEq

/-- Where an attempt is in `execute_kubernetes`. -/
inductive RunnerStage
  | creating
  | polling (statusStderr : String)
  | logging (passed failed : Bool) (statusStderr : String)
  | locating (passed failed : Bool) (stderr stdout : String)
  /-- In the `finally` block, with the result or after an error. -/
  | deleting (result : Option BackendResult)
  | done (result : Option BackendResult)
  deriving DecidableEq

/-- An attempt, with the Jobs that it has read its result from. -/
structure Runner where
  request : ExecutionRequest
  stage : RunnerStage
  consulted : List Job

/-- The name of the Job of an attempt. -/
def Runner.jobName (runner : Runner) : String := (kubernetesJobManifest runner.request).name

/-- The Jobs of the cluster by name, the attempts, and which Jobs they deleted. -/
structure Cluster where
  jobs : String → Option Job
  runners : Nat → Option Runner
  deleted : List (Nat × Job)

inductive CreateAnswer
  /-- The Job is created, or there is one already. -/
  | answered
  /-- No Job is created, for another reason. -/
  | refused
  /-- The command times out, after the Job was created or not. -/
  | lost
  deriving DecidableEq

/-- A command of `kubectl` that returns: it reaches the cluster or fails, with a text on `stderr`. -/
structure Command where
  reaches : Bool
  stderr : String

inductive RunnerAction
  | create (answer : CreateAnswer)
  | poll (command : Command)
  /-- The deadline has passed. -/
  | giveUp
  | logs (command : Command)
  | node (command : Command)
  /-- An error, or a command that times out. -/
  | raise
  /-- The Job is deleted when the command reaches the cluster; when the command times out, that is an error. -/
  | delete (reaches raises : Bool)
  /-- The process ends. -/
  | stop

inductive ClusterEvent
  | start (h : Nat) (request : ExecutionRequest)
  | act (h : Nat) (action : RunnerAction)
  /-- The cluster runs the Job on. -/
  | progress (name : String) (succeeded failed : Nat) (logs : String) (nodeName : Option String)
  /-- The Job is gone, as it was deleted or its time is over. -/
  | gone (name : String)

namespace Cluster

def enter (s : Cluster) (h : Nat) (runner : Runner) (stage : RunnerStage) : Cluster :=
  { s with runners := Function.update s.runners h (some { runner with stage := stage }) }

/-- The attempt enters the stage, having read the Job if there was one. -/
def consult (s : Cluster) (h : Nat) (runner : Runner) (job : Option Job) (stage : RunnerStage) : Cluster :=
  s.enter h { runner with consulted := job.toList ++ runner.consulted } stage

/-- `kubectl create`, which does nothing when there is a Job of that name. -/
def create (s : Cluster) (h : Nat) (manifest : JobManifest) : Cluster :=
  match s.jobs manifest.name with
  | some _ => s
  | none =>
    { s with jobs := Function.update s.jobs manifest.name (some { manifest := manifest, creator := h }) }

/-- The stage after a poll that returned the Job. -/
def polled (job : Job) (stderr : String) : RunnerStage :=
  if 0 < job.succeeded ∨ 0 < job.failed then .logging (0 < job.succeeded) (0 < job.failed) stderr
  else .polling stderr

def result (passed failed : Bool) (stderr stdout : String) (executionNode : Option String) : BackendResult :=
  let timedOut := !passed && !failed
  { passed := passed
    exitCode := if passed then 0 else if timedOut then 124 else 1
    stdout := stdout
    stderr := stderr
    timedOut := timedOut
    executionNode := executionNode }

/-- The texts on `stderr`, less the empty ones. -/
def joined (parts : List String) : String := "\n".intercalate (parts.filter (· ≠ ""))

/-- A step of the attempt `h`; `job` is the Job of its name. -/
def act (s : Cluster) (h : Nat) (runner : Runner) (job : Option Job) : RunnerStage → RunnerAction → Option Cluster
  | .creating, .create .answered =>
    some ((s.create h (kubernetesJobManifest runner.request)).enter h runner (.polling ""))
  | .creating, .create .refused => some (s.enter h runner (.done none))
  | .creating, .create .lost =>
    some ((s.create h (kubernetesJobManifest runner.request)).enter h runner (.done none))
  | .polling _, .poll command =>
    let job := if command.reaches then job else none
    some (s.consult h runner job (job.elim (.polling command.stderr) (polled · command.stderr)))
  | .polling stderr, .giveUp => some (s.enter h runner (.logging false false stderr))
  | .logging passed failed stderr, .logs command =>
    let job := if command.reaches then job else none
    some (s.consult h runner job
      (.locating passed failed (joined [stderr, command.stderr]) (job.elim "" (·.logs))))
  | .locating passed failed stderr stdout, .node command =>
    let job := if command.reaches then job else none
    some (s.consult h runner job
      (.deleting (some (result passed failed stderr stdout (job.bind (·.nodeName))))))
  | .polling _, .raise | .logging _ _ _, .raise | .locating _ _ _ _, .raise =>
    some (s.enter h runner (.deleting none))
  | .deleting result, .delete reaches raises =>
    let job := if reaches then job else none
    some { s.enter h runner (.done (if raises then none else result)) with
      deleted := job.toList.map (h, ·) ++ s.deleted }
  | _, .stop => some (s.enter h runner (.done none))
  | _, _ => none

def step (s : Cluster) : ClusterEvent → Option Cluster
  | .start h request =>
    match s.runners h with
    | some _ => none
    | none => some (s.enter h ⟨request, .creating, []⟩ .creating)
  | .act h action => (s.runners h).bind fun runner =>
    s.act h runner (s.jobs runner.jobName) runner.stage action
  | .progress name succeeded failed logs nodeName =>
    some { s with jobs := Function.update s.jobs name ((s.jobs name).map fun job =>
      { job with succeeded := succeeded, failed := failed, logs := logs, nodeName := nodeName }) }
  | .gone name => some { s with jobs := Function.update s.jobs name none }

end Cluster

/-- The attempts against one cluster, which has no Job at first. -/
def clusters : System Cluster ClusterEvent :=
  .ofStep (fun s => (∀ name, s.jobs name = none) ∧ (∀ h, s.runners h = none) ∧ s.deleted = []) Cluster.step

namespace Cluster

variable {s t : Cluster}

/-- The attempt is between its create and its delete. -/
def atWork : RunnerStage → Bool
  | .polling _ | .logging _ _ _ | .locating _ _ _ _ | .deleting _ => true
  | .creating | .done _ => false

/-- The Job was created by this attempt from the manifest of its own request. -/
def Own (h : Nat) (runner : Runner) (job : Job) : Prop :=
  job.creator = h ∧ job.manifest = kubernetesJobManifest runner.request

/-- An attempt creates its Job only when there is none of that name, and no other attempt is at work with one. -/
def Clear (s : Cluster) (e : ClusterEvent) : Prop :=
  ∀ h answer runner, e = .act h (.create answer) → answer ≠ .refused → s.runners h = some runner →
    s.jobs runner.jobName = none ∧
    ∀ g other, g ≠ h → s.runners g = some other → atWork other.stage → other.jobName ≠ runner.jobName

/-- What a result says was read from a Job. -/
structure Backed (consulted : List Job) (result : BackendResult) : Prop where
  passed : result.passed = true → ∃ job ∈ consulted, 0 < job.succeeded
  failed : result.passed = false → result.timedOut = false → ∃ job ∈ consulted, 0 < job.failed
  stdout : result.stdout ≠ "" → ∃ job ∈ consulted, job.logs = result.stdout
  node : ∀ name, result.executionNode = some name → ∃ job ∈ consulted, job.nodeName = some name

/-- What the stage of an attempt says was read from a Job. -/
def StageBacked (consulted : List Job) : RunnerStage → Prop
  | .creating | .polling _ | .deleting none | .done none => True
  | .logging passed failed _ => (passed = true → ∃ job ∈ consulted, 0 < job.succeeded) ∧
      (failed = true → ∃ job ∈ consulted, 0 < job.failed)
  | .locating passed failed _ stdout => (passed = true → ∃ job ∈ consulted, 0 < job.succeeded) ∧
      (failed = true → ∃ job ∈ consulted, 0 < job.failed) ∧
      (stdout ≠ "" → ∃ job ∈ consulted, job.logs = stdout)
  | .deleting (some result) | .done (some result) => Backed consulted result

/-- Attempts at work have names of their own, and the Jobs of those names are theirs. -/
structure Attributed (s : Cluster) : Prop where
  apart : ∀ g h other runner, g ≠ h → s.runners g = some other → s.runners h = some runner → atWork other.stage →
    atWork runner.stage → other.jobName ≠ runner.jobName
  jobs : ∀ h runner job, s.runners h = some runner → atWork runner.stage →
    s.jobs runner.jobName = some job → Own h runner job
  consulted : ∀ h runner job, s.runners h = some runner → job ∈ runner.consulted → Own h runner job
  backed : ∀ h runner, s.runners h = some runner → StageBacked runner.consulted runner.stage
  deleted : ∀ h job, (h, job) ∈ s.deleted → job.creator = h

theorem enter_runners {g h : Nat} {runner other : Runner} {stage : RunnerStage}
    (hother : (s.enter h runner stage).runners g = some other) :
    (g = h ∧ other = { runner with stage := stage }) ∨ (g ≠ h ∧ s.runners g = some other) := by
  simp only [enter] at hother
  by_cases heq : g = h
  · rw [heq, Function.update_self] at hother
    exact .inl ⟨heq, (Option.some.inj hother).symm⟩
  · rw [Function.update_of_ne heq] at hother
    exact .inr ⟨heq, hother⟩

theorem jobName_stage (runner : Runner) (stage : RunnerStage) :
    Runner.jobName { runner with stage := stage } = runner.jobName := rfl

theorem consult_none {h : Nat} {runner : Runner} {stage : RunnerStage} :
    s.consult h runner none stage = s.enter h runner stage := rfl

/-- What an attempt can do in a step: create its Job, read the Job of its name or none, or delete it. -/
inductive Advance (s : Cluster) (h : Nat) (runner : Runner) : RunnerAction → Cluster → Prop
  | create {answer : CreateAnswer} {stage : RunnerStage} (hanswer : answer ≠ .refused)
    (hstage : stage = .polling "" ∨ stage = .done none) :
    Advance s h runner (.create answer) ((s.create h (kubernetesJobManifest runner.request)).enter h runner stage)
  | consult {job : Option Job} {stage : RunnerStage} (action : RunnerAction)
    (hjob : ∀ j, job = some j → s.jobs runner.jobName = some j ∧ atWork runner.stage)
    (hwork : atWork stage → atWork runner.stage)
    (hbacked : StageBacked runner.consulted runner.stage → StageBacked (job.toList ++ runner.consulted) stage) :
    Advance s h runner action (s.consult h runner job stage)
  | delete {job : Option Job} {result result' : Option BackendResult} (action : RunnerAction)
    (hjob : ∀ j, job = some j → s.jobs runner.jobName = some j) (hstage : runner.stage = .deleting result)
    (hresult : result' = none ∨ result' = result) :
    Advance s h runner action { s.enter h runner (.done result') with deleted := job.toList.map (h, ·) ++ s.deleted }

theorem reached {command : Command} {job : Option Job} {j : Job} (h : (if command.reaches then job else none) = some j) :
    job = some j := by
  split at h
  · exact h
  · cases h

theorem polled_atWork {job : Job} {stderr : String} : atWork (polled job stderr) := by
  unfold polled
  split
  · rfl
  · rfl

theorem polled_backed {job : Option Job} {stderr : String} {consulted : List Job} :
    StageBacked (job.toList ++ consulted) (job.elim (.polling stderr) (polled · stderr)) := by
  cases job with
  | none => trivial
  | some job =>
    show StageBacked (job :: consulted) (polled job stderr)
    unfold polled
    split
    · exact ⟨fun h => ⟨job, List.mem_cons_self, of_decide_eq_true h⟩,
        fun h => ⟨job, List.mem_cons_self, of_decide_eq_true h⟩⟩
    · trivial

/-- What was read from a Job was read from one of more Jobs. -/
theorem exists_append {p : Job → Prop} {consulted : List Job} (jobs : List Job) (h : ∃ job ∈ consulted, p job) :
    ∃ job ∈ jobs ++ consulted, p job := by
  obtain ⟨job, hmem, hjob⟩ := h
  exact ⟨job, List.mem_append_right _ hmem, hjob⟩

theorem logged_backed {job : Option Job} {passed failed : Bool} {stderr stderr' : String} {consulted : List Job}
    (h : StageBacked consulted (.logging passed failed stderr)) :
    StageBacked (job.toList ++ consulted) (.locating passed failed stderr' (job.elim "" (·.logs))) := by
  refine ⟨fun hp => exists_append _ (h.1 hp), fun hf => exists_append _ (h.2 hf), fun hne => ?_⟩
  cases job with
  | none => exact absurd rfl hne
  | some job => exact ⟨job, List.mem_cons_self, rfl⟩

theorem located_backed {job : Option Job} {passed failed : Bool} {stderr stdout : String} {consulted : List Job}
    (h : StageBacked consulted (.locating passed failed stderr stdout)) : StageBacked (job.toList ++ consulted)
      (.deleting (some (result passed failed stderr stdout (job.bind (·.nodeName))))) where
  passed hp := exists_append _ (h.1 hp)
  failed hp ht := by
    have hp : passed = false := hp
    have ht : (!passed && !failed) = false := ht
    rw [hp] at ht
    exact exists_append _ (h.2.1 (by simpa using ht))
  stdout hne := exists_append _ (h.2.2 hne)
  node name hname := by
    obtain ⟨job, rfl, hname⟩ := Option.bind_eq_some_iff.mp hname
    exact ⟨job, List.mem_cons_self, hname⟩

theorem Advance.of_enter {h : Nat} {runner : Runner} {action : RunnerAction} {stage stage' : RunnerStage}
    (hstage : runner.stage = stage) (ht : s.enter h runner stage' = t) (hwork : atWork stage' → atWork stage)
    (hbacked : StageBacked runner.consulted stage → StageBacked runner.consulted stage') :
    Advance s h runner action t := by
  subst hstage ht
  exact consult_none (s := s) ▸ .consult action nofun hwork hbacked

theorem Advance.of_consult {h : Nat} {runner : Runner} {action : RunnerAction} {command : Command}
    {stage stage' : RunnerStage} (hstage : runner.stage = stage)
    (ht : s.consult h runner (if command.reaches then s.jobs runner.jobName else none) stage' = t)
    (hwork : atWork stage)
    (hbacked : StageBacked runner.consulted stage → StageBacked
      ((if command.reaches then s.jobs runner.jobName else none).toList ++ runner.consulted) stage') :
    Advance s h runner action t := by
  subst hstage ht
  exact .consult action (fun j hj => ⟨reached hj, hwork⟩) (fun _ => hwork) hbacked

theorem act_advance {h : Nat} {runner : Runner} {action : RunnerAction}
    (hact : s.act h runner (s.jobs runner.jobName) runner.stage action = some t) : Advance s h runner action t := by
  generalize hstage : runner.stage = stage at hact
  unfold act at hact
  split at hact
  · obtain rfl := Option.some.inj hact
    exact .create (by decide) (.inl rfl)
  · exact .of_enter hstage (Option.some.inj hact) nofun fun _ => trivial
  · obtain rfl := Option.some.inj hact
    exact .create (by decide) (.inr rfl)
  · exact .of_consult hstage (Option.some.inj hact) rfl fun _ => polled_backed
  · exact .of_enter hstage (Option.some.inj hact) (fun _ => rfl) fun _ => ⟨nofun, nofun⟩
  · exact .of_consult hstage (Option.some.inj hact) rfl logged_backed
  · exact .of_consult hstage (Option.some.inj hact) rfl located_backed
  · exact .of_enter hstage (Option.some.inj hact) (fun _ => rfl) fun _ => trivial
  · exact .of_enter hstage (Option.some.inj hact) (fun _ => rfl) fun _ => trivial
  · exact .of_enter hstage (Option.some.inj hact) (fun _ => rfl) fun _ => trivial
  · next result reaches raises =>
    obtain rfl := Option.some.inj hact
    refine .delete _ (fun j hj => ?_) hstage ?_
    · split at hj
      · exact hj
      · cases hj
    · split
      · exact .inl rfl
      · exact .inr rfl
  · exact .of_enter hstage (Option.some.inj hact) nofun fun _ => trivial
  · cases hact

/-- An attempt that enters a stage at work only from one, with more Jobs of its own consulted. -/
theorem Attributed.enter (hs : s.Attributed) {h : Nat} {runner : Runner} {jobs : List Job} {stage : RunnerStage}
    (hrunner : s.runners h = some runner) (hjobs : ∀ job ∈ jobs, Own h runner job)
    (hwork : atWork stage → atWork runner.stage) (hbacked : StageBacked (jobs ++ runner.consulted) stage) :
    (s.enter h { runner with consulted := jobs ++ runner.consulted } stage).Attributed where
  apart g g' other other' hne hother hother' hg hg' := by
    obtain ⟨rfl, rfl⟩ | ⟨hne₁, hold⟩ := enter_runners hother
    · obtain ⟨rfl, rfl⟩ | ⟨hne₂, hold'⟩ := enter_runners hother'
      · exact absurd rfl hne
      · exact hs.apart g g' runner other' hne hrunner hold' (hwork hg) hg'
    · obtain ⟨rfl, rfl⟩ | ⟨hne₂, hold'⟩ := enter_runners hother'
      · exact hs.apart g g' other runner hne hold hrunner hg (hwork hg')
      · exact hs.apart g g' other other' hne hold hold' hg hg'
  jobs g other job hother hg hjob := by
    obtain ⟨rfl, rfl⟩ | ⟨-, hold⟩ := enter_runners hother
    · exact hs.jobs g runner job hrunner (hwork hg) hjob
    · exact hs.jobs g other job hold hg hjob
  consulted g other job hother hmem := by
    obtain ⟨rfl, rfl⟩ | ⟨-, hold⟩ := enter_runners hother
    · rcases List.mem_append.mp hmem with hmem | hmem
      · exact hjobs job hmem
      · exact hs.consulted g runner job hrunner hmem
    · exact hs.consulted g other job hold hmem
  backed g other hother := by
    obtain ⟨rfl, rfl⟩ | ⟨-, hold⟩ := enter_runners hother
    · exact hbacked
    · exact hs.backed g other hold
  deleted := hs.deleted

/-- A Job is created where there was none of its name, by an attempt that is alone with the name. -/
theorem Attributed.create (hs : s.Attributed) {h : Nat} {runner : Runner} {stage : RunnerStage}
    (hrunner : s.runners h = some runner) (hnone : s.jobs runner.jobName = none)
    (halone : ∀ g other, g ≠ h → s.runners g = some other → atWork other.stage → other.jobName ≠ runner.jobName)
    (hstage : stage = .polling "" ∨ stage = .done none) :
    ((s.create h (kubernetesJobManifest runner.request)).enter h runner stage).Attributed := by
  have hcreate : s.create h (kubernetesJobManifest runner.request) = { s with
      jobs := Function.update s.jobs runner.jobName
        (some { manifest := kubernetesJobManifest runner.request, creator := h }) } := by
    unfold Cluster.create
    rw [show s.jobs (kubernetesJobManifest runner.request).name = none from hnone]
    rfl
  rw [hcreate]
  refine ⟨fun g g' other other' hne hother hother' hg hg' => ?_, fun g other job hother hg hjob => ?_,
    fun g other job hother hmem => ?_, fun g other hother => ?_, hs.deleted⟩
  · obtain ⟨rfl, rfl⟩ | ⟨hne₁, hold⟩ := enter_runners hother
    · obtain ⟨rfl, rfl⟩ | ⟨hne₂, hold'⟩ := enter_runners hother'
      · exact absurd rfl hne
      · exact (halone g' other' hne₂ hold' hg').symm
    · obtain ⟨rfl, rfl⟩ | ⟨hne₂, hold'⟩ := enter_runners hother'
      · exact halone g other hne₁ hold hg
      · exact hs.apart g g' other other' hne hold hold' hg hg'
  · simp only [Cluster.enter] at hjob
    obtain ⟨rfl, rfl⟩ | ⟨hne, hold⟩ := enter_runners hother
    · rw [jobName_stage runner stage, Function.update_self] at hjob
      obtain rfl := Option.some.inj hjob
      exact ⟨rfl, rfl⟩
    · rw [Function.update_of_ne (halone g other hne hold hg)] at hjob
      exact hs.jobs g other job hold hg hjob
  · obtain ⟨rfl, rfl⟩ | ⟨-, hold⟩ := enter_runners hother
    · exact hs.consulted g runner job hrunner hmem
    · exact hs.consulted g other job hold hmem
  · obtain ⟨rfl, rfl⟩ | ⟨-, hold⟩ := enter_runners hother
    · rcases hstage with rfl | rfl <;> exact trivial
    · exact hs.backed g other hold

theorem Attributed.advance (hs : s.Attributed) {h : Nat} {runner : Runner} {action : RunnerAction}
    (hrunner : s.runners h = some runner) (hclear : s.Clear (.act h action)) (ht : Advance s h runner action t) :
    t.Attributed := by
  cases ht with
  | create hanswer hstage =>
    obtain ⟨hnone, halone⟩ := hclear h _ runner rfl hanswer hrunner
    exact hs.create hrunner hnone halone hstage
  | @consult job stage _ hjob hwork hbacked =>
    refine hs.enter hrunner (fun j hmem => ?_) hwork (hbacked (hs.backed h runner hrunner))
    obtain ⟨hj, hw⟩ := hjob j (Option.mem_toList.mp hmem)
    exact hs.jobs h runner j hrunner hw hj
  | @delete job result result' _ hjob hstage hresult =>
    have hbacked : StageBacked runner.consulted (.done result') := by
      rcases hresult with rfl | rfl
      · trivial
      · have h := hs.backed h runner hrunner
        rw [hstage] at h
        cases result' with
        | none => trivial
        | some result => exact h
    have hdone : (s.enter h { runner with consulted := [] ++ runner.consulted } (.done result')).Attributed :=
      hs.enter hrunner nofun nofun hbacked
    refine ⟨hdone.apart, hdone.jobs, hdone.consulted, hdone.backed, fun g j hmem => ?_⟩
    rcases List.mem_append.mp hmem with hmem | hmem
    · obtain ⟨j', hj', heq⟩ := List.mem_map.mp hmem
      obtain ⟨rfl, rfl⟩ := Prod.mk.inj heq
      exact (hs.jobs h runner j' hrunner (by rw [hstage]; rfl) (hjob j' (Option.mem_toList.mp hj'))).1
    · exact hs.deleted g j hmem

theorem attributed_step {e : ClusterEvent} (hs : s.Attributed) (hclear : s.Clear e) (hstep : s.step e = some t) :
    t.Attributed := by
  cases e with
  | start h request =>
    simp only [step] at hstep
    split at hstep
    · cases hstep
    · next hnone =>
      obtain rfl := Option.some.inj hstep
      refine ⟨fun g g' other other' hne hother hother' hg hg' => ?_, fun g other job hother hg hjob => ?_,
        fun g other job hother hmem => ?_, fun g other hother => ?_, hs.deleted⟩
      · obtain ⟨rfl, rfl⟩ | ⟨-, hold⟩ := enter_runners hother
        · cases hg
        · obtain ⟨rfl, rfl⟩ | ⟨-, hold'⟩ := enter_runners hother'
          · cases hg'
          · exact hs.apart g g' other other' hne hold hold' hg hg'
      · obtain ⟨rfl, rfl⟩ | ⟨-, hold⟩ := enter_runners hother
        · cases hg
        · exact hs.jobs g other job hold hg hjob
      · obtain ⟨rfl, rfl⟩ | ⟨-, hold⟩ := enter_runners hother
        · cases hmem
        · exact hs.consulted g other job hold hmem
      · obtain ⟨rfl, rfl⟩ | ⟨-, hold⟩ := enter_runners hother
        · trivial
        · exact hs.backed g other hold
  | act h action =>
    obtain ⟨runner, hrunner, hact⟩ := Option.bind_eq_some_iff.mp hstep
    exact hs.advance hrunner hclear (act_advance hact)
  | progress name succeeded failed logs nodeName =>
    obtain rfl := Option.some.inj hstep
    refine ⟨hs.apart, fun g other job hother hg hjob => ?_, hs.consulted, hs.backed, hs.deleted⟩
    dsimp only at hjob
    by_cases hname : other.jobName = name
    · rw [hname, Function.update_self] at hjob
      obtain ⟨before, hbefore, rfl⟩ := Option.map_eq_some_iff.mp hjob
      exact hs.jobs g other before hother hg (hname ▸ hbefore)
    · rw [Function.update_of_ne hname] at hjob
      exact hs.jobs g other job hother hg hjob
  | gone name =>
    obtain rfl := Option.some.inj hstep
    refine ⟨hs.apart, fun g other job hother hg hjob => ?_, hs.consulted, hs.backed, hs.deleted⟩
    dsimp only at hjob
    by_cases hname : other.jobName = name
    · rw [hname, Function.update_self] at hjob
      cases hjob
    · rw [Function.update_of_ne hname] at hjob
      exact hs.jobs g other job hother hg hjob

theorem attributed_inductive : (clusters.only Clear).Inductive Attributed where
  start := by
    rintro s ⟨-, hnone, hdeleted⟩
    have hnot : ∀ {h runner}, s.runners h ≠ some runner := fun h => by cases (hnone _).symm.trans h
    refine ⟨fun _ _ _ _ _ h => absurd h hnot, fun _ _ _ h => absurd h hnot, fun _ _ _ h => absurd h hnot,
      fun _ _ h => absurd h hnot, fun h job hmem => ?_⟩
    rw [hdeleted] at hmem
    cases hmem
  step := by
    rintro s t e hs ⟨hclear, hstep⟩
    exact attributed_step hs hclear hstep

end Cluster

open Cluster in
/-- As long as each attempt is alone with the name of its Job from its create to its delete, and finds none at its
create, what it returns was read from the Job that it created from its own manifest, and it deletes no other. -/
theorem results_own {s : Cluster} (hs : (clusters.only Clear).Reachable s) :
    (∀ h runner result, s.runners h = some runner → runner.stage = .done (some result) →
      Backed runner.consulted result ∧ ∀ job ∈ runner.consulted,
        job.creator = h ∧ job.manifest = kubernetesJobManifest runner.request) ∧
    ∀ h job, (h, job) ∈ s.deleted → job.creator = h := by
  have h := attributed_inductive.reachable hs
  refine ⟨fun g runner result hrunner hstage => ⟨?_, fun job => h.consulted g runner job hrunner⟩, h.deleted⟩
  have hbacked := h.backed g runner hrunner
  rw [hstage] at hbacked
  exact hbacked

namespace Sample

/-- Another execution whose id begins with the same eight characters. -/
def otherRequest : ExecutionRequest :=
  { executionRequest with
    executionId := "00000000-0000-4000-8000-000000000002", archiveBase64 := "Yg==", archiveSha256 := "b"
    executionId_length := by decide }

/-- An attempt from its poll to its delete. -/
def reads (h : Nat) : List ClusterEvent :=
  [.act h (.poll ⟨true, ""⟩), .act h (.logs ⟨true, ""⟩), .act h (.node ⟨true, ""⟩), .act h (.delete true false)]

def jobName : String := (kubernetesJobManifest executionRequest).name

/-- Two executions at once; the Job of the first succeeds, and the second takes it for its own. -/
def together : List ClusterEvent :=
  [.start 0 executionRequest, .start 1 otherRequest, .act 0 (.create .answered), .act 1 (.create .answered),
    .progress jobName 1 0 "first" (some "node-a")] ++ reads 1

/-- One execution after the other. -/
def inOrder : List ClusterEvent :=
  [.start 0 executionRequest, .start 1 otherRequest, .act 0 (.create .answered),
    .progress jobName 1 0 "first" (some "node-a")] ++ reads 0 ++ [.gone jobName, .act 1 (.create .answered),
    .progress jobName 0 1 "second" (some "node-b")] ++ reads 1

def clusterStart : Cluster := ⟨fun _ => none, fun _ => none, []⟩

def finalResult (runner : Runner) : Option BackendResult :=
  match runner.stage with
  | .done result => result
  | _ => none

theorem stage_of_finalResult {runner : Runner} {result : BackendResult} (h : finalResult runner = some result) :
    runner.stage = .done (some result) := by
  unfold finalResult at h
  split at h
  · next hstage => rw [hstage, h]
  · cases h

end Sample

/-- An execution returns the result of another whose id begins alike, and deletes its Job. -/
theorem job_taken_over : ∃ s runner, clusters.Reachable s ∧ s.runners 1 = some runner ∧
    Sample.finalResult runner = some ⟨true, 0, "first", "", false, some "node-a"⟩ ∧
    runner.consulted.map (fun job => (job.creator, job.manifest.subPath)) =
      List.replicate 3 (0, Sample.executionRequest.executionId) ∧
    runner.request.executionId ≠ Sample.executionRequest.executionId ∧
    s.deleted.map (fun entry => (entry.1, entry.2.creator)) = [(1, 0)] := by
  have hrun : ((Sample.together.foldlM Cluster.step Sample.clusterStart).bind fun s =>
      (s.runners 1).map fun runner => (Sample.finalResult runner,
        runner.consulted.map (fun job => (job.creator, job.manifest.subPath)), runner.request.executionId,
        s.deleted.map fun entry => (entry.1, entry.2.creator))) =
      some (some ⟨true, 0, "first", "", false, some "node-a"⟩,
        List.replicate 3 (0, Sample.executionRequest.executionId), Sample.otherRequest.executionId, [(1, 0)]) := by
    decide +kernel
  obtain ⟨s, hs, hends⟩ := Option.bind_eq_some_iff.mp hrun
  obtain ⟨runner, hrunner, hends⟩ := Option.map_eq_some_iff.mp hends
  obtain ⟨hresult, hends⟩ := Prod.mk.inj hends
  obtain ⟨hconsulted, hends⟩ := Prod.mk.inj hends
  obtain ⟨hid, hdeleted⟩ := Prod.mk.inj hends
  refine ⟨s, runner, ⟨_, _, ⟨fun _ => rfl, fun _ => rfl, rfl⟩, .of_foldlM hs⟩, hrunner, hresult, hconsulted, ?_, hdeleted⟩
  rw [hid]
  decide

namespace Sample

/-- Only the attempts 0 and 1 take part, and a Job is created while there is none and neither is at work. -/
def alone (s : Cluster) : ClusterEvent → Bool
  | .start h _ => h < 2
  | .act h (.create _) => (s.runners h).all (fun runner => (s.jobs runner.jobName).isNone) ∧
      ¬ (s.runners 0).any (fun runner => Cluster.atWork runner.stage) ∧
      ¬ (s.runners 1).any (fun runner => Cluster.atWork runner.stage)
  | _ => true

open Cluster in
theorem runners_of_alone {s t : Cluster} {e : ClusterEvent} (hnone : ∀ g, 2 ≤ g → s.runners g = none)
    (halone : alone s e = true) (hstep : s.step e = some t) : ∀ g, 2 ≤ g → t.runners g = none := by
  have henter : ∀ {s : Cluster} {h runner stage}, (∀ g, 2 ≤ g → s.runners g = none) → h < 2 →
      ∀ g, 2 ≤ g → (s.enter h runner stage).runners g = none := by
    intro s h runner stage hnone hlt g hg
    show Function.update s.runners h _ g = none
    rw [Function.update_of_ne (by omega)]
    exact hnone g hg
  cases e with
  | start h request =>
    simp only [step] at hstep
    split at hstep
    · cases hstep
    · obtain rfl := Option.some.inj hstep
      exact henter hnone (of_decide_eq_true halone)
  | act h action =>
    obtain ⟨runner, hrunner, hact⟩ := Option.bind_eq_some_iff.mp hstep
    have hlt : h < 2 := by
      by_contra hge
      cases (hnone h (by omega)).symm.trans hrunner
    cases act_advance hact with
    | create =>
      refine henter (fun g hg => ?_) hlt
      unfold Cluster.create
      split
      · exact hnone g hg
      · exact hnone g hg
    | consult => exact henter hnone hlt
    | delete => exact henter hnone hlt
  | progress | gone =>
    obtain rfl := Option.some.inj hstep
    exact hnone

open Cluster in
theorem clear_of_alone {s : Cluster} {e : ClusterEvent} (hnone : ∀ g, 2 ≤ g → s.runners g = none)
    (halone : alone s e = true) : s.Clear e := by
  rintro h answer runner rfl - hrunner
  simp only [alone, decide_eq_true_eq, Bool.not_eq_true, Option.any_eq_false, Option.all_eq_true] at halone
  refine ⟨Option.isNone_iff_eq_none.mp (halone.1 runner hrunner), fun g other _ hother hwork => ?_⟩
  have hidle : ¬ atWork other.stage := by
    obtain rfl | rfl | hge : g = 0 ∨ g = 1 ∨ 2 ≤ g := by omega
    · simpa using halone.2.1 other hother
    · simpa using halone.2.2 other hother
    · cases (hnone g hge).symm.trans hother
  exact absurd hwork hidle

end Sample

/-- The second execution begins when the Job of the first is gone, and returns its own result. -/
theorem results_own_sample : ∃ (s : Cluster) (runner : Runner), s.runners 1 = some runner ∧
    Cluster.Backed runner.consulted ⟨false, 1, "second", "", false, some "node-b"⟩ ∧
    ∀ job ∈ runner.consulted, job.creator = 1 ∧ job.manifest = kubernetesJobManifest runner.request := by
  have hrun : ((Sample.inOrder.foldlM (fun s e => if Sample.alone s e = true then Cluster.step s e else none)
      Sample.clusterStart).bind fun s => (s.runners 1).map Sample.finalResult) =
        some (some ⟨false, 1, "second", "", false, some "node-b"⟩) := by
    decide +kernel
  obtain ⟨s, hs, hends⟩ := Option.bind_eq_some_iff.mp hrun
  obtain ⟨runner, hrunner, hends⟩ := Option.map_eq_some_iff.mp hends
  have hrun : (clusters.only Cluster.Clear).Run Sample.clusterStart Sample.inOrder s :=
    (System.Run.only_of_foldlM hs).only_imp (fun _ _ _ => Sample.runners_of_alone) (fun _ _ => Sample.clear_of_alone)
      fun _ _ => rfl
  obtain ⟨hbacked, hown⟩ := (results_own ⟨_, _, ⟨fun _ => rfl, fun _ => rfl, rfl⟩, hrun⟩).1 1 runner _ hrunner
    (Sample.stage_of_finalResult hends)
  exact ⟨s, runner, hrunner, hbacked, hown⟩

end CodeMate.Sandbox
