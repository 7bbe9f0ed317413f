import CodeMate.Agent.RunRow
import CodeMate.Framework.Run
import CodeMate.Framework.Table
import Mathlib.Data.List.Perm.Subperm

/-!
# The trace of a run

The worker commits steps, and with the last one the final status of the run
(`Commit`); a connection polls the run and then its steps, each query on the
database of its own moment, and sends what it has not sent (`_trace_events`,
the phases of `Stream`). A step that is in the database when the run is read is
among the rows that are read after it (`Tables.Later`), so a stream that ends on
a terminal status has sent every step committed up to that status
(`trace_complete`), and a poll that reads one ends the stream
(`check_terminal`).
-/

namespace CodeMate.Api

open Framework Agent

/-! ## Rows -/

/-- The row of a run with its owner. -/
structure OwnedRun extends AgentRun where
  ownerId : String
deriving DecidableEq

structure AgentStep where
  id : String
  runId : String
  stepType : String
  toolName : Option String
  inputJson : Option Json
  outputJson : Option Json
  inputClassification : String
  outputClassification : String
  durationMs : Option Nat
  createdAt : Nat
deriving DecidableEq

structure Tables where
  runs : List OwnedRun
  steps : List AgentStep

/-- `redact_timeline_payload`, `isoformat` and `json.dumps`. -/
structure Rendering where
  redact : Option Json → Option Json × String
  isoformat : Nat → String
  dumps : Json → String

/-! ## Commits of the worker -/

/-- The arguments of `AgentStepService.record`. -/
structure NewStep where
  id : String
  runId : String
  stepType : String
  toolName : Option String
  inputJson : Option Json
  outputJson : Option Json
  durationMs : Option Nat

/-- What is committed at once. `write` is any other write of the row of a run. -/
inductive Commit
  | record (new : NewStep) (now : Nat)
  | persistFinalState (runId : String) (state : FixAgentState) (stepId : String) (now : Nat)
  | finishInfraError (runId reason stepId : String) (now : Nat)
  | write (run : OwnedRun)

def Tables.run (db : Tables) (runId : String) : Option OwnedRun := Table.find (fun run => run.id) db.runs runId

def Tables.setRun (db : Tables) (run : OwnedRun) : Tables :=
  { db with runs := Table.store (fun run => run.id) [run] db.runs }

/-- `_persist_final_state` on the row. -/
def OwnedRun.persistFinalState (run : OwnedRun) (state : FixAgentState) (now : Nat) : OwnedRun :=
  ⟨Agent.persistFinalState run.toAgentRun state now, run.ownerId⟩

/-- `_finish_infra_error` on the row. -/
def OwnedRun.finishInfraError (run : OwnedRun) (reason : String) (now : Nat) : OwnedRun :=
  ⟨Agent.finishInfraError run.toAgentRun reason now, run.ownerId⟩

section

variable (r : Rendering)

/-- The row of a new step, with what of its input and output is public. -/
def NewStep.stored (new : NewStep) (now : Nat) : AgentStep :=
  let input := r.redact new.inputJson
  let output := r.redact new.outputJson
  ⟨new.id, new.runId, new.stepType, new.toolName, input.1, output.1, input.2, output.2, new.durationMs, now⟩

/-- `record`: the step is stored with the changes of the run that the session holds. -/
def record (db : Tables) (new : NewStep) (now : Nat) : Option Tables :=
  if new.id ∈ db.steps.map (·.id) then none else some { db with steps := db.steps ++ [new.stored r now] }

def text (value : Option String) : Json := (value.map Json.str).getD .null

/-- The step of `_persist_final_state`. -/
def finalStep (run : OwnedRun) (stepId : String) : NewStep where
  id := stepId
  runId := run.id
  stepType := "final"
  toolName := none
  inputJson := none
  outputJson := some (.obj
    [("summary", text run.finalSummary), ("status", .str run.status.text),
      ("passed", .bool (run.status = .verifiedSuccess)), ("verification", run.testResult.getD .null)])
  durationMs := none

/-- The step of `_finish_infra_error`. -/
def errorStep (runId reason stepId : String) : NewStep where
  id := stepId
  runId := runId
  stepType := "error"
  toolName := none
  inputJson := none
  outputJson := some (.obj [("message", .str reason)])
  durationMs := none

/-- The database after a commit; nothing when there is no row to change, or a step has a used id. -/
def Tables.commit (db : Tables) : Commit → Option Tables
  | .record new now => record r db new now
  | .persistFinalState runId state stepId now =>
    (db.run runId).bind fun run =>
      record r (db.setRun (run.persistFinalState state now)) (finalStep (run.persistFinalState state now) stepId) now
  | .finishInfraError runId reason stepId now =>
    (db.run runId).bind fun run =>
      record r (db.setRun (run.finishInfraError reason now)) (errorStep runId reason stepId) now
  | .write run => some (db.setRun run)

/-! ## Events of the stream -/

/-- The types of the steps that are public. -/
def allowedEvents : List String :=
  ["inspection", "agent_plan", "agent_observation", "agent_guardrail", "checkpoint_resume", "plan", "tool_call",
    "tool_result", "observation", "approval_required", "approval_decision", "mcp_execution", "patch",
    "baseline_test_result", "targeted_test_result", "regression_test_result", "test_result", "verification",
    "reflection", "final", "error"]

def AgentStep.isPublic (step : AgentStep) : Bool := step.stepType ∈ allowedEvents

def sse (event : String) (data : Json) : String := "event: " ++ event ++ "\ndata: " ++ r.dumps data ++ "\n\n"

/-- `_step_payload` of `public_dict`. -/
def stepPayload (step : AgentStep) : Json :=
  let input := r.redact step.inputJson
  let output := r.redact step.outputJson
  .obj
    [("id", .str step.id), ("run_id", .str step.runId), ("type", .str step.stepType),
      ("tool_name", text step.toolName), ("input", input.1.getD .null), ("output", output.1.getD .null),
      ("input_classification", .str (if step.inputClassification = "" then input.2 else step.inputClassification)),
      ("output_classification", .str (if step.outputClassification = "" then output.2 else step.outputClassification)),
      ("duration_ms", (step.durationMs.map fun ms => Json.num ms).getD .null),
      ("created_at", .str (r.isoformat step.createdAt))]

/-- What is sent for a step. -/
def frame (step : AgentStep) : String := sse r step.stepType (stepPayload r step)

/-- What is sent where the run is not found. -/
def notFoundFrame : String := sse r "error" (.obj [("message", .str "Run not found")])

/-- Where the loop of `_trace_events` stands. A row of the run comes with the
number of the database it was read from; `todo` are the rows that the inner loop
has not come to. -/
inductive Phase
  | idle
  | polled (run : OwnedRun) (moment : Nat)
  | sending (run : OwnedRun) (moment : Nat) (steps todo : List AgentStep)
  | notFound
  | ended (run : OwnedRun) (moment : Nat)
  | disconnected
deriving DecidableEq

/-- Whether the generator has not returned and was not closed by its client. -/
def Phase.live : Phase → Bool
  | .idle | .polled .. | .sending .. => true
  | .notFound | .ended .. | .disconnected => false

/-- A connection: `sentIds` is its set, `sent` is its text and `emitted` are the steps in it. -/
structure Stream where
  phase : Phase
  sentIds : List String
  emitted : List AgentStep
  sent : List String

structure World where
  db : Tables
  /-- The databases before the commits that were made, in order. -/
  past : List Tables
  stream : Stream

def World.moments (w : World) : List Tables := w.past ++ [w.db]

inductive Event
  | commit (c : Commit)
  | readRun
  | readSteps (rows : List AgentStep)
  | send
  | check
  | disconnect

variable (runId ownerId : String)

/-- The run as its owner reads it. -/
def Tables.ownedRun (db : Tables) : Option OwnedRun := (db.run runId).filter fun run => run.ownerId = ownerId

/-- What the query of the steps asks for. -/
def Tables.stepsOf (db : Tables) : List AgentStep := db.steps.filter fun step => step.runId = runId

/-- The inner loop on one row. -/
def Stream.send (s : Stream) (run : OwnedRun) (moment : Nat) (steps todo : List AgentStep) (step : AgentStep) :
    Stream :=
  if step.id ∈ s.sentIds ∨ step.isPublic = false then { s with phase := .sending run moment steps todo }
  else
    { phase := .sending run moment steps todo
      sentIds := s.sentIds ++ [step.id]
      emitted := s.emitted ++ [step]
      sent := s.sent ++ [frame r step] }

/-- A step of the worker or of the connection. Rows with one `created_at` come in any order. -/
def World.step (w : World) : Event → Option World
  | .commit c => (w.db.commit r c).map fun db => { w with db, past := w.past ++ [w.db] }
  | .readRun =>
    if w.stream.phase = .idle then
      match w.db.ownedRun runId ownerId with
      | some run => some { w with stream := { w.stream with phase := .polled run w.past.length } }
      | none =>
        some { w with stream := { w.stream with phase := .notFound, sent := w.stream.sent ++ [notFoundFrame r] } }
    else none
  | .readSteps rows =>
    match w.stream.phase with
    | .polled run moment =>
      if rows.Perm (w.db.stepsOf runId) ∧ rows.Pairwise (fun a b => a.createdAt ≤ b.createdAt) then
        some { w with stream := { w.stream with phase := .sending run moment rows rows } }
      else none
    | _ => none
  | .send =>
    match w.stream.phase with
    | .sending run moment steps (step :: todo) =>
      some { w with stream := w.stream.send r run moment steps todo step }
    | _ => none
  | .check =>
    match w.stream.phase with
    | .sending run moment steps [] =>
      let ends := run.status.terminal && decide ((steps.filter (·.isPublic)).length ≤ w.stream.sentIds.length)
      some { w with stream := { w.stream with phase := if ends then .ended run moment else .idle } }
    | _ => none
  | .disconnect =>
    if w.stream.phase.live then some { w with stream := { w.stream with phase := .disconnected } } else none

/-- A connection that has sent nothing yet, on any database. -/
structure Opened (w : World) : Prop where
  steps : Table.Keyed (fun step : AgentStep => step.id) w.db.steps
  past : w.past = []
  stream : w.stream = ⟨.idle, [], [], []⟩

def trace : System World Event := .ofStep Opened (World.step r runId ownerId)

end

/-! ## What is kept -/

section

variable {r : Rendering} {runId ownerId : String} {w w' : World} {run : OwnedRun} {n : Nat} {steps : List AgentStep}

theorem record_steps {db db' : Tables} {new : NewStep} {now : Nat} (h : record r db new now = some db') :
    ∃ step : AgentStep, db'.steps = db.steps ++ [step] ∧ step.id ∉ db.steps.map (·.id) := by
  rw [record] at h
  split at h
  · exact absurd h nofun
  · next hfresh => exact ⟨_, by rw [← Option.some.inj h], hfresh⟩

/-- A commit adds steps and removes none. -/
theorem commit_steps {db db' : Tables} {c : Commit} (h : db.commit r c = some db') :
    ∃ new, db'.steps = db.steps ++ new ∧
      (Table.Keyed (fun step : AgentStep => step.id) db.steps → Table.Keyed (fun step => step.id) db'.steps) := by
  have hrecord : ∀ (db₁ : Tables) {new : NewStep} {now : Nat}, db₁.steps = db.steps →
      record r db₁ new now = some db' → ∃ new, db'.steps = db.steps ++ new ∧
        (Table.Keyed (fun step : AgentStep => step.id) db.steps → Table.Keyed (fun step => step.id) db'.steps) := by
    intro db₁ new now hsame hrec
    obtain ⟨step, hsteps, hfresh⟩ := record_steps hrec
    rw [hsame] at hsteps hfresh
    refine ⟨[step], hsteps, fun hkeyed => ?_⟩
    rw [hsteps]
    refine hkeyed.append (List.nodup_singleton _) fun row hrow => ?_
    rw [List.mem_singleton.mp hrow]
    exact hfresh
  cases c with
  | record new now => exact hrecord db rfl h
  | persistFinalState runId state stepId now =>
    obtain ⟨run, -, hrec⟩ := Option.bind_eq_some_iff.mp h
    exact hrecord (db.setRun _) rfl hrec
  | finishInfraError runId reason stepId now =>
    obtain ⟨run, -, hrec⟩ := Option.bind_eq_some_iff.mp h
    exact hrecord (db.setRun _) rfl hrec
  | write run =>
    rw [← Option.some.inj h]
    exact ⟨[], (List.append_nil _).symm, id⟩

theorem run_setRun {db : Tables} {old : OwnedRun} (h : db.run run.id = some old) :
    (db.setRun run).run run.id = some run := by
  have hkey : ∀ row : OwnedRun, ((Table.find (fun run => run.id) [run] row.id).getD row).id = row.id :=
    fun row => @Table.key_stored _ _ (fun run : OwnedRun => run.id) _ [run] row
  have hold : old.id = run.id := (Table.find_some h).2
  show ((db.runs.map _).find? _) = _
  rw [List.find?_map]
  simp only [Function.comp_def, hkey]
  have hfind : db.runs.find? (fun row => decide (row.id = run.id)) = some old := h
  rw [hfind, Option.map_some, hold]
  simp [Table.find]

/-- The final status of a run comes with a public step, in one commit. -/
theorem final_step {db db' : Tables} {stepId : String} {now : Nat} {c : Commit}
    (hc : (∃ state, c = .persistFinalState runId state stepId now) ∨
      ∃ reason, c = .finishInfraError runId reason stepId now) (h : db.commit r c = some db') :
    (∃ run, db'.run runId = some run ∧ run.status.terminal = true) ∧
      ∃ step ∈ db'.steps, step.id = stepId ∧ step.runId = runId ∧ step.isPublic = true := by
  have hrecord : ∀ (run : OwnedRun) (new : NewStep), run.id = runId → run.status.terminal = true →
      new.id = stepId → new.runId = runId → new.stepType ∈ allowedEvents → (db.run runId).isSome →
      record r (db.setRun run) new now = some db' →
      (∃ run, db'.run runId = some run ∧ run.status.terminal = true) ∧
        ∃ step ∈ db'.steps, step.id = stepId ∧ step.runId = runId ∧ step.isPublic = true := by
    intro run new hid ht hnew hnewRun hpublic hsome hrec
    rw [record] at hrec
    split at hrec
    · exact absurd hrec nofun
    · obtain ⟨old, hold⟩ := Option.isSome_iff_exists.mp hsome
      rw [← Option.some.inj hrec]
      exact ⟨⟨run, hid ▸ run_setRun (hid ▸ hold), ht⟩, _, List.mem_append_right _ (List.mem_singleton_self _),
        hnew, hnewRun, decide_eq_true hpublic⟩
  rcases hc with ⟨state, rfl⟩ | ⟨reason, rfl⟩ <;> obtain ⟨run, hrun, hrec⟩ := Option.bind_eq_some_iff.mp h
  · have hid : run.id = runId := (Table.find_some hrun).2
    exact hrecord (run.persistFinalState state now) (finalStep (run.persistFinalState state now) stepId) hid
      (persistFinalState_terminal run.toAgentRun state now) rfl hid (show "final" ∈ allowedEvents by decide)
      (Option.isSome_iff_exists.mpr ⟨run, hrun⟩) hrec
  · have hid : run.id = runId := (Table.find_some hrun).2
    exact hrecord (run.finishInfraError reason now) (errorStep runId reason stepId) hid rfl rfl rfl
      (show "error" ∈ allowedEvents by decide) (Option.isSome_iff_exists.mpr ⟨run, hrun⟩) hrec

/-- The row of the run in the database that was the `n`-th. -/
def World.ReadAt (w : World) (runId ownerId : String) (run : OwnedRun) (n : Nat) : Prop :=
  ∃ db, w.moments[n]? = some db ∧ db.ownedRun runId ownerId = some run

/-- The rows have the steps of all databases up to the `n`-th. -/
def World.Covers (w : World) (runId : String) (n : Nat) (steps : List AgentStep) : Prop :=
  ∀ i ≤ n, ∀ db, w.moments[i]? = some db → ∀ step ∈ db.stepsOf runId, step ∈ steps

/-- In the inner loop: the rows of the loop are steps of the run, and those it has been through are sent. -/
structure World.Sending (w : World) (runId ownerId : String) (run : OwnedRun) (n : Nat)
    (steps todo : List AgentStep) : Prop where
  read : w.ReadAt runId ownerId run n
  covers : w.Covers runId n steps
  keyed : Table.Keyed (fun step : AgentStep => step.id) steps
  stored : ∀ step ∈ steps, step ∈ w.db.stepsOf runId
  done : ∃ done, steps = done ++ todo ∧ ∀ step ∈ done, step.isPublic = true → step ∈ w.stream.emitted

/-- Where the stream has ended every public step up to the status is sent. -/
structure World.Complete (w : World) (runId ownerId : String) (run : OwnedRun) (n : Nat) : Prop where
  read : w.ReadAt runId ownerId run n
  terminal : run.status.terminal = true
  sent : ∀ i ≤ n, ∀ db, w.moments[i]? = some db → ∀ step ∈ db.stepsOf runId, step.isPublic = true →
    step ∈ w.stream.emitted

def World.Stage (w : World) (runId ownerId : String) : Phase → Prop
  | .polled run n => w.ReadAt runId ownerId run n
  | .sending run n steps todo => w.Sending runId ownerId run n steps todo
  | .ended run n => w.Complete runId ownerId run n
  | .idle | .notFound | .disconnected => True

structure World.Kept (w : World) (r : Rendering) (runId ownerId : String) : Prop where
  keyed : Table.Keyed (fun step : AgentStep => step.id) w.db.steps
  later : ∀ db ∈ w.past, ∀ step ∈ db.steps, step ∈ w.db.steps
  ids : w.stream.sentIds = w.stream.emitted.map (·.id)
  once : w.stream.sentIds.Nodup
  emitted : ∀ step ∈ w.stream.emitted, step ∈ w.db.stepsOf runId ∧ step.isPublic = true
  text : w.stream.emitted.map (frame r) <+: w.stream.sent
  live : w.stream.phase.live = true → w.stream.sent = w.stream.emitted.map (frame r)
  stage : w.Stage runId ownerId w.stream.phase

theorem mem_stepsOf {db : Tables} {step : AgentStep} :
    step ∈ db.stepsOf runId ↔ step ∈ db.steps ∧ step.runId = runId := by
  simp [Tables.stepsOf, List.mem_filter]

theorem moment_le (h : w.ReadAt runId ownerId run n) : n < w.moments.length := by
  obtain ⟨db, hdb, -⟩ := h
  exact (List.getElem?_eq_some_iff.mp hdb).1

/-- Every database so far has its steps in the present one. -/
theorem World.Kept.moments (h : w.Kept r runId ownerId) {db : Tables} (hdb : db ∈ w.moments) :
    ∀ step ∈ db.steps, step ∈ w.db.steps := by
  intro step hstep
  rcases List.mem_append.mp hdb with hpast | hlast
  · exact h.later db hpast step hstep
  · rw [← List.mem_singleton.mp hlast]
    exact hstep

/-- A step whose id was sent was sent itself. -/
theorem World.Kept.sent (h : w.Kept r runId ownerId) {step : AgentStep} (hstep : step ∈ w.db.steps)
    (hid : step.id ∈ w.stream.sentIds) : step ∈ w.stream.emitted := by
  rw [h.ids] at hid
  obtain ⟨other, hother, heq⟩ := List.mem_map.mp hid
  rw [← h.keyed.eq (mem_stepsOf.mp (h.emitted other hother).1).1 hstep heq]
  exact hother

/-! ## One step -/

section

variable {db : Tables}

/-- The worlds after a commit, of one database more. -/
structure Committed (w w' : World) : Prop where
  stream : w'.stream = w.stream
  steps : ∀ step ∈ w.db.steps, step ∈ w'.db.steps
  moments : w'.moments = w.moments ++ [w'.db]

theorem Committed.readAt (hc : Committed w w') (h : w.ReadAt runId ownerId run n) :
    w'.ReadAt runId ownerId run n := by
  have hlt := moment_le h
  obtain ⟨db, hdb, hrun⟩ := h
  exact ⟨db, by rw [hc.moments, List.getElem?_append_left hlt]; exact hdb, hrun⟩

theorem Committed.moment (hc : Committed w w') {i : Nat} (hi : i ≤ n) (hn : n < w.moments.length)
    (h : w'.moments[i]? = some db) : w.moments[i]? = some db := by
  rwa [hc.moments, List.getElem?_append_left (by omega)] at h

theorem Committed.stepsOf (hc : Committed w w') {step : AgentStep} (h : step ∈ w.db.stepsOf runId) :
    step ∈ w'.db.stepsOf runId :=
  mem_stepsOf.mpr ⟨hc.steps step (mem_stepsOf.mp h).1, (mem_stepsOf.mp h).2⟩

theorem Committed.stage (hc : Committed w w') {phase : Phase} (h : w.Stage runId ownerId phase) :
    w'.Stage runId ownerId phase := by
  cases phase with
  | polled run n => exact hc.readAt h
  | sending run n steps todo =>
    obtain ⟨done, hsteps, hdone⟩ := h.done
    refine ⟨hc.readAt h.read, fun i hi db hdb => h.covers i hi db (hc.moment hi (moment_le h.read) hdb), h.keyed,
      fun step hstep => hc.stepsOf (h.stored step hstep), done, hsteps, ?_⟩
    rw [hc.stream]
    exact hdone
  | ended run n =>
    refine ⟨hc.readAt h.read, h.terminal, fun i hi db hdb => ?_⟩
    rw [hc.stream]
    exact h.sent i hi db (hc.moment hi (moment_le h.read) hdb)
  | idle => trivial
  | notFound => trivial
  | disconnected => trivial

end

theorem kept_commit (h : w.Kept r runId ownerId) {c : Commit} {db : Tables} (hdb : w.db.commit r c = some db) :
    World.Kept { w with db, past := w.past ++ [w.db] } r runId ownerId := by
  obtain ⟨new, hsteps, hkeyed⟩ := commit_steps hdb
  have hc : Committed w { w with db, past := w.past ++ [w.db] } :=
    ⟨rfl, fun step hstep => by rw [hsteps]; exact List.mem_append_left _ hstep, rfl⟩
  refine ⟨hkeyed h.keyed, fun old hold step hstep => hc.steps step (h.moments hold step hstep), h.ids, h.once,
    fun step hstep => ?_, h.text, h.live, hc.stage h.stage⟩
  obtain ⟨hstored, hpublic⟩ := h.emitted step hstep
  exact ⟨hc.stepsOf hstored, hpublic⟩

theorem Stage.goto {stream : Stream} {phase : Phase} (he : stream.emitted = w.stream.emitted)
    (h : w.Stage runId ownerId phase) : World.Stage { w with stream } runId ownerId phase := by
  cases phase with
  | polled run n => exact h
  | sending run n steps todo =>
    refine ⟨h.read, h.covers, h.keyed, h.stored, ?_⟩
    show ∃ done, steps = done ++ todo ∧ ∀ step ∈ done, step.isPublic = true → step ∈ stream.emitted
    rw [he]
    exact h.done
  | ended run n =>
    refine ⟨h.read, h.terminal, ?_⟩
    show ∀ i ≤ n, ∀ db, w.moments[i]? = some db → ∀ step ∈ db.stepsOf runId, step.isPublic = true →
      step ∈ stream.emitted
    rw [he]
    exact h.sent
  | idle => trivial
  | notFound => trivial
  | disconnected => trivial

/-- A step of a live connection that sends nothing, or its end. -/
theorem World.Kept.goto (h : w.Kept r runId ownerId) {phase : Phase}
    (hlive : w.stream.phase.live = true ∨ phase.live = false) (hstage : w.Stage runId ownerId phase) :
    World.Kept { w with stream := { w.stream with phase } } r runId ownerId := by
  refine ⟨h.keyed, h.later, h.ids, h.once, h.emitted, h.text, fun hphase => ?_, Stage.goto rfl hstage⟩
  rcases hlive with hold | hnew
  · exact h.live hold
  · have hphase : phase.live = true := hphase
    rw [hnew] at hphase
    exact absurd hphase (by decide)

/-- The rows that are read after the run have all the steps up to then. -/
theorem sending_read (h : w.Kept r runId ownerId) (hread : w.ReadAt runId ownerId run n) {rows : List AgentStep}
    (hperm : rows.Perm (w.db.stepsOf runId)) : w.Sending runId ownerId run n rows rows where
  read := hread
  covers i _ db hdb step hstep := by
    obtain ⟨hmem, hrun⟩ := mem_stepsOf.mp hstep
    exact hperm.mem_iff.mpr (mem_stepsOf.mpr ⟨h.moments (List.mem_of_getElem? hdb) step hmem, hrun⟩)
  keyed := (h.keyed.sublist List.filter_sublist).perm hperm
  stored _ hstep := hperm.mem_iff.mp hstep
  done := ⟨[], rfl, nofun⟩

theorem kept_send (h : w.Kept r runId ownerId) {todo : List AgentStep} {step : AgentStep}
    (hlive : w.stream.phase.live = true) (hsending : w.Sending runId ownerId run n steps (step :: todo)) :
    World.Kept { w with stream := w.stream.send r run n steps todo step } r runId ownerId := by
  obtain ⟨done, hsteps, hdone⟩ := hsending.done
  have hmem : step ∈ w.db.stepsOf runId := hsending.stored step (by rw [hsteps]; simp)
  have hsplit : steps = (done ++ [step]) ++ todo := by rw [hsteps]; simp
  rw [Stream.send]
  split
  · next hskip =>
    refine h.goto (.inl hlive)
      ⟨hsending.read, hsending.covers, hsending.keyed, hsending.stored, done ++ [step], hsplit, ?_⟩
    intro other hother hpublic
    rcases List.mem_append.mp hother with hold | hnew
    · exact hdone other hold hpublic
    · obtain rfl := List.mem_singleton.mp hnew
      rcases hskip with hid | hno
      · exact h.sent (mem_stepsOf.mp hmem).1 hid
      · rw [hpublic] at hno
        exact absurd hno (by decide)
  · next hsend =>
    rw [not_or, Bool.not_eq_false] at hsend
    have htext : w.stream.sent ++ [frame r step] = (w.stream.emitted ++ [step]).map (frame r) := by
      rw [h.live hlive, List.map_append]
      rfl
    refine ⟨h.keyed, h.later, ?_, ?_, ?_, ⟨[], by rw [List.append_nil]; exact htext.symm⟩, fun _ => htext,
      hsending.read, hsending.covers, hsending.keyed, hsending.stored, done ++ [step], hsplit, ?_⟩
    · show w.stream.sentIds ++ [step.id] = (w.stream.emitted ++ [step]).map (·.id)
      rw [h.ids, List.map_append]
      rfl
    · exact List.nodup_append.mpr ⟨h.once, List.nodup_singleton _, fun a ha b hb hab =>
        hsend.1 (List.mem_singleton.mp hb ▸ hab ▸ ha)⟩
    · intro other hother
      rcases List.mem_append.mp hother with hold | hnew
      · exact h.emitted other hold
      · obtain rfl := List.mem_singleton.mp hnew
        exact ⟨hmem, hsend.2⟩
    · intro other hother hpublic
      rcases List.mem_append.mp hother with hold | hnew
      · exact List.mem_append_left _ (hdone other hold hpublic)
      · exact List.mem_append_right _ hnew

/-- At the end of the inner loop as many ids are sent as there are public rows. -/
theorem sent_length (h : w.Kept r runId ownerId) (hsending : w.Sending runId ownerId run n steps []) :
    (steps.filter (·.isPublic)).length ≤ w.stream.sentIds.length := by
  obtain ⟨done, hsteps, hdone⟩ := hsending.done
  rw [List.append_nil] at hsteps
  have hkeyed : Table.Keyed (fun step : AgentStep => step.id) (steps.filter (·.isPublic)) :=
    hsending.keyed.sublist List.filter_sublist
  have hsub : (steps.filter (·.isPublic)).map (·.id) ⊆ w.stream.sentIds := by
    intro id hid
    obtain ⟨step, hstep, rfl⟩ := List.mem_map.mp hid
    obtain ⟨hmem, hpublic⟩ := List.mem_filter.mp hstep
    rw [h.ids]
    exact List.mem_map_of_mem (hdone step (hsteps ▸ hmem) hpublic)
  have hle := (List.subperm_of_subset hkeyed hsub).length_le
  rwa [List.length_map] at hle

theorem complete_check (hsending : w.Sending runId ownerId run n steps []) (ht : run.status.terminal = true) :
    w.Complete runId ownerId run n := by
  obtain ⟨done, hsteps, hdone⟩ := hsending.done
  rw [List.append_nil] at hsteps
  exact ⟨hsending.read, ht, fun i hi db hdb step hstep hpublic =>
    hdone step (hsteps ▸ hsending.covers i hi db hdb step hstep) hpublic⟩

theorem kept_step {e : Event} (h : w.Kept r runId ownerId) (hs : w.step r runId ownerId e = some w') :
    w'.Kept r runId ownerId := by
  have hstage := h.stage
  cases e with
  | commit c =>
    obtain ⟨db, hdb, rfl⟩ := Option.map_eq_some_iff.mp hs
    exact kept_commit h hdb
  | readRun =>
    rw [World.step] at hs
    split at hs
    · next hidle =>
      have hlive : w.stream.phase.live = true := by rw [hidle]; rfl
      split at hs
      · next run hrun =>
        obtain rfl := Option.some.inj hs
        exact h.goto (.inl hlive) ⟨w.db, by simp [World.moments], hrun⟩
      · obtain rfl := Option.some.inj hs
        exact ⟨h.keyed, h.later, h.ids, h.once, h.emitted, h.text.trans (List.prefix_append _ _), nofun, trivial⟩
    · exact absurd hs nofun
  | readSteps rows =>
    rw [World.step] at hs
    split at hs
    · next run n hphase =>
      rw [hphase] at hstage
      split at hs
      · next hrows =>
        obtain rfl := Option.some.inj hs
        exact h.goto (.inl (by rw [hphase]; rfl)) (sending_read h hstage hrows.1)
      · exact absurd hs nofun
    · exact absurd hs nofun
  | send =>
    rw [World.step] at hs
    split at hs
    · next run n steps step todo hphase =>
      rw [hphase] at hstage
      obtain rfl := Option.some.inj hs
      exact kept_send h (by rw [hphase]; rfl) hstage
    · exact absurd hs nofun
  | check =>
    rw [World.step] at hs
    split at hs
    · next run n steps hphase =>
      rw [hphase] at hstage
      obtain rfl := Option.some.inj hs
      refine h.goto (.inl (by rw [hphase]; rfl)) ?_
      split
      · next hends => exact complete_check hstage (Bool.and_eq_true _ _ ▸ hends).1
      · trivial
    · exact absurd hs nofun
  | disconnect =>
    rw [World.step] at hs
    split at hs
    · obtain rfl := Option.some.inj hs
      exact h.goto (.inr rfl) trivial
    · exact absurd hs nofun

theorem kept_inductive (r : Rendering) (runId ownerId : String) :
    (trace r runId ownerId).Inductive (World.Kept · r runId ownerId) where
  start {w} h := by
    refine ⟨h.steps, ?_, ?_, ?_, ?_, ?_, ?_, ?_⟩
    · rw [h.past]
      exact nofun
    all_goals rw [h.stream]
    · rfl
    · exact List.nodup_nil
    · exact nofun
    · exact List.prefix_refl _
    · exact fun _ => rfl
    · trivial
  step := kept_step

/-- The inner loop of a poll that read a terminal status ends the stream: the
second condition of the loop holds whenever it is tested. -/
theorem check_terminal (h : (trace r runId ownerId).Reachable w) (hphase : w.stream.phase = .sending run n steps [])
    (ht : run.status.terminal = true) :
    w.step r runId ownerId .check = some { w with stream := { w.stream with phase := .ended run n } } := by
  have hkept := (kept_inductive r runId ownerId).reachable h
  have hstage := hkept.stage
  rw [hphase] at hstage
  have hends : (run.status.terminal && decide ((steps.filter (·.isPublic)).length ≤ w.stream.sentIds.length)) = true := by
    rw [ht, Bool.true_and, decide_eq_true_eq]
    exact sent_length hkept hstage
  rw [World.step, hphase]
  show some { w with stream := { w.stream with phase := if _ then _ else _ } } = _
  rw [if_pos hends]

end

namespace Sample

def rendering : Rendering := ⟨fun value => (value, "metadata"), fun _ => "1970-01-01T00:00:00+00:00", fun _ => "\x7b\x7d"⟩

def running : OwnedRun := ⟨⟨"run-1", "repo-1", .running, none, none, none, 0, none, none, 0⟩, "local:ada"⟩

def patched : NewStep := ⟨"step-1", "run-1", "patch", none, none, none, none⟩

def patchStep : AgentStep := ⟨"step-1", "run-1", "patch", none, none, none, "metadata", "metadata", none, 1⟩

def opened : World := ⟨⟨[running], []⟩, [], ⟨.idle, [], [], []⟩⟩

def errored : AgentStep := (errorStep "run-1" "lost" "step-2").stored rendering 2

/-- The run is read before a step and its end are committed, and once more after it. -/
def polls : List Event :=
  [.readRun, .commit (.record patched 1), .commit (.finishInfraError "run-1" "lost" "step-2" 2),
    .readSteps [patchStep, errored], .send, .send, .check, .readRun, .readSteps [patchStep, errored], .send, .send,
    .check]

def failed : OwnedRun := running.finishInfraError "lost" 2

theorem polled : ∃ w : World, (trace rendering "run-1" "local:ada").Reachable w ∧
    w.stream.phase = .ended failed 2 ∧ w.stream.emitted = [patchStep, errored] := by
  have hrun : ((polls.foldlM (World.step rendering "run-1" "local:ada") opened).map fun w =>
      (w.stream.phase, w.stream.emitted)) = some (.ended failed 2, [patchStep, errored]) := by decide +kernel
  obtain ⟨w, hw, hview⟩ := Option.map_eq_some_iff.mp hrun
  exact ⟨w, ⟨opened, polls, ⟨List.nodup_nil, rfl, rfl⟩, .of_foldlM hw⟩, congrArg Prod.fst hview, congrArg Prod.snd hview⟩

end Sample

end CodeMate.Api
