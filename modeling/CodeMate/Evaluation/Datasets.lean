import CodeMate.Evaluation.Records
import CodeMate.Framework.Fallible
import Mathlib.Data.List.Sort
import Mathlib.Logic.Function.Basic

/-!
# Datasets, their snapshots and the runs on them

The tables of the benchmark (`Benchmark`) and the three services that write
them: the dataset service (`createDataset`, `updateDataset`), the creation of
runs (`createRun`) and the backfill of snapshots (`backfill`). Each works on one
session, so it is a function to the tables it commits or an error, after which
nothing is committed. The validation of a case by its schema, and the ids and
times that are made up, are arguments.
-/

namespace CodeMate.Evaluation

open Framework

/-- The libraries the services call: `str.strip`, the validation and dump of one case, and of the
cases of a request for a run. -/
structure Library where
  strip : String → String
  dumpCase : EvaluationTaskType → Json → Except String Json
  requestCases : EvaluationTaskType → List Json → Except String (List Json)

structure Benchmark where
  datasets : String → Option EvaluationDataset := fun _ => none
  snapshots : List EvaluationDatasetSnapshot := []
  runs : List EvaluationRun := []

namespace Benchmark

def getRun (s : Benchmark) (id : String) : Option EvaluationRun := s.runs.find? (·.id = id)

def getSnapshot (s : Benchmark) (id : String) : Option EvaluationDatasetSnapshot := s.snapshots.find? (·.id = id)

/-- The snapshot of a dataset at a version. -/
def findSnapshot (s : Benchmark) (datasetId : String) (version : Int) : Option EvaluationDatasetSnapshot :=
  s.snapshots.find? fun snapshot => snapshot.datasetId = datasetId ∧ snapshot.version = version

/-- An insertion into `evaluation_dataset_snapshots`, under its unique constraint. -/
def insertSnapshot (s : Benchmark) (snapshot : EvaluationDatasetSnapshot) : Except EvaluationError Benchmark :=
  if (s.findSnapshot snapshot.datasetId snapshot.version).isSome then .error .integrity
  else .ok { s with snapshots := s.snapshots ++ [snapshot] }

def saveDataset (s : Benchmark) (dataset : EvaluationDataset) : Benchmark :=
  { s with datasets := Function.update s.datasets dataset.id (some dataset) }

end Benchmark

/-- What a dataset is now, as a snapshot. -/
def snapshotOf (dataset : EvaluationDataset) (id : String) : EvaluationDatasetSnapshot :=
  { id := id, datasetId := dataset.id, name := dataset.name, taskType := dataset.taskType,
    description := dataset.description, version := dataset.version, baselineRunId := dataset.baselineRunId,
    gatePolicyJson := dataset.gatePolicyJson, casesJson := dataset.casesJson, metadataJson := dataset.metadataJson }

/-! ## The dataset service -/

section Service

variable (lib : Library)

/-- `_validate_cases`. -/
def validateCases (taskType : EvaluationTaskType) (cases : List Json) : Except EvaluationError (List Json) :=
  let limit := if taskType = .retrieval then 200 else 50
  if limit < cases.length then
    .error (.value (taskType.text ++ " datasets support at most " ++ toString limit ++ " cases"))
  else
    match cases.mapM (lib.dumpCase taskType) with
    | .ok cases => .ok cases
    | .error message => .error (.value ("Invalid " ++ taskType.text ++ " case: " ++ message))

/-- `_validate_baseline_run`. -/
def validateBaselineRun (s : Benchmark) (datasetId : String) (baselineRunId : Option String)
    (taskType : EvaluationTaskType) : Except EvaluationError (Option String) :=
  match given baselineRunId with
  | none => .ok none
  | some runId =>
    match s.getRun runId with
    | none => .error (.value "Baseline evaluation run not found")
    | some run =>
      if run.status ≠ .completed then .error (.value "Baseline evaluation run must be completed")
      else if run.taskType ≠ taskType then
        .error (.value "Baseline evaluation run task type must match dataset task type")
      else if (given run.datasetId).isSome ∧ run.datasetId ≠ some datasetId then
        .error (.value "Baseline evaluation run must belong to this benchmark dataset")
      else .ok (some run.id)

/-- `_upsert_snapshot`: the snapshot of the dataset's version, which has to be as the dataset is. -/
def upsertSnapshot (s : Benchmark) (dataset : EvaluationDataset) (newId : String) :
    Except EvaluationError (EvaluationDatasetSnapshot × Benchmark) :=
  match s.findSnapshot dataset.id dataset.version with
  | some snapshot =>
    if snapshot.taskType ≠ dataset.taskType ∨ snapshot.casesJson ≠ dataset.casesJson then
      .error (.value "Dataset version already has a different snapshot; bump dataset version")
    else .ok (snapshot, s)
  | none => do
    let s ← s.insertSnapshot (snapshotOf dataset newId)
    .ok (snapshotOf dataset newId, s)

structure EvaluationDatasetCreate where
  name : String
  taskType : EvaluationTaskType
  description : Option String := none
  version : Int := 1
  baselineRunId : Option String := none
  gatePolicyJson : EvaluationGatePolicy := {}
  casesJson : List Json
  metadataJson : Json := .obj []

/-- `create_dataset`. -/
def createDataset (s : Benchmark) (request : EvaluationDatasetCreate) (id snapshotId : String) :
    Except EvaluationError (EvaluationDataset × Benchmark) := do
  let cases ← validateCases lib request.taskType request.casesJson
  if (s.datasets id).isSome then .error .integrity
  let baselineRunId ← validateBaselineRun s id request.baselineRunId request.taskType
  let dataset : EvaluationDataset :=
    { id := id, name := lib.strip request.name, taskType := request.taskType, description := request.description,
      version := request.version, baselineRunId := baselineRunId, gatePolicyJson := some request.gatePolicyJson,
      casesJson := cases, metadataJson := request.metadataJson }
  let (_, s) ← upsertSnapshot s dataset snapshotId
  .ok (dataset, s.saveDataset dataset)

/-- The fields of an update: `none` is one that is not set, `some none` one that is set to null. -/
structure EvaluationDatasetUpdate where
  name : Option (Option String) := none
  taskType : Option (Option EvaluationTaskType) := none
  description : Option (Option String) := none
  version : Option (Option Int) := none
  baselineRunId : Option (Option String) := none
  gatePolicyJson : Option (Option EvaluationGatePolicy) := none
  casesJson : Option (Option (List Json)) := none
  metadataJson : Option (Option Json) := none

/-- The name an update leaves. -/
def updatedName (dataset : EvaluationDataset) : Option (Option String) → Except EvaluationError String
  | none => .ok dataset.name
  | some none => .error (.value "Dataset name is required")
  | some (some name) =>
    if lib.strip name = "" then .error (.value "Dataset name is required") else .ok (lib.strip name)

/-- The cases an update starts from: its own, which it may not leave out if it sets them. -/
def updatedCases (dataset : EvaluationDataset) : Option (Option (List Json)) → Except EvaluationError (List Json)
  | none => .ok dataset.casesJson
  | some none | some (some []) => .error (.value "Dataset cases are required")
  | some (some cases) => .ok cases

/-- The version an update leaves: with new cases it goes up. -/
def updatedVersion (dataset : EvaluationDataset) (casesChanged : Bool) :
    Option Int → Except EvaluationError Int
  | some version =>
    if casesChanged ∧ version ≤ dataset.version then
      .error (.value "Dataset version must increase when cases change")
    else .ok version
  | none => .ok (if casesChanged then dataset.version + 1 else dataset.version)

/-- `update_dataset`, for a dataset that is there. -/
def updatedDataset (s : Benchmark) (dataset : EvaluationDataset) (request : EvaluationDatasetUpdate) :
    Except EvaluationError EvaluationDataset := do
  let name ← updatedName lib dataset request.name
  let taskType := (request.taskType.bind id).getD dataset.taskType
  let cases ← updatedCases dataset request.casesJson
  let cases ← validateCases lib taskType cases
  let baselineRunId ←
    match request.baselineRunId with
    | some baselineRunId => validateBaselineRun s dataset.id baselineRunId taskType
    | none => (validateBaselineRun s dataset.id dataset.baselineRunId taskType).map fun _ => dataset.baselineRunId
  let version ← updatedVersion dataset request.casesJson.isSome (request.version.bind id)
  .ok { dataset with
    name := name, taskType := taskType, casesJson := cases, baselineRunId := baselineRunId, version := version
    description := request.description.getD dataset.description
    metadataJson := (request.metadataJson.map fun value => (value.filter (·.truthy)).getD (.obj [])).getD
      dataset.metadataJson
    gatePolicyJson := (request.gatePolicyJson.bind id).map some |>.getD dataset.gatePolicyJson }

/-- `update_dataset`. -/
def updateDataset (s : Benchmark) (datasetId : String) (request : EvaluationDatasetUpdate) (snapshotId : String) :
    Except EvaluationError (EvaluationDataset × Benchmark) :=
  match s.datasets datasetId with
  | none => .error (.fileNotFound "Evaluation dataset not found")
  | some dataset => do
    let dataset ← updatedDataset lib s dataset request
    let (_, s) ← upsertSnapshot s dataset snapshotId
    .ok (dataset, s.saveDataset dataset)

/-- `delete_dataset`: its snapshots stay. -/
def deleteDataset (s : Benchmark) (datasetId : String) : Except EvaluationError (Unit × Benchmark) :=
  match s.datasets datasetId with
  | none => .error (.fileNotFound "Evaluation dataset not found")
  | some _ => .ok ((), { s with datasets := Function.update s.datasets datasetId none })

/-! ## The creation of runs -/

/-- A request for a run: its cases, and the whole of it, as `model_dump` gives them. -/
structure EvaluationRunRequest where
  taskType : EvaluationTaskType
  name : Option String := none
  datasetId : Option String := none
  datasetVersion : Option Int := none
  datasetSnapshotId : Option String := none
  cases : List Json
  requestJson : Json

/-- `_matching_dataset_snapshot`. -/
def matchingDatasetSnapshot (s : Benchmark) (request : EvaluationRunRequest) (newId : String) :
    Except EvaluationError (Option EvaluationDatasetSnapshot × Benchmark) :=
  match (given request.datasetId).bind s.datasets with
  | none => .ok (none, s)
  | some dataset =>
    if dataset.taskType ≠ request.taskType then .ok (none, s)
    else
      let version := (request.datasetVersion.filter (· ≠ 0)).getD dataset.version
      match s.findSnapshot dataset.id version with
      | some snapshot =>
        .ok (if snapshot.taskType ≠ request.taskType ∨ snapshot.casesJson ≠ request.cases then none
          else some snapshot, s)
      | none =>
        if version ≠ dataset.version ∨ dataset.casesJson ≠ request.cases then .ok (none, s)
        else do
          let s ← s.insertSnapshot (snapshotOf dataset newId)
          .ok (some (snapshotOf dataset newId), s)

/-- `_resolve_dataset_snapshot`. -/
def resolveDatasetSnapshot (s : Benchmark) (request : EvaluationRunRequest) (newId : String) :
    Except EvaluationError (Option EvaluationDatasetSnapshot × Benchmark) :=
  match request.datasetSnapshotId with
  | none => matchingDatasetSnapshot s request newId
  | some snapshotId =>
    match request.datasetId with
    | none => .error (.value "Dataset id is required when dataset snapshot is provided")
    | some datasetId =>
      match s.getSnapshot snapshotId with
      | none => .error (.value "Evaluation dataset snapshot not found")
      | some snapshot =>
        if snapshot.datasetId ≠ datasetId then .error (.value "Evaluation dataset snapshot does not match dataset")
        else if request.datasetVersion.isSome ∧ request.datasetVersion ≠ some snapshot.version then
          .error (.value "Evaluation dataset snapshot does not match dataset version")
        else if snapshot.taskType ≠ request.taskType then
          .error (.value "Evaluation dataset snapshot task type does not match run task type")
        else if snapshot.casesJson ≠ request.cases then
          .error (.value "Evaluation cases do not match dataset snapshot")
        else .ok (some snapshot, s)

/-- An integer, or `null` for none. -/
def intOrNull : Option Int → Json
  | none => .null
  | some value => .num value

/-- `create_retrieval_run` and `create_fix_run`; `config` is what `_config_snapshot` gives. -/
def createRun (s : Benchmark) (request : EvaluationRunRequest) (id snapshotId createdAt : String) (config : Json) :
    Except EvaluationError (EvaluationRun × Benchmark) := do
  let (snapshot, s) ← resolveDatasetSnapshot s request snapshotId
  let datasetVersion := request.datasetVersion.or (snapshot.map (·.version))
  let requestJson := snapshot.elim request.requestJson fun snapshot =>
    (request.requestJson.set "dataset_snapshot_id" (.str snapshot.id)).set "dataset_version" (intOrNull datasetVersion)
  let run : EvaluationRun :=
    { id := id, name := request.name, taskType := request.taskType, status := .running,
      datasetId := request.datasetId, datasetVersion := datasetVersion,
      datasetSnapshotId := snapshot.map (·.id), caseCount := request.cases.length, configSnapshot := config,
      requestJson := requestJson, createdAt := createdAt }
  .ok (run, { s with runs := s.runs ++ [run] })

/-- `run_evaluation_dataset`: a run on the dataset's current snapshot. `options` are the members
that only requests of its task type have. -/
def runEvaluationDataset (s : Benchmark) (datasetId : String) (name : Option String)
    (options : EvaluationTaskType → List (String × Json)) (id snapshotId createdAt : String) (config : Json) :
    Except EvaluationError (EvaluationRun × Benchmark) :=
  match s.datasets datasetId with
  | none => .error (.fileNotFound "Evaluation dataset not found")
  | some dataset => do
    let (snapshot, s) ← upsertSnapshot s dataset snapshotId
    let cases ← (lib.requestCases dataset.taskType snapshot.casesJson).mapError .value
    let runName := (given name).getD (dataset.name ++ " candidate")
    createRun s
      { taskType := dataset.taskType, name := some runName, datasetId := some dataset.id,
        datasetVersion := some snapshot.version, datasetSnapshotId := some snapshot.id, cases := cases
        requestJson := .obj ([("name", .str runName), ("dataset_id", .str dataset.id),
          ("dataset_version", .num snapshot.version), ("dataset_snapshot_id", .str snapshot.id)] ++
          options dataset.taskType ++ [("cases", .arr cases)]) } id snapshotId createdAt config

/-! ## The backfill -/

/-- What a run that was looked at is reported as. -/
structure BackfillResult where
  status : String
  runId : String
  datasetId : Option String
  datasetVersion : Json
  snapshotId : Option String := none
  createdSnapshotId : Option String := none
  reason : Option String := none
  datasetTaskType : Option EvaluationTaskType := none

def skipped (run : EvaluationRun) (code : String) : BackfillResult :=
  { status := code, runId := run.id, datasetId := run.datasetId, datasetVersion := intOrNull run.datasetVersion }

/-- `isinstance(version, int)`: a boolean is one. -/
def asInt : Json → Option Int
  | .num value => if value.den = 1 then some value.num else none
  | .bool value => some (if value then 1 else 0)
  | _ => none

/-- `run.dataset_version or request_json.get("dataset_version") or dataset.version`. -/
def backfillVersion (run : EvaluationRun) (dataset : EvaluationDataset) : Json :=
  match run.datasetVersion.filter (· ≠ 0) with
  | some version => .num version
  | none =>
    if run.requestJson.flag "dataset_version" then (run.requestJson.get "dataset_version").getD .null
    else .num dataset.version

/-- `_backfill_metadata`. -/
def backfillMetadata (dataset : EvaluationDataset) (run : EvaluationRun) (now : String) : Json :=
  (Json.obj dataset.metadataJson.members).set "_snapshot_backfill"
    (.obj [("source_run_id", .str run.id), ("source_run_created_at", .str run.createdAt),
      ("backfilled_at", .str now), ("dataset_metadata_source", .str "current_dataset")])

/-- The run is given a snapshot. -/
def Benchmark.linkRun (s : Benchmark) (run : EvaluationRun) (snapshotId : String) (version : Int) : Benchmark :=
  let datasetVersion := run.datasetVersion.getD version
  let linked := { run with
    datasetSnapshotId := some snapshotId, datasetVersion := some datasetVersion
    requestJson := ((Json.obj run.requestJson.members).set "dataset_snapshot_id" (.str snapshotId)).set
      "dataset_version" (.num datasetVersion) }
  { s with runs := s.runs.map fun row => if row.id = run.id then linked else row }

def backfilled (run : EvaluationRun) (dataset : EvaluationDataset) (version : Int) (snapshotId : String)
    (created : Option String) : BackfillResult :=
  { status := "backfilled", runId := run.id, datasetId := some dataset.id, datasetVersion := .num version,
    snapshotId := some snapshotId, createdSnapshotId := created }

/-- The run is compared with a snapshot that is there, and linked to it if they agree. -/
def backfillExisting (s : Benchmark) (run : EvaluationRun) (dataset : EvaluationDataset) (cases : List Json)
    (version : Int) (snapshot : EvaluationDatasetSnapshot) : BackfillResult × Benchmark :=
  let skip (code : String) (reason : Option String) : BackfillResult × Benchmark :=
    ({ skipped run code with datasetVersion := .num version, snapshotId := some snapshot.id, reason := reason }, s)
  match snapshot.casesJson.mapM (lib.dumpCase snapshot.taskType) with
  | .error reason => skip "invalid_snapshot_cases" (some reason)
  | .ok snapshotCases =>
    if snapshot.taskType ≠ run.taskType then skip "snapshot_task_type_mismatch" none
    else if snapshotCases ≠ cases then skip "snapshot_cases_mismatch" none
    else (backfilled run dataset version snapshot.id none, s.linkRun run snapshot.id version)

/-- `_backfill_run`, with the id a new snapshot would get. -/
def backfillRun (s : Benchmark) (run : EvaluationRun) (createMissingSnapshots : Bool) (newId now : String) :
    Except EvaluationError (BackfillResult × Benchmark) :=
  match run.requestJson.get "cases" with
  | some (.arr (rawCase :: rawCases)) =>
    match run.datasetId.bind s.datasets with
    | none => .ok (skipped run "missing_dataset", s)
    | some dataset =>
      if dataset.taskType ≠ run.taskType then
        .ok ({ skipped run "dataset_task_type_mismatch" with datasetTaskType := some dataset.taskType }, s)
      else
        match (rawCase :: rawCases).mapM (lib.dumpCase run.taskType) with
        | .error reason => .ok ({ skipped run "invalid_request_cases" with reason := some reason }, s)
        | .ok cases =>
          match (asInt (backfillVersion run dataset)).filter (1 ≤ ·) with
          | none =>
            .ok ({ skipped run "invalid_dataset_version" with datasetVersion := backfillVersion run dataset }, s)
          | some version =>
            match s.findSnapshot dataset.id version with
            | some snapshot => .ok (backfillExisting lib s run dataset cases version snapshot)
            | none =>
              if ¬ createMissingSnapshots then
                .ok ({ skipped run "missing_snapshot" with datasetVersion := .num version }, s)
              else do
                let s ← s.insertSnapshot { snapshotOf dataset newId with
                  version := version, casesJson := cases, metadataJson := backfillMetadata dataset run now }
                .ok (backfilled run dataset version newId (some newId), s.linkRun run newId version)
  | _ => .ok (skipped run "missing_request_cases", s)

/-- What a backfill is asked for. -/
structure BackfillRequest where
  datasetId : Option String := none
  runId : Option String := none
  taskType : Option EvaluationTaskType := none
  limit : Option Nat := none
  dryRun : Bool := false
  createMissingSnapshots : Bool := true

/-- `_candidate_runs`. -/
def candidateRuns (s : Benchmark) (request : BackfillRequest) : List EvaluationRun :=
  let runs := (s.runs.filter fun run => run.datasetId.isSome ∧ run.datasetSnapshotId = none ∧
    (∀ datasetId ∈ given request.datasetId, run.datasetId = some datasetId) ∧
    (∀ runId ∈ given request.runId, run.id = runId) ∧
    ∀ taskType ∈ request.taskType, run.taskType = taskType).insertionSort fun x y => x.createdAt ≤ y.createdAt
  match request.limit with
  | some (limit + 1) => runs.take (limit + 1)
  | _ => runs

/-- The runs one after the other, in one session; the `i`-th may use the `i`-th new id. -/
def backfillRuns (createMissingSnapshots : Bool) (newId : Nat → String) (now : String) :
    Nat → List EvaluationRun → Benchmark → Except EvaluationError (List BackfillResult × Benchmark)
  | _, [], s => .ok ([], s)
  | i, run :: runs, s => do
    let (result, s) ← backfillRun lib s run createMissingSnapshots (newId i) now
    let (results, s) ← backfillRuns createMissingSnapshots newId now (i + 1) runs s
    .ok (result :: results, s)

/-- `backfill`: a dry run is rolled back. -/
def backfill (s : Benchmark) (request : BackfillRequest) (newId : Nat → String) (now : String) :
    Except EvaluationError (List BackfillResult × Benchmark) := do
  let (results, t) ← backfillRuns lib request.createMissingSnapshots newId now 0 (candidateRuns s request) s
  .ok (results, if request.dryRun then s else t)

end Service

end CodeMate.Evaluation
