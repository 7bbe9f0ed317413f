import CodeMate.Framework.Json

/-!
# The rows of the benchmark

Benchmark datasets and their snapshots, evaluation runs with the results of
their cases, and the policy a gate applies. A text column that may be null is
`Option String`; an empty text counts as missing wherever the service asks for
one (`given`).
-/

namespace CodeMate.Evaluation

open Framework

inductive EvaluationTaskType
  | retrieval
  | fix
  deriving DecidableEq

def EvaluationTaskType.text : EvaluationTaskType → String
  | .retrieval => "retrieval"
  | .fix => "fix"

inductive EvaluationRunStatus
  | running
  | completed
  | failed
  deriving DecidableEq

def EvaluationRunStatus.text : EvaluationRunStatus → String
  | .running => "running"
  | .completed => "completed"
  | .failed => "failed"

/-- What an exception of the services says, by the class the routes catch. -/
inductive EvaluationError
  | fileNotFound (message : String)
  | value (message : String)
  | integrity
  deriving DecidableEq

/-- `EvaluationGatePolicy`, with its defaults. -/
structure EvaluationGatePolicy where
  maxPrimaryMetricDrop : Rat := 0
  maxRegressedCases : Nat := 0
  allowIncompatible : Bool := false
  requireMatchingDatasetSnapshot : Bool := true
  maxAvgLatencyIncreaseSec : Option Rat := none
  maxAvgToolCallIncrease : Option Rat := none
  deriving DecidableEq

/-- The result of one case. -/
structure Evaluation where
  id : String
  caseId : Option String := none
  taskType : EvaluationTaskType
  status : Option String := none
  question : Option String := none
  expectedFile : Option String := none
  resultJson : Json := .null
  passed : Option Bool := none
  latencyMs : Option Int := none
  failureCategory : Option String := none

/-- A run; times are the texts `isoformat` gives. -/
structure EvaluationRun where
  id : String
  name : Option String := none
  taskType : EvaluationTaskType
  status : EvaluationRunStatus := .running
  datasetId : Option String := none
  datasetVersion : Option Int := none
  datasetSnapshotId : Option String := none
  caseCount : Nat := 0
  metricsJson : Json := .obj []
  configSnapshot : Json := .obj []
  requestJson : Json := .obj []
  createdAt : String := ""
  finishedAt : Option String := none
  results : List Evaluation := []

/-- A dataset; a policy that is not there is the empty one. -/
structure EvaluationDataset where
  id : String
  name : String
  taskType : EvaluationTaskType
  description : Option String := none
  version : Int := 1
  baselineRunId : Option String := none
  gatePolicyJson : Option EvaluationGatePolicy := none
  casesJson : List Json := []
  metadataJson : Json := .obj []

/-- What a dataset was at one of its versions. -/
structure EvaluationDatasetSnapshot where
  id : String
  datasetId : String
  name : String
  taskType : EvaluationTaskType
  description : Option String := none
  version : Int
  baselineRunId : Option String := none
  gatePolicyJson : Option EvaluationGatePolicy := none
  casesJson : List Json := []
  metadataJson : Json := .obj []

/-- A text that is there and not empty. -/
def given (text : Option String) : Option String := text.filter (· ≠ "")

theorem given_eq_some {text : Option String} {value : String} :
    given text = some value ↔ text = some value ∧ value ≠ "" := by
  simp [given, Option.filter_eq_some_iff]

end CodeMate.Evaluation
