import CodeMate.Evaluation.Records
import CodeMate.Framework.Join
import Mathlib.Data.List.Dedup
import Mathlib.Data.List.Sort

/-!
# The regression gate

`evaluateGate` compares a candidate run with the baseline of its dataset: the
warnings about runs that cannot be compared (`comparisonWarnings`), the deltas
of the metrics (`comparisonMetricDeltas`) and the cases, joined by their ids
(`comparisonCases`). The checks of the policy (`gateChecks`) decide the verdict
(`gateStatus`), and `evaluateGate_passed` says what a green one stands for.
-/

namespace CodeMate.Evaluation

open Framework

/-! ## The runs side by side -/

/-- `case_id or id`. -/
def comparisonCaseKey (result : Evaluation) : String := (given result.caseId).getD result.id

/-- `isinstance(value, int | float)`: a boolean is a number too. -/
def number : Json → Option Rat
  | .num value => some value
  | .bool value => some (if value then 1 else 0)
  | _ => none

/-- `!=` between two values. -/
def differ (x y : Json) : Bool :=
  match number x, number y with
  | some a, some b => a ≠ b
  | _, _ => x ≠ y

def numericMetric (metrics : Json) (name : String) : Option Rat := (metrics.get name).bind number

/-- `_comparison_warnings`. -/
def comparisonWarnings (baseline candidate : EvaluationRun) : List String :=
  (if baseline.status ≠ .completed then ["Baseline run is not completed"] else []) ++
  (if candidate.status ≠ .completed then ["Candidate run is not completed"] else []) ++
  (if baseline.datasetId ≠ candidate.datasetId then ["Runs use different benchmark datasets"] else []) ++
  (if baseline.datasetVersion ≠ candidate.datasetVersion then
    ["Runs use different benchmark dataset versions"] else []) ++
  (if (given baseline.datasetSnapshotId).isSome ∧ (given candidate.datasetSnapshotId).isSome ∧
      baseline.datasetSnapshotId ≠ candidate.datasetSnapshotId then
    ["Runs use different benchmark dataset snapshots"] else []) ++
  (if baseline.caseCount ≠ candidate.caseCount then ["Runs have different case counts"] else []) ++
  (if ∀ key ∈ baseline.results.map comparisonCaseKey, key ∉ candidate.results.map comparisonCaseKey then
    ["Runs have no common case ids"] else []) ++
  (if (baseline.metricsJson.flag "top_k" ∧ candidate.metricsJson.flag "top_k") ∧
      differ ((baseline.metricsJson.get "top_k").getD .null) ((candidate.metricsJson.get "top_k").getD .null) then
    ["Runs use different retrieval top_k values"] else [])

inductive MetricDirection
  | higherIsBetter
  | lowerIsBetter
  deriving DecidableEq

structure MetricDelta where
  name : String
  baseline : Option Rat
  candidate : Option Rat
  delta : Option Rat
  percentDelta : Option Rat
  direction : MetricDirection

def metricDeltaOf (baseline candidate : EvaluationRun) (name : String) (direction : MetricDirection) : MetricDelta :=
  let before := numericMetric baseline.metricsJson name
  let after := numericMetric candidate.metricsJson name
  let delta := before.bind fun b => after.map fun c => c - b
  { name := name, baseline := before, candidate := after, delta := delta,
    percentDelta := (before.filter (· ≠ 0)).bind fun b => delta.map (· / b), direction := direction }

/-- `_comparison_metric_deltas`. -/
def comparisonMetricDeltas (baseline candidate : EvaluationRun) (primaryMetric : String) : List MetricDelta :=
  [metricDeltaOf baseline candidate primaryMetric .higherIsBetter,
    metricDeltaOf baseline candidate "passed" .higherIsBetter,
    metricDeltaOf baseline candidate "failed" .lowerIsBetter,
    metricDeltaOf baseline candidate "avg_latency_sec" .lowerIsBetter] ++
  (if baseline.taskType = .fix then [metricDeltaOf baseline candidate "avg_tool_calls" .lowerIsBetter] else [])

def primaryMetricForTask (taskType : EvaluationTaskType) (topK : String) : String :=
  if taskType = .fix then "final_verified_fix_rate" else "recall_at_" ++ topK

/-- The text of `top_k` where it is an `int` (a boolean is one); else that of the default. -/
def topKText : Option Json → String
  | some (.num value) => if value.den = 1 then toString value.num else "5"
  | some (.bool value) => if value then "True" else "False"
  | _ => "5"

/-- `_primary_metric_for_run`. -/
def primaryMetricForRun (run : EvaluationRun) : String :=
  match run.metricsJson.get "primary_metric" with
  | some (.str configured) =>
    if configured ≠ "" then configured else primaryMetricForTask run.taskType (topKText (run.metricsJson.get "top_k"))
  | _ => primaryMetricForTask run.taskType (topKText (run.metricsJson.get "top_k"))

/-! ## The cases -/

inductive ComparisonStatus
  | regressed
  | improved
  | baselineOnly
  | candidateOnly
  | unchangedFail
  | unchangedPass
  deriving DecidableEq

/-- `_comparison_case_status`. -/
def comparisonCaseStatus (baseline candidate : Option Evaluation) : ComparisonStatus :=
  match baseline, candidate with
  | none, _ => .candidateOnly
  | some _, none => .baselineOnly
  | some b, some c =>
    let baselinePassed := b.passed = some true
    let candidatePassed := c.passed = some true
    if baselinePassed ∧ ¬ candidatePassed then .regressed
    else if ¬ baselinePassed ∧ candidatePassed then .improved
    else if baselinePassed ∧ candidatePassed then .unchangedPass
    else .unchangedFail

/-- The order the comparisons are returned in. -/
def ComparisonStatus.order : ComparisonStatus → Nat
  | .regressed => 0
  | .improved => 1
  | .baselineOnly => 2
  | .candidateOnly => 3
  | .unchangedFail => 4
  | .unchangedPass => 5

def member (result : Json) (name : String) : String × Json := (name, (result.get name).getD .null)

/-- `_comparison_result_summary`. -/
def comparisonResultSummary : Option Evaluation → Json
  | none => .null
  | some result =>
    match result.resultJson with
    | .obj members =>
      if result.taskType = .fix then
        .obj [member (.obj members) "agent_status", member (.obj members) "tool_calls",
          member (.obj members) "iterations", member (.obj members) "final_diff_length",
          member (.obj members) "error"]
      else
        match (Json.obj members).get "citations" with
        | some (.arr citations) =>
          .obj [("citation_count", .num citations.length), ("top_citation", citations.head?.getD .null),
            member (.obj members) "error"]
        | _ => .obj members
    | other => other

structure CaseComparison where
  caseId : String
  status : ComparisonStatus
  question : Option String
  expectedFile : Option String
  baselinePassed : Option Bool
  candidatePassed : Option Bool
  baselineStatus : Option String
  candidateStatus : Option String
  baselineFailureCategory : Option String
  candidateFailureCategory : Option String
  baselineLatencyMs : Option Int
  candidateLatencyMs : Option Int
  latencyDeltaMs : Option Int
  baselineResult : Json
  candidateResult : Json

/-- `_first_value`: the candidate's, else the baseline's. -/
def firstValue (baseline candidate : Option Evaluation) (attr : Evaluation → Option String) : Option String :=
  (candidate.bind fun result => given (attr result)).orElse fun _ => baseline.bind fun result => given (attr result)

/-- The entry of one case id. -/
def comparisonCase (caseId : String) (baseline candidate : Option Evaluation) : CaseComparison :=
  let baselineLatency := baseline.bind (·.latencyMs)
  let candidateLatency := candidate.bind (·.latencyMs)
  { caseId := caseId
    status := comparisonCaseStatus baseline candidate
    question := firstValue baseline candidate (·.question)
    expectedFile := firstValue baseline candidate (·.expectedFile)
    baselinePassed := baseline.bind (·.passed)
    candidatePassed := candidate.bind (·.passed)
    baselineStatus := baseline.bind (·.status)
    candidateStatus := candidate.bind (·.status)
    baselineFailureCategory := baseline.bind (·.failureCategory)
    candidateFailureCategory := candidate.bind (·.failureCategory)
    baselineLatencyMs := baselineLatency
    candidateLatencyMs := candidateLatency
    latencyDeltaMs := baselineLatency.bind fun b => candidateLatency.map fun c => c - b
    baselineResult := comparisonResultSummary baseline
    candidateResult := comparisonResultSummary candidate }

/-- The order of the comparisons: by status, then by case id. -/
def CaseComparison.before (x y : CaseComparison) : Prop :=
  x.status.order < y.status.order ∨ (x.status.order = y.status.order ∧ x.caseId ≤ y.caseId)

instance : DecidableRel CaseComparison.before := fun x y => by
  unfold CaseComparison.before
  infer_instance

/-- `_comparison_cases`: each run's results in a dictionary by their case key. -/
def comparisonCases (baseline candidate : EvaluationRun) : List CaseComparison :=
  let caseIds := (baseline.results.map comparisonCaseKey ++ candidate.results.map comparisonCaseKey).dedup.insertionSort
    (· ≤ ·)
  (caseIds.map fun caseId =>
    comparisonCase caseId (lastAt comparisonCaseKey baseline.results caseId)
      (lastAt comparisonCaseKey candidate.results caseId)).insertionSort CaseComparison.before

/-- `_run_context`. -/
structure RunContext where
  id : String
  name : Option String
  taskType : EvaluationTaskType
  status : EvaluationRunStatus
  datasetId : Option String
  datasetVersion : Option Int
  datasetSnapshotId : Option String
  createdAt : String
  finishedAt : Option String
  llmProvider : Option Json
  llmModel : Option Json
  embeddingProvider : Option Json
  embeddingModel : Option Json

def runContext (run : EvaluationRun) : RunContext :=
  { id := run.id, name := run.name, taskType := run.taskType, status := run.status, datasetId := run.datasetId,
    datasetVersion := run.datasetVersion, datasetSnapshotId := run.datasetSnapshotId, createdAt := run.createdAt,
    finishedAt := run.finishedAt, llmProvider := run.configSnapshot.get "llm_provider",
    llmModel := run.configSnapshot.get "llm_model", embeddingProvider := run.configSnapshot.get "embedding_provider",
    embeddingModel := run.configSnapshot.get "embedding_model" }

structure ComparisonSummary where
  caseStatusCounts : ComparisonStatus → Nat
  commonCases : Nat
  regressions : Nat
  improvements : Nat
  baselineOnlyCases : Nat
  candidateOnlyCases : Nat
  primaryMetricDelta : Option MetricDelta
  baselineContext : RunContext
  candidateContext : RunContext

/-- `_comparison_summary`. -/
def comparisonSummary (baseline candidate : EvaluationRun) (cases : List CaseComparison) (deltas : List MetricDelta)
    (primaryMetric : String) : ComparisonSummary :=
  let statusCounts := fun status => cases.countP (·.status = status)
  { caseStatusCounts := statusCounts
    commonCases := cases.countP fun item => item.status ∉ [.baselineOnly, .candidateOnly]
    regressions := statusCounts .regressed
    improvements := statusCounts .improved
    baselineOnlyCases := statusCounts .baselineOnly
    candidateOnlyCases := statusCounts .candidateOnly
    primaryMetricDelta := deltas.find? (·.name = primaryMetric)
    baselineContext := runContext baseline
    candidateContext := runContext candidate }

inductive ComparisonVerdict
  | inconclusive
  | regression
  | pass
  deriving DecidableEq

/-- `_comparison_verdict`. -/
def comparisonVerdict (baseline candidate : EvaluationRun) (summary : ComparisonSummary) (deltas : List MetricDelta)
    (primaryMetric : String) : ComparisonVerdict :=
  if baseline.status ≠ .completed ∨ candidate.status ≠ .completed then .inconclusive
  else if summary.commonCases = 0 then .inconclusive
  else
    match (deltas.find? (·.name = primaryMetric)).bind (·.delta) with
    | none => .inconclusive
    | some delta => if delta < 0 ∨ 0 < summary.regressions then .regression else .pass

structure Comparison where
  baselineRun : EvaluationRun
  candidateRun : EvaluationRun
  compatible : Bool
  compatibilityWarnings : List String
  verdict : ComparisonVerdict
  primaryMetric : String
  metricDeltas : List MetricDelta
  summary : ComparisonSummary
  caseComparisons : List CaseComparison

/-- The tables the service reads. -/
structure Database where
  datasets : String → Option EvaluationDataset
  runs : String → Option EvaluationRun

def Database.getRun (db : Database) (evaluationRunId : String) : Except EvaluationError EvaluationRun :=
  match db.runs evaluationRunId with
  | none => .error (.fileNotFound "Evaluation run not found")
  | some run => .ok run

/-- The comparison of two runs of one task type. -/
def comparisonOf (baseline candidate : EvaluationRun) : Comparison :=
  let warnings := comparisonWarnings baseline candidate
  let primaryMetric := primaryMetricForRun baseline
  let deltas := comparisonMetricDeltas baseline candidate primaryMetric
  let cases := comparisonCases baseline candidate
  let summary := comparisonSummary baseline candidate cases deltas primaryMetric
  { baselineRun := baseline, candidateRun := candidate, compatible := warnings.isEmpty,
    compatibilityWarnings := warnings,
    verdict := comparisonVerdict baseline candidate summary deltas primaryMetric, primaryMetric := primaryMetric,
    metricDeltas := deltas, summary := summary, caseComparisons := cases }

/-- `compare_runs`. -/
def compareRuns (db : Database) (baselineRunId candidateRunId : String) : Except EvaluationError Comparison := do
  let baseline ← db.getRun baselineRunId
  let candidate ← db.getRun candidateRunId
  if baseline.taskType ≠ candidate.taskType then .error (.value "Evaluation runs must have the same task type")
  else .ok (comparisonOf baseline candidate)

/-! ## The checks of the policy -/

structure GateCheck where
  name : String
  passed : Option Bool
  observed : Json
  threshold : Json
  message : String

def gateCompatibilityWarnings (warnings : List String) : List String :=
  warnings.filter (· ≠ "Runs use different benchmark dataset snapshots")

/-- `_dataset_snapshot_check_passed`. -/
def datasetSnapshotCheckPassed (baselineSnapshotId candidateSnapshotId : Option String) (required : Bool) :
    Option Bool :=
  if ¬ required then some true
  else if given baselineSnapshotId = none ∨ given candidateSnapshotId = none then none
  else some (baselineSnapshotId = candidateSnapshotId)

def datasetSnapshotObserved (baselineSnapshotId candidateSnapshotId : Option String) : String :=
  "baseline=" ++ (given baselineSnapshotId).getD "missing" ++ ", candidate=" ++
    (given candidateSnapshotId).getD "missing"

/-- `_metric_delta`. -/
def metricDelta (deltas : List MetricDelta) (name : String) : Option Rat :=
  (deltas.find? (·.name = name)).bind (·.delta)

def numberOrNull : Option Rat → Json
  | none => .null
  | some value => .num value

/-- A check that a delta stays below a bound of the policy, where the policy has one. -/
def increaseCheck (name message : String) (delta : Option Rat) : Option Rat → List GateCheck
  | none => []
  | some bound => [⟨name, delta.map (decide <| · ≤ bound), numberOrNull delta, .num bound, message⟩]

/-- `_gate_checks`. -/
def gateChecks (comparison : Comparison) (policy : EvaluationGatePolicy) : List GateCheck :=
  let summary := comparison.summary
  let primaryMetricDelta := summary.primaryMetricDelta.bind (·.delta)
  let regressedCases := summary.regressions
  let genericCompatibilityWarnings := gateCompatibilityWarnings comparison.compatibilityWarnings
  let genericCompatible := genericCompatibilityWarnings.isEmpty
  let baselineSnapshotId := summary.baselineContext.datasetSnapshotId
  let candidateSnapshotId := summary.candidateContext.datasetSnapshotId
  [{ name := "matching_dataset_snapshot"
     passed := datasetSnapshotCheckPassed baselineSnapshotId candidateSnapshotId policy.requireMatchingDatasetSnapshot
     observed := .str (datasetSnapshotObserved baselineSnapshotId candidateSnapshotId)
     threshold := .str (if policy.requireMatchingDatasetSnapshot then "matching dataset_snapshot_id" else "ignored")
     message := "Baseline and candidate must use the same dataset snapshot " ++
       "unless require_matching_dataset_snapshot is disabled." },
   { name := "compatible_runs"
     passed := some (if policy.allowIncompatible then true else genericCompatible)
     observed := .str (if genericCompatible then "compatible" else "; ".intercalate genericCompatibilityWarnings)
     threshold := .str (if ¬ policy.allowIncompatible then "compatible" else "ignored")
     message := "Runs must be comparable unless allow_incompatible is enabled." },
   { name := "primary_metric_drop"
     passed := primaryMetricDelta.map (decide <| · ≥ -policy.maxPrimaryMetricDrop)
     observed := numberOrNull primaryMetricDelta
     threshold := .num (-policy.maxPrimaryMetricDrop)
     message := "Primary metric may not drop beyond the configured allowance." },
   { name := "case_regressions"
     passed := some (regressedCases ≤ policy.maxRegressedCases)
     observed := .num regressedCases
     threshold := .num policy.maxRegressedCases
     message := "Regressed benchmark cases must stay within policy." }] ++
  increaseCheck "avg_latency_increase" "Average latency increase must stay within policy."
    (metricDelta comparison.metricDeltas "avg_latency_sec") policy.maxAvgLatencyIncreaseSec ++
  increaseCheck "avg_tool_call_increase" "Average tool call increase must stay within policy."
    (metricDelta comparison.metricDeltas "avg_tool_calls") policy.maxAvgToolCallIncrease

inductive GateStatus
  | passed
  | failed
  | inconclusive
  deriving DecidableEq

/-- `_gate_status`. -/
def gateStatus (checks : List GateCheck) : GateStatus :=
  if checks.any (·.passed = some false) then .failed
  else if checks.any (·.passed = none) then .inconclusive
  else .passed

def gatePolicy (rawPolicy : Option EvaluationGatePolicy) : EvaluationGatePolicy := rawPolicy.getD {}

structure GateResult where
  dataset : EvaluationDataset
  baselineRun : EvaluationRun
  candidateRun : EvaluationRun
  status : GateStatus
  policy : EvaluationGatePolicy
  checks : List GateCheck
  comparison : Comparison

/-- The baseline of a dataset that has one. -/
def Database.baselineOf (db : Database) (datasetId : String) : Except EvaluationError (EvaluationDataset × String) :=
  match db.datasets datasetId with
  | none => .error (.fileNotFound "Evaluation dataset not found")
  | some dataset =>
    match given dataset.baselineRunId with
    | none => .error (.value "Benchmark dataset has no baseline evaluation run")
    | some baselineRunId => .ok (dataset, baselineRunId)

/-- `evaluate_gate`. -/
def evaluateGate (db : Database) (datasetId candidateRunId : String) : Except EvaluationError GateResult := do
  let (dataset, baselineRunId) ← db.baselineOf datasetId
  let candidateRun ← db.getRun candidateRunId
  if candidateRun.taskType ≠ dataset.taskType then
    .error (.value "Candidate evaluation run task type must match dataset task type")
  else if candidateRun.datasetId ≠ some dataset.id then
    .error (.value "Candidate evaluation run must belong to this benchmark dataset")
  else
    let policy := gatePolicy dataset.gatePolicyJson
    let comparison ← compareRuns db baselineRunId candidateRunId
    let checks := gateChecks comparison policy
    .ok { dataset := dataset, baselineRun := comparison.baselineRun, candidateRun := comparison.candidateRun,
          status := gateStatus checks, policy := policy, checks := checks, comparison := comparison }

end CodeMate.Evaluation
