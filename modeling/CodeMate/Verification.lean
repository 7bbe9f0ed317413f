import Mathlib.Logic.Basic
import CodeMate.Framework.Json

/-!
# The verdict on a repair

The rules of `verification.py`: how a recorded test result is classified, where
the graph goes after each test phase, and the verdict that the evidence gives.
A result is the JSON object that the test runner returned, or one read back
from a checkpoint.

`determineStatus_verified`: a verified success has a baseline that failed, an
applied patch and two suites that passed. `evidenceIsComplete_build`: the
verdict that the rules give passes the check made when it is stored.
-/

namespace CodeMate

open Framework

/-- The statuses of an agent run. -/
inductive RunStatus
  | pending
  | running
  | waitingApproval
  | waitingReconciliation
  | verifiedSuccess
  | unverifiedPatch
  | notReproduced
  | failed
  | infraError
deriving DecidableEq, Repr

namespace RunStatus

/-- `TERMINAL_AGENT_RUN_STATUSES`. -/
def terminal : RunStatus → Bool
  | verifiedSuccess | unverifiedPatch | notReproduced | failed | infraError => true
  | pending | running | waitingApproval | waitingReconciliation => false

def text : RunStatus → String
  | pending => "pending"
  | running => "running"
  | waitingApproval => "waiting_approval"
  | waitingReconciliation => "waiting_reconciliation"
  | verifiedSuccess => "verified_success"
  | unverifiedPatch => "unverified_patch"
  | notReproduced => "not_reproduced"
  | failed => "failed"
  | infraError => "infra_error"

end RunStatus

inductive TestOutcome
  | passed
  | failed
  | skipped
  | infraError
  | notRun
deriving DecidableEq, Repr

namespace Verification

/-- `value == n` for a number. -/
def equalsNumber (value : Option Json) (n : Rat) : Bool :=
  match value with
  | some (.num q) => q = n
  | some (.bool b) => (if b then 1 else 0) = n
  | _ => false

/-- `_INFRASTRUCTURE_EXIT_CODES`. -/
def infrastructureExitCodes : List Rat := [124, 125, 126, 127]

/-- `classify_test_result`; what is not there is `null`. -/
def classifyTestResult (result : Json) : TestOutcome :=
  if !result.truthy then .notRun
  else
    let failureKind := result.get "failure_kind"
    if failureKind = some (.str "infrastructure") ∨ result.get "timed_out" = some (.bool true) then
      .infraError
    else if failureKind = some (.str "skipped") ∨ result.flag "skipped_reason" then .skipped
    else if failureKind = some (.str "test_failure") then .failed
    else if result.get "tests_ran" ≠ some (.bool true) then .infraError
    else if result.get "passed" = some (.bool true) ∧ equalsNumber (result.get "exit_code") 0 then .passed
    else if infrastructureExitCodes.any (equalsNumber (result.get "exit_code")) then .infraError
    else .failed

/-- `route_after_reproduction`: `true` to go on. -/
def routeAfterReproduction (baseline : Json) : Bool :=
  match classifyTestResult baseline with
  | .passed | .infraError => false
  | _ => true

inductive Route
  | regression
  | reflect
  | final
deriving DecidableEq, Repr

/-- `_retry_or_finish`. -/
def retryOrFinish (iterations maxIterations : Nat) : Route :=
  if iterations ≥ maxIterations then .final else .reflect

def routeAfterTargetedTests (applyResult targeted : Json) (iterations maxIterations : Nat) : Route :=
  if !applyResult.flag "ok" then retryOrFinish iterations maxIterations
  else match classifyTestResult targeted with
    | .passed => .regression
    | .skipped | .infraError | .notRun => .final
    | .failed => retryOrFinish iterations maxIterations

def routeAfterRegressionChecks (regression : Json) (iterations maxIterations : Nat) : Route :=
  match classifyTestResult regression with
  | .passed | .skipped | .infraError | .notRun => .final
  | .failed => retryOrFinish iterations maxIterations

/-- `_determine_status`: the evidence in the order of the lifecycle. -/
def determineStatus (baseline targeted regression applyResult : Json) : RunStatus × String :=
  match classifyTestResult baseline with
  | .infraError => (.infraError, "baseline_infrastructure_error")
  | .passed => (.notReproduced, "baseline_already_passed")
  | baselineOutcome =>
    if !applyResult.flag "ok" then (.failed, "patch_not_applied")
    else match classifyTestResult targeted with
      | .infraError => (.infraError, "targeted_test_infrastructure_error")
      | .skipped | .notRun => (.unverifiedPatch, "targeted_tests_not_run")
      | .failed => (.failed, "targeted_tests_failed")
      | .passed =>
        match classifyTestResult regression with
        | .infraError => (.infraError, "regression_test_infrastructure_error")
        | .skipped | .notRun => (.unverifiedPatch, "regression_tests_not_run")
        | .failed => (.failed, "regression_tests_failed")
        | .passed =>
          if baselineOutcome ≠ .failed then (.unverifiedPatch, "baseline_failure_not_reproduced")
          else (.verifiedSuccess, "baseline_failed_and_post_patch_suites_passed")

/-- `_mapping_or_none`. -/
def mappingOrNone (value : Json) : Json :=
  match value with
  | .obj ms => .obj ms
  | _ => .null

/-- `a or b or c or {}`. -/
def firstTruthy (results : List Json) : Json := (results.find? Json.truthy).getD (.obj [])

/-- `build_verification_result`. -/
def buildVerificationResult (baseline targeted regression applyResult : Json) : Json :=
  let baseline := mappingOrNone baseline
  let targeted := mappingOrNone targeted
  let regression := mappingOrNone regression
  let applyResult := mappingOrNone applyResult
  let (status, reason) := determineStatus baseline targeted regression applyResult
  let last := firstTruthy [regression, targeted, baseline]
  let targetedPassed := classifyTestResult targeted = .passed
  let regressionPassed := classifyTestResult regression = .passed
  .obj
    [("status", .str status.text), ("reason", .str reason),
      ("verified", .bool (status = .verifiedSuccess)), ("passed", .bool (status = .verifiedSuccess)),
      ("tests_ran", .bool (targetedPassed ∧ regressionPassed)),
      ("exit_code", (last.get "exit_code").getD .null), ("command", (last.get "command").getD .null),
      ("stdout", (last.get "stdout").getD (.str "")), ("stderr", (last.get "stderr").getD (.str "")),
      ("timed_out", .bool (last.flag "timed_out")), ("runtime", (last.get "runtime").getD .null),
      ("skipped_reason", (last.get "skipped_reason").getD .null),
      ("baseline_reproduced", .bool (classifyTestResult baseline = .failed)),
      ("patch_applied", .bool (applyResult.truthy && applyResult.flag "ok")),
      ("targeted_tests_passed", .bool targetedPassed),
      ("regression_tests_passed", .bool regressionPassed),
      ("baseline", baseline), ("targeted", targeted), ("regression", regression)]

/-- `verification_evidence_is_complete`. -/
def verificationEvidenceIsComplete (result : Json) : Bool :=
  result.truthy && result.get "status" = some (.str RunStatus.verifiedSuccess.text) &&
    classifyTestResult (mappingOrNone ((result.get "baseline").getD .null)) = .failed &&
    classifyTestResult (mappingOrNone ((result.get "targeted").getD .null)) = .passed &&
    classifyTestResult (mappingOrNone ((result.get "regression").getD .null)) = .passed &&
    result.get "patch_applied" = some (.bool true)

/-- `verification_summary`. -/
def verificationSummary (status : RunStatus) (reason : String) : String :=
  let summary := match status with
    | .verifiedSuccess => "Patch 前已复现失败；Patch 后目标测试与回归测试均实际执行并通过。"
    | .unverifiedPatch => "Patch 已应用，但目标测试或回归测试未实际运行，结果未验证。"
    | .notReproduced => "Patch 前测试已经通过，未复现原始失败，因此未生成修复。"
    | .failed => "Patch 应用或测试在最大迭代次数内未通过。"
    | .infraError => "沙箱、依赖、网络或执行基础设施故障，无法完成可信验证。"
    | _ => ""
  summary ++ " 原因：" ++ reason

/-! ## What the rules give -/

variable {baseline targeted regression applyResult : Json}

theorem determineStatus_terminal : (determineStatus baseline targeted regression applyResult).1.terminal = true := by
  unfold determineStatus
  split <;> try rfl
  split <;> try rfl
  split <;> try rfl
  split <;> try rfl
  split <;> rfl

/-- A verified success has all four pieces of evidence. -/
theorem determineStatus_verified
    (h : (determineStatus baseline targeted regression applyResult).1 = .verifiedSuccess) :
    classifyTestResult baseline = .failed ∧ applyResult.flag "ok" = true ∧
      classifyTestResult targeted = .passed ∧ classifyTestResult regression = .passed := by
  unfold determineStatus at h
  split at h <;> try cases h
  split at h
  · cases h
  next hok =>
    split at h <;> try cases h
    next ht =>
      split at h <;> try cases h
      next hr =>
        split at h
        · cases h
        next hb => exact ⟨not_not.mp hb, by simpa using hok, ht, hr⟩

@[simp] theorem mappingOrNone_idem (value : Json) : mappingOrNone (mappingOrNone value) = mappingOrNone value := by
  cases value <;> rfl

theorem flag_mappingOrNone (value : Json) (key : String) : (mappingOrNone value).flag key = value.flag key := by
  cases value <;> rfl

/-- A value that is no mapping is like one that is missing. -/
theorem classify_mappingOrNone {value : Json} {outcome : TestOutcome}
    (h : classifyTestResult (mappingOrNone value) = outcome) (hne : outcome ≠ .notRun) :
    classifyTestResult value = outcome := by
  cases value with
  | obj ms => exact h
  | _ => exact absurd h.symm hne

/-- The verdict of `build_verification_result`. -/
def verdict (baseline targeted regression applyResult : Json) : RunStatus × String :=
  determineStatus (mappingOrNone baseline) (mappingOrNone targeted) (mappingOrNone regression)
    (mappingOrNone applyResult)

/-- What a verdict of success says of the values it was given. -/
theorem verdict_verified (h : (verdict baseline targeted regression applyResult).1 = .verifiedSuccess) :
    classifyTestResult baseline = .failed ∧ applyResult.flag "ok" = true ∧
      classifyTestResult targeted = .passed ∧ classifyTestResult regression = .passed := by
  obtain ⟨hb, ha, ht, hr⟩ := determineStatus_verified h
  rw [flag_mappingOrNone] at ha
  exact ⟨classify_mappingOrNone hb nofun, ha, classify_mappingOrNone ht nofun, classify_mappingOrNone hr nofun⟩

/-- A verdict of success passes the check of its evidence. -/
theorem evidenceIsComplete_build
    (h : (verdict baseline targeted regression applyResult).1 = .verifiedSuccess) :
    verificationEvidenceIsComplete (buildVerificationResult baseline targeted regression applyResult) = true := by
  obtain ⟨hb, ha, ht, hr⟩ := determineStatus_verified h
  have hs : (determineStatus (mappingOrNone baseline) (mappingOrNone targeted) (mappingOrNone regression)
    (mappingOrNone applyResult)).1 = .verifiedSuccess := h
  simp [verificationEvidenceIsComplete, buildVerificationResult, Json.get, Json.members, List.lookup_cons,
    hs, hb, ht, hr, ha, Json.truthy_of_flag ha]

end Verification

end CodeMate
