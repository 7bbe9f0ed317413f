import CodeMate.Evaluation.Gate
import CodeMate.Framework.Fallible
import Mathlib.Algebra.Order.Ring.Rat

/-!
# What a green gate promises

A gate under the default policy is sound (`Sound`) when it passes only runs
that completed on one snapshot of one dataset, without a drop of the primary
metric, and with no case of the baseline lost. All but the last holds of every
gate that passes (`evaluateGate_passed`). The cases are joined by their ids, so
a lost case is noticed exactly where the two runs meet (`lost_iff_regressed`):
the gate is sound when the ids meet at every position (`gate_sound_iff`), and
`gate_passes_regression` is a green gate with a case that regressed.
-/

namespace CodeMate.Evaluation

open Framework

/-! ## What a passed gate has checked -/

theorem gateStatus_passed {checks : List GateCheck} :
    gateStatus checks = .passed ↔ ∀ check ∈ checks, check.passed = some true := by
  rw [gateStatus]
  split
  next h =>
    obtain ⟨check, hmem, hpassed⟩ := List.any_eq_true.mp h
    refine ⟨nofun, fun hall => ?_⟩
    rw [hall check hmem] at hpassed
    simp at hpassed
  next hfailed =>
    split
    next h =>
      obtain ⟨check, hmem, hpassed⟩ := List.any_eq_true.mp h
      refine ⟨nofun, fun hall => ?_⟩
      rw [hall check hmem] at hpassed
      simp at hpassed
    next hnone =>
      refine ⟨fun _ check hmem => ?_, fun _ => rfl⟩
      rcases hpassed : check.passed with _ | passed
      · exact absurd (List.any_eq_true.mpr ⟨check, hmem, by simpa using hpassed⟩) hnone
      · rcases passed with _ | _
        · exact absurd (List.any_eq_true.mpr ⟨check, hmem, by simpa using hpassed⟩) hfailed
        · rfl

/-- No warning but the one about snapshots, which has a check of its own. -/
theorem gateCompatibilityWarnings_eq_nil {baseline candidate : EvaluationRun}
    (h : gateCompatibilityWarnings (comparisonWarnings baseline candidate) = []) :
    (baseline.status = .completed ∧ candidate.status = .completed) ∧
    baseline.datasetId = candidate.datasetId ∧ baseline.datasetVersion = candidate.datasetVersion ∧
    ∃ key ∈ baseline.results.map comparisonCaseKey, key ∈ candidate.results.map comparisonCaseKey := by
  simp only [gateCompatibilityWarnings, comparisonWarnings, List.filter_append, List.append_eq_nil_iff] at h
  obtain ⟨⟨⟨⟨⟨⟨⟨hb, hc⟩, hdataset⟩, hversion⟩, -⟩, -⟩, hcommon⟩, -⟩ := h
  refine ⟨⟨?_, ?_⟩, ?_, ?_, ?_⟩
  · by_contra hne
    simp [hne] at hb
  · by_contra hne
    simp [hne] at hc
  · by_contra hne
    simp [hne] at hdataset
  · by_contra hne
    simp [hne] at hversion
  · by_contra hne
    push Not at hne
    rw [if_pos hne] at hcommon
    simp at hcommon

theorem datasetSnapshotCheckPassed_eq {x y : Option String}
    (h : datasetSnapshotCheckPassed x y true = some true) : ∃ id, id ≠ "" ∧ x = some id ∧ y = some id := by
  rw [datasetSnapshotCheckPassed, if_neg (by simp)] at h
  split at h
  next => cases h
  next hgiven =>
    rw [not_or] at hgiven
    obtain ⟨id, hid⟩ := Option.ne_none_iff_exists'.mp hgiven.1
    obtain ⟨hx, hne⟩ := given_eq_some.mp hid
    have hxy : x = y := by simpa using h
    exact ⟨id, hne, hx, hxy ▸ hx⟩

/-- The primary delta is the difference of the baseline's primary metric in the two runs. -/
theorem primaryMetricDelta_eq (baseline candidate : EvaluationRun) :
    (comparisonOf baseline candidate).summary.primaryMetricDelta =
      some (metricDeltaOf baseline candidate (primaryMetricForRun baseline) .higherIsBetter) := by
  simp [comparisonOf, comparisonSummary, comparisonMetricDeltas, metricDeltaOf]

/-- The comparison that a result of the gate is about. -/
theorem evaluateGate_ok {db : Database} {datasetId candidateRunId : String} {report : GateResult}
    (h : evaluateGate db datasetId candidateRunId = .ok report) :
    report.comparison = comparisonOf report.baselineRun report.candidateRun ∧
    report.checks = gateChecks report.comparison report.policy ∧ report.status = gateStatus report.checks := by
  obtain ⟨⟨dataset, baselineRunId⟩, -, h⟩ := bind_ok h
  obtain ⟨candidateRun, -, h⟩ := bind_ok h
  split at h
  next => cases h
  next =>
    split at h
    next => cases h
    next =>
      obtain ⟨comparison, hcomparison, h⟩ := bind_ok h
      obtain ⟨baseline, -, hcomparison⟩ := bind_ok hcomparison
      obtain ⟨candidate, -, hcomparison⟩ := bind_ok hcomparison
      split at hcomparison
      next => cases hcomparison
      next =>
        cases hcomparison
        cases h
        exact ⟨rfl, rfl, rfl⟩

/-! ## The cases -/

theorem mem_comparisonCases {baseline candidate : EvaluationRun} {item : CaseComparison} :
    item ∈ comparisonCases baseline candidate ↔
      ∃ caseId, (caseId ∈ baseline.results.map comparisonCaseKey ∨ caseId ∈ candidate.results.map comparisonCaseKey) ∧
        comparisonCase caseId (lastAt comparisonCaseKey baseline.results caseId)
          (lastAt comparisonCaseKey candidate.results caseId) = item := by
  rw [comparisonCases, (List.perm_insertionSort _ _).mem_iff, List.mem_map]
  simp only [(List.perm_insertionSort _ _).mem_iff, List.mem_dedup, List.mem_append]

theorem comparisonCaseStatus_regressed {baseline candidate : Option Evaluation} :
    comparisonCaseStatus baseline candidate = .regressed ↔
      ∃ b c, baseline = some b ∧ candidate = some c ∧ b.passed = some true ∧ c.passed ≠ some true := by
  rcases baseline with _ | b
  · simp [comparisonCaseStatus]
  rcases candidate with _ | c
  · simp [comparisonCaseStatus]
  by_cases hb : b.passed = some true <;> by_cases hc : c.passed = some true <;> simp [comparisonCaseStatus, hb, hc]

/-- No regression is counted: a case that passed in the baseline, and is in both runs, passes. -/
theorem regressions_eq_zero {baseline candidate : EvaluationRun} :
    (comparisonOf baseline candidate).summary.regressions = 0 ↔
      ∀ caseId b c, lastAt comparisonCaseKey baseline.results caseId = some b →
        lastAt comparisonCaseKey candidate.results caseId = some c → b.passed = some true → c.passed = some true := by
  show (comparisonCases baseline candidate).countP (·.status = .regressed) = 0 ↔ _
  rw [List.countP_eq_zero]
  constructor
  · intro hall caseId b c hb hc hpassed
    by_contra hne
    have hkey : caseId ∈ baseline.results.map comparisonCaseKey := by
      obtain ⟨i, hi, hk, -⟩ := lastAt_eq_some.mp hb
      exact List.mem_map.mpr ⟨b, List.mem_of_getElem? hi, hk⟩
    have := hall _ (mem_comparisonCases.mpr ⟨caseId, .inl hkey, rfl⟩)
    simp only [decide_eq_true_eq] at this
    exact this (comparisonCaseStatus_regressed.mpr ⟨b, c, hb, hc, hpassed, hne⟩)
  · intro hall item hitem hstatus
    obtain ⟨caseId, -, rfl⟩ := mem_comparisonCases.mp hitem
    simp only [decide_eq_true_eq] at hstatus
    obtain ⟨b, c, hb, hc, hpassed, hne⟩ := comparisonCaseStatus_regressed.mp hstatus
    exact hne (hall caseId b c hb hc hpassed)

/-- The case at a position passes. -/
def passesAt (results : List Evaluation) (i : ℕ) : Prop := ∃ result, results[i]? = some result ∧ result.passed = some true

instance (results : List Evaluation) (i : ℕ) : Decidable (passesAt results i) :=
  decidable_of_iff ((results[i]?).any fun result => decide (result.passed = some true)) <| by
    simp [passesAt, Option.any_eq_true]

/-- The positions that pass in the baseline and do not pass, or are missing, in the candidate. -/
def lostPositions (baseline candidate : EvaluationRun) : List ℕ :=
  (List.range baseline.results.length).filter fun i =>
    passesAt baseline.results i ∧ ¬ passesAt candidate.results i

theorem lostPositions_eq_nil {baseline candidate : EvaluationRun} :
    lostPositions baseline candidate = [] ↔ ∀ i, passesAt baseline.results i → passesAt candidate.results i := by
  rw [lostPositions, List.filter_eq_nil_iff]
  constructor
  · intro hall i hi
    by_contra hlost
    have ⟨result, hresult, _⟩ := hi
    have hmem : i ∈ List.range baseline.results.length :=
      List.mem_range.mpr (List.getElem?_eq_some_iff.mp hresult).1
    exact hall i hmem (by simp [hi, hlost])
  · intro hall i _ h
    simp only [decide_eq_true_eq] at h
    exact h.2 (hall i h.1)

/-- Where the runs meet everywhere, no case is lost when no regression is counted. -/
theorem lostPositions_of_meet {baseline candidate : EvaluationRun}
    (hmeet : ∀ i < baseline.results.length,
      MeetAt (baseline.results.map comparisonCaseKey) (candidate.results.map comparisonCaseKey) i)
    (hno : (comparisonOf baseline candidate).summary.regressions = 0) : lostPositions baseline candidate = [] := by
  rw [lostPositions_eq_nil]
  rintro i ⟨b, hb, hpassed⟩
  obtain ⟨c, hc, hlastB, hlastC⟩ := lastAt_of_meet (hmeet i (List.getElem?_eq_some_iff.mp hb).1) hb
  exact ⟨c, hc, regressions_eq_zero.mp hno _ b c hlastB hlastC hpassed⟩

/-! ## The gate -/

/-- The checks of the default policy. -/
theorem gateChecks_passed {baseline candidate : EvaluationRun} :
    gateStatus (gateChecks (comparisonOf baseline candidate) {}) = .passed ↔
      datasetSnapshotCheckPassed baseline.datasetSnapshotId candidate.datasetSnapshotId true = some true ∧
      gateCompatibilityWarnings (comparisonWarnings baseline candidate) = [] ∧
      (∃ delta, (metricDeltaOf baseline candidate (primaryMetricForRun baseline) .higherIsBetter).delta = some delta ∧
        0 ≤ delta) ∧
      (comparisonOf baseline candidate).summary.regressions = 0 := by
  rw [gateStatus_passed]
  simp only [gateChecks, primaryMetricDelta_eq, increaseCheck, List.append_nil, List.forall_mem_cons,
    Option.bind_some, Option.map_eq_some_iff, Option.some.injEq, decide_eq_true_eq, Bool.false_eq_true,
    if_false, neg_zero, ge_iff_le, Nat.le_zero, List.isEmpty_iff]
  constructor
  · rintro ⟨hsnapshot, hwarnings, hmetric, hregressions, -⟩
    exact ⟨hsnapshot, hwarnings, hmetric, hregressions⟩
  · rintro ⟨hsnapshot, hwarnings, hmetric, hregressions⟩
    exact ⟨hsnapshot, hwarnings, hmetric, hregressions, nofun⟩

/-- What a gate that passes under the policy promises of its two runs. -/
structure Sound (policy : EvaluationGatePolicy) (baseline candidate : EvaluationRun) : Prop where
  completed : baseline.status = .completed ∧ candidate.status = .completed
  dataset : baseline.datasetId = candidate.datasetId
  version : baseline.datasetVersion = candidate.datasetVersion
  snapshot : ∃ id, id ≠ "" ∧ baseline.datasetSnapshotId = some id ∧ candidate.datasetSnapshotId = some id
  metric : ∃ before after, numericMetric baseline.metricsJson (primaryMetricForRun baseline) = some before ∧
    numericMetric candidate.metricsJson (primaryMetricForRun baseline) = some after ∧
    before - policy.maxPrimaryMetricDrop ≤ after
  lost : (lostPositions baseline candidate).length ≤ policy.maxRegressedCases

/-- A gate that passes is sound if it has lost no case. -/
theorem sound_of_passed {baseline candidate : EvaluationRun}
    (h : gateStatus (gateChecks (comparisonOf baseline candidate) {}) = .passed)
    (hlost : lostPositions baseline candidate = []) : Sound {} baseline candidate := by
  obtain ⟨hsnapshot, hwarnings, ⟨delta, hdelta, hpos⟩, -⟩ := gateChecks_passed.mp h
  obtain ⟨hcompleted, hdataset, hversion, -⟩ := gateCompatibilityWarnings_eq_nil hwarnings
  refine ⟨hcompleted, hdataset, hversion, datasetSnapshotCheckPassed_eq hsnapshot, ?_, by simp [hlost]⟩
  obtain ⟨before, hbefore, hdelta⟩ := Option.bind_eq_some_iff.mp hdelta
  obtain ⟨after, hafter, rfl⟩ := Option.map_eq_some_iff.mp hdelta
  refine ⟨before, after, hbefore, hafter, ?_⟩
  show before - 0 ≤ after
  rw [sub_zero]
  exact sub_nonneg.mp hpos

/-! ## Runs with given case ids -/

section Scored

variable (keys : List String) (passes : ℕ → Bool)

/-- A result for each case id, and whether the case at each position passes. -/
def scored : List Evaluation :=
  keys.zipIdx.map fun p => { id := p.1, caseId := some p.1, taskType := .fix, passed := some (passes p.2) }

theorem scored_getElem? (i : ℕ) : (scored keys passes)[i]? =
    keys[i]?.map fun key => { id := key, caseId := some key, taskType := .fix, passed := some (passes i) } := by
  rw [scored, List.getElem?_map, List.getElem?_zipIdx]
  rcases keys[i]? with _ | key
  · rfl
  · simp

theorem map_scored : (scored keys passes).map comparisonCaseKey = keys := by
  apply List.ext_getElem?
  intro i
  rw [List.getElem?_map, scored_getElem?, Option.map_map]
  rcases keys[i]? with _ | key
  · rfl
  · by_cases hkey : key = ""
    · simp [comparisonCaseKey, given, Option.filter, hkey]
    · simp [comparisonCaseKey, given, Option.filter, hkey]

theorem passesAt_scored (i : ℕ) : passesAt (scored keys passes) i ↔ i < keys.length ∧ passes i = true := by
  rw [passesAt, scored_getElem?]
  by_cases hi : i < keys.length
  · simp [hi]
  · simp [List.getElem?_eq_none (Nat.le_of_not_lt hi), hi]

/-- A completed run on the one snapshot there is. -/
def scoredRun (id : String) : EvaluationRun :=
  { id := id, taskType := .fix, status := .completed, datasetId := some "dataset", datasetVersion := some 1,
    datasetSnapshotId := some "snapshot", results := scored keys passes
    metricsJson := .obj [("primary_metric", .str "final_verified_fix_rate"), ("final_verified_fix_rate", .num 1)] }

theorem map_scoredRun (id : String) : (scoredRun keys passes id).results.map comparisonCaseKey = keys :=
  map_scored keys passes

theorem passesAt_scoredRun (id : String) (i : ℕ) :
    passesAt (scoredRun keys passes id).results i ↔ i < keys.length ∧ passes i = true :=
  passesAt_scored keys passes i

end Scored

/-- The dataset, with a run as its baseline and another one. -/
def databaseOf (baseline candidate : EvaluationRun) : Database :=
  { datasets := fun id => if id = "dataset" then
      some { id := "dataset", name := "benchmark", taskType := .fix, baselineRunId := some "baseline" } else none
    runs := fun id => if id = "baseline" then some baseline else if id = "candidate" then some candidate else none }

theorem scoredRun_comparable {baselineKeys candidateKeys : List String} {passes passes' : ℕ → Bool} {key : String}
    (hkey : key ∈ baselineKeys) (hkey' : key ∈ candidateKeys) :
    gateCompatibilityWarnings (comparisonWarnings (scoredRun baselineKeys passes "baseline")
      (scoredRun candidateKeys passes' "candidate")) = [] := by
  have hcommon : ¬ ∀ key ∈ (scoredRun baselineKeys passes "baseline").results.map comparisonCaseKey,
      key ∉ (scoredRun candidateKeys passes' "candidate").results.map comparisonCaseKey := by
    rw [map_scoredRun, map_scoredRun]
    exact fun hall => hall key hkey hkey'
  rw [comparisonWarnings, if_neg hcommon]
  rfl

theorem scoredRun_delta {baselineKeys candidateKeys : List String} {passes passes' : ℕ → Bool} :
    (metricDeltaOf (scoredRun baselineKeys passes "baseline") (scoredRun candidateKeys passes' "candidate")
      (primaryMetricForRun (scoredRun baselineKeys passes "baseline")) .higherIsBetter).delta = some 0 := by
  have hname : primaryMetricForRun (scoredRun baselineKeys passes "baseline") = "final_verified_fix_rate" := rfl
  have hvalue (keys : List String) (passes : ℕ → Bool) (id : String) :
      numericMetric (scoredRun keys passes id).metricsJson "final_verified_fix_rate" = some 1 := rfl
  rw [hname, metricDeltaOf, hvalue, hvalue]
  simp

/-- The gate over these rows is the verdict on the two runs. -/
theorem evaluateGate_databaseOf (baseline candidate : EvaluationRun) (htask : baseline.taskType = .fix)
    (htask' : candidate.taskType = .fix) (hdataset : candidate.datasetId = some "dataset") :
    ∃ report, evaluateGate (databaseOf baseline candidate) "dataset" "candidate" = .ok report ∧
      report.policy = {} ∧ report.baselineRun = baseline ∧ report.candidateRun = candidate ∧
      report.status = gateStatus (gateChecks (comparisonOf baseline candidate) {}) := by
  have hbaseline : (databaseOf baseline candidate).getRun "baseline" = .ok baseline := rfl
  have hcandidate : (databaseOf baseline candidate).getRun "candidate" = .ok candidate := rfl
  have hcompare : compareRuns (databaseOf baseline candidate) "baseline" "candidate" =
      .ok (comparisonOf baseline candidate) := by
    rw [compareRuns, hbaseline, hcandidate]
    show (if baseline.taskType ≠ candidate.taskType then _ else _) = _
    rw [if_neg (by simp [htask, htask'])]
  refine ⟨{ dataset := { id := "dataset", name := "benchmark", taskType := .fix, baselineRunId := some "baseline" }
            baselineRun := baseline, candidateRun := candidate
            status := gateStatus (gateChecks (comparisonOf baseline candidate) {}), policy := {}
            checks := gateChecks (comparisonOf baseline candidate) {}
            comparison := comparisonOf baseline candidate }, ?_, rfl, rfl, rfl, rfl⟩
  rw [evaluateGate, hcandidate]
  show (if candidate.taskType ≠ .fix then _ else if candidate.datasetId ≠ some "dataset" then _ else _) = _
  rw [if_neg (by simp [htask']), if_neg (by simp [hdataset]), hcompare]
  rfl

/-- The baseline passes only at position `i`, and the candidate everywhere else. -/
theorem regressions_scored {baselineKeys candidateKeys : List String} {i : ℕ}
    (hi : ¬ MeetAt baselineKeys candidateKeys i) :
    (comparisonOf (scoredRun baselineKeys (fun j => j = i) "baseline")
      (scoredRun candidateKeys (fun j => j ≠ i) "candidate")).summary.regressions = 0 := by
  rw [regressions_eq_zero]
  intro caseId b c hb hc hpassed
  obtain ⟨j, hj, hk, hlast⟩ := lastAt_eq_some.mp hb
  obtain ⟨j', hj', hk', hlast'⟩ := lastAt_eq_some.mp hc
  have hji : j = i := by
    have : passesAt (scored baselineKeys fun j => j = i) j := ⟨b, hj, hpassed⟩
    simpa using ((passesAt_scored _ _ _).mp this).2
  by_contra hne
  have hji' : j' = i := by
    by_contra hother
    have hlt : j' < candidateKeys.length := by
      have := (List.getElem?_eq_some_iff.mp hj').1
      simpa [scoredRun, scored] using this
    obtain ⟨result, hresult, hpasses⟩ := (passesAt_scored candidateKeys (fun j => j ≠ i) j').mpr
      ⟨hlt, by simpa using hother⟩
    rw [Option.some_injective _ (hresult.symm.trans hj')] at hpasses
    exact hne hpasses
  rw [← map_scored baselineKeys fun j => j = i, ← map_scored candidateKeys fun j => j ≠ i] at hi
  subst hji
  exact hi (meet_of_lastAt hj (hji' ▸ hj') hk hk' hlast (hji' ▸ hlast'))

/-- The gate under the default policy is sound for runs with these case ids exactly when the two
runs have no case in common, where it never passes, or meet at every position of the baseline. -/
theorem gate_sound_iff (baselineKeys candidateKeys : List String) :
    (∀ db datasetId candidateRunId report, evaluateGate db datasetId candidateRunId = .ok report →
      report.policy = {} → report.status = .passed →
      report.baselineRun.results.map comparisonCaseKey = baselineKeys →
      report.candidateRun.results.map comparisonCaseKey = candidateKeys →
      Sound report.policy report.baselineRun report.candidateRun) ↔
    (∀ key ∈ baselineKeys, key ∉ candidateKeys) ∨
      ∀ i < baselineKeys.length, MeetAt baselineKeys candidateKeys i := by
  constructor
  · intro hsound
    by_contra hbad
    push Not at hbad
    obtain ⟨⟨key, hkey, hkey'⟩, i, hi, hmeet⟩ := hbad
    obtain ⟨report, hreport, hpolicy, hbaseline, hcandidate, hstatus⟩ := evaluateGate_databaseOf
      (scoredRun baselineKeys (fun j => j = i) "baseline") (scoredRun candidateKeys (fun j => j ≠ i) "candidate")
      rfl rfl rfl
    have hpassed : report.status = .passed := by
      rw [hstatus, gateChecks_passed]
      refine ⟨rfl, scoredRun_comparable hkey hkey', ⟨0, ?_, Rat.le_refl⟩, regressions_scored hmeet⟩
      exact scoredRun_delta
    have := (hsound _ _ _ _ hreport hpolicy hpassed (by rw [hbaseline, map_scoredRun])
      (by rw [hcandidate, map_scoredRun])).lost
    rw [hpolicy, hbaseline, hcandidate] at this
    have hnil := List.length_eq_zero_iff.mp (Nat.le_zero.mp this)
    have hlost := lostPositions_eq_nil.mp hnil i ((passesAt_scoredRun _ _ _ _).mpr ⟨hi, by simp⟩)
    simpa using ((passesAt_scoredRun _ _ _ _).mp hlost).2
  · intro hkeys db datasetId candidateRunId report hreport hpolicy hpassed hbaseline hcandidate
    obtain ⟨hcomparison, hchecks, hstatus⟩ := evaluateGate_ok hreport
    rw [hpassed, hchecks, hcomparison, hpolicy] at hstatus
    obtain ⟨-, hwarnings, -, hregressions⟩ := gateChecks_passed.mp hstatus.symm
    rw [hpolicy]
    refine sound_of_passed hstatus.symm (lostPositions_of_meet (fun i hi => ?_) hregressions)
    rw [hbaseline, hcandidate]
    rcases hkeys with hdisjoint | hmeet
    · obtain ⟨-, -, -, key, hkey, hkey'⟩ := gateCompatibilityWarnings_eq_nil hwarnings
      exact absurd (hcandidate ▸ hkey') (hdisjoint key (hbaseline ▸ hkey))
    · exact hmeet i (by rw [← hbaseline, List.length_map]; exact hi)

namespace Sample

/-- The results of three cases, two of them under one id. -/
def results (id : String) (first second third : Bool) : List Evaluation :=
  [{ id := id ++ "-1", caseId := some "a", taskType := .fix, passed := some first },
   { id := id ++ "-2", caseId := some "a", taskType := .fix, passed := some second },
   { id := id ++ "-3", caseId := some "b", taskType := .fix, passed := some third }]

/-- A run of the three cases, two of which pass. -/
def run (id : String) (first second third : Bool) : EvaluationRun :=
  { id := id, taskType := .fix, status := .completed, datasetId := some "dataset", datasetVersion := some 1,
    datasetSnapshotId := some "snapshot", caseCount := 3, results := results id first second third,
    metricsJson := .obj [("primary_metric", .str "final_verified_fix_rate"),
      ("final_verified_fix_rate", .num (2 / 3)), ("passed", .num 2), ("failed", .num 1)] }

end Sample

/-- A case of the baseline fails in the candidate under an id that another case passes with. -/
theorem gate_passes_regression : ∃ report,
    evaluateGate (databaseOf (Sample.run "baseline" true true false) (Sample.run "candidate" false true true))
      "dataset" "candidate" = .ok report ∧ report.policy = {} ∧ report.status = .passed ∧
    ¬ Sound report.policy report.baselineRun report.candidateRun := by
  obtain ⟨report, hreport, hpolicy, hbaseline, hcandidate, hstatus⟩ := evaluateGate_databaseOf
    (Sample.run "baseline" true true false) (Sample.run "candidate" false true true) rfl rfl rfl
  refine ⟨report, hreport, hpolicy, by rw [hstatus]; decide +kernel, fun hsound => ?_⟩
  have := hsound.lost
  rw [hpolicy, hbaseline, hcandidate] at this
  exact absurd this (by decide +kernel)

end CodeMate.Evaluation
