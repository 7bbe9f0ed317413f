import CodeMate.Evaluation.Datasets
import CodeMate.Framework.Run
import Mathlib.Data.List.Pairwise

/-!
# Snapshots of datasets

Over every sequence of creations, updates and deletions of datasets, creations
of runs and backfills (`benchmark`), there is one snapshot for a dataset and a
version, no snapshot changes once it is written, and the one of a dataset's
current version says what the dataset is (`snapshots_faithful`). A service only
adds snapshots, under the unique constraint (`Kept`); a dataset is written only
together with a snapshot that describes it (`upsertSnapshot_ok`), so at its
current version there always is one (`Described`), and no other writer can put
another there.
-/

namespace CodeMate.Evaluation

open Framework

/-! ## What the services do to snapshots -/

def SameVersion (x y : EvaluationDatasetSnapshot) : Prop := x.datasetId = y.datasetId ∧ x.version = y.version

/-- At most one snapshot for a dataset and a version. -/
def UniqueSnapshots (s : Benchmark) : Prop := s.snapshots.Pairwise fun x y => ¬ SameVersion x y

/-- A snapshot of a dataset's current version, with its task type and cases. -/
structure Describes (snapshot : EvaluationDatasetSnapshot) (dataset : EvaluationDataset) : Prop where
  datasetId : snapshot.datasetId = dataset.id
  version : snapshot.version = dataset.version
  taskType : snapshot.taskType = dataset.taskType
  cases : snapshot.casesJson = dataset.casesJson

/-- The snapshots are kept as they are, and none is added at a version that has one. -/
structure Kept (s t : Benchmark) : Prop where
  grows : s.snapshots <+: t.snapshots
  unique : UniqueSnapshots s → UniqueSnapshots t

theorem Kept.of_snapshots {s t : Benchmark} (h : t.snapshots = s.snapshots) : Kept s t := by
  refine ⟨h ▸ List.prefix_rfl, fun hs => ?_⟩
  rw [UniqueSnapshots, h]
  exact hs

theorem Kept.refl (s : Benchmark) : Kept s s := .of_snapshots rfl

theorem Kept.trans {s t u : Benchmark} (h : Kept s t) (h' : Kept t u) : Kept s u :=
  ⟨h.grows.trans h'.grows, fun hs => h'.unique (h.unique hs)⟩

section Services

variable {lib : Library} {s t : Benchmark} {dataset : EvaluationDataset} {snapshot : EvaluationDatasetSnapshot}
  {run : EvaluationRun} {datasetId newId id snapshotId now createdAt : String} {config : Json}

theorem findSnapshot_some {version : Int} (h : s.findSnapshot datasetId version = some snapshot) :
    snapshot ∈ s.snapshots ∧ snapshot.datasetId = datasetId ∧ snapshot.version = version := by
  have := List.find?_some h
  exact ⟨List.mem_of_find?_eq_some h, by simpa using this⟩

theorem insertSnapshot_ok (h : s.insertSnapshot snapshot = .ok t) :
    Kept s t ∧ t.datasets = s.datasets ∧ snapshot ∈ t.snapshots := by
  rw [Benchmark.insertSnapshot] at h
  split at h
  next => cases h
  next hnone =>
    cases h
    refine ⟨⟨List.prefix_append _ _, fun hs => ?_⟩, rfl, by simp⟩
    rw [UniqueSnapshots, List.pairwise_append]
    refine ⟨hs, List.pairwise_singleton _ _, fun x hx y hy hsame => hnone ?_⟩
    rw [List.mem_singleton.mp hy] at hsame
    rw [Benchmark.findSnapshot, List.find?_isSome]
    exact ⟨x, hx, by simpa [SameVersion] using hsame⟩

/-- The snapshot of a dataset's version describes the dataset, whether it was there or is new. -/
theorem upsertSnapshot_ok (h : upsertSnapshot s dataset newId = .ok (snapshot, t)) :
    Kept s t ∧ t.datasets = s.datasets ∧ snapshot ∈ t.snapshots ∧ Describes snapshot dataset := by
  rw [upsertSnapshot] at h
  split at h
  next found hfound =>
    split at h
    next => cases h
    next hsame =>
      cases h
      obtain ⟨hmem, hdataset, hversion⟩ := findSnapshot_some hfound
      rw [not_or, not_not, not_not] at hsame
      exact ⟨.refl s, rfl, hmem, hdataset, hversion, hsame.1, hsame.2⟩
  next =>
    obtain ⟨u, hu, h⟩ := bind_ok h
    cases h
    obtain ⟨hkept, hdatasets, hmem⟩ := insertSnapshot_ok hu
    exact ⟨hkept, hdatasets, hmem, rfl, rfl, rfl, rfl⟩

theorem matchingDatasetSnapshot_ok {request : EvaluationRunRequest} {found : Option EvaluationDatasetSnapshot}
    (h : matchingDatasetSnapshot s request newId = .ok (found, t)) : Kept s t ∧ t.datasets = s.datasets := by
  rw [matchingDatasetSnapshot] at h
  split at h
  next => cases h; exact ⟨.refl s, rfl⟩
  next =>
    split at h
    next => cases h; exact ⟨.refl s, rfl⟩
    next =>
      dsimp only at h
      split at h
      next => cases h; exact ⟨.refl s, rfl⟩
      next =>
        split at h
        next => cases h; exact ⟨.refl s, rfl⟩
        next =>
          obtain ⟨u, hu, h⟩ := bind_ok h
          cases h
          obtain ⟨hkept, hdatasets, -⟩ := insertSnapshot_ok hu
          exact ⟨hkept, hdatasets⟩

theorem resolveDatasetSnapshot_ok {request : EvaluationRunRequest} {found : Option EvaluationDatasetSnapshot}
    (h : resolveDatasetSnapshot s request newId = .ok (found, t)) : Kept s t ∧ t.datasets = s.datasets := by
  rw [resolveDatasetSnapshot] at h
  repeat' split at h
  all_goals first
    | exact matchingDatasetSnapshot_ok h
    | (cases h; exact ⟨.refl _, rfl⟩)
    | cases h

theorem createRun_ok {request : EvaluationRunRequest}
    (h : createRun s request id snapshotId createdAt config = .ok (run, t)) : Kept s t ∧ t.datasets = s.datasets := by
  obtain ⟨⟨found, u⟩, hfound, h⟩ := bind_ok h
  cases h
  obtain ⟨hkept, hdatasets⟩ := resolveDatasetSnapshot_ok hfound
  exact ⟨hkept.trans (.of_snapshots rfl), hdatasets⟩

theorem runEvaluationDataset_ok {name : Option String} {options : EvaluationTaskType → List (String × Json)}
    (h : runEvaluationDataset lib s datasetId name options id snapshotId createdAt config = .ok (run, t)) :
    Kept s t ∧ t.datasets = s.datasets := by
  rw [runEvaluationDataset] at h
  split at h
  next => cases h
  next =>
    obtain ⟨⟨snapshot, u⟩, hsnapshot, h⟩ := bind_ok h
    obtain ⟨_, -, h⟩ := bind_ok h
    obtain ⟨hkept, hdatasets, -⟩ := upsertSnapshot_ok hsnapshot
    obtain ⟨hkept', hdatasets'⟩ := createRun_ok h
    exact ⟨hkept.trans hkept', hdatasets'.trans hdatasets⟩

theorem backfillExisting_kept {dataset : EvaluationDataset} {cases' : List Json} {version : Int}
    {result : BackfillResult} (h : backfillExisting lib s run dataset cases' version snapshot = (result, t)) :
    Kept s t ∧ t.datasets = s.datasets := by
  rw [backfillExisting] at h
  repeat' split at h
  all_goals
    cases h
    exact ⟨.of_snapshots rfl, rfl⟩

theorem backfillRun_ok {create : Bool} {result : BackfillResult}
    (h : backfillRun lib s run create newId now = .ok (result, t)) : Kept s t ∧ t.datasets = s.datasets := by
  rw [backfillRun] at h
  repeat' split at h
  all_goals first
    | (cases h; exact ⟨.refl _, rfl⟩)
    | exact backfillExisting_kept (Except.ok.inj h)
    | skip
  obtain ⟨u, hu, h⟩ := bind_ok h
  cases h
  obtain ⟨hkept, hdatasets, -⟩ := insertSnapshot_ok hu
  exact ⟨hkept.trans (.of_snapshots rfl), hdatasets⟩

/-- By induction on the runs that are looked at. -/
theorem backfillRuns_ok {create : Bool} {newId : Nat → String} {results : List BackfillResult}
    {runs : List EvaluationRun} {i : Nat}
    (h : backfillRuns lib create newId now i runs s = .ok (results, t)) : Kept s t ∧ t.datasets = s.datasets := by
  induction runs generalizing i s results with
  | nil => cases h; exact ⟨.refl _, rfl⟩
  | cons run runs ih =>
    obtain ⟨⟨result, u⟩, hresult, h⟩ := bind_ok h
    obtain ⟨⟨rest, v⟩, hrest, h⟩ := bind_ok h
    cases h
    obtain ⟨hkept, hdatasets⟩ := backfillRun_ok hresult
    obtain ⟨hkept', hdatasets'⟩ := ih hrest
    exact ⟨hkept.trans hkept', hdatasets'.trans hdatasets⟩

theorem backfill_ok {request : BackfillRequest} {newId : Nat → String} {results : List BackfillResult}
    (h : backfill lib s request newId now = .ok (results, t)) : Kept s t ∧ t.datasets = s.datasets := by
  obtain ⟨⟨_, u⟩, hu, h⟩ := bind_ok h
  cases h
  split
  next => exact ⟨.refl s, rfl⟩
  next => exact backfillRuns_ok hu

/-! ## Datasets and their snapshots -/

/-- Every dataset has a snapshot that describes it. -/
def Described (s : Benchmark) : Prop :=
  ∀ id dataset, s.datasets id = some dataset → ∃ snapshot ∈ s.snapshots, Describes snapshot dataset

theorem Described.of_kept (hs : Described s) (hkept : Kept s t) (hdatasets : t.datasets = s.datasets) :
    Described t := by
  intro id dataset hdataset
  rw [hdatasets] at hdataset
  obtain ⟨snapshot, hmem, hdescribes⟩ := hs id dataset hdataset
  exact ⟨snapshot, hkept.grows.subset hmem, hdescribes⟩

theorem Described.saveDataset (hs : Described s) (hmem : snapshot ∈ s.snapshots)
    (hdescribes : Describes snapshot dataset) : Described (s.saveDataset dataset) := by
  intro id other hother
  simp only [Benchmark.saveDataset] at hother
  by_cases hid : id = dataset.id
  · subst hid
    rw [Function.update_self] at hother
    cases hother
    exact ⟨snapshot, hmem, hdescribes⟩
  · rw [Function.update_of_ne hid] at hother
    exact hs id other hother

/-- A dataset is written together with its snapshot. -/
theorem saved_ok (h : upsertSnapshot s dataset newId = .ok (snapshot, t)) (hs : Described s) :
    Kept s (t.saveDataset dataset) ∧ Described (t.saveDataset dataset) := by
  obtain ⟨hkept, hdatasets, hmem, hdescribes⟩ := upsertSnapshot_ok h
  exact ⟨hkept.trans (.of_snapshots rfl), (hs.of_kept hkept hdatasets).saveDataset hmem hdescribes⟩

theorem createDataset_ok {request : EvaluationDatasetCreate}
    (h : createDataset lib s request id snapshotId = .ok (dataset, t)) (hs : Described s) :
    Kept s t ∧ Described t := by
  obtain ⟨cases', -, h⟩ := bind_ok h
  split at h
  next => cases h
  next =>
    obtain ⟨baselineRunId, -, h⟩ := bind_ok h
    obtain ⟨⟨snapshot, u⟩, hsnapshot, h⟩ := bind_ok h
    cases h
    exact saved_ok hsnapshot hs

theorem updateDataset_ok {request : EvaluationDatasetUpdate}
    (h : updateDataset lib s datasetId request snapshotId = .ok (dataset, t)) (hs : Described s) :
    Kept s t ∧ Described t := by
  rw [updateDataset] at h
  split at h
  next => cases h
  next =>
    obtain ⟨updated, -, h⟩ := bind_ok h
    obtain ⟨⟨snapshot, u⟩, hsnapshot, h⟩ := bind_ok h
    cases h
    exact saved_ok hsnapshot hs

theorem deleteDataset_ok {u : Unit} (h : deleteDataset s datasetId = .ok (u, t)) (hs : Described s) :
    Kept s t ∧ Described t := by
  rw [deleteDataset] at h
  split at h
  next => cases h
  next =>
    cases h
    refine ⟨.of_snapshots rfl, fun id dataset hdataset => ?_⟩
    by_cases hid : id = datasetId
    · subst hid
      simp only [Function.update_self] at hdataset
      cases hdataset
    · simp only [Function.update_of_ne hid] at hdataset
      exact hs id dataset hdataset

end Services

/-! ## Runs of the services -/

/-- One request, with the ids, times and configuration that are made up while it is served. -/
inductive BenchmarkEvent
  | createDataset (request : EvaluationDatasetCreate) (id snapshotId : String)
  | updateDataset (datasetId : String) (request : EvaluationDatasetUpdate) (snapshotId : String)
  | deleteDataset (datasetId : String)
  | createRun (request : EvaluationRunRequest) (id snapshotId createdAt : String) (config : Json)
  | runDataset (datasetId : String) (name : Option String) (options : EvaluationTaskType → List (String × Json))
      (id snapshotId createdAt : String) (config : Json)
  | backfill (request : BackfillRequest) (newId : Nat → String) (now : String)
  | executeRun (row : EvaluationRun)

/-- The tables after a request. -/
def Benchmark.step (lib : Library) (s : Benchmark) : BenchmarkEvent → Option Benchmark
  | .createDataset request id snapshotId => some (transact s (createDataset lib s request id snapshotId))
  | .updateDataset datasetId request snapshotId => some (transact s (updateDataset lib s datasetId request snapshotId))
  | .deleteDataset datasetId => some (transact s (deleteDataset s datasetId))
  | .createRun request id snapshotId createdAt config =>
    some (transact s (createRun s request id snapshotId createdAt config))
  | .runDataset datasetId name options id snapshotId createdAt config =>
    some (transact s (runEvaluationDataset lib s datasetId name options id snapshotId createdAt config))
  | .backfill request newId now => some (transact s (backfill lib s request newId now))
  -- what the execution of a run writes, in its own row
  | .executeRun row => some { s with runs := s.runs.map fun run => if run.id = row.id then row else run }

/-- Sequences of requests, from an empty store. -/
def benchmark (lib : Library) : System Benchmark BenchmarkEvent := .ofStep (· = {}) (Benchmark.step lib)

variable {lib : Library}

/-- Every request keeps the snapshots, and the descriptions of the datasets. -/
theorem benchmark_step {s t : Benchmark} {e : BenchmarkEvent} (h : s.step lib e = some t) (hs : Described s) :
    Kept s t ∧ Described t := by
  have hrows {u : Benchmark} (hu : Kept s u ∧ u.datasets = s.datasets) : Kept s u ∧ Described u :=
    ⟨hu.1, hs.of_kept hu.1 hu.2⟩
  have hfail : Kept s s ∧ Described s := ⟨.refl s, hs⟩
  cases e with
  | createDataset =>
    cases h
    exact transact_rec (P := fun u => Kept s u ∧ Described u) hfail fun _ _ hok => createDataset_ok hok hs
  | updateDataset =>
    cases h
    exact transact_rec (P := fun u => Kept s u ∧ Described u) hfail fun _ _ hok => updateDataset_ok hok hs
  | deleteDataset =>
    cases h
    exact transact_rec (P := fun u => Kept s u ∧ Described u) hfail fun _ _ hok => deleteDataset_ok hok hs
  | createRun =>
    cases h
    exact transact_rec (P := fun u => Kept s u ∧ Described u) hfail fun _ _ hok => hrows (createRun_ok hok)
  | runDataset =>
    cases h
    exact transact_rec (P := fun u => Kept s u ∧ Described u) hfail fun _ _ hok => hrows (runEvaluationDataset_ok hok)
  | backfill =>
    cases h
    exact transact_rec (P := fun u => Kept s u ∧ Described u) hfail fun _ _ hok => hrows (backfill_ok hok)
  | executeRun =>
    cases h
    exact hrows ⟨.of_snapshots rfl, rfl⟩

/-- What holds of every reachable store. -/
theorem benchmark_inductive : (benchmark lib).Inductive fun s => UniqueSnapshots s ∧ Described s where
  start := by
    rintro s rfl
    exact ⟨List.Pairwise.nil, fun _ _ hdataset => absurd hdataset (Option.some_ne_none _).symm⟩
  step := by
    intro s t e hs h
    obtain ⟨hkept, hdescribed⟩ := benchmark_step h hs.2
    exact ⟨hkept.unique hs.1, hdescribed⟩

/-- The snapshot of a dataset's current version says what the dataset is. -/
def Faithful (s : Benchmark) : Prop :=
  ∀ id dataset, s.datasets id = some dataset → ∀ snapshot ∈ s.snapshots,
    snapshot.datasetId = dataset.id → snapshot.version = dataset.version →
      snapshot.taskType = dataset.taskType ∧ snapshot.casesJson = dataset.casesJson

/-- A snapshot at the version is the one that describes the dataset. -/
theorem faithful_of_described {s : Benchmark} (hunique : UniqueSnapshots s) (hs : Described s) : Faithful s := by
  intro id dataset hdataset snapshot hmem hid hversion
  obtain ⟨describing, hmem', hdescribes⟩ := hs id dataset hdataset
  have hsame : snapshot = describing := by
    by_contra hne
    have hsymm : Std.Symm fun x y : EvaluationDatasetSnapshot => ¬ SameVersion x y :=
      ⟨fun x y hxy hyx => hxy ⟨hyx.1.symm, hyx.2.symm⟩⟩
    exact hunique.forall hmem hmem' hne
      ⟨hid.trans hdescribes.datasetId.symm, hversion.trans hdescribes.version.symm⟩
  rw [hsame]
  exact ⟨hdescribes.taskType, hdescribes.cases⟩

/-- Snapshots are unique, faithful, and never change: a later store has those of an earlier one, as
they were. -/
theorem snapshots_faithful {s t : Benchmark} {events : List BenchmarkEvent} (hs : (benchmark lib).Reachable s)
    (hrun : (benchmark lib).Run s events t) :
    (UniqueSnapshots t ∧ Faithful t) ∧ s.snapshots <+: t.snapshots := by
  have hinv := benchmark_inductive.reachable hs
  have ht := hrun.inv (fun _ _ _ => benchmark_inductive.step) hinv
  refine ⟨⟨ht.1, faithful_of_described ht.1 ht.2⟩, ?_⟩
  exact hrun.rel (R := fun u v => u.snapshots <+: v.snapshots) (fun _ _ _ => benchmark_inductive.step)
    (fun _ => List.prefix_rfl) (fun _ _ _ => List.IsPrefix.trans)
    (fun _ _ _ hu hstep => (benchmark_step hstep hu.2).1.grows) hinv

namespace Sample

/-- Cases that are their own dumps. -/
def library : Library :=
  { strip := fun text => text, dumpCase := fun _ value => .ok value, requestCases := fun _ cases => .ok cases }

def oneCase (question : String) : Json := .obj [("repo_id", .str "repository"), ("question", .str question)]

/-- A dataset, a run at a version it does not have yet, and an update of its cases to that version. -/
def requests : List BenchmarkEvent :=
  [.createDataset { name := "benchmark", taskType := .retrieval, casesJson := [oneCase "where"] } "dataset" "first",
   .createRun { taskType := .retrieval, datasetId := some "dataset", datasetVersion := some 2, cases := [oneCase "who"],
                requestJson := .obj [("cases", .arr [oneCase "who"])] } "run" "unused" "2026-01-01" (.obj []),
   .backfill {} (fun _ => "second") "2026-01-02",
   .updateDataset "dataset" { casesJson := some (some [oneCase "why"]) } "third",
   .updateDataset "dataset" { casesJson := some (some [oneCase "why"]), version := some (some 3) } "third"]

end Sample

/-- The run is given a snapshot at version 2, so the first update fails; the second is at version 3. -/
theorem snapshots_faithful_sample : ∃ t : Benchmark,
    (t.snapshots.map (·.id) = ["first", "second", "third"] ∧ (t.datasets "dataset").map (·.version) = some 3) ∧
    (UniqueSnapshots t ∧ Faithful t) ∧ ([] : List EvaluationDatasetSnapshot) <+: t.snapshots := by
  have hrun : (Sample.requests.foldlM (Benchmark.step Sample.library) {}).map
      (fun t => (t.snapshots.map (·.id), (t.datasets "dataset").map (·.version))) =
        some (["first", "second", "third"], some 3) := by
    decide +kernel
  obtain ⟨t, ht, hends⟩ := Option.map_eq_some_iff.mp hrun
  have hstart : (benchmark Sample.library).Reachable {} := .start rfl
  have hevents : (benchmark Sample.library).Run {} Sample.requests t := .of_foldlM ht
  exact ⟨t, Prod.mk.inj hends, snapshots_faithful hstart hevents⟩

end CodeMate.Evaluation
