import CodeMate.Framework.Shell
import CodeMate.Framework.Text
import CodeMate.Sandbox.Reads
import CodeMate.Verification

/-!
# Running the tests of a workspace

`runTests` of `runner.py`: the command is checked, the dependencies that a
workspace asks for are installed in front of it in one shell text, and the
result is settled by what was observed. `runTests_classified`: a test command that
ran in a container counts as passed, failed or neither just as the shell
semantics of that text says. `testShellCommand_fixed`: what is put in front of
the command is one of ten texts, whatever the files of the workspace say.
-/

namespace CodeMate.Sandbox.Runner

open Framework Verification

/-! ## Results -/

inductive FailureKind
  | testFailure
  | skipped
  | infrastructure
  deriving DecidableEq

def FailureKind.text : FailureKind → String
  | testFailure => "test_failure"
  | skipped => "skipped"
  | infrastructure => "infrastructure"

/-- The fields of a `TestResult`. -/
structure TestReport where
  passed : Bool
  exitCode : ℤ
  stdout : String
  stderr : String
  command : Option String
  testsRan : Bool
  timedOut : Bool := false
  runtime : String := "docker"
  skippedReason : Option String := none
  failureKind : Option FailureKind := none
  deriving DecidableEq

def infrastructureCodes : List ℤ := [124, 125, 126, 127]

/-- The failure kind that a report has, or that its evidence gives it. -/
def TestReport.settledKind (report : TestReport) : Option FailureKind :=
  if report.failureKind.isSome then report.failureKind
  else if report.skippedReason.getD "" ≠ "" then some .skipped
  else if report.timedOut ∨ ¬ report.testsRan ∨ report.exitCode ∈ infrastructureCodes then some .infrastructure
  else if report.exitCode ≠ 0 then some .testFailure
  else none

/-- The report says passed, and there is evidence for it. -/
def TestReport.passes (report : TestReport) : Bool :=
  report.testsRan && report.exitCode = 0 && report.passed && report.failureKind.isNone && !report.timedOut &&
    report.skippedReason.isNone

/-- `__post_init__`. -/
def TestReport.postInit (report : TestReport) : TestReport :=
  { report with passed := report.passes, failureKind := report.settledKind }

/-- A report that agrees with its evidence. -/
def TestReport.Settled (report : TestReport) : Prop := report.postInit = report

theorem TestReport.passes_iff (report : TestReport) : report.passes = true ↔ report.testsRan = true ∧
    report.exitCode = 0 ∧ report.passed = true ∧ report.failureKind = none ∧ report.timedOut = false ∧
      report.skippedReason = none := by
  simp [passes, and_assoc]

theorem TestReport.settledKind_of_passes {report : TestReport} (h : report.passes = true) :
    report.settledKind = none := by
  obtain ⟨hran, hexit, -, hkind, htimeout, hskipped⟩ := report.passes_iff.mp h
  simp [settledKind, hran, hexit, hkind, htimeout, hskipped, infrastructureCodes]

theorem TestReport.settledKind_postInit (report : TestReport) : report.postInit.settledKind = report.settledKind := by
  cases hkind : report.settledKind with
  | some kind =>
    show (if report.settledKind.isSome then report.settledKind else _) = some kind
    rw [hkind]
    rfl
  | none =>
    have hunset : report.failureKind = none := by
      unfold settledKind at hkind
      split at hkind
      · exact hkind
      · next hunset => simpa using hunset
    rw [← hkind]
    show (if report.settledKind.isSome then report.settledKind else _) = report.settledKind
    rw [hkind]
    simp only [settledKind, hunset, Option.isSome_none, Bool.false_eq_true, if_false] at hkind
    exact hkind

theorem TestReport.postInit_settled (report : TestReport) : report.postInit.Settled := by
  have hpassed : report.postInit.passes = report.passes := by
    refine Bool.eq_iff_iff.mpr ⟨fun h => (report.postInit.passes_iff.mp h).2.2.1, fun h => ?_⟩
    obtain ⟨hran, hexit, -, -, htimeout, hskipped⟩ := report.passes_iff.mp h
    exact report.postInit.passes_iff.mpr ⟨hran, hexit, h, settledKind_of_passes h, htimeout, hskipped⟩
  exact congrArg₂ (fun passed kind => { report.postInit with passed := passed, failureKind := kind }) hpassed
    report.settledKind_postInit

/-- A `TestResult` is made from a report, which it corrects. -/
structure TestResult where
  report : TestReport
  settled : report.Settled

def TestReport.toResult (report : TestReport) : TestResult := ⟨report.postInit, report.postInit_settled⟩

/-- `to_dict`. -/
def TestResult.toDict (result : TestResult) : Json :=
  .obj [("passed", .bool result.report.passed), ("exit_code", .num result.report.exitCode),
    ("stdout", .str result.report.stdout), ("stderr", .str result.report.stderr),
    ("command", .ofOption result.report.command), ("tests_ran", .bool result.report.testsRan),
    ("timed_out", .bool result.report.timedOut), ("runtime", .str result.report.runtime),
    ("skipped_reason", .ofOption result.report.skippedReason),
    ("failure_kind", .ofOption (result.report.failureKind.map FailureKind.text))]

/-- `test_result_from_execution`; dependencies that could not be installed end the shell with 125. -/
def testResultFromExecution (reportedPassed : Bool) (exitCode : ℤ) (stdout stderr command runtime : String)
    (timedOut : Bool) : TestResult :=
  TestReport.toResult
    { passed := reportedPassed, exitCode, stdout, stderr, command := some command,
      testsRan := !timedOut && exitCode ≠ 125, timedOut, runtime }

/-! ## The shell text -/

/-- What ends a call with an exception. -/
inductive Raised
  | unicodeDecodeError
  | attributeError
  | osError (message : String)
  deriving DecidableEq

inductive ReadFailure
  | osError
  | undecodable
  deriving DecidableEq

/-- The files at the top of a workspace. -/
structure Manifests where
  present : String → Bool
  readText : String → Except ReadFailure String

/-- `str.startswith` for the package managers of Node.js. -/
def isNodeCommand (command : String) : Bool :=
  ["npm", "pnpm", "yarn"].any fun manager => manager.toList.isPrefixOf command.toList

/-- `_has_node_dependencies`. -/
def hasNodeDependencies (packageData : Json) : Except Raised Bool :=
  match packageData with
  | .obj _ =>
    .ok <| ["dependencies", "devDependencies", "optionalDependencies", "peerDependencies"].any fun key =>
      match packageData.get key with
      | some (.obj (_ :: _)) => true
      | _ => false
  | _ => .error .attributeError

/-- `_requirements_has_dependencies`. -/
def requirementsHasDependencies (workspace : Manifests) : Except Raised Bool :=
  match workspace.readText "requirements.txt" with
  | .error .undecodable => .error .unicodeDecodeError
  | .error .osError => .ok false
  | .ok text =>
    .ok <| (splitlines text.toList).any fun line => Text.strip line ≠ [] && (Text.strip line).head? ≠ some '#'

def nodeInstall (workspace : Manifests) (command : String) : String :=
  if "pnpm".toList.isPrefixOf command.toList then
    "corepack enable && " ++
      if workspace.present "pnpm-lock.yaml" then "pnpm install --frozen-lockfile --ignore-scripts"
      else "pnpm install --ignore-scripts"
  else if "yarn".toList.isPrefixOf command.toList then
    "corepack enable && " ++
      if workspace.present "yarn.lock" then "yarn install --frozen-lockfile --ignore-scripts"
      else "yarn install --ignore-scripts"
  else if workspace.present "package-lock.json" then "npm ci --ignore-scripts"
  else "npm install --ignore-scripts"

/-- `_node_dependency_install_command`; `loads` reads JSON. -/
def nodeDependencyInstallCommand (loads : String → Option Json) (workspace : Manifests) (command : String) :
    Except Raised (Option String) :=
  if workspace.present "package.json" then
    match workspace.readText "package.json" with
    | .error .undecodable => .error .unicodeDecodeError
    | .error .osError => .ok none
    | .ok text =>
      match loads text with
      | none => .ok none
      | some data => do
        if ← hasNodeDependencies data then return some (nodeInstall workspace command) else return none
  else .ok none

def pythonInstall (workspace : Manifests) (required : Bool) : List String :=
  "python -m pip install --upgrade pip" ::
    ((if required then ["python -m pip install -r requirements.txt"] else []) ++
      (if workspace.present "pyproject.toml" then ["python -m pip install -e ."] else []) ++
        ["python -m pip install pytest"])

/-- `_python_dependency_install_command`. -/
def pythonDependencyInstallCommand (workspace : Manifests) : Except Raised String :=
  (if workspace.present "requirements.txt" then requirementsHasDependencies workspace else .ok false).map
    fun required => " && ".intercalate (pythonInstall workspace required)

/-- `_dependency_install_command`. -/
def dependencyInstallCommand (loads : String → Option Json) (workspace : Manifests) (command : String) :
    Except Raised (Option String) :=
  if isNodeCommand command then nodeDependencyInstallCommand loads workspace command
  else if command = "pytest" ∨ command = "python -m pytest" then some <$> pythonDependencyInstallCommand workspace
  else .ok none

/-- `_test_shell_command`. -/
def testShellCommand (dependencyCommand : Option String) (command : String) : String :=
  match dependencyCommand with
  | none => command
  | some dependencies => "\x7b " ++ dependencies ++ "; \x7d || exit 125; " ++ command

/-! ## A run -/

structure Settings where
  sandboxRuntime : String
  allowedTestCommands : List String
  sandboxNetworkDisabled : Bool
  sandboxNodeImage : String
  sandboxPythonImage : String
  sandboxGvisorDockerRuntime : String
  sandboxTimeoutSeconds : ℤ
  sandboxExecutionBrokerUrl : Option String
  sandboxFirecrackerCommandTemplate : Option String

/-- `_image_for_command`. -/
def imageForCommand (settings : Settings) (command : String) : String :=
  if isNodeCommand command then settings.sandboxNodeImage else settings.sandboxPythonImage

/-- How a process ended; its output is text. -/
inductive Completion
  | completed (returncode : ℤ) (stdout stderr : String)
  | timeoutExpired (stdout stderr : String)
  | notStarted (message : String)

/-- What a run of tests is handed to: `docker` starts an argument vector, `render` makes one of the template
for Firecracker and `broker` posts a request. -/
structure Backends where
  workspacePath : String
  containerName : String
  start : List String → Completion
  render : (template workspace image shell : String) → (timeout : ℤ) → Option (List String)
  broker : (command shell image runtime : String) → TestResult

/-- A result without a run. -/
def notRun (stderr command runtime : String) : TestResult :=
  TestReport.toResult
    { passed := false, exitCode := 126, stdout := "", stderr, command := some command, testsRan := false, runtime }

def timedOutText : String := "\nTest command timed out."

/-- The result of a process that runs the shell text. -/
def processResult (command runtime : String) : Completion → Except Raised TestResult
  | .completed returncode stdout stderr =>
    .ok (testResultFromExecution (returncode = 0) returncode stdout stderr command runtime false)
  | .timeoutExpired stdout stderr =>
    .ok (testResultFromExecution false 124 stdout (stderr ++ timedOutText) command runtime true)
  | .notStarted message => .error (.osError message)

def dockerCommand (settings : Settings) (backends : Backends) (runtime image shellCommand : String) : List String :=
  ["docker", "run", "--rm", "--name", backends.containerName, "--memory", "512m", "--cpus", "1.0", "-v",
      backends.workspacePath ++ ":/workspace:rw", "-w", "/workspace"] ++
    (if runtime = "gvisor" then ["--runtime", settings.sandboxGvisorDockerRuntime] else []) ++
      (if settings.sandboxNetworkDisabled then ["--network", "none"] else []) ++ [image, "sh", "-lc", shellCommand]

/-- `_run_docker_tests`. -/
def runDockerTests (settings : Settings) (backends : Backends) (command shellCommand image runtime : String) :
    Except Raised TestResult :=
  if settings.sandboxExecutionBrokerUrl.getD "" ≠ "" then .ok (backends.broker command shellCommand image runtime)
  else processResult command runtime (backends.start (dockerCommand settings backends runtime image shellCommand))

/-- `_run_firecracker_tests`. -/
def runFirecrackerTests (settings : Settings) (backends : Backends) (command shellCommand image : String) :
    Except Raised TestResult :=
  let template := settings.sandboxFirecrackerCommandTemplate.getD ""
  if template = "" then
    .ok (notRun "SANDBOX_FIRECRACKER_COMMAND_TEMPLATE is required when SANDBOX_RUNTIME=firecracker." command
      "firecracker")
  else
    match backends.render template backends.workspacePath image shellCommand settings.sandboxTimeoutSeconds with
    | none => .ok (notRun "SANDBOX_FIRECRACKER_COMMAND_TEMPLATE must be a JSON argv array." command "firecracker")
    | some argv => processResult command "firecracker" (backends.start argv)

/-- `_offline_dependency_skip`. -/
def offlineDependencySkip (command runtime : String) : TestResult :=
  TestReport.toResult
    { passed := false, exitCode := 0, stdout := "未运行测试：sandbox 当前禁用网络，且测试命令需要先安装依赖；仅完成 patch 应用校验。",
      stderr := "", command := some command, testsRan := false, runtime,
      skippedReason := some ("Sandbox network is disabled and the test command requires dependency " ++
        "installation before it can run."),
      failureKind := some .skipped }

def noCommandSkip (runtime : String) : TestResult :=
  TestReport.toResult
    { passed := false, exitCode := 0, stdout := "未检测到测试命令，未运行测试；仅完成 patch 应用校验。", stderr := "",
      command := none, testsRan := false, runtime,
      skippedReason := some "No test command was configured or detected.", failureKind := some .skipped }

/-- `_run_tests`; `runtime` is the lower case of `sandbox_runtime`. -/
def runTests (settings : Settings) (backends : Backends) (loads : String → Option Json) (runtime : String)
    (workspace : Manifests) (command : Option String) : Except Raised TestResult :=
  match command with
  | none => .ok (noCommandSkip runtime)
  | some command =>
    if command ∉ settings.allowedTestCommands then .ok
      (notRun ("Test command is not allowed: " ++ command) command runtime)
    else if runtime ∉ ["docker", "gvisor", "firecracker"] then
      .ok (notRun ("Unsupported sandbox runtime: " ++ settings.sandboxRuntime) command runtime)
    else do
      let dependencies ← dependencyInstallCommand loads workspace command
      if runtime ≠ "firecracker" ∧ settings.sandboxNetworkDisabled ∧ dependencies.isSome then
        return offlineDependencySkip command runtime
      let shellCommand := testShellCommand dependencies command
      let image := imageForCommand settings command
      if runtime = "firecracker" then
        if settings.sandboxExecutionBrokerUrl.getD "" ≠ "" then
          return backends.broker command shellCommand image runtime
        else runFirecrackerTests settings backends command shellCommand image
      else runDockerTests settings backends command shellCommand image runtime

/-! ## What a result counts as -/

/-- What a test command with the exit status counts as. -/
def outcomeOf (status : ℤ) : TestOutcome :=
  if status = 0 then .passed else if status ∈ infrastructureCodes then .infraError else .failed

/-- The classification of a result, read off its report. -/
theorem TestResult.classify_eq (result : TestResult) : classifyTestResult result.toDict =
    let report := result.report
    if report.failureKind = some .infrastructure ∨ report.timedOut = true then .infraError
    else if report.failureKind = some .skipped ∨ report.skippedReason.getD "" ≠ "" then .skipped
    else if report.failureKind = some .testFailure then .failed
    else if report.testsRan = false then .infraError
    else if report.passed = true ∧ report.exitCode = 0 then .passed
    else if report.exitCode ∈ infrastructureCodes then .infraError
    else .failed := by
  have hkind (kind : FailureKind) (name : String) (hname : kind.text = name) :
      result.toDict.get "failure_kind" = some (.str name) ↔ result.report.failureKind = some kind := by
    subst hname
    show some (Json.ofOption (result.report.failureKind.map FailureKind.text)) = _ ↔ _
    cases result.report.failureKind with
    | none => simp [Json.ofOption]
    | some other => cases other <;> cases kind <;> simp [Json.ofOption, FailureKind.text]
  have hflag (key : String) (value : Bool) (hkey : result.toDict.get key = some (.bool value)) :
      result.toDict.get key = some (.bool true) ↔ value = true := by
    rw [hkey]
    simp
  have hskipped : result.toDict.flag "skipped_reason" = true ↔ result.report.skippedReason.getD "" ≠ "" := by
    show (Json.ofOption result.report.skippedReason).truthy = true ↔ _
    cases result.report.skippedReason <;> simp [Json.ofOption, Json.truthy]
  have hnumber (n : ℤ) : equalsNumber (result.toDict.get "exit_code") n = true ↔ result.report.exitCode = n := by
    show decide _ = true ↔ _
    rw [decide_eq_true_eq]
    exact Rat.intCast_inj
  have hcodes : infrastructureExitCodes.any (equalsNumber (result.toDict.get "exit_code")) = true ↔
      result.report.exitCode ∈ infrastructureCodes := by
    have hcast : infrastructureExitCodes = infrastructureCodes.map fun n : ℤ => (n : Rat) := rfl
    rw [hcast, List.any_map, List.any_eq_true]
    simp only [Function.comp_apply, hnumber]
    exact ⟨fun ⟨n, hmem, hn⟩ => hn ▸ hmem, fun h => ⟨_, h, rfl⟩⟩
  have hran : result.toDict.get "tests_ran" ≠ some (.bool true) ↔ result.report.testsRan = false := by
    rw [Ne, hflag "tests_ran" _ rfl, Bool.not_eq_true]
  unfold classifyTestResult
  rw [show result.toDict.truthy = true from rfl]
  simp only [Bool.not_true, Bool.false_eq_true, if_false, hkind .infrastructure "infrastructure" rfl,
    hkind .skipped "skipped" rfl,
    hkind .testFailure "test_failure" rfl, hflag "timed_out" _ rfl, hflag "passed" _ rfl, hskipped, hran, hcodes,
    show equalsNumber (result.toDict.get "exit_code") 0 = true ↔ result.report.exitCode = 0 from hnumber 0]

/-- A result counts as passed exactly if it says so. -/
theorem TestResult.classify_passed_iff (result : TestResult) :
    classifyTestResult result.toDict = .passed ↔ result.report.passed = true := by
  rw [result.classify_eq]
  obtain ⟨report, hsettled⟩ := result
  constructor
  · intro h
    dsimp only at h
    split at h <;> try cases h
    split at h <;> try cases h
    split at h <;> try cases h
    split at h <;> try cases h
    split at h
    · next hpassed => exact hpassed.1
    · split at h <;> cases h
  · intro h
    have hpasses : report.passes = true := (congrArg TestReport.passed hsettled).trans h
    obtain ⟨hran, hexit, hpassed, hkind, htimeout, hskipped⟩ := report.passes_iff.mp hpasses
    simp [hran, hexit, hpassed, hkind, htimeout, hskipped]

/-- What a process counts as that was not stopped for its time. -/
theorem classify_execution (status : ℤ) (stdout stderr command runtime : String) :
    classifyTestResult (testResultFromExecution (status = 0) status stdout stderr command runtime false).toDict =
      outcomeOf status := by
  rw [TestResult.classify_eq]
  unfold testResultFromExecution TestReport.toResult TestReport.postInit outcomeOf
  dsimp only
  by_cases hzero : status = 0
  · subst hzero
    simp [TestReport.settledKind, TestReport.passes, infrastructureCodes]
  · by_cases hcode : status ∈ infrastructureCodes
    · simp [TestReport.settledKind, hzero, hcode]
    · have hran : status ≠ 125 := fun heq => hcode (by rw [heq]; decide)
      simp [TestReport.settledKind, hzero, hcode, hran]

/-! ## What is run in front of the tests -/

/-- The commands that install the dependencies of a workspace. -/
def installChains : List (List String) :=
  [["corepack enable", "pnpm install --frozen-lockfile --ignore-scripts"],
    ["corepack enable", "pnpm install --ignore-scripts"],
    ["corepack enable", "yarn install --frozen-lockfile --ignore-scripts"],
    ["corepack enable", "yarn install --ignore-scripts"],
    ["npm ci --ignore-scripts"],
    ["npm install --ignore-scripts"],
    ["python -m pip install --upgrade pip", "python -m pip install pytest"],
    ["python -m pip install --upgrade pip", "python -m pip install -r requirements.txt",
      "python -m pip install pytest"],
    ["python -m pip install --upgrade pip", "python -m pip install -e .", "python -m pip install pytest"],
    ["python -m pip install --upgrade pip", "python -m pip install -r requirements.txt", "python -m pip install -e .",
      "python -m pip install pytest"]]

/-- The text of a chain, if there is anything to install. -/
def joined (chain : List String) : Option String := if chain = [] then none else some (" && ".intercalate chain)

theorem nodeInstall_fixed (workspace : Manifests) (command : String) :
    ∃ chain ∈ installChains, some (nodeInstall workspace command) = joined chain := by
  unfold nodeInstall
  split
  · split
    · exact ⟨installChains[0], List.getElem_mem _, rfl⟩
    · exact ⟨installChains[1], List.getElem_mem _, rfl⟩
  · split
    · split
      · exact ⟨installChains[2], List.getElem_mem _, rfl⟩
      · exact ⟨installChains[3], List.getElem_mem _, rfl⟩
    · split
      · exact ⟨installChains[4], List.getElem_mem _, rfl⟩
      · exact ⟨installChains[5], List.getElem_mem _, rfl⟩

def commandWords (command : String) : List Shell.Word := command.toList.splitOn ' '

/-- A command of plain words that is neither `exit` nor a part of a compound command. -/
def isPlainCommand (command : String) : Bool :=
  (commandWords command).all (fun word => word ≠ [] && word.all Shell.isPlain) &&
    Shell.isSimple (commandWords command) && (commandWords command).head? ≠ some "exit".toList

theorem installChains_plain : (installChains.all fun chain => chain.all isPlainCommand) = true := by decide

theorem isPlainCommand_of_mem {chain : List String} (h : chain ∈ installChains) {command : String}
    (hcommand : command ∈ chain) : isPlainCommand command = true :=
  List.all_eq_true.mp (List.all_eq_true.mp installChains_plain chain h) command hcommand

theorem nodeDependencyInstallCommand_fixed {loads : String → Option Json} {workspace : Manifests} {command : String}
    {dependencies : Option String} (h : nodeDependencyInstallCommand loads workspace command = .ok dependencies) :
    ∃ chain ∈ [] :: installChains, dependencies = joined chain := by
  have hnone : ∃ chain ∈ [] :: installChains, none = joined chain := ⟨[], List.mem_cons_self, rfl⟩
  unfold nodeDependencyInstallCommand at h
  split at h
  · split at h
    · cases h
    · cases h
      exact hnone
    · split at h
      · cases h
        exact hnone
      · next data _ =>
        cases hdata : hasNodeDependencies data with
        | error raised => rw [hdata] at h; cases h
        | ok has =>
          rw [hdata] at h
          cases has with
          | false => cases h; exact hnone
          | true =>
            cases h
            obtain ⟨chain, hmem, hchain⟩ := nodeInstall_fixed workspace command
            exact ⟨chain, List.mem_cons_of_mem _ hmem, hchain⟩
  · cases h
    exact hnone

theorem pythonDependencyInstallCommand_fixed {workspace : Manifests} {dependencies : String}
    (h : pythonDependencyInstallCommand workspace = .ok dependencies) :
    ∃ chain ∈ installChains, some dependencies = joined chain := by
  unfold pythonDependencyInstallCommand at h
  generalize (if workspace.present "requirements.txt" = true then requirementsHasDependencies workspace
    else .ok false) = required at h
  cases required with
  | error raised => cases h
  | ok required =>
    obtain rfl := Except.ok.inj h
    unfold pythonInstall
    cases required <;> cases workspace.present "pyproject.toml"
    · exact ⟨installChains[6], List.getElem_mem _, rfl⟩
    · exact ⟨installChains[8], List.getElem_mem _, rfl⟩
    · exact ⟨installChains[7], List.getElem_mem _, rfl⟩
    · exact ⟨installChains[9], List.getElem_mem _, rfl⟩

/-- Whatever is in the files of a workspace, one of the chains is run in front of its tests, or nothing. -/
theorem dependencyInstallCommand_fixed {loads : String → Option Json} {workspace : Manifests} {command : String}
    {dependencies : Option String} (h : dependencyInstallCommand loads workspace command = .ok dependencies) :
    ∃ chain ∈ [] :: installChains, dependencies = joined chain := by
  unfold dependencyInstallCommand at h
  split at h
  · exact nodeDependencyInstallCommand_fixed h
  · split at h
    · cases hpython : pythonDependencyInstallCommand workspace with
      | error raised => rw [hpython] at h; cases h
      | ok text =>
        rw [hpython] at h
        cases h
        obtain ⟨chain, hmem, hchain⟩ := pythonDependencyInstallCommand_fixed hpython
        exact ⟨chain, List.mem_cons_of_mem _ hmem, hchain⟩
    · cases h
      exact ⟨[], List.mem_cons_self, rfl⟩

theorem lex_command {command : String} (h : isPlainCommand command = true) :
    Shell.lex command.toList = some ((commandWords command).map .word) := by
  simp only [isPlainCommand, Bool.and_eq_true, List.all_eq_true, decide_eq_true_eq] at h
  have hwords := Shell.lex_words fun word hmem => ⟨(h.1.1 word hmem).1, List.all_eq_true.mpr (h.1.1 word hmem).2⟩
  rwa [commandWords, List.intercalate_splitOn] at hwords

theorem runsOn_command {command : String} (h : isPlainCommand command = true) :
    Shell.RunsOn (commandWords command) := by
  have hname : (commandWords command).head? ≠ some "exit".toList := by
    simpa using (Bool.and_eq_true_iff.mp h).2
  intro last
  unfold Shell.exitStatus
  match hwords : commandWords command with
  | [] | _ :: _ :: _ :: _ => rfl
  | [name] =>
    rw [hwords] at hname
    exact if_neg fun heq => hname (congrArg some heq)
  | [name, digits] =>
    rw [hwords] at hname
    exact if_neg fun heq => hname (congrArg some heq.1)

/-- A chain as one command. -/
def chainProgram (first : String) (chain : List String) : Shell.Program :=
  Shell.chained (.simple (commandWords first)) (chain.map commandWords)

/-- What is in front of the test command. -/
def guardProgram (first : String) (chain : List String) : Shell.Program :=
  .or (.group [chainProgram first chain]) (.simple ["exit".toList, "125".toList])

theorem lex_joined {first : String} {chain : List String}
    (h : ∀ command ∈ first :: chain, isPlainCommand command = true) :
    Shell.lex (" && ".intercalate (first :: chain)).toList =
      some (Shell.chainTokens (commandWords first) (chain.map commandWords)) := by
  rw [String.toList_intercalate, List.map_cons]
  refine Shell.lex_chain (lex_command (h first List.mem_cons_self)) ?_
  rw [List.forall₂_map_left_iff, List.forall₂_map_right_iff, List.forall₂_same]
  exact fun command hmem => lex_command (h command (List.mem_cons_of_mem _ hmem))

/-- The shell reads the text as the installation in front of the test command. -/
theorem parse_testShellCommand {first : String} {chain : List String}
    (h : ∀ command ∈ first :: chain, isPlainCommand command = true) (command : String) :
    Shell.parse (testShellCommand (joined (first :: chain)) command).toList =
      (Shell.parse command.toList).map (guardProgram first chain :: ·) := by
  have htext : (testShellCommand (joined (first :: chain)) command).toList =
      ('{' :: ' ' :: ((" && ".intercalate (first :: chain)).toList ++ ';' :: " \x7d || exit 125;".toList)) ++
        ' ' :: command.toList := by
    simp [testShellCommand, joined, String.toList_append]
  have hend : Shell.lex (';' :: " \x7d || exit 125;".toList) =
      some [.semi, .word ['}'], .orIf, .word "exit".toList, .word "125".toList, .semi] := by decide
  have hlex : Shell.lex ('{' :: ' ' :: ((" && ".intercalate (first :: chain)).toList ++
      ';' :: " \x7d || exit 125;".toList)) = some (.word ['{'] ::
        ((Shell.chainTokens (commandWords first) (chain.map commandWords) ++ [.semi]) ++
          [.word ['}'], .orIf, .word "exit".toList, .word "125".toList, .semi])) := by
    have hopen : Shell.lex ['{'] = some [.word ['{']] := by decide
    rw [List.append_assoc]
    show Shell.lex (['{'] ++ ' ' :: _) = _
    exact Shell.lex_boundary (.inl rfl) hopen
      ((Shell.lex_blank _).trans (Shell.lex_boundary (.inr rfl) (lex_joined h) hend))
  rw [htext]
  refine Shell.parse_after hlex ?_
  have hsimple (other : String) (hmem : other ∈ first :: chain) : Shell.isSimple (commandWords other) = true :=
    (Bool.and_eq_true_iff.mp (Bool.and_eq_true_iff.mp (h other hmem)).1).2
  rw [List.foldlM_cons]
  show List.foldlM _ (⟨⟨[], none⟩, [⟨[], none⟩], .empty⟩ : Shell.Reader) _ = _
  rw [List.foldlM_append, Shell.foldlM_chain (hsimple first List.mem_cons_self) fun words hmem => by
    obtain ⟨other, hother, rfl⟩ := List.mem_map.mp hmem
    exact hsimple other (List.mem_cons_of_mem _ hother)]
  rfl

theorem testShellCommand_parses {chain : List String} (hchain : chain ∈ [] :: installChains) {command : String}
    {commands : List Shell.Program} (hcommands : Shell.parse command.toList = some commands) :
    ∃ program, Shell.parse (testShellCommand (joined chain) command).toList = some program := by
  cases chain with
  | nil => exact ⟨commands, hcommands⟩
  | cons first chain =>
    have hmem := (List.mem_cons.mp hchain).resolve_left nofun
    exact ⟨_, (parse_testShellCommand (fun _ => isPlainCommand_of_mem hmem) command).trans (congrArg _ hcommands)⟩

section Run

variable {σ : Type} (exec : List Shell.Word → σ → σ × ℕ)

/-- The shell ends with 125 if a command of the chain fails. -/
theorem run_guardProgram {first : String} {chain : List String}
    (h : ∀ command ∈ first :: chain, isPlainCommand command = true) (last : ℕ) (s : σ) :
    Shell.run exec (guardProgram first chain) last s =
      let installed := Shell.runWhile exec ((first :: chain).map commandWords) s
      if installed.2 = 0 then ⟨installed.1, 0, false⟩ else ⟨installed.1, 125, true⟩ := by
  have hexit (status : ℕ) (s : σ) :
      Shell.run exec (.simple ["exit".toList, "125".toList]) status s = ⟨s, 125, true⟩ := rfl
  have hchain : Shell.run exec (chainProgram first chain) last s =
      ⟨(Shell.runWhile exec ((first :: chain).map commandWords) s).1,
        (Shell.runWhile exec ((first :: chain).map commandWords) s).2, false⟩ := by
    rw [chainProgram, Shell.run_chained fun words hmem => by
      obtain ⟨command, hcommand, rfl⟩ := List.mem_map.mp hmem
      exact runsOn_command (h command (List.mem_cons_of_mem _ hcommand))]
    rw [Shell.run_simple (runsOn_command (h first List.mem_cons_self)), List.map_cons, Shell.runWhile]
    by_cases hfirst : (exec (commandWords first) s).2 = 0
    · simp [Shell.Outcome.andThen, hfirst]
    · simp [Shell.Outcome.andThen, hfirst]
  simp only [guardProgram, Shell.run, Shell.runList, hchain, Shell.Outcome.andThen, Bool.false_eq_true, if_false]
  by_cases hstatus : (Shell.runWhile exec ((first :: chain).map commandWords) s).2 = 0
  · rw [if_pos hstatus, if_pos hstatus, hstatus]
  · rw [if_neg hstatus, if_neg hstatus]
    rfl

/-- The installation, and the test command if it succeeds. -/
def testStatus (chain : List String) (commands : List Shell.Program) (s : σ) : ℕ :=
  let installed := Shell.runWhile exec (chain.map commandWords) s
  if installed.2 = 0 then (Shell.runList exec commands 0 installed.1).status else 125

theorem testShellCommand_status {chain : List String} (hchain : chain ∈ [] :: installChains) {command : String}
    {commands program : List Shell.Program} (hcommands : Shell.parse command.toList = some commands)
    (hprogram : Shell.parse (testShellCommand (joined chain) command).toList = some program) (s : σ) :
    (Shell.runList exec program 0 s).status = testStatus exec chain commands s := by
  cases chain with
  | nil =>
    obtain rfl := Option.some.inj (hcommands.symm.trans hprogram)
    rfl
  | cons first chain =>
    have hplain : ∀ command ∈ first :: chain, isPlainCommand command = true := fun _ =>
      isPlainCommand_of_mem ((List.mem_cons.mp hchain).resolve_left nofun)
    rw [parse_testShellCommand hplain, hcommands] at hprogram
    obtain rfl := Option.some.inj hprogram
    rw [Shell.runList, run_guardProgram exec hplain, testStatus]
    by_cases hstatus : (Shell.runWhile exec ((first :: chain).map commandWords) s).2 = 0
    · simp only [hstatus, if_true, Shell.Outcome.andThen, Bool.false_eq_true, if_false]
    · simp only [hstatus, if_false, Shell.Outcome.andThen, if_true]

/-- The return code of a process is the status of the shell that it runs the text in. -/
def RunsShell (s : σ) (text : String) (returncode : ℤ) : Prop :=
  ∃ program, Shell.parse text.toList = some program ∧ returncode = (Shell.runList exec program 0 s).status

end Run

/-- A test command that runs in a container counts as passed, failed or neither by its own status, if the
installation in front of it succeeds, and as neither if not. -/
theorem runTests_classified {σ : Type} (exec : List Shell.Word → σ → σ × ℕ) (s : σ) (settings : Settings)
    (backends : Backends) (loads : String → Option Json) {runtime command : String} (workspace : Manifests)
    (hcommand : command ∈ settings.allowedTestCommands) (hruntime : runtime = "docker" ∨ runtime = "gvisor")
    (hlocal : settings.sandboxExecutionBrokerUrl.getD "" = "") {commands : List Shell.Program}
    (hcommands : Shell.parse command.toList = some commands) {dependencies : Option String}
    (hdependencies : dependencyInstallCommand loads workspace command = .ok dependencies)
    (honline : settings.sandboxNetworkDisabled = true → dependencies = none) {returncode : ℤ} {stdout stderr : String}
    (hstart : backends.start (dockerCommand settings backends runtime (imageForCommand settings command)
      (testShellCommand dependencies command)) = .completed returncode stdout stderr)
    (hshell : RunsShell exec s (testShellCommand dependencies command) returncode) :
    ∃ chain ∈ [] :: installChains, dependencies = joined chain ∧
      ∃ result, runTests settings backends loads runtime workspace (some command) = .ok result ∧
        classifyTestResult result.toDict = outcomeOf (testStatus exec chain commands s) := by
  obtain ⟨chain, hchain, rfl⟩ := dependencyInstallCommand_fixed hdependencies
  refine ⟨chain, hchain, rfl, ?_⟩
  obtain ⟨program, hprogram, rfl⟩ := hshell
  rw [testShellCommand_status exec hchain hcommands hprogram] at hstart
  refine ⟨_, ?_, classify_execution (testStatus exec chain commands s) stdout stderr command runtime⟩
  have hknown : runtime ∈ ["docker", "gvisor", "firecracker"] := by rcases hruntime with rfl | rfl <;> simp
  have hfirecracker : runtime ≠ "firecracker" := by rcases hruntime with rfl | rfl <;> simp
  have hoffline : ¬
      (runtime ≠ "firecracker" ∧ settings.sandboxNetworkDisabled = true ∧ (joined chain).isSome = true) := by
    rintro ⟨-, hdisabled, hsome⟩
    rw [honline hdisabled] at hsome
    cases hsome
  unfold runTests
  dsimp only
  rw [if_neg (not_not_intro hcommand), if_neg (not_not_intro hknown), hdependencies]
  show (if _ then _ else if _ then _ else _) = _
  rw [if_neg hoffline, if_neg hfirecracker, runDockerTests, if_neg (not_not_intro hlocal), hstart]
  rfl

def sampleSettings : Settings where
  sandboxRuntime := "Docker"
  allowedTestCommands := ["npm test", "pytest"]
  sandboxNetworkDisabled := false
  sandboxNodeImage := "node:20-alpine"
  sandboxPythonImage := "python:3.11-slim"
  sandboxGvisorDockerRuntime := "runsc"
  sandboxTimeoutSeconds := 120
  sandboxExecutionBrokerUrl := none
  sandboxFirecrackerCommandTemplate := none

/-- A workspace without files that are read. -/
def emptyWorkspace : Manifests := ⟨fun _ => false, fun _ => .error .osError⟩

def sampleBackends : Backends where
  workspacePath := "/workspaces/run"
  containerName := "codemate-run"
  start _ := .completed 1 "" "1 failed"
  render _ _ _ _ _ := none
  broker command _ _ runtime := notRun "" command runtime

/-- All commands succeed, but for the tests. -/
def failingTests (words : List Shell.Word) (s : Unit) : Unit × ℕ := (s, if words = ["pytest".toList] then 1 else 0)

theorem pytest_parsed : Shell.parse "pytest".toList = some [.simple ["pytest".toList]] := rfl

theorem failingTests_classified : ∃ chain ∈ [] :: installChains,
    some (" && ".intercalate (pythonInstall emptyWorkspace false)) = joined chain ∧
      ∃ result, runTests sampleSettings sampleBackends (fun _ => none) "docker" emptyWorkspace (some "pytest") =
          .ok result ∧
        classifyTestResult result.toDict =
          outcomeOf (testStatus failingTests chain [.simple ["pytest".toList]] ()) := by
  have hplain : ∀ command ∈ ["python -m pip install --upgrade pip", "python -m pip install pytest"],
      isPlainCommand command = true := fun _ =>
    isPlainCommand_of_mem (List.getElem_mem (l := installChains) (n := 6) (by decide))
  have hparse := (parse_testShellCommand hplain "pytest").trans (congrArg _ pytest_parsed)
  have hstatus := testShellCommand_status failingTests
      (.tail _ (List.getElem_mem (l := installChains) (n := 6) (by decide)))
    pytest_parsed hparse ()
  have hfailed : testStatus failingTests installChains[6] [.simple ["pytest".toList]] () = 1 := by decide
  exact runTests_classified failingTests () sampleSettings sampleBackends (fun _ => none) emptyWorkspace
    (by decide) (.inl rfl) rfl pytest_parsed rfl nofun rfl ⟨_, hparse, by rw [hstatus, hfailed]; rfl⟩

end CodeMate.Sandbox.Runner
