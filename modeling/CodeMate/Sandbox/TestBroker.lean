import CodeMate.Sandbox.TestRuns

/-!
# Tests that run at the broker

A runner with a broker posts the shell text that it has made, and the broker
makes the text again from the workspace that it sees (`brokerTests`).
`checks_policy`: whoever sends the request, what the broker lets through is a
command of the allowlist behind one of the ten installations, in the image of
the command. `runTests_remote` is when the request of a runner is let through,
and that its result is then the one that the broker has made.
-/

namespace CodeMate.Sandbox.Runner

open Framework Verification

/-! ## The broker -/

structure TestRequest where
  workspace : String
  command : String
  shellCommand : String
  image : String
  runtime : String
  timeoutSeconds : ℤ
  deriving DecidableEq

/-- `SandboxTestRequest`, the fields as they are declared. -/
def TestRequest.isValid (request : TestRequest) : Bool :=
  bounded request.workspace 255 && bounded request.command 255 && bounded request.shellCommand 4096 &&
    bounded request.image 255 && (request.runtime = "docker" || request.runtime = "gvisor") &&
    (1 ≤ request.timeoutSeconds && request.timeoutSeconds ≤ 3600)
where
  bounded (text : String) (most : ℕ) : Bool := 1 ≤ text.length && text.length ≤ most

structure HttpError where
  status : ℕ
  detail : String
  deriving DecidableEq

def internalError : HttpError := ⟨500, "Internal Server Error"⟩

def isAscii (text : String) : Bool := text.toList.all fun c => c.toNat < 128

/-- `secrets.compare_digest`, which takes texts of ASCII only. -/
def compareDigest (x y : String) : Except HttpError Bool :=
  if isAscii x && isAscii y then .ok (x = y) else .error internalError

/-- `if not secrets.compare_digest(x, y): raise`. -/
def requireEqual (x y : String) (denied : HttpError) : Except HttpError Unit :=
  match compareDigest x y with
  | .error raised => .error raised
  | .ok same => if same then .ok () else .error denied

/-- `str.partition(" ")`. -/
def partitionBlank (text : String) : String × Bool × String :=
  let first := text.toList.takeWhile (· ≠ ' ')
  let rest := text.toList.drop first.length
  (String.ofList first, !rest.isEmpty, String.ofList (rest.drop 1))

def stripped (text : String) : String := String.ofList (Text.strip text.toList)

def unauthorized : HttpError := ⟨401, "Valid sandbox execution broker token required"⟩

/-- `require_token`. -/
def requireToken (brokerToken : Option String) (authorization : Option String) : Except HttpError Unit :=
  let (scheme, separator, provided) := partitionBlank (authorization.getD "")
  let expected := stripped (brokerToken.getD "")
  if expected = "" ∨ separator = false ∨ scheme.toList.map Char.toLower ≠ "bearer".toList then .error unauthorized
  else requireEqual (stripped provided) expected unauthorized

/-- What the execution plane answers. -/
structure Execution where
  passed : Bool
  exitCode : ℤ
  stdout : String
  stderr : String
  timedOut : Bool
  backend : String

/-- The broker: its token, the workspaces below its root (`safe_workspace`) and the execution plane. -/
structure Broker where
  settings : Settings
  brokerToken : Option String
  planeBackend : String
  loads : String → Option Json
  workspaces : String → Except HttpError Manifests
  plane : TestRequest → Except String Execution

/-- The checks of `run_tests`. -/
def Broker.checks (broker : Broker) (request : TestRequest) (authorization : Option String) : Except HttpError Unit :=
  if ¬ request.isValid then .error ⟨422, "Unprocessable Entity"⟩
  else
    match requireToken broker.brokerToken authorization with
    | .error raised => .error raised
    | .ok () =>
      if request.command ∉ broker.settings.allowedTestCommands then .error ⟨403, "Test command is not allowlisted"⟩
      else if request.image ≠ imageForCommand broker.settings request.command then
        .error ⟨403, "Sandbox image is not allowlisted"⟩
      else
        match broker.workspaces request.workspace with
        | .error raised => .error raised
        | .ok workspace =>
          match dependencyInstallCommand broker.loads workspace request.command with
          | .error _ => .error internalError
          | .ok dependencies =>
            requireEqual request.shellCommand (testShellCommand dependencies request.command)
              ⟨403, "Sandbox shell command was not derived by policy"⟩

def textOf : Json → Option (Option String)
  | .null => some none
  | .str text => some (some text)
  | _ => none

/-- The request of `_run_remote_docker_tests`, for a workspace at a path below the root. -/
def remoteRequest (settings : Settings) (workspace command shellCommand image runtime : String) : TestRequest :=
  ⟨workspace, command, shellCommand, image, runtime, settings.sandboxTimeoutSeconds⟩

def bearer (token : Option String) : String := "Bearer " ++ stripped (token.getD "")

theorem partitionBlank_bearer (token : Option String) :
    partitionBlank (bearer token) = ("Bearer", true, stripped (token.getD "")) := by
  have htext : (bearer token).toList = "Bearer".toList ++ ' ' :: (stripped (token.getD "")).toList := by
    simp [bearer, String.toList_append]
  have hfirst : (bearer token).toList.takeWhile (· ≠ ' ') = "Bearer".toList := by
    rw [htext, List.takeWhile_append_of_pos (List.all_eq_true.mp rfl)]
    simp
  unfold partitionBlank
  rw [hfirst, htext]
  dsimp only
  rw [List.drop_left]
  simp

theorem strip_strip (text : List Char) : Text.strip (Text.strip text) = Text.strip text := by
  by_cases hempty : Text.strip text = []
  · rw [hempty]
    rfl
  · obtain ⟨spaces, hparts, -⟩ := Text.stripRight_parts (text.dropWhile Text.isSpace)
    obtain ⟨front, last, hends, hlast⟩ := Text.stripRight_last hempty
    cases hstrip : Text.strip text with
    | nil => exact absurd hstrip hempty
    | cons first rest =>
      have hfirst : Text.isSpace first = false := by
        have hhead := List.head?_dropWhile_not Text.isSpace text
        rw [hparts, show Text.stripRight _ = _ from hstrip] at hhead
        simpa using hhead
      exact Text.strip_of_ends hfirst hlast rfl (hstrip.symm.trans hends)

theorem stripped_stripped (text : String) : stripped (stripped text) = stripped text := by
  rw [stripped, stripped, String.toList_ofList, strip_strip]

theorem requireEqual_ok_iff {x y : String} {denied : HttpError} :
    requireEqual x y denied = .ok () ↔ isAscii x = true ∧ isAscii y = true ∧ x = y := by
  unfold requireEqual compareDigest
  by_cases hascii : (isAscii x && isAscii y) = true
  · rw [if_pos hascii]
    by_cases heq : x = y <;> simp [Bool.and_eq_true_iff.mp hascii, heq]
  · rw [if_neg hascii]
    exact ⟨nofun, fun h => absurd (Bool.and_eq_true_iff.mpr ⟨h.1, h.2.1⟩) hascii⟩

theorem requireToken_bearer_iff {token : Option String} : requireToken token (some (bearer token)) = .ok () ↔
    stripped (token.getD "") ≠ "" ∧ isAscii (stripped (token.getD "")) = true := by
  unfold requireToken
  rw [Option.getD_some, partitionBlank_bearer]
  dsimp only
  have hbearer : "Bearer".toList.map Char.toLower = "bearer".toList := by decide
  by_cases htoken : stripped (token.getD "") = ""
  · simp [htoken]
  · rw [if_neg (not_or.mpr ⟨htoken, not_or.mpr ⟨nofun, not_not_intro hbearer⟩⟩), stripped_stripped,
      requireEqual_ok_iff]
    simp [htoken]

theorem isValid_iff (request : TestRequest) : request.isValid = true ↔
    TestRequest.isValid.bounded request.workspace 255 = true ∧
      TestRequest.isValid.bounded request.command 255 = true ∧
      TestRequest.isValid.bounded request.shellCommand 4096 = true ∧
        TestRequest.isValid.bounded request.image 255 = true ∧
          (request.runtime = "docker" ∨ request.runtime = "gvisor") ∧
            1 ≤ request.timeoutSeconds ∧ request.timeoutSeconds ≤ 3600 := by
  simp only [TestRequest.isValid, Bool.and_eq_true, Bool.or_eq_true, decide_eq_true_eq, and_assoc]

/-- The checks in their order. -/
theorem checks_ok_iff {broker : Broker} {request : TestRequest} {authorization : Option String} :
    broker.checks request authorization = .ok () ↔
      request.isValid = true ∧ requireToken broker.brokerToken authorization = .ok () ∧
        request.command ∈ broker.settings.allowedTestCommands ∧
          request.image = imageForCommand broker.settings request.command ∧
            ∃ workspace dependencies, broker.workspaces request.workspace = .ok workspace ∧
              dependencyInstallCommand broker.loads workspace request.command = .ok dependencies ∧
                isAscii request.shellCommand = true ∧
                  request.shellCommand = testShellCommand dependencies request.command := by
  unfold Broker.checks
  constructor
  · intro h
    split at h
    · cases h
    next hvalid =>
    split at h
    · cases h
    next htoken =>
    split at h
    · cases h
    next hcommand =>
    split at h
    · cases h
    next himage =>
    split at h
    · cases h
    next workspace hworkspace =>
    split at h
    · cases h
    next dependencies hdependencies =>
    obtain ⟨hascii, -, hshell⟩ := requireEqual_ok_iff.mp h
    exact ⟨not_not.mp hvalid, htoken, not_not.mp hcommand, not_not.mp himage, workspace, dependencies, hworkspace,
      hdependencies, hascii, hshell⟩
  · rintro ⟨hvalid, htoken, hcommand, himage, workspace, dependencies, hworkspace, hdependencies, hascii, hshell⟩
    rw [if_neg (not_not_intro hvalid), htoken]
    dsimp only
    rw [if_neg (not_not_intro hcommand), if_neg (not_not_intro himage), hworkspace]
    dsimp only
    rw [hdependencies]
    exact requireEqual_ok_iff.mpr ⟨hascii, hshell ▸ hascii, hshell⟩

theorem isAscii_append (x y : String) : isAscii (x ++ y) = (isAscii x && isAscii y) := by
  rw [isAscii, String.toList_append, List.all_append]
  rfl

/-- No command of a chain has more than 48 characters. -/
theorem installChains_short :
    (installChains.all fun chain =>
      decide (chain.length ≤ 4) && chain.all fun command => decide (command.length ≤ 48) && isAscii command) = true := by
  decide

theorem joined_short {chain : List String}
    (h : (chain.all fun command => decide (command.length ≤ 48) && isAscii command) = true) :
    (" && ".intercalate chain).length ≤ 52 * chain.length ∧ isAscii (" && ".intercalate chain) = true := by
  have hsep : (" && " : String).length = 4 ∧ isAscii " && " = true := by decide
  induction chain with
  | nil => decide
  | cons command chain ih =>
    rw [List.all_cons, Bool.and_eq_true, Bool.and_eq_true, decide_eq_true_eq] at h
    obtain ⟨hlength, hascii⟩ := ih h.2
    cases chain with
    | nil =>
      rw [String.intercalate_singleton]
      exact ⟨h.1.1.trans (by simp), h.1.2⟩
    | cons next chain =>
      rw [String.intercalate_cons_cons, String.length_append, String.length_append, hsep.1, isAscii_append,
        isAscii_append, h.1.2, hsep.2, hascii, List.length_cons]
      exact ⟨by omega, rfl⟩

/-- The text in front of a command is short and plain. -/
theorem testShellCommand_fits {chain : List String} (hchain : chain ∈ [] :: installChains) (command : String) :
    command.length ≤ (testShellCommand (joined chain) command).length ∧
      (testShellCommand (joined chain) command).length ≤ command.length + 256 ∧
        isAscii (testShellCommand (joined chain) command) = isAscii command := by
  cases chain with
  | nil => exact ⟨Nat.le_refl _, Nat.le_add_right _ _, rfl⟩
  | cons first chain =>
    have hmem := (List.mem_cons.mp hchain).resolve_left nofun
    have hshort := List.all_eq_true.mp installChains_short _ hmem
    rw [Bool.and_eq_true, decide_eq_true_eq] at hshort
    obtain ⟨hlength, hascii⟩ := joined_short hshort.2
    have htext : testShellCommand (joined (first :: chain)) command =
        "\x7b " ++ " && ".intercalate (first :: chain) ++ "; \x7d || exit 125; " ++ command := rfl
    have hopen : ("\x7b " : String).length = 2 ∧ isAscii "\x7b " = true := by decide
    have hclose : ("; \x7d || exit 125; " : String).length = 17 ∧ isAscii "; \x7d || exit 125; " = true := by decide
    rw [htext, String.length_append, String.length_append, String.length_append, hopen.1, hclose.1, isAscii_append,
      isAscii_append, isAscii_append, hopen.2, hclose.2, hascii]
    exact ⟨by omega, by omega, by simp⟩

/-- The request runs a command of the allowlist in the image for it, behind one of the installations: a shell that
is given its text ends with the status of the two. -/
structure WithinPolicy (broker : Broker) (request : TestRequest) : Prop where
  command_allowed : request.command ∈ broker.settings.allowedTestCommands
  image_derived : request.image = imageForCommand broker.settings request.command
  runtime_isolated : request.runtime = "docker" ∨ request.runtime = "gvisor"
  shell_derived : ∃ chain ∈ [] :: installChains,
    request.shellCommand = testShellCommand (joined chain) request.command ∧
      ∀ commands, Shell.parse request.command.toList = some commands →
        ∃ program, Shell.parse request.shellCommand.toList = some program ∧
          ∀ (σ : Type) (exec : List Shell.Word → σ → σ × ℕ) (s : σ),
            (Shell.runList exec program 0 s).status = testStatus exec chain commands s

/-- Whoever sends a request, and whatever is in the workspace, the broker lets nothing through that is not within
the policy. -/
theorem checks_policy {broker : Broker} {request : TestRequest} {authorization : Option String}
    (h : broker.checks request authorization = .ok ()) : WithinPolicy broker request := by
  obtain ⟨hvalid, -, hcommand, himage, workspace, dependencies, -, hdependencies, -, hshell⟩ := checks_ok_iff.mp h
  obtain ⟨chain, hchain, rfl⟩ := dependencyInstallCommand_fixed hdependencies
  refine ⟨hcommand, himage, ((isValid_iff request).mp hvalid).2.2.2.2.1, chain, hchain, hshell, ?_⟩
  intro commands hcommands
  rw [hshell]
  obtain ⟨program, hprogram⟩ := testShellCommand_parses hchain hcommands
  exact ⟨program, hprogram, fun σ exec s => testShellCommand_status exec hchain hcommands hprogram s⟩

/-! ## A runner and its broker -/

/-- A request of the runner is within the bounds of the broker. -/
structure Deliverable (settings : Settings) (token : Option String) (workspace command runtime : String) : Prop where
  runtime_known : runtime = "docker" ∨ runtime = "gvisor"
  token_set : stripped (token.getD "") ≠ "" ∧ isAscii (stripped (token.getD "")) = true
  workspace_bounded : TestRequest.isValid.bounded workspace 255 = true
  command_bounded : TestRequest.isValid.bounded command 255 = true
  command_ascii : isAscii command = true
  image_bounded : TestRequest.isValid.bounded (imageForCommand settings command) 255 = true
  timeout_bounded : 1 ≤ settings.sandboxTimeoutSeconds ∧ settings.sandboxTimeoutSeconds ≤ 3600

section Remote

variable {settings : Settings} {token : Option String} {broker : Broker} {path command runtime : String}
  {workspace : Manifests} {dependencies : Option String}

/-- The runner and the broker have the same settings and the same token, and the broker sees the workspace. -/
structure Paired (settings : Settings) (token : Option String) (loads : String → Option Json) (broker : Broker)
    (path : String) (workspace : Manifests) : Prop where
  settings_eq : broker.settings = settings
  token_eq : broker.brokerToken = token
  loads_eq : broker.loads = loads
  workspace_eq : broker.workspaces path = .ok workspace

theorem isValid_remote_iff {chain : List String} (hchain : chain ∈ [] :: installChains) :
    (remoteRequest settings path command (testShellCommand (joined chain) command) (imageForCommand settings command)
      runtime).isValid = true ↔
      TestRequest.isValid.bounded path 255 = true ∧ TestRequest.isValid.bounded command 255 = true ∧
        TestRequest.isValid.bounded (imageForCommand settings command) 255 = true ∧
          (runtime = "docker" ∨ runtime = "gvisor") ∧
            1 ≤ settings.sandboxTimeoutSeconds ∧ settings.sandboxTimeoutSeconds ≤ 3600 := by
  have hshell (h : TestRequest.isValid.bounded command 255 = true) :
      TestRequest.isValid.bounded (testShellCommand (joined chain) command) 4096 = true := by
    obtain ⟨hle, hmost, -⟩ := testShellCommand_fits hchain command
    simp only [TestRequest.isValid.bounded, Bool.and_eq_true, decide_eq_true_eq] at h ⊢
    omega
  rw [isValid_iff]
  constructor
  · rintro ⟨hpath, hcommand, -, himage, hruntime, htimeout⟩
    exact ⟨hpath, hcommand, himage, hruntime, htimeout⟩
  · rintro ⟨hpath, hcommand, himage, hruntime, htimeout⟩
    exact ⟨hpath, hcommand, hshell hcommand, himage, hruntime, htimeout⟩

/-- The request that a runner makes of an allowed command is let through within the bounds, and only there. -/
theorem checks_remote_iff {loads : String → Option Json} (hpaired : Paired settings token loads broker path workspace)
    (hcommand : command ∈ settings.allowedTestCommands)
    (hdependencies : dependencyInstallCommand loads workspace command = .ok dependencies) :
    broker.checks (remoteRequest settings path command (testShellCommand dependencies command)
      (imageForCommand settings command) runtime) (some (bearer token)) = .ok () ↔
      Deliverable settings token path command runtime := by
  obtain ⟨chain, hchain, rfl⟩ := dependencyInstallCommand_fixed hdependencies
  have hascii := (testShellCommand_fits hchain command).2.2
  rw [checks_ok_iff, hpaired.settings_eq, hpaired.token_eq, hpaired.loads_eq, isValid_remote_iff hchain,
    requireToken_bearer_iff]
  constructor
  · rintro ⟨⟨hpath, hbounded, himage, hruntime, htimeout⟩, htoken, -, -, -, -, -, -, hshell, -⟩
    exact ⟨hruntime, htoken, hpath, hbounded, hascii.symm.trans hshell, himage, htimeout⟩
  · intro h
    exact ⟨⟨h.workspace_bounded, h.command_bounded, h.image_bounded, h.runtime_known, h.timeout_bounded⟩, h.token_set,
      hcommand, rfl, workspace, _, hpaired.workspace_eq, hdependencies, hascii.trans h.command_ascii, rfl⟩

end Remote

def remoteSettings : Settings := { sampleSettings with sandboxExecutionBrokerUrl := some "http://broker:8080" }

/-- A broker that shows every workspace without files; its plane says that the tests failed. -/
def sampleBroker : Broker where
  settings := remoteSettings
  brokerToken := some "token"
  planeBackend := "kubernetes"
  loads _ := none
  workspaces _ := .ok emptyWorkspace
  plane _ := .ok ⟨false, 1, "", "1 failed", false, "kubernetes"⟩

theorem sample_paired : Paired remoteSettings (some "token") (fun _ => none) sampleBroker "run" emptyWorkspace :=
  ⟨rfl, rfl, rfl, rfl⟩

theorem sample_deliverable : Deliverable remoteSettings (some "token") "run" "npm test" "docker" where
  runtime_known := .inl rfl
  token_set := by decide
  workspace_bounded := by decide
  command_bounded := by decide
  command_ascii := by decide
  image_bounded := by decide
  timeout_bounded := by decide

theorem sample_policy :
    WithinPolicy sampleBroker ⟨"run", "npm test", "npm test", "node:20-alpine", "docker", 120⟩ := by
  have hnone : dependencyInstallCommand (fun _ => none) emptyWorkspace "npm test" = .ok none := rfl
  have hchecks := (checks_remote_iff sample_paired (by decide) hnone).mpr sample_deliverable
  exact checks_policy hchecks

end CodeMate.Sandbox.Runner
