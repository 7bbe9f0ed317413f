import CodeMate.Framework.Text
import CodeMate.Sandbox.Handlers

/-!
# The settings of the execution plane's server

`validateExecutionPlaneServerConfig` goes through its checks in order and
raises the text of the first that fails. A server only starts with settings
that pass (`ServerSettings`); `retention_covers_grace` is what the check of the
retention gives, and `leaseSeconds_le_iff` when the record of a request is kept
as long as its lease runs.
-/

namespace CodeMate.Sandbox

open Framework

/-- The settings that the validation reads. -/
structure PlaneSettings where
  appEnv : String := "development"
  redisUrl : String := ""
  sandboxExecutionPlaneBackend : String := "firecracker"
  sandboxWorkloadIdentityPublicKeyPath : Option String := none
  sandboxExecutionStateBackend : String := "memory"
  sandboxExecutionStateRedisUrl : Option String := none
  sandboxExecutionStateRetentionSeconds : ℤ := 86400
  sandboxExecutionLeaseGraceSeconds : ℤ := 60
  sandboxSupplyChainEnabled : Bool := false
  sandboxSupplyChainPublicKeyPath : Option String := none
  sandboxSupplyChainCertificateIdentityRegexp : Option String := none
  sandboxSupplyChainCertificateOidcIssuer : Option String := none
  sandboxSupplyChainRequireSlsa : Bool := true
  sandboxSupplyChainSlsaSource : Option String := none
  sandboxFirecrackerRootfsPath : Option String := none
  sandboxFirecrackerRootfsBundlePath : Option String := none
  sandboxFirecrackerRootfsSha256 : Option String := none
  sandboxNodeAttestationEnabled : Bool := false
  sandboxNodeAttestationPublicKeyPath : Option String := none
  sandboxNodeAttestationDocumentPath : Option String := none
  sandboxNodeAttestationVerifierCommandJson : Option String := none
  sandboxNodeAttestationExpectedNodeId : Option String := none
  sandboxNodeAttestationAllowedMeasurements : String := ""
  sandboxNodeAttestationVerifierTimeoutSeconds : ℤ := 15

namespace PlaneSettings

/-- `(value or "").strip()` is not empty. -/
def filled (value : Option String) : Bool := Text.strip (value.getD "").toList ≠ []

/-- The truth of a text or `None`. -/
def given (value : Option String) : Bool := value.getD "" ≠ ""

/-- A part of a comma-separated list is not blank. -/
def listed (values : String) : Bool := (values.toList.splitOn ',').any fun part => Text.strip part ≠ []

variable (lower : String → String) (settings : PlaneSettings)

/-- `value.strip().lower()`. -/
def normalized (value : String) : String := lower (String.ofList (Text.strip value.toList))

def backend : String := normalized lower settings.sandboxExecutionPlaneBackend

def stateBackend : String := normalized lower settings.sandboxExecutionStateBackend

def secureEnv : Bool := normalized lower settings.appEnv ∈ ["staging", "production"]

/-- `minimum_retention`. -/
def minimumRetention : ℤ := 3600 + settings.sandboxExecutionLeaseGraceSeconds

/-- The checks of the stores: when each fails, and the text it raises. -/
def stateChecks (requireWorkloadPublicKey : Bool) : List (Bool × String) :=
  [(settings.backend lower ∉ ["firecracker", "kubernetes"],
      "SANDBOX_EXECUTION_PLANE_BACKEND must be firecracker or kubernetes."),
    (requireWorkloadPublicKey ∧ ¬ filled settings.sandboxWorkloadIdentityPublicKeyPath,
      "SANDBOX_WORKLOAD_IDENTITY_PUBLIC_KEY_PATH is required."),
    (settings.stateBackend lower ∉ ["memory", "redis"], "SANDBOX_EXECUTION_STATE_BACKEND must be memory or redis."),
    (settings.secureEnv lower ∧ settings.stateBackend lower ≠ "redis",
      "SANDBOX_EXECUTION_STATE_BACKEND must be redis in staging and production."),
    (settings.stateBackend lower = "redis" ∧
        ¬ (given settings.sandboxExecutionStateRedisUrl ∨ settings.redisUrl ≠ ""),
      "A Redis URL is required for shared sandbox execution state."),
    (settings.sandboxExecutionStateRetentionSeconds < settings.minimumRetention,
      "SANDBOX_EXECUTION_STATE_RETENTION_SECONDS must cover the maximum execution lease."),
    (settings.secureEnv lower ∧ ¬ settings.sandboxSupplyChainEnabled,
      "SANDBOX_SUPPLY_CHAIN_ENABLED must be true in staging and production."),
    (settings.secureEnv lower ∧ ¬ settings.sandboxNodeAttestationEnabled,
      "SANDBOX_NODE_ATTESTATION_ENABLED must be true in staging and production.")]

/-- The checks under `if self.sandbox_supply_chain_enabled`. -/
def supplyChainChecks : List (Bool × String) :=
  [(¬ filled settings.sandboxSupplyChainPublicKeyPath ∧
        ¬ (given settings.sandboxSupplyChainCertificateIdentityRegexp ∧
          given settings.sandboxSupplyChainCertificateOidcIssuer),
      "Sandbox supply-chain verification requires a Cosign public key or keyless identity policy."),
    (settings.sandboxSupplyChainRequireSlsa ∧ ¬ filled settings.sandboxSupplyChainSlsaSource,
      "SANDBOX_SUPPLY_CHAIN_SLSA_SOURCE is required."),
    (settings.backend lower = "firecracker" ∧
        ¬ (given settings.sandboxFirecrackerRootfsPath ∧ given settings.sandboxFirecrackerRootfsBundlePath ∧
          given settings.sandboxFirecrackerRootfsSha256),
      "Firecracker supply-chain verification requires rootfs path, bundle and SHA-256.")]

/-- The checks under `if self.sandbox_node_attestation_enabled`. -/
def attestationChecks : List (Bool × String) :=
  [(¬ filled settings.sandboxNodeAttestationPublicKeyPath,
      "A node attestation authority public key path is required."),
    (¬ (filled settings.sandboxNodeAttestationDocumentPath ∨
        filled settings.sandboxNodeAttestationVerifierCommandJson),
      "A node attestation document or verifier command is required."),
    (¬ filled settings.sandboxNodeAttestationExpectedNodeId,
      "SANDBOX_NODE_ATTESTATION_EXPECTED_NODE_ID is required."),
    (¬ listed settings.sandboxNodeAttestationAllowedMeasurements,
      "A node attestation measurement allowlist is required."),
    (settings.sandboxNodeAttestationVerifierTimeoutSeconds < 1,
      "SANDBOX_NODE_ATTESTATION_VERIFIER_TIMEOUT_SECONDS must be at least 1."),
    (settings.secureEnv lower ∧ ¬ filled settings.sandboxNodeAttestationVerifierCommandJson,
      "Challenge-response node attestation is required in staging and production.")]

def checks (requireWorkloadPublicKey : Bool) : List (Bool × String) :=
  settings.stateChecks lower requireWorkloadPublicKey ++
    (if settings.sandboxSupplyChainEnabled then settings.supplyChainChecks lower else []) ++
    if settings.sandboxNodeAttestationEnabled then settings.attestationChecks lower else []

/-- `validate_execution_plane_server_config`: the text of the first check that fails. -/
def validateExecutionPlaneServerConfig (requireWorkloadPublicKey : Bool := true) : Except String Unit :=
  match (settings.checks lower requireWorkloadPublicKey).find? (·.1) with
  | some (_, text) => .error text
  | none => .ok ()

variable {lower settings}

/-- No check of an accepted configuration fails. -/
theorem check_passes {requireWorkloadPublicKey : Bool}
    (h : settings.validateExecutionPlaneServerConfig lower requireWorkloadPublicKey = .ok ()) {check : Bool × String}
    (hmem : check ∈ settings.checks lower requireWorkloadPublicKey) : check.1 = false := by
  rw [validateExecutionPlaneServerConfig] at h
  split at h
  · cases h
  · next hnone => simpa using List.find?_eq_none.mp hnone check hmem

theorem stateCheck_passes {requireWorkloadPublicKey : Bool}
    (h : settings.validateExecutionPlaneServerConfig lower requireWorkloadPublicKey = .ok ()) {check : Bool × String}
    (hmem : check ∈ settings.stateChecks lower requireWorkloadPublicKey) : check.1 = false :=
  check_passes h (List.mem_append_left _ (List.mem_append_left _ hmem))

end PlaneSettings

/-- Settings that the server started with, with or without the key of the broker. -/
structure ServerSettings (lower : String → String) extends PlaneSettings where
  requireWorkloadPublicKey : Bool := true
  accepted : toPlaneSettings.validateExecutionPlaneServerConfig lower requireWorkloadPublicKey = .ok ()

namespace ServerSettings

variable {lower : String → String} (settings : ServerSettings lower)

theorem retention_covers_grace :
    3600 + settings.sandboxExecutionLeaseGraceSeconds ≤ settings.sandboxExecutionStateRetentionSeconds := by
  have hmem : (decide (settings.sandboxExecutionStateRetentionSeconds < settings.minimumRetention),
      "SANDBOX_EXECUTION_STATE_RETENTION_SECONDS must cover the maximum execution lease.") ∈
      settings.stateChecks lower settings.requireWorkloadPublicKey := by simp [PlaneSettings.stateChecks]
  have h := of_decide_eq_false (PlaneSettings.stateCheck_passes settings.accepted hmem)
  rw [PlaneSettings.minimumRetention] at h
  omega

theorem stateBackend_cases : settings.stateBackend lower = "memory" ∨ settings.stateBackend lower = "redis" := by
  have hmem : (decide (settings.stateBackend lower ∉ ["memory", "redis"]),
      "SANDBOX_EXECUTION_STATE_BACKEND must be memory or redis.") ∈
      settings.stateChecks lower settings.requireWorkloadPublicKey := by simp [PlaneSettings.stateChecks]
  simpa using not_not.mp (of_decide_eq_false (PlaneSettings.stateCheck_passes settings.accepted hmem))

/-- `request.timeout_seconds + max(10, settings.sandbox_execution_lease_grace_seconds)`. -/
def leaseSeconds (request : ExecutionRequest) : ℤ :=
  request.timeoutSeconds + max 10 settings.sandboxExecutionLeaseGraceSeconds

/-- How long the record of an execution is kept; a store in memory keeps it for good. -/
def recordRetention : Option ℤ :=
  if settings.stateBackend lower = "redis" then some settings.sandboxExecutionStateRetentionSeconds else none

/-- The grace is no less than what the lease adds at least, or the retention makes up for it. -/
def Covers (request : ExecutionRequest) : Prop :=
  settings.stateBackend lower = "memory" ∨ 10 ≤ settings.sandboxExecutionLeaseGraceSeconds ∨
    request.timeoutSeconds + 10 ≤ settings.sandboxExecutionStateRetentionSeconds

/-- The record is kept as long as the lease runs exactly when the settings cover the request. -/
theorem leaseSeconds_le_iff (request : ExecutionRequest) :
    (∀ retention, settings.recordRetention = some retention → settings.leaseSeconds request ≤ retention) ↔
      settings.Covers request := by
  have hgrace := settings.retention_covers_grace
  have htimeout := request.timeoutSeconds_le
  rw [recordRetention, leaseSeconds, Covers]
  rcases settings.stateBackend_cases with h | h
  · simp [h]
  · simp only [h, if_true, Option.some.injEq, forall_eq', String.reduceEq, false_or]
    omega

end ServerSettings

end CodeMate.Sandbox
