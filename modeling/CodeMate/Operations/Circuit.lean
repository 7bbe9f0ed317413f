import CodeMate.Framework.Json
import CodeMate.Framework.Run

/-!
# The circuit of an MCP server

The health row of a server with its circuit breaker. Each operation locks the
row, which the first one creates, changes it and commits (`transact`); `circuit`
is the system of all sequences of them. `transact_version` says that every
change of the row but that of the public URL gives it a new version, and
`consistent` that the fields of the circuit agree in every reachable row.
-/

namespace CodeMate.Operations

open Framework

inductive CircuitState
  | closed
  | open
  | halfOpen
deriving DecidableEq, Repr

inductive ProbeStatus
  | unknown
  | healthy
  | unhealthy
deriving DecidableEq, Repr

structure Settings where
  circuitBreakerEnabled : Bool := true
  failureThreshold : Nat := 3
  cooldownSeconds : Nat := 60
  halfOpenLeaseSeconds : Nat := 30

/-- The id of an execution, which is the text of a UUID. -/
structure ExecutionId where
  value : String
  nonempty : value ≠ ""
deriving DecidableEq

/-- A row of `mcp_server_health`; times are in microseconds. -/
structure MCPServerHealth where
  serverName : String
  publicUrl : Option String := none
  circuitState : CircuitState := .closed
  manualOpen : Bool := false
  consecutiveFailures : Nat := 0
  totalRequests : Nat := 0
  totalTransportSuccesses : Nat := 0
  totalTransportFailures : Nat := 0
  circuitRejections : Nat := 0
  circuitOpenCount : Nat := 0
  totalProbes : Nat := 0
  failedProbes : Nat := 0
  lastProbeStatus : ProbeStatus := .unknown
  lastProbeAt : Option Nat := none
  lastSuccessAt : Option Nat := none
  lastFailureAt : Option Nat := none
  lastError : Option String := none
  protocolVersion : Option String := none
  serverInfoJson : Option Json := none
  openedAt : Option Nat := none
  cooldownUntil : Option Nat := none
  halfOpenTrialId : Option String := none
  halfOpenLeaseExpiresAt : Option Nat := none
  version : Nat := 1

def seconds (n : Nat) : Nat := n * 1000000

/-- The threshold, which is at least one. -/
def Settings.threshold (s : Settings) : Nat := max 1 s.failureThreshold

inductive Action
  | open
  | close
  | reset
deriving DecidableEq

inductive OperationsError
  | circuitOpen (serverName : String) (retryAfterSeconds : Option Nat)
  | versionConflict
  | notFound
deriving DecidableEq

/-- What a health probe found: the version and the information of the server, or
the text of an exception if one is given. -/
abbrev ProbeResult := Except (Option String) (Option String × Option Json)

section Operations

variable (s : Settings) (health : MCPServerHealth) (now : Nat)

/-- `_close_circuit`. -/
def closeCircuit : MCPServerHealth :=
  { health with
    circuitState := .closed
    consecutiveFailures := 0
    openedAt := none
    cooldownUntil := none
    halfOpenTrialId := none
    halfOpenLeaseExpiresAt := none }

/-- `if not health.manual_open: self._close_circuit(health)`. -/
def closeUnlessManual : MCPServerHealth := if health.manualOpen then health else closeCircuit health

/-- `_open_circuit`. -/
def openCircuit (manual : Bool) : MCPServerHealth :=
  { health with
    circuitOpenCount := if health.circuitState ≠ .open then health.circuitOpenCount + 1 else health.circuitOpenCount
    circuitState := .open
    manualOpen := manual
    openedAt := some now
    cooldownUntil := if manual then none else some (now + seconds (max 1 s.cooldownSeconds))
    halfOpenTrialId := none
    halfOpenLeaseExpiresAt := none }

/-- `_record_failure`. -/
def recordFailure (error : String) : MCPServerHealth :=
  let health := { health with
    consecutiveFailures := health.consecutiveFailures + 1
    lastFailureAt := some now
    lastError := some (String.ofList (error.toList.take 4000)) }
  if s.circuitBreakerEnabled ∧ (health.circuitState = .halfOpen ∨ s.threshold ≤ health.consecutiveFailures) ∧
      ¬ health.manualOpen then
    openCircuit s health now false
  else health

/-- `register_servers`, for one server; it leaves the version. -/
def registerServer (url : Option String) : MCPServerHealth := { health with publicUrl := url }

/-- The seconds until the end of the cooldown, rounded up. -/
def retryAfterSeconds : Option Nat := health.cooldownUntil.map fun t => (t - now + 999999) / 1000000

/-- Whether the circuit keeps an execution from its server. -/
def rejects (executionId : String) : Bool :=
  s.circuitBreakerEnabled && match health.circuitState with
    | .open => health.manualOpen || health.cooldownUntil.all (now < ·)
    | .halfOpen =>
      health.halfOpenTrialId.any (fun trial => trial ≠ "" ∧ trial ≠ executionId) &&
        health.halfOpenLeaseExpiresAt.any (now < ·)
    | .closed => false

/-- The execution becomes the trial of a circuit that is not closed. -/
def admitTrial (executionId : String) : MCPServerHealth :=
  if s.circuitBreakerEnabled ∧ health.circuitState ≠ .closed then
    { health with
      circuitState := .halfOpen
      halfOpenTrialId := some executionId
      halfOpenLeaseExpiresAt := some (now + seconds (max 1 s.halfOpenLeaseSeconds)) }
  else health

/-- `before_execution`: the row after it, and whether it raised. -/
def beforeExecution (executionId : String) : Except OperationsError Unit × MCPServerHealth :=
  if rejects s health now executionId then
    (.error (.circuitOpen health.serverName (retryAfterSeconds health now)),
      { health with circuitRejections := health.circuitRejections + 1, version := health.version + 1 })
  else
    let health := admitTrial s health now executionId
    (.ok (), { health with totalRequests := health.totalRequests + 1, version := health.version + 1 })

def recordTransportSuccess : MCPServerHealth :=
  let health := closeUnlessManual { health with
    totalTransportSuccesses := health.totalTransportSuccesses + 1
    consecutiveFailures := 0
    lastSuccessAt := some now
    lastError := none }
  { health with version := health.version + 1 }

def recordTransportFailure (error : String) : MCPServerHealth :=
  let health := recordFailure s { health with totalTransportFailures := health.totalTransportFailures + 1 } now error
  { health with version := health.version + 1 }

def recordProbe (result : ProbeResult) : MCPServerHealth :=
  let health := { health with totalProbes := health.totalProbes + 1, lastProbeAt := some now }
  let health := match result with
    | .ok (protocolVersion, serverInfo) =>
      closeUnlessManual { health with
        lastProbeStatus := .healthy
        lastSuccessAt := some now
        consecutiveFailures := 0
        lastError := none
        protocolVersion
        serverInfoJson := serverInfo }
    | .error error =>
      recordFailure s { health with failedProbes := health.failedProbes + 1, lastProbeStatus := .unhealthy } now
        (error.getD "Health probe failed")
  { health with version := health.version + 1 }

/-- What the action of an operator sets. -/
def controlled (action : Action) : MCPServerHealth :=
  match action with
  | .open => openCircuit s health now true
  | .close => closeCircuit { health with manualOpen := false }
  | .reset => { closeCircuit { health with manualOpen := false } with
      totalRequests := 0
      totalTransportSuccesses := 0
      totalTransportFailures := 0
      circuitRejections := 0
      circuitOpenCount := 0
      totalProbes := 0
      failedProbes := 0 }

def controlCircuit (action : Action) (expectedVersion : Nat) : Except OperationsError MCPServerHealth :=
  if health.version ≠ expectedVersion then .error .versionConflict
  else .ok { controlled s health now action with version := health.version + 1 }

end Operations

/-- An operation on the row of a server. -/
inductive Operation
  | registerServers (url : Option String)
  | beforeExecution (executionId : ExecutionId) (now : Nat)
  | recordTransportSuccess (now : Nat)
  | recordTransportFailure (error : String) (now : Nat)
  | recordProbe (result : ProbeResult) (now : Nat)
  | controlCircuit (action : Action) (expectedVersion : Nat) (now : Nat)

/-- `_locked_or_create`. -/
def lockedOrCreate (serverName : String) (row : Option MCPServerHealth) : MCPServerHealth := row.getD { serverName }

/-- The row that an operation commits. -/
def transact (s : Settings) (serverName : String) (row : Option MCPServerHealth) : Operation → Option MCPServerHealth
  | .registerServers url => some (registerServer (lockedOrCreate serverName row) url)
  | .beforeExecution executionId now =>
    some (beforeExecution s (lockedOrCreate serverName row) now executionId.value).2
  | .recordTransportSuccess now => some (recordTransportSuccess (lockedOrCreate serverName row) now)
  | .recordTransportFailure error now => some (recordTransportFailure s (lockedOrCreate serverName row) now error)
  | .recordProbe result now => some (recordProbe s (lockedOrCreate serverName row) now result)
  | .controlCircuit action expectedVersion now =>
    row.map fun health => match controlCircuit s health now action expectedVersion with
      | .ok health => health
      | .error _ => health

/-- The circuit of a server, which has no row at the start. -/
def circuit (s : Settings) (serverName : String) : System (Option MCPServerHealth) Operation :=
  .ofStep (· = none) fun row op => some (transact s serverName row op)

/-! ## The fields of the circuit -/

section Consistent

variable {s : Settings} {serverName : String} {row : Option MCPServerHealth} {health health' : MCPServerHealth}
  {op : Operation} {now : Nat}

variable (s) in
/-- The fields of the circuit agree. -/
structure Consistent (health : MCPServerHealth) : Prop where
  manual : health.manualOpen = true → health.circuitState = .open ∧ health.cooldownUntil = none
  idle : health.circuitState ≠ .halfOpen → health.halfOpenTrialId = none ∧ health.halfOpenLeaseExpiresAt = none
  trial : health.circuitState = .halfOpen →
    (∃ id, health.halfOpenTrialId = some id ∧ id ≠ "") ∧ health.halfOpenLeaseExpiresAt.isSome
  below : health.circuitState = .closed → health.consecutiveFailures < s.threshold

theorem Settings.threshold_pos (s : Settings) : 0 < s.threshold := Nat.lt_of_lt_of_le Nat.one_pos (Nat.le_max_left 1 _)

/-- Two rows with the same circuit, and no failure more in the second. -/
structure SameCircuit (a b : MCPServerHealth) : Prop where
  circuitState : b.circuitState = a.circuitState
  manualOpen : b.manualOpen = a.manualOpen
  consecutiveFailures : b.consecutiveFailures ≤ a.consecutiveFailures
  cooldownUntil : b.cooldownUntil = a.cooldownUntil
  halfOpenTrialId : b.halfOpenTrialId = a.halfOpenTrialId
  halfOpenLeaseExpiresAt : b.halfOpenLeaseExpiresAt = a.halfOpenLeaseExpiresAt

theorem Consistent.same (h : Consistent s health) (hs : SameCircuit health health') : Consistent s health' := by
  obtain ⟨h₁, h₂, h₃, h₄, h₅, h₆⟩ := hs
  refine ⟨?_, ?_, ?_, ?_⟩
  · rw [h₁, h₂, h₄]; exact h.manual
  · rw [h₁, h₅, h₆]; exact h.idle
  · rw [h₁, h₅, h₆]; exact h.trial
  · rw [h₁]; exact fun hclosed => Nat.lt_of_le_of_lt h₃ (h.below hclosed)

theorem Consistent.create : Consistent s { serverName } where
  manual h := by cases h
  idle _ := ⟨rfl, rfl⟩
  trial h := by cases h
  below _ := s.threshold_pos

theorem Consistent.close (h : health.manualOpen = false) : Consistent s (closeCircuit health) where
  manual hm := by
    have hm : health.manualOpen = true := hm
    rw [h] at hm
    cases hm
  idle _ := ⟨rfl, rfl⟩
  trial h := by cases h
  below _ := s.threshold_pos

variable (s health now) in
theorem Consistent.opened (manual : Bool) : Consistent s (openCircuit s health now manual) where
  manual hm := ⟨rfl, if_pos hm⟩
  idle _ := ⟨rfl, rfl⟩
  trial h := by cases h
  below h := by cases h

variable (health now) in
theorem Consistent.control (action : Action) : Consistent s (controlled s health now action) := by
  cases action with
  | «open» => exact .opened _ _ _ true
  | close => exact .close rfl
  | reset => exact Consistent.same (.close rfl) ⟨rfl, rfl, Nat.le_refl _, rfl, rfl, rfl⟩

/-- A failure opens the circuit, or is counted below the threshold. -/
theorem Consistent.failure (he : s.circuitBreakerEnabled = true) (h : Consistent s health) (error : String) :
    Consistent s (recordFailure s health now error) := by
  unfold recordFailure
  dsimp only
  split
  · exact .opened _ _ _ false
  · next hnot =>
    refine ⟨h.manual, h.idle, h.trial, fun hclosed => ?_⟩
    have hclosed : health.circuitState = .closed := hclosed
    refine Nat.lt_of_not_le fun hle => hnot ⟨he, .inr hle, fun hmanual => ?_⟩
    have hopen := (h.manual hmanual).1
    rw [hclosed] at hopen
    cases hopen

theorem Consistent.success (h : Consistent s health) :
    Consistent s (closeUnlessManual health) := by
  unfold closeUnlessManual
  split
  · exact h
  · next hm => exact .close (by simpa using hm)

/-- Only a circuit that is not open by hand admits a trial. -/
theorem Consistent.admitted (he : s.circuitBreakerEnabled = true) (h : Consistent s health) {id : String} (hid : id ≠ "")
    (hlet : rejects s health now id = false) : Consistent s (admitTrial s health now id) := by
  unfold admitTrial
  split
  · next hnot =>
    have hmanual : health.manualOpen = false := by
      refine Bool.eq_false_iff.mpr fun hm => ?_
      rw [rejects, he, (h.manual hm).1, hm] at hlet
      cases hlet
    refine ⟨fun hm => ?_, fun hs => absurd rfl hs, fun _ => ⟨⟨id, rfl, hid⟩, rfl⟩, fun hs => by cases hs⟩
    have hm : health.manualOpen = true := hm
    rw [hmanual] at hm
    cases hm
  · exact h

/-- Every operation keeps the circuit consistent. -/
theorem Consistent.step (he : s.circuitBreakerEnabled = true) (h : ∀ health, row = some health → Consistent s health)
    (ht : transact s serverName row op = some health') : Consistent s health' := by
  have hrow : Consistent s (lockedOrCreate serverName row) := by
    cases row with
    | none => exact .create
    | some health => exact h health rfl
  cases op with
  | registerServers url =>
    obtain rfl := Option.some.inj ht
    exact hrow.same ⟨rfl, rfl, Nat.le_refl _, rfl, rfl, rfl⟩
  | beforeExecution executionId now =>
    obtain rfl := Option.some.inj ht
    unfold beforeExecution
    split
    · exact hrow.same ⟨rfl, rfl, Nat.le_refl _, rfl, rfl, rfl⟩
    · next hlet =>
      have hlet := hrow.admitted he executionId.nonempty (Bool.eq_false_iff.mpr hlet)
      exact hlet.same ⟨rfl, rfl, Nat.le_refl _, rfl, rfl, rfl⟩
  | recordTransportSuccess now =>
    obtain rfl := Option.some.inj ht
    refine Consistent.same (Consistent.success (hrow.same ?_)) ⟨rfl, rfl, Nat.le_refl _, rfl, rfl, rfl⟩
    exact ⟨rfl, rfl, Nat.zero_le _, rfl, rfl, rfl⟩
  | recordTransportFailure error now =>
    obtain rfl := Option.some.inj ht
    refine Consistent.same (Consistent.failure he (hrow.same ?_) error) ⟨rfl, rfl, Nat.le_refl _, rfl, rfl, rfl⟩
    exact ⟨rfl, rfl, Nat.le_refl _, rfl, rfl, rfl⟩
  | recordProbe result now =>
    obtain rfl := Option.some.inj ht
    unfold recordProbe
    cases result with
    | ok found =>
      refine Consistent.same (Consistent.success (hrow.same ?_)) ⟨rfl, rfl, Nat.le_refl _, rfl, rfl, rfl⟩
      exact ⟨rfl, rfl, Nat.zero_le _, rfl, rfl, rfl⟩
    | error error =>
      refine Consistent.same (Consistent.failure he (hrow.same ?_) _) ⟨rfl, rfl, Nat.le_refl _, rfl, rfl, rfl⟩
      exact ⟨rfl, rfl, Nat.le_refl _, rfl, rfl, rfl⟩
  | controlCircuit action expectedVersion now =>
    obtain ⟨health, rfl, rfl⟩ := Option.map_eq_some_iff.mp ht
    have hrow := h health rfl
    unfold controlCircuit
    by_cases hv : health.version = expectedVersion
    · rw [if_neg (not_not_intro hv)]
      exact (Consistent.control health now action).same ⟨rfl, rfl, Nat.le_refl _, rfl, rfl, rfl⟩
    · rw [if_pos hv]
      exact hrow

theorem consistent (he : s.circuitBreakerEnabled = true) (serverName : String) :
    (circuit s serverName).Inductive fun row => ∀ health, row = some health → Consistent s health where
  start h health hrow := by
    have h : _ = none := h
    rw [h] at hrow
    cases hrow
  step h hstep health hrow := by
    have hstep := Option.some.inj hstep
    exact Consistent.step he h (hstep.trans hrow)

/-! ## What an operation changes -/

variable (s health now) in
theorem recordFailure_version (error : String) : (recordFailure s health now error).version = health.version := by
  unfold recordFailure
  dsimp only
  split <;> rfl

variable (s health now) in
theorem controlled_version (action : Action) : (controlled s health now action).version = health.version := by
  cases action <;> rfl

variable (health) in
theorem closeUnlessManual_version : (closeUnlessManual health).version = health.version := by
  unfold closeUnlessManual
  split <;> rfl

/-- A row is given a new version, or keeps all but its public URL. -/
theorem transact_version (ht : transact s serverName (some health) op = some health') :
    health.version < health'.version ∨ health' = { health with publicUrl := health'.publicUrl } := by
  cases op with
  | registerServers url => obtain rfl := Option.some.inj ht; exact .inr rfl
  | beforeExecution executionId now =>
    obtain rfl := Option.some.inj ht
    refine .inl ?_
    unfold beforeExecution admitTrial
    repeat (first | split | exact Nat.lt_succ_self _)
  | recordTransportSuccess now =>
    obtain rfl := Option.some.inj ht
    refine .inl ?_
    show health.version < (closeUnlessManual _).version + 1
    rw [closeUnlessManual_version]
    exact Nat.lt_succ_self _
  | recordTransportFailure error now =>
    obtain rfl := Option.some.inj ht
    refine .inl ?_
    show health.version < (recordFailure s _ now error).version + 1
    rw [recordFailure_version]
    exact Nat.lt_succ_self _
  | recordProbe result now =>
    obtain rfl := Option.some.inj ht
    refine .inl ?_
    cases result with
    | ok found =>
      show health.version < (closeUnlessManual _).version + 1
      rw [closeUnlessManual_version]
      exact Nat.lt_succ_self _
    | error error =>
      show health.version < (recordFailure s _ now _).version + 1
      rw [recordFailure_version]
      exact Nat.lt_succ_self _
  | controlCircuit action expectedVersion now =>
    rw [transact, Option.map_some] at ht
    obtain rfl := Option.some.inj ht
    unfold controlCircuit
    by_cases hv : health.version = expectedVersion
    · rw [if_neg (not_not_intro hv)]
      exact .inl (Nat.lt_succ_self _)
    · rw [if_pos hv]
      exact .inr rfl

variable (s health now) in
theorem recordFailure_manual (error : String) (hm : health.manualOpen = true) :
    (recordFailure s health now error).manualOpen = true := by
  unfold recordFailure
  dsimp only
  split
  · next hnot => exact absurd hm hnot.2.2
  · exact hm

variable (health) in
theorem closeUnlessManual_manual (hm : health.manualOpen = true) : (closeUnlessManual health).manualOpen = true := by
  rw [closeUnlessManual, if_pos hm]
  exact hm

/-- A circuit that was opened by hand stays so until it is closed or reset by hand. -/
theorem transact_manual (ht : transact s serverName (some health) op = some health') (hm : health.manualOpen = true) :
    health'.manualOpen = true ∨ ∃ action expectedVersion now,
      op = .controlCircuit action expectedVersion now ∧ (action = .close ∨ action = .reset) := by
  cases op with
  | registerServers url => obtain rfl := Option.some.inj ht; exact .inl hm
  | beforeExecution executionId now =>
    obtain rfl := Option.some.inj ht
    refine .inl ?_
    unfold beforeExecution admitTrial
    repeat (first | split | exact hm)
  | recordTransportSuccess now => obtain rfl := Option.some.inj ht; exact .inl (closeUnlessManual_manual _ hm)
  | recordTransportFailure error now => obtain rfl := Option.some.inj ht; exact .inl (recordFailure_manual s _ now error hm)
  | recordProbe result now =>
    obtain rfl := Option.some.inj ht
    cases result with
    | ok found => exact .inl (closeUnlessManual_manual _ hm)
    | error error => exact .inl (recordFailure_manual s _ now _ hm)
  | controlCircuit action expectedVersion now =>
    rw [transact, Option.map_some] at ht
    obtain rfl := Option.some.inj ht
    cases action with
    | «open» =>
      refine .inl ?_
      unfold controlCircuit
      by_cases hv : health.version = expectedVersion
      · rw [if_neg (not_not_intro hv)]; rfl
      · rw [if_pos hv]; exact hm
    | close => exact .inr ⟨.close, expectedVersion, now, rfl, .inl rfl⟩
    | reset => exact .inr ⟨.reset, expectedVersion, now, rfl, .inr rfl⟩

/-- While the lease of a trial runs, no other execution is admitted. -/
theorem Consistent.admits (he : s.circuitBreakerEnabled = true) (h : Consistent s health) {id : String}
    (hs : health.circuitState = .halfOpen) {lease : Nat} (hl : health.halfOpenLeaseExpiresAt = some lease)
    (hlt : now < lease) (hok : (beforeExecution s health now id).1 = .ok ()) : health.halfOpenTrialId = some id := by
  obtain ⟨⟨trial, ht, hne⟩, _⟩ := h.trial hs
  rw [ht]
  unfold beforeExecution at hok
  split at hok
  · cases hok
  · next hnot =>
    by_cases heq : trial = id
    · rw [heq]
    · refine absurd ?_ hnot
      simp [rejects, he, hs, ht, hl, hlt, hne, heq]

/-- In every reachable row the fields of the circuit agree; every operation
gives the row a new version or changes only its public URL, and leaves a circuit
that was opened by hand open unless it closes or resets it by hand; and a
running trial keeps all other executions out. -/
theorem circuit_consistent (he : s.circuitBreakerEnabled = true)
    (hr : (circuit s serverName).Reachable (some health)) :
    Consistent s health ∧
    (∀ op health', (circuit s serverName).step (some health) op (some health') →
      health.version ≤ health'.version ∧
      (health'.version = health.version → health' = { health with publicUrl := health'.publicUrl }) ∧
      (health.manualOpen = true → health'.manualOpen = true ∨ ∃ action expectedVersion now,
        op = .controlCircuit action expectedVersion now ∧ (action = .close ∨ action = .reset))) ∧
    ∀ id now lease, health.circuitState = .halfOpen → health.halfOpenLeaseExpiresAt = some lease → now < lease →
      (beforeExecution s health now id).1 = .ok () → health.halfOpenTrialId = some id := by
  have hc : Consistent s health := (consistent he serverName).reachable hr health rfl
  refine ⟨hc, fun op health' hstep => ?_, fun id now lease hs hl hlt hok => hc.admits he hs hl hlt hok⟩
  have ht : transact s serverName (some health) op = some health' := Option.some.inj hstep
  refine ⟨?_, fun hv => ?_, transact_manual ht⟩ <;> rcases transact_version ht with hlt | heq
  · omega
  · have hsame : health'.version = health.version := by rw [heq]
    omega
  · omega
  · exact heq

end Consistent

namespace Sample

def settings : Settings := { failureThreshold := 1 }

def executionId (n : Nat) : ExecutionId := ⟨String.ofList (List.replicate (n + 1) 'e'), by simp [← String.toList_inj]⟩

/-- The circuit opens, and an execution is admitted after the cooldown. -/
def trial : List Operation :=
  [.recordTransportFailure "timeout" 0, .beforeExecution (executionId 1) (seconds 61)]

end Sample

/-- The trial of the circuit keeps out every other execution a second later. -/
theorem circuit_consistent_sample : ∃ health : MCPServerHealth, health.circuitState = .halfOpen ∧
    Consistent Sample.settings health ∧
    ∀ id, (beforeExecution Sample.settings health (seconds 62) id).1 = .ok () →
      health.halfOpenTrialId = some id := by
  have hrun : (Sample.trial.foldlM (fun row op => some (transact Sample.settings "docs" row op)) none).bind
      (fun row => row.map fun health => (health.circuitState, health.halfOpenLeaseExpiresAt)) =
        some (.halfOpen, some (seconds 91)) := by
    decide +kernel
  obtain ⟨row, hrow, hends⟩ := Option.bind_eq_some_iff.mp hrun
  obtain ⟨health, rfl, hstate⟩ := Option.map_eq_some_iff.mp hends
  obtain ⟨hs, hl⟩ := Prod.mk.inj hstate
  have hreach : (circuit Sample.settings "docs").Reachable (some health) := ⟨none, _, rfl, .of_foldlM hrow⟩
  obtain ⟨hc, _, hlets⟩ := circuit_consistent rfl hreach
  exact ⟨health, hs, hc, fun id hok => hlets id _ _ hs hl (by decide) hok⟩

end CodeMate.Operations
