import CodeMate.Operations.Circuit
import Mathlib.Logic.Basic

/-!
# What closes a circuit

Executions that are admitted report the success or the failure of their calls
later, when the circuit may be in another state (`World`, `executions`). The
report of a success does not say which execution it is of, and it closes every
circuit that is not open by hand: in `late_success` one that was admitted before
the circuit opened closes it. `closed_by_evidence` says what holds where, while
the circuit is not closed, only its trial reports a success (`TrialOnly`).
-/

namespace CodeMate.Operations

open Framework

/-- An execution that was admitted, and how often the circuit had opened by then. -/
structure Admission where
  executionId : ExecutionId
  openings : Nat
deriving DecidableEq

structure World where
  row : Option MCPServerHealth
  /-- The executions that were admitted and have not ended. -/
  inFlight : List Admission
  /-- How often the circuit has opened. -/
  openings : Nat

/-- `drop` is the end of an execution without a report: a quota refused the
call, or the worker was lost. -/
inductive Event
  | registerServers (url : Option String)
  | letIn (executionId : ExecutionId) (now : Nat)
  | succeed (a : Admission) (now : Nat)
  | fail (a : Admission) (error : String) (now : Nat)
  | drop (a : Admission)
  | probe (result : ProbeResult) (now : Nat)
  | control (action : Action) (expectedVersion : Nat) (now : Nat)

def Event.operation : Event → Option Operation
  | .registerServers url => some (.registerServers url)
  | .letIn executionId now => some (.beforeExecution executionId now)
  | .succeed _ now => some (.recordTransportSuccess now)
  | .fail _ error now => some (.recordTransportFailure error now)
  | .drop _ => none
  | .probe result now => some (.recordProbe result now)
  | .control action expectedVersion now => some (.controlCircuit action expectedVersion now)

/-- The execution that ends with an event. -/
def Event.ends : Event → Option Admission
  | .succeed a _ | .fail a _ _ | .drop a => some a
  | .registerServers _ | .letIn .. | .probe .. | .control .. => none

def isOpen (row : Option MCPServerHealth) : Bool := row.any fun health => health.circuitState = .open

section Step

variable (s : Settings) (serverName : String)

/-- The executions in flight after an event. -/
def World.inFlightAfter (w : World) : Event → List Admission
  | .letIn executionId now =>
    match (beforeExecution s (lockedOrCreate serverName w.row) now executionId.value).1 with
    | .ok () => ⟨executionId, w.openings⟩ :: w.inFlight
    | .error _ => w.inFlight
  | e => e.ends.elim w.inFlight w.inFlight.erase

def step (w : World) (e : Event) : Option World :=
  if e.ends.all (· ∈ w.inFlight) then
    let row := e.operation.elim w.row (transact s serverName w.row)
    some {
      row
      inFlight := w.inFlightAfter s serverName e
      openings := if isOpen row ∧ ¬ isOpen w.row then w.openings + 1 else w.openings }
  else none

/-- The executions on a server that has no row at the start. -/
def executions : System World Event := .ofStep (· = ⟨none, [], 0⟩) (step s serverName)

end Step

/-- The success is that of the trial, which was admitted after the circuit opened. -/
def OfTrial (w : World) (health : MCPServerHealth) (a : Admission) : Prop :=
  health.circuitState = .halfOpen ∧ health.halfOpenTrialId = some a.executionId.value ∧ a.openings = w.openings

instance (w : World) (health : MCPServerHealth) (a : Admission) : Decidable (OfTrial w health a) :=
  inferInstanceAs (Decidable (_ ∧ _))

/-- While the circuit is not closed, nor open by hand, no success is reported but that of its trial. -/
def TrialOnly (w : World) : Event → Prop
  | .succeed a _ => ∀ health ∈ w.row, health.circuitState = .closed ∨ health.manualOpen = true ∨ OfTrial w health a
  | _ => True

instance (w : World) : (e : Event) → Decidable (TrialOnly w e)
  | .succeed a _ => inferInstanceAs (Decidable
      (∀ health ∈ w.row, health.circuitState = .closed ∨ health.manualOpen = true ∨ OfTrial w health a))
  | .registerServers _ | .letIn .. | .fail .. | .drop _ | .probe .. | .control .. => isTrue trivial

section Evidence

variable {s : Settings} {serverName : String} {w w' : World} {e : Event} {health health' : MCPServerHealth}

/-- What may close a circuit. -/
def Evidence (w : World) (health : MCPServerHealth) : Event → Prop
  | .succeed a _ => a ∈ w.inFlight ∧ OfTrial w health a
  | .probe (.ok _) _ => True
  | .control _ _ _ => True
  | _ => False

/-- What may take a circuit out of the open state: the admission of a trial
after the cooldown, a successful probe, or an operator. -/
def Leaves (w' : World) (health health' : MCPServerHealth) : Event → Prop
  | .letIn executionId now => (∃ cooldown, health.cooldownUntil = some cooldown ∧ cooldown ≤ now) ∧
      health'.circuitState = .halfOpen ∧ health'.halfOpenTrialId = some executionId.value ∧
      ⟨executionId, w'.openings⟩ ∈ w'.inFlight
  | .probe (.ok _) _ => True
  | .control _ _ _ => True
  | _ => False

theorem recordFailure_state (s : Settings) (health : MCPServerHealth) (now : Nat) (error : String) :
    (recordFailure s health now error).circuitState = health.circuitState ∨
      (recordFailure s health now error).circuitState = .open := by
  unfold recordFailure
  dsimp only
  split
  · exact .inr rfl
  · exact .inl rfl

theorem recordTransportFailure_state (s : Settings) (health : MCPServerHealth) (now : Nat) (error : String) :
    (recordTransportFailure s health now error).circuitState = health.circuitState ∨
      (recordTransportFailure s health now error).circuitState = .open :=
  recordFailure_state s { health with totalTransportFailures := health.totalTransportFailures + 1 } now error

theorem recordProbe_state (s : Settings) (health : MCPServerHealth) (now : Nat) (error : Option String) :
    (recordProbe s health now (.error error)).circuitState = health.circuitState ∨
      (recordProbe s health now (.error error)).circuitState = .open :=
  recordFailure_state s { health with
    totalProbes := health.totalProbes + 1
    lastProbeAt := some now
    failedProbes := health.failedProbes + 1
    lastProbeStatus := .unhealthy } now _

/-- A success closes every circuit that is not open by hand. -/
theorem recordTransportSuccess_state (health : MCPServerHealth) (now : Nat) :
    (recordTransportSuccess health now).circuitState =
      if health.manualOpen then health.circuitState else .closed := by
  unfold recordTransportSuccess closeUnlessManual
  dsimp only
  split <;> rfl

theorem step_row (h : step s serverName w e = some w') :
    w'.row = e.operation.elim w.row (transact s serverName w.row) ∧ w'.inFlight = w.inFlightAfter s serverName e ∧
      (∀ a, e.ends = some a → a ∈ w.inFlight) ∧ (isOpen w.row = true → w'.openings = w.openings) := by
  unfold step at h
  split at h
  · next hends =>
    obtain rfl := Option.some.inj h
    refine ⟨rfl, rfl, fun a ha => ?_, fun hopen => if_neg fun hnot => hnot.2 hopen⟩
    rw [ha] at hends
    exact of_decide_eq_true hends
  · cases h

/-- An admission leaves the state of the circuit, or makes the execution its trial. -/
theorem beforeExecution_state (s : Settings) (health : MCPServerHealth) (now : Nat) (id : String) :
    (beforeExecution s health now id).2.circuitState = health.circuitState ∨
      (beforeExecution s health now id).1 = .ok () ∧ rejects s health now id = false ∧
        s.circuitBreakerEnabled = true ∧ health.circuitState ≠ .closed ∧
        (beforeExecution s health now id).2.circuitState = .halfOpen ∧
        (beforeExecution s health now id).2.halfOpenTrialId = some id := by
  unfold beforeExecution
  split
  · exact .inl rfl
  · next hnot =>
    unfold admitTrial
    split
    · next hlet => exact .inr ⟨rfl, by simpa using hnot, hlet.1, hlet.2, rfl, rfl⟩
    · exact .inl rfl

/-- The cooldown of an open circuit that lets an execution in has passed. -/
theorem cooldown_of_admitted {now : Nat} {id : String} (hopen : health.circuitState = .open)
    (he : s.circuitBreakerEnabled = true) (h : rejects s health now id = false) :
    ∃ cooldown, health.cooldownUntil = some cooldown ∧ cooldown ≤ now := by
  rw [rejects, he, hopen, Bool.true_and] at h
  obtain ⟨_, hall⟩ := Bool.or_eq_false_iff.mp h
  cases hc : health.cooldownUntil with
  | none => rw [hc] at hall; cases hall
  | some cooldown =>
    rw [hc] at hall
    exact ⟨cooldown, rfl, Nat.le_of_not_lt (of_decide_eq_false hall)⟩

/-- A circuit is closed by a step on evidence. -/
theorem closes (hok : TrialOnly w e) (h : step s serverName w e = some w') (hr : w.row = some health)
    (hr' : w'.row = some health') (hs : health.circuitState ≠ .closed) (hc : health'.circuitState = .closed) :
    Evidence w health e := by
  obtain ⟨hrow, _, hends, _⟩ := step_row h
  rw [hr, hr'] at hrow
  have hsame (heq : health'.circuitState = health.circuitState) : Evidence w health e :=
    absurd (heq.symm.trans hc) hs
  have hmay (hst : health'.circuitState = health.circuitState ∨ health'.circuitState = .open) : Evidence w health e := by
    rcases hst with hst | hst
    · exact hsame hst
    · rw [hst] at hc; cases hc
  cases e with
  | registerServers url => obtain rfl := Option.some.inj hrow; exact hsame rfl
  | letIn executionId now =>
    obtain rfl := Option.some.inj hrow
    rcases beforeExecution_state s health now executionId.value with hst | ⟨_, _, _, _, hst, _⟩
    · exact hsame hst
    · exact absurd (hst.symm.trans hc) (by decide)
  | succeed a now =>
    obtain rfl := Option.some.inj hrow
    refine ⟨hends a rfl, ?_⟩
    rcases hok health hr with hclosed | hmanual | htrial
    · exact absurd hclosed hs
    · exact absurd (((recordTransportSuccess_state health now).trans (if_pos hmanual)).symm.trans hc) hs
    · exact htrial
  | fail a error now => obtain rfl := Option.some.inj hrow; exact hmay (recordTransportFailure_state s health now error)
  | drop a => obtain rfl := Option.some.inj hrow; exact hsame rfl
  | probe result now =>
    cases result with
    | ok found => trivial
    | error error => obtain rfl := Option.some.inj hrow; exact hmay (recordProbe_state s health now error)
  | control action expectedVersion now => trivial

/-- An open circuit is taken out of the open state by a trial, a successful probe or an operator. -/
theorem leaves (hok : TrialOnly w e) (h : step s serverName w e = some w') (hr : w.row = some health)
    (hr' : w'.row = some health') (hs : health.circuitState = .open) (hc : health'.circuitState ≠ .open) :
    Leaves w' health health' e := by
  obtain ⟨hrow, hflight, _, hopenings⟩ := step_row h
  have hopenings := hopenings (by simp [isOpen, hr, hs])
  rw [hr, hr'] at hrow
  have hsame (heq : health'.circuitState = health.circuitState) : Leaves w' health health' e :=
    absurd (heq.trans hs) hc
  have hmay (hst : health'.circuitState = health.circuitState ∨ health'.circuitState = .open) : Leaves w' health health' e := by
    rcases hst with hst | hst
    · exact hsame hst
    · exact absurd hst hc
  cases e with
  | registerServers url => obtain rfl := Option.some.inj hrow; exact hsame rfl
  | letIn executionId now =>
    obtain rfl := Option.some.inj hrow
    rcases beforeExecution_state s health now executionId.value with hst | ⟨hlet, hnot, he, _, hst, htrial⟩
    · exact hsame hst
    · refine ⟨cooldown_of_admitted hs he hnot, hst, htrial, ?_⟩
      have hin : w'.inFlight = ⟨executionId, w.openings⟩ :: w.inFlight := by
        rw [hflight, World.inFlightAfter, hr]
        show (match (beforeExecution s health now executionId.value).1 with
          | .ok () => _
          | .error _ => _) = _
        rw [hlet]
      rw [hin, hopenings]
      exact List.mem_cons_self
  | succeed a now =>
    obtain rfl := Option.some.inj hrow
    rcases hok health hr with hclosed | hmanual | ⟨htrial, _⟩
    · rw [hs] at hclosed; cases hclosed
    · exact hsame ((recordTransportSuccess_state health now).trans (if_pos hmanual))
    · rw [hs] at htrial; cases htrial
  | fail a error now => obtain rfl := Option.some.inj hrow; exact hmay (recordTransportFailure_state s health now error)
  | drop a => obtain rfl := Option.some.inj hrow; exact hsame rfl
  | probe result now =>
    cases result with
    | ok found => trivial
    | error error => obtain rfl := Option.some.inj hrow; exact hmay (recordProbe_state s health now error)
  | control action expectedVersion now => trivial

theorem step_some (h : step s serverName w e = some w') (hr : w.row = some health) : ∃ health', w'.row = some health' := by
  rw [(step_row h).1, hr]
  cases e <;> exact ⟨_, rfl⟩

variable {es : List Event}

/-- Where only the trial of a circuit that is not closed reports a success, a
run that closes the circuit has a step that closes it on evidence: a success of
the trial, which was admitted after the circuit opened, a successful probe, or an
operator. A run that takes it out of the open state has a step that admits a
trial after the cooldown, or one of the other two. -/
theorem closed_by_evidence (hrun : ((executions s serverName).only TrialOnly).Run w es w')
    (hr : w.row = some health) (hr' : w'.row = some health') :
    (health.circuitState ≠ .closed → health'.circuitState = .closed →
      ∃ es₁ e es₂ u u' before after, es = es₁ ++ e :: es₂ ∧ ((executions s serverName).only TrialOnly).Run w es₁ u ∧
        (executions s serverName).step u e u' ∧ u.row = some before ∧ u'.row = some after ∧
        before.circuitState ≠ .closed ∧ after.circuitState = .closed ∧ Evidence u before e) ∧
    (health.circuitState = .open → health'.circuitState ≠ .open →
      ∃ es₁ e es₂ u u' before after, es = es₁ ++ e :: es₂ ∧ ((executions s serverName).only TrialOnly).Run w es₁ u ∧
        (executions s serverName).step u e u' ∧ u.row = some before ∧ u'.row = some after ∧
        before.circuitState = .open ∧ after.circuitState ≠ .open ∧ Leaves u' before after e) := by
  have hcross (P : MCPServerHealth → Prop) (hP : P health) (hP' : ¬ P health') :
      ∃ es₁ e es₂ u u' before after, es = es₁ ++ e :: es₂ ∧ ((executions s serverName).only TrialOnly).Run w es₁ u ∧
        (TrialOnly u e ∧ step s serverName u e = some u') ∧ u.row = some before ∧ u'.row = some after ∧
        P before ∧ ¬ P after := by
    obtain ⟨es₁, e, es₂, u, u', rfl, h₁, ⟨before, hu, hbefore⟩, he, hnot, _⟩ := hrun.crossing
      (P := fun u => ∃ before, u.row = some before ∧ P before) ⟨health, hr, hP⟩ fun ⟨health₁, h₁, hP₁⟩ =>
        hP' (Option.some.inj (hr'.symm.trans h₁) ▸ hP₁)
    obtain ⟨after, hu'⟩ := step_some he.2 hu
    exact ⟨es₁, e, es₂, u, u', before, after, rfl, h₁, he, hu, hu', hbefore, fun hP => hnot ⟨after, hu', hP⟩⟩
  refine ⟨fun hs hc => ?_, fun hs hc => ?_⟩
  · obtain ⟨es₁, e, es₂, u, u', before, after, hes, h₁, he, hu, hu', hbefore, hafter⟩ :=
      hcross (·.circuitState ≠ .closed) hs (not_not_intro hc)
    have hclosed : after.circuitState = .closed := not_not.mp hafter
    exact ⟨es₁, e, es₂, u, u', before, after, hes, h₁, he.2, hu, hu', hbefore, hclosed,
      closes he.1 he.2 hu hu' hbefore hclosed⟩
  · obtain ⟨es₁, e, es₂, u, u', before, after, hes, h₁, he, hu, hu', hbefore, hafter⟩ :=
      hcross (·.circuitState = .open) hs hc
    exact ⟨es₁, e, es₂, u, u', before, after, hes, h₁, he.2, hu, hu', hbefore, hafter,
      leaves he.1 he.2 hu hu' hbefore hafter⟩

end Evidence

namespace Sample

/-- Two executions are admitted, and the failure of the second opens the circuit. -/
def opened : List Event :=
  [.letIn (executionId 1) 0, .letIn (executionId 2) 0, .fail ⟨executionId 2, 0⟩ "timeout" (seconds 1)]

/-- The first execution succeeds. -/
def late : Event := .succeed ⟨executionId 1, 0⟩ (seconds 2)

/-- The first execution ends without a report, and a trial succeeds after the cooldown. -/
def recovered : List Event :=
  [.drop ⟨executionId 1, 0⟩, .letIn (executionId 3) (seconds 61), .succeed ⟨executionId 3, 1⟩ (seconds 62)]

structure View where
  state : CircuitState
  manual : Bool
  cooldownUntil : Option Nat
deriving DecidableEq

def view (w : World) : Option View :=
  w.row.map fun health => ⟨health.circuitState, health.manualOpen, health.cooldownUntil⟩

end Sample

/-- A success that is reported late, by an execution that was admitted before the
circuit opened, closes it during the cooldown. -/
theorem late_success : ∃ w w' : World, (executions Sample.settings "docs").Reachable w ∧
    (executions Sample.settings "docs").step w Sample.late w' ∧ w.openings = 1 ∧
    Sample.view w = some ⟨.open, false, some (seconds 61)⟩ ∧ Sample.view w' = some ⟨.closed, false, none⟩ := by
  have hrun : (Sample.opened.foldlM (step Sample.settings "docs") ⟨none, [], 0⟩).bind (fun w =>
      (step Sample.settings "docs" w Sample.late).map fun w' => (w.openings, [Sample.view w, Sample.view w'])) =
        some (1, [some ⟨.open, false, some (seconds 61)⟩, some ⟨.closed, false, none⟩]) := by
    decide +kernel
  obtain ⟨w, hw, hrest⟩ := Option.bind_eq_some_iff.mp hrun
  obtain ⟨w', hw', hends⟩ := Option.map_eq_some_iff.mp hrest
  obtain ⟨hopenings, hstates⟩ := Prod.mk.inj hends
  obtain ⟨hstate, hstates⟩ := List.cons.inj hstates
  exact ⟨w, w', ⟨_, _, rfl, .of_foldlM hw⟩, hw', hopenings, hstate, (List.cons.inj hstates).1⟩

/-- The circuit that a trial closes is closed by a step on evidence. -/
theorem closed_by_evidence_sample : ∃ es₁ e es₂ u before, Sample.recovered = es₁ ++ e :: es₂ ∧
    u.row = some before ∧ before.circuitState ≠ .closed ∧ Evidence u before e := by
  have hrun : (Sample.opened.foldlM (step Sample.settings "docs") ⟨none, [], 0⟩).bind (fun w =>
      (Sample.recovered.foldlM (fun w e => if TrialOnly w e then step Sample.settings "docs" w e else none) w).map
        fun w' => (w.row.map (·.circuitState), w'.row.map (·.circuitState))) = some (some .open, some .closed) := by
    decide +kernel
  obtain ⟨w, _, hrest⟩ := Option.bind_eq_some_iff.mp hrun
  obtain ⟨w', hw', hends⟩ := Option.map_eq_some_iff.mp hrest
  obtain ⟨hopen, hclosed⟩ := Prod.mk.inj hends
  obtain ⟨health, hr, hs⟩ := Option.map_eq_some_iff.mp hopen
  obtain ⟨health', hr', hc⟩ := Option.map_eq_some_iff.mp hclosed
  obtain ⟨es₁, e, es₂, u, _, before, _, hes, _, _, hu, _, hne, _, hevidence⟩ :=
    (closed_by_evidence (s := Sample.settings) (System.Run.only_of_foldlM hw') hr hr').1 (by rw [hs]; decide) hc
  exact ⟨es₁, e, es₂, u, before, hes, hu, hne, hevidence⟩

end CodeMate.Operations
