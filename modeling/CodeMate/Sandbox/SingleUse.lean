import CodeMate.Sandbox.Handlers
import CodeMate.Sandbox.ExecutionLease

/-!
# An assertion starts at most one command

A claim starts a command exactly when the use of its assertion is forgotten and
the execution is vacant (`SingleUse.acquires`, for both stores). A use is
remembered until the assertion expires (`remembered_until_expiry`), but the
assertion is accepted for five seconds more: `assertions_single_use` is what
holds as long as no used assertion finds a vacant execution in that time, and
`assertion_used_twice` a run in which one does.
-/

namespace CodeMate.Sandbox

open Framework

/-- What a claim can do: `acquired` when it starts a command, and the uses of
assertions that are noted before and after it. -/
structure SingleUse (B : ExecutionStateStore) where
  /-- The use of the assertion is not noted, or it is over. -/
  forgotten : B.State → String → (read clock : ℚ) → Prop
  /-- The execution is not there, or it is that of the request and its lease is over. -/
  vacant : B.State → ClaimRequest → (read clock : ℚ) → Prop
  /-- A use of the assertion is noted, which ends then. -/
  noted : B.State → String → ℚ → Prop
  acquires {s : B.State} {request : ClaimRequest} {read clock : ℚ} {response : Option ExecutionResponse} {attempt : Nat} :
    (B.claim s request read clock).1 = some ⟨.acquired, response, attempt⟩ →
      forgotten s request.assertionJti read clock ∧ vacant s request read clock
  starts {s : B.State} {request : ClaimRequest} {read clock : ℚ} :
    forgotten s request.assertionJti read clock → vacant s request read clock →
      ∃ attempt, (B.claim s request read clock).1 = some { status := .acquired, attempt := attempt }
  notes {s : B.State} {request : ClaimRequest} {read clock : ℚ} : read ≤ clock →
    forgotten s request.assertionJti read clock → vacant s request read clock →
      ∃ ends, read + request.assertionTtl ≤ ends ∧ noted (B.claim s request read clock).2 request.assertionJti ends
  keeps {s : B.State} {request : ClaimRequest} {read clock ends : ℚ} {jti : String} : read ≤ clock → clock < ends →
    noted s jti ends → noted (B.claim s request read clock).2 jti ends
  keeps_complete {s : B.State} {request : CompleteRequest} {read clock ends : ℚ} {jti : String} :
    noted s jti ends → noted (B.complete s request read clock).2 jti ends
  remembers {s : B.State} {read clock ends : ℚ} {jti : String} : read ≤ clock → clock < ends →
    noted s jti ends → ¬ forgotten s jti read clock

namespace MemoryExecutionStateStore

variable {s : MemoryExecutionStateStore} {request : ClaimRequest} {now : ℚ}

/-- The use of the assertion is not noted, or it is over. -/
def Forgotten (s : MemoryExecutionStateStore) (jti : String) (now : ℚ) : Prop :=
  ∀ use, s.replays jti = some use → use.1 < now

/-- There is no row, or one of the same request that is running and whose lease is over. -/
def Vacant (s : MemoryExecutionStateStore) (request : ClaimRequest) (now : ℚ) : Prop :=
  ∀ row, s.executions request.executionId = some row →
    row.requestHash = request.requestHash ∧ row.state = .running ∧ row.leaseUntil ≤ now

/-- The use of the assertion is noted. -/
def used (s : MemoryExecutionStateStore) (request : ClaimRequest) (now : ℚ) : String → Option (ℚ × String) :=
  Function.update (s.purge now).replays request.assertionJti
    (some (now + request.assertionTtl, request.executionId))

theorem purge_none : (s.purge now).replays request.assertionJti = none ↔ s.Forgotten request.assertionJti now := by
  show (s.replays request.assertionJti).filter _ = none ↔ ∀ use, s.replays request.assertionJti = some use → use.1 < now
  cases s.replays request.assertionJti with
  | none => simp
  | some use => simp [Option.filter_eq_none_iff]

/-- A claim starts a command on a vacant execution, with the use of its assertion noted, when that was forgotten. -/
theorem claim_acquired (hforgotten : s.Forgotten request.assertionJti now) (hvacant : s.Vacant request now) :
    ∃ attempt, (s.claim request now).1 = { status := .acquired, attempt := attempt } ∧
      (s.claim request now).2.replays = s.used request now := by
  have hnone := purge_none.mpr hforgotten
  have hpurge : (s.purge now).executions = s.executions := purge_executions
  cases hrow : s.executions request.executionId with
  | none =>
    simp only [claim, useAssertion, acquire, hpurge, hrow, hnone]
    exact ⟨_, rfl, rfl⟩
  | some row =>
    obtain ⟨hhash, hstate, hlease⟩ := hvacant row hrow
    simp only [claim, useAssertion, acquire, hpurge, hrow, hnone, hstate, hhash, ne_eq, not_true_eq_false, if_false,
      if_neg (not_lt.mpr hlease)]
    exact ⟨_, rfl, rfl⟩

/-- Any other claim starts none, and notes at most a use that was forgotten. -/
theorem claim_refused (h : ¬ (s.Forgotten request.assertionJti now ∧ s.Vacant request now)) :
    (s.claim request now).1.status ≠ .acquired ∧ ((s.claim request now).2.replays = (s.purge now).replays ∨
      s.Forgotten request.assertionJti now ∧ (s.claim request now).2.replays = s.used request now) := by
  have hpurge : (s.purge now).executions = s.executions := purge_executions
  cases hrow : s.executions request.executionId with
  | none =>
    cases hused : (s.purge now).replays request.assertionJti with
    | none => exact absurd ⟨purge_none.mp hused, fun row hrow' => by cases hrow.symm.trans hrow'⟩ h
    | some use =>
      simp only [claim, hpurge, hrow, hused]
      exact ⟨by decide, .inl trivial⟩
  | some row =>
    by_cases hhash : row.requestHash = request.requestHash
    · cases hstate : row.state with
      | completed response =>
        simp only [claim, hpurge, hrow, hhash, hstate, ne_eq, not_true_eq_false, if_false]
        exact ⟨by decide, .inl trivial⟩
      | running =>
        cases hused : (s.purge now).replays request.assertionJti with
        | some use =>
          simp only [claim, hpurge, hrow, hhash, hstate, hused, ne_eq, not_true_eq_false, if_false]
          split
          · exact ⟨by simp, .inl rfl⟩
          · exact ⟨by simp, .inl rfl⟩
        | none =>
          have hforgotten := purge_none.mp hused
          have hlive : now < row.leaseUntil := by
            by_contra hover
            refine h ⟨hforgotten, fun row' hrow' => ?_⟩
            obtain rfl := Option.some.inj (hrow.symm.trans hrow')
            exact ⟨hhash, hstate, not_lt.mp hover⟩
          simp only [claim, useAssertion, hpurge, hrow, hhash, hstate, hused, hlive, ne_eq, not_true_eq_false, if_false,
            if_true]
          exact ⟨by simp, .inr ⟨hforgotten, rfl⟩⟩
    · simp only [claim, hpurge, hrow, ne_eq, hhash, not_false_eq_true, if_true]
      exact ⟨by decide, .inl trivial⟩

theorem purge_replays {jti : String} {ends : ℚ} {execution : String} (h : s.replays jti = some (ends, execution))
    (hlive : now ≤ ends) : (s.purge now).replays jti = some (ends, execution) := by
  show (s.replays jti).filter _ = _
  rw [h]
  simp [Option.filter, hlive]

/-- A use that is not over stays noted. -/
theorem claim_keeps {jti : String} {ends : ℚ} {execution : String} (h : s.replays jti = some (ends, execution))
    (hlive : now ≤ ends) : (s.claim request now).2.replays jti = some (ends, execution) := by
  have hother : s.Forgotten request.assertionJti now → s.used request now jti = some (ends, execution) := by
    intro hforgotten
    have hne : jti ≠ request.assertionJti := by
      rintro rfl
      exact absurd (hforgotten _ h) (not_lt.mpr hlive)
    show Function.update (s.purge now).replays request.assertionJti _ jti = _
    rw [Function.update_of_ne hne]
    exact purge_replays h hlive
  by_cases hboth : s.Forgotten request.assertionJti now ∧ s.Vacant request now
  · obtain ⟨attempt, -, hreplays⟩ := claim_acquired hboth.1 hboth.2
    rw [hreplays]
    exact hother hboth.1
  · obtain ⟨-, hreplays | ⟨hforgotten, hreplays⟩⟩ := claim_refused hboth
    · rw [hreplays]
      exact purge_replays h hlive
    · rw [hreplays]
      exact hother hforgotten

theorem complete_replays {request : CompleteRequest} : (s.complete request now).2.replays = s.replays := by
  unfold complete
  split
  · rfl
  · split
    · rfl
    · rfl

end MemoryExecutionStateStore

/-- The uses in the store in memory. -/
def memorySingleUse : SingleUse memory where
  forgotten s jti read _ := MemoryExecutionStateStore.Forgotten s jti read
  vacant s request read _ := MemoryExecutionStateStore.Vacant s request read
  noted s jti ends := ∃ execution, MemoryExecutionStateStore.replays s jti = some (ends, execution)
  acquires {s request read clock response attempt} h := by
    by_contra hnot
    have hstatus := (MemoryExecutionStateStore.claim_refused hnot).1
    have h : some (MemoryExecutionStateStore.claim s request read).1 = some ⟨.acquired, response, attempt⟩ := h
    rw [Option.some.inj h] at hstatus
    exact hstatus rfl
  starts {s request read clock} hforgotten hvacant := by
    obtain ⟨attempt, h, -⟩ := MemoryExecutionStateStore.claim_acquired hforgotten hvacant
    exact ⟨attempt, congrArg some h⟩
  notes {s request read clock} _ hforgotten hvacant := by
    obtain ⟨attempt, -, h⟩ := MemoryExecutionStateStore.claim_acquired hforgotten hvacant
    refine ⟨_, le_refl _, request.executionId, ?_⟩
    show (MemoryExecutionStateStore.claim s request read).2.replays request.assertionJti = _
    rw [h]
    exact Function.update_self ..
  keeps {s request read clock ends jti} hread hclock := by
    rintro ⟨execution, h⟩
    exact ⟨execution, MemoryExecutionStateStore.claim_keeps h (hread.trans hclock.le)⟩
  keeps_complete {s request read clock ends jti} := by
    rintro ⟨execution, h⟩
    exact ⟨execution, (congrFun MemoryExecutionStateStore.complete_replays jti).trans h⟩
  remembers {s read clock ends jti} hread hclock := by
    rintro ⟨execution, h⟩ hforgotten
    exact absurd (hforgotten _ h) (not_lt.mpr (hread.trans hclock.le))

namespace RedisServer

variable {serializer : Serializer} {retention : Int} {s : RedisServer} {request : ClaimRequest} {read clock : ℚ}

/-- The use of the assertion is not noted, or it is over. -/
def Forgotten (s : RedisServer) (jti : String) (clock : ℚ) : Prop := get clock (s.replays jti) = none

/-- The row of the execution, `{}` when there is none. -/
def hash (s : RedisServer) (clock : ℚ) (executionId : String) : RedisRow :=
  (get clock (s.executions executionId)).getD {}

/-- There is no row, or one of the same request that is running and whose lease is over. -/
def Vacant (s : RedisServer) (request : ClaimRequest) (read clock : ℚ) : Prop :=
  let row := s.hash clock request.executionId
  row.requestHash.any (· ≠ request.requestHash) = false ∧ row.state ≠ some .completed ∧
    (row.state = some .running → row.leaseUntil.getD 0 ≤ ⌊read⌋)

/-- The use of the assertion is noted. -/
def used (s : RedisServer) (request : ClaimRequest) (clock : ℚ) : String → Option (String × ℚ) :=
  Function.update s.replays request.assertionJti
    (some (request.executionId, clock + ((max 1 request.assertionTtl : Int) : ℚ)))

/-- A claim as it calls the script. -/
def script (s : RedisServer) (request : ClaimRequest) (read clock : ℚ) (retention : Int) :
    (ClaimStatus × Nat × String) × RedisServer :=
  s.claimScript clock request.assertionJti request.requestHash request.executionId request.owner
    (max 1 request.assertionTtl) ⌊read⌋ (⌊read⌋ + request.leaseSeconds) retention

theorem script_eq : s.script request read clock retention =
    if (s.hash clock request.executionId).requestHash.any (· ≠ request.requestHash) then ((.conflict, 0, ""), s)
    else if (s.hash clock request.executionId).state = some .completed then
      ((.cached, (s.hash clock request.executionId).attempt.getD 0,
        (s.hash clock request.executionId).response.getD ""), s)
    else s.leaseScript clock (s.hash clock request.executionId) request.assertionJti request.requestHash
      request.executionId request.owner (max 1 request.assertionTtl) ⌊read⌋ (⌊read⌋ + request.leaseSeconds)
      retention := rfl

/-- A claim starts a command on a vacant execution, with the use of its assertion noted, when that was forgotten. -/
theorem script_acquired (retention : Int) (hforgotten : s.Forgotten request.assertionJti clock) (hvacant : s.Vacant request read clock) :
    ∃ attempt, (s.script request read clock retention).1 = (.acquired, attempt, "") ∧
      (s.script request read clock retention).2.replays = s.used request clock := by
  obtain ⟨hhash, hstate, hlease⟩ := hvacant
  unfold Forgotten at hforgotten
  rw [script_eq, if_neg (by simpa using hhash), if_neg hstate]
  unfold leaseScript
  rw [hforgotten]
  dsimp only
  rw [if_neg fun hboth => absurd (hlease hboth.1) (not_le.mpr hboth.2)]
  exact ⟨_, rfl, rfl⟩

/-- Any other claim starts none, and notes at most a use that was forgotten. -/
theorem script_refused (retention : Int) (h : ¬ (s.Forgotten request.assertionJti clock ∧ s.Vacant request read clock)) :
    (s.script request read clock retention).1.1 ≠ .acquired ∧
      ((s.script request read clock retention).2.replays = s.replays ∨ s.Forgotten request.assertionJti clock ∧
        (s.script request read clock retention).2.replays = s.used request clock) := by
  rw [script_eq]
  split_ifs with hhash hstate
  · exact ⟨by simp, .inl rfl⟩
  · exact ⟨by simp, .inl rfl⟩
  · unfold leaseScript
    split
    · split
      · exact ⟨by simp, .inl rfl⟩
      · exact ⟨by simp, .inl rfl⟩
    · next hforgotten =>
      dsimp only
      split_ifs with hlive
      · exact ⟨by simp, .inr ⟨hforgotten, rfl⟩⟩
      · refine absurd ⟨hforgotten, by simpa using hhash, hstate, fun hrun => ?_⟩ h
        exact not_lt.mp fun hlt => hlive ⟨hrun, hlt⟩

theorem claim_status (serializer : Serializer) {answer : ExecutionClaim} (h : (s.claim serializer retention request read clock).1 = some answer) :
    answer.status = (s.script request read clock retention).1.1 := by
  have hclaim : (s.claim serializer retention request read clock).1 =
      if (s.script request read clock retention).1.2.2 = "" then
        some { status := (s.script request read clock retention).1.1
               attempt := (s.script request read clock retention).1.2.1 }
      else (serializer.load (s.script request read clock retention).1.2.2).map fun response =>
        { status := (s.script request read clock retention).1.1, response := some response
          attempt := (s.script request read clock retention).1.2.1 } := by
    unfold claim script
    dsimp only
    split
    · rfl
    · rfl
  rw [hclaim] at h
  split at h
  · rw [← Option.some.inj h]
  · obtain ⟨response, -, rfl⟩ := Option.map_eq_some_iff.mp h
    rfl

theorem claim_server (serializer : Serializer) : (s.claim serializer retention request read clock).2 =
    (s.script request read clock retention).2 := by
  unfold claim script
  dsimp only
  split
  · rfl
  · rfl

theorem claim_of_script (serializer : Serializer) {status : ClaimStatus} {attempt : Nat}
    (h : (s.script request read clock retention).1 = (status, attempt, "")) :
    (s.claim serializer retention request read clock).1 = some { status := status, attempt := attempt } :=
  congrArg Prod.fst (claim_eq_of_script (Prod.ext h rfl))

theorem get_of_live {α : Type} {a : α} {ends : ℚ} (h : clock < ends) : get clock (some (a, ends)) = some a := by
  simp [get, Option.filter, h]

/-- A use that is not over stays noted. -/
theorem claim_keeps {jti : String} {ends : ℚ} {execution : String} (h : s.replays jti = some (execution, ends))
    (hlive : clock < ends) :
    (s.claim serializer retention request read clock).2.replays jti = some (execution, ends) := by
  rw [claim_server]
  have hother : s.Forgotten request.assertionJti clock → s.used request clock jti = some (execution, ends) := by
    intro hforgotten
    have hne : jti ≠ request.assertionJti := by
      rintro rfl
      rw [Forgotten, h, get_of_live hlive] at hforgotten
      cases hforgotten
    rw [used, Function.update_of_ne hne]
    exact h
  by_cases hboth : s.Forgotten request.assertionJti clock ∧ s.Vacant request read clock
  · obtain ⟨attempt, -, hreplays⟩ := script_acquired retention hboth.1 hboth.2
    rw [hreplays]
    exact hother hboth.1
  · obtain ⟨-, hreplays | ⟨hforgotten, hreplays⟩⟩ := script_refused retention hboth
    · rw [hreplays]
      exact h
    · rw [hreplays]
      exact hother hforgotten

theorem complete_replays {request : CompleteRequest} :
    (s.complete serializer retention request read clock).2.replays = s.replays := by
  unfold complete completeScript
  dsimp only
  split_ifs <;> rfl

end RedisServer

/-- The uses in Redis. -/
def redisSingleUse (serializer : Serializer) (retention : Int) : SingleUse (redis serializer retention) where
  forgotten s jti _ clock := RedisServer.Forgotten s jti clock
  vacant s request read clock := RedisServer.Vacant s request read clock
  noted s jti ends := ∃ execution, RedisServer.replays s jti = some (execution, ends)
  acquires {s request read clock response attempt} h := by
    by_contra hnot
    have hstatus := (RedisServer.script_refused retention hnot).1
    exact hstatus (RedisServer.claim_status serializer h).symm
  starts {s request read clock} hforgotten hvacant := by
    obtain ⟨attempt, h, -⟩ := RedisServer.script_acquired retention hforgotten hvacant
    exact ⟨attempt, RedisServer.claim_of_script serializer h⟩
  notes {s request read clock} hread hforgotten hvacant := by
    obtain ⟨attempt, -, h⟩ := RedisServer.script_acquired retention hforgotten hvacant
    refine ⟨clock + ((max 1 request.assertionTtl : Int) : ℚ), ?_, request.executionId, ?_⟩
    · have hmax : (request.assertionTtl : ℚ) ≤ ((max 1 request.assertionTtl : Int) : ℚ) :=
        Int.cast_le.mpr (le_max_right _ _)
      exact add_le_add hread hmax
    · have hused := (congrArg RedisServer.replays (RedisServer.claim_server serializer)).trans h
      exact (congrFun hused request.assertionJti).trans (Function.update_self ..)
  keeps {s request read clock ends jti} _ hclock := by
    rintro ⟨execution, h⟩
    exact ⟨execution, RedisServer.claim_keeps h hclock⟩
  keeps_complete {s request read clock ends jti} := by
    rintro ⟨execution, h⟩
    exact ⟨execution, (congrFun RedisServer.complete_replays jti).trans h⟩
  remembers {s read clock ends jti} _ hclock := by
    rintro ⟨execution, h⟩ hforgotten
    have hget : RedisServer.get clock (RedisServer.replays s jti) = none := hforgotten
    rw [h, RedisServer.get_of_live hclock] at hget
    cases hget

/-- The uses in the store that the settings select. -/
def singleUse : (backend : StateBackend) → SingleUse (buildExecutionStateStore backend)
  | .memory => memorySingleUse
  | .redis serializer retention => redisSingleUse serializer retention

/-! ## What the handlers remember -/

namespace Handlers

variable {B : ExecutionStateStore} {plane : ExecutionPlane} {meets : String → String → Bool} {s t : Handlers B}

/-- The identifier of an assertion that was verified. -/
def jti (claims : AssertionClaims) : String := claims.jti.getD ""

/-- The use of an assertion that started a command is noted until the assertion expires. -/
structure Remembers (use : SingleUse B) (s : Handlers B) : Prop where
  timed : ∀ h handler ttl, s.handlers h = some handler → handler.stage = .timed ttl →
    ∃ exp, handler.claims.exp = some exp ∧ (exp : ℚ) ≤ s.clock + ttl
  asking : ∀ h handler ttl read, s.handlers h = some handler → handler.stage = .asking ttl read →
    read ≤ s.clock ∧ ∃ exp, handler.claims.exp = some exp ∧ (exp : ℚ) ≤ read + ttl
  started : ∀ claims ∈ s.started, ∃ exp, claims.exp = some exp ∧
    ((exp : ℚ) ≤ s.clock ∨ ∃ ends, (exp : ℚ) ≤ ends ∧ use.noted s.store (jti claims) ends)

variable {use : SingleUse B}

theorem Remembers.tick (hs : s.Remembers use) {now : ℚ} (hnow : s.clock ≤ now) :
    Remembers use { s with clock := now } where
  timed h handler ttl hhandler hstage := by
    obtain ⟨exp, hexp, hle⟩ := hs.timed h handler ttl hhandler hstage
    exact ⟨exp, hexp, hle.trans (add_le_add_left hnow _)⟩
  asking h handler ttl read hhandler hstage := by
    obtain ⟨hread, hexp⟩ := hs.asking h handler ttl read hhandler hstage
    exact ⟨hread.trans hnow, hexp⟩
  started claims hmem := by
    obtain ⟨exp, hexp, hle | hnoted⟩ := hs.started claims hmem
    · exact ⟨exp, hexp, .inl (hle.trans hnow)⟩
    · exact ⟨exp, hexp, .inr hnoted⟩

/-- A handler that enters a stage which meets what is asked of it. -/
theorem Remembers.enter (hs : s.Remembers use) {h : Nat} {handler : Handler} {stage : Stage}
    (htimed : ∀ ttl, stage = .timed ttl → ∃ exp, handler.claims.exp = some exp ∧ (exp : ℚ) ≤ s.clock + ttl)
    (hasking : ∀ ttl read, stage = .asking ttl read →
      read ≤ s.clock ∧ ∃ exp, handler.claims.exp = some exp ∧ (exp : ℚ) ≤ read + ttl) :
    (s.enter h handler stage).Remembers use where
  timed g handler' ttl hhandler hstage := by
    obtain ⟨rfl, rfl⟩ | ⟨-, hhandler⟩ := enter_handlers hhandler
    · exact htimed ttl hstage
    · exact hs.timed g handler' ttl hhandler hstage
  asking g handler' ttl read hhandler hstage := by
    obtain ⟨rfl, rfl⟩ | ⟨-, hhandler⟩ := enter_handlers hhandler
    · exact hasking ttl read hstage
    · exact hs.asking g handler' ttl read hhandler hstage
  started := hs.started

theorem Remembers.workspaces (hs : s.Remembers use) (workspaces : String → Contents) :
    Remembers use { s with workspaces := workspaces } := ⟨hs.timed, hs.asking, hs.started⟩

theorem Remembers.next (hs : s.Remembers use) {h : Nat} {handler : Handler} {stage : Stage}
    {workspaces : String → Contents} (hhandler : s.handlers h = some handler)
    (hnext : Next meets s h handler handler.stage stage workspaces) :
    (s.enter h handler stage).Remembers use := by
  generalize hfrom : handler.stage = from' at hnext
  refine hs.enter (fun ttl hstage => ?_) fun ttl read hstage => ?_
  · subst hstage
    cases hnext with
    | timed exp hexp =>
      refine ⟨exp, hexp, ?_⟩
      have hfloor : ((⌊s.clock⌋ : Int) : ℚ) ≤ s.clock := Int.floor_le s.clock
      have hmax : ((exp - ⌊s.clock⌋ : Int) : ℚ) ≤ ((max 1 (exp - ⌊s.clock⌋) : Int) : ℚ) :=
        Int.cast_le.mpr (le_max_right _ _)
      push_cast at hmax ⊢
      linarith
    | disturbed contents hway => cases hway
  · subst hstage
    cases hnext with
    | asking _ =>
      obtain ⟨exp, hexp, hle⟩ := hs.timed h handler ttl hhandler hfrom
      exact ⟨le_refl _, exp, hexp, hle⟩
    | disturbed contents hway => cases hway

/-- The claims of the requests that a handler makes. -/
def asks (plane : ExecutionPlane) (handler : Handler) (ttl : Int) : ClaimRequest :=
  plane.claimRequest handler.request handler.claims handler.owner ttl

/-- A claim carries out the call, notes the assertion when it starts a command, and the handler goes on. -/
theorem claim_cases (s : Handlers B) (plane : ExecutionPlane) (h : Nat) (handler : Handler) (ttl : Int) (read : ℚ)
    (again : Bool) : ∃ started stage, s.claim plane h handler ttl read again =
      (let s := { s with store := (B.claim s.store (asks plane handler ttl) read s.clock).2, started := started }
       if again then s else s.enter h handler stage) ∧
      (∀ ttl, stage ≠ .timed ttl) ∧ (∀ ttl read, stage ≠ .asking ttl read) ∧
      ((started = s.started ∧ stage = .ended ∧
          ∀ attempt response, (B.claim s.store (asks plane handler ttl) read s.clock).1 ≠ some ⟨.acquired, response, attempt⟩) ∨
        ∃ attempt response, started = handler.claims :: s.started ∧ stage = .removing attempt ∧
          (B.claim s.store (asks plane handler ttl) read s.clock).1 = some ⟨.acquired, response, attempt⟩) := by
  unfold claim
  dsimp only
  split
  · next response attempt hanswer =>
    refine ⟨handler.claims :: s.started, .removing attempt, rfl, nofun, nofun, .inr ⟨attempt, response, rfl, rfl, hanswer⟩⟩
  · next hanswer =>
    refine ⟨s.started, .ended, rfl, nofun, nofun, .inl ⟨rfl, rfl, fun attempt response h => ?_⟩⟩
    exact hanswer _ _ h

theorem Remembers.claim (hs : s.Remembers use) {h : Nat} {handler : Handler} {ttl : Int} {read : ℚ} {again : Bool}
    (hhandler : s.handlers h = some handler) (hstage : handler.stage = .asking ttl read) :
    (s.claim plane h handler ttl read again).Remembers use := by
  obtain ⟨hread, exp, hexp, hle⟩ := hs.asking h handler ttl read hhandler hstage
  obtain ⟨started, stage, heq, htimed, hasking, hstarted⟩ := claim_cases s plane h handler ttl read again
  have hkept : ∀ claims ∈ s.started, ∃ exp, claims.exp = some exp ∧ ((exp : ℚ) ≤ s.clock ∨ ∃ ends, (exp : ℚ) ≤ ends ∧
      use.noted (B.claim s.store (asks plane handler ttl) read s.clock).2 (jti claims) ends) := by
    intro claims hmem
    obtain ⟨exp, hexp, hover | ⟨ends, hends, hnoted⟩⟩ := hs.started claims hmem
    · exact ⟨exp, hexp, .inl hover⟩
    · rcases le_or_gt (exp : ℚ) s.clock with hover | hlive
      · exact ⟨exp, hexp, .inl hover⟩
      · exact ⟨exp, hexp, .inr ⟨ends, hends, use.keeps hread (hlive.trans_le hends) hnoted⟩⟩
  have hnow : Remembers use
      { s with store := (B.claim s.store (asks plane handler ttl) read s.clock).2, started := started } := by
    refine ⟨hs.timed, hs.asking, ?_⟩
    rcases hstarted with ⟨rfl, -, -⟩ | ⟨attempt, response, rfl, -, hanswer⟩
    · exact hkept
    · intro claims hmem
      rcases List.mem_cons.mp hmem with rfl | hmem
      · obtain ⟨hforgotten, hvacant⟩ := use.acquires hanswer
        obtain ⟨ends, hends, hnoted⟩ := use.notes hread hforgotten hvacant
        exact ⟨exp, hexp, .inr ⟨ends, hle.trans hends, hnoted⟩⟩
      · exact hkept claims hmem
  rw [heq]
  dsimp only
  split
  · exact hnow
  · exact hnow.enter (fun ttl' h => absurd h (htimed ttl')) fun ttl' read' h => absurd h (hasking ttl' read')

/-- A completion carries out the call, and the handler goes on. -/
theorem complete_cases (s : Handlers B) (plane : ExecutionPlane) (h : Nat) (handler : Handler) (attempt : Nat)
    (response : ExecutionResponse) (intact : Bool) (read : ℚ) (again : Bool) :
    ∃ committed, s.complete plane h handler attempt response intact read again =
      (let request := plane.completeRequest handler.request handler.owner attempt response
       let s := { s with store := (B.complete s.store request read s.clock).2, committed := committed }
       if again then s else s.enter h handler (.finishing attempt)) ∧
      (committed = s.committed ∨
        committed = ⟨h, plane.completeRequest handler.request handler.owner attempt response, intact⟩ :: s.committed) := by
  cases hcommitted : (B.complete s.store (plane.completeRequest handler.request handler.owner attempt response) read
    s.clock).1 with
  | true =>
    refine ⟨_, ?_, .inr rfl⟩
    unfold complete
    dsimp only
    rw [hcommitted, if_pos rfl]
  | false =>
    refine ⟨_, ?_, .inl rfl⟩
    unfold complete
    dsimp only
    rw [hcommitted, if_neg Bool.false_ne_true]

theorem Remembers.complete (hs : s.Remembers use) {h : Nat} {handler : Handler} {attempt : Nat}
    {response : ExecutionResponse} {intact : Bool} {read : ℚ} {again : Bool} :
    (s.complete plane h handler attempt response intact read again).Remembers use := by
  obtain ⟨committed, heq, -⟩ := complete_cases s plane h handler attempt response intact read again
  have hnow : Remembers use { s with
      store := (B.complete s.store (plane.completeRequest handler.request handler.owner attempt response) read s.clock).2
      committed := committed } := by
    refine ⟨hs.timed, hs.asking, fun claims hmem => ?_⟩
    obtain ⟨exp, hexp, hover | ⟨ends, hends, hnoted⟩⟩ := hs.started claims hmem
    · exact ⟨exp, hexp, .inl hover⟩
    · exact ⟨exp, hexp, .inr ⟨ends, hends, use.keeps_complete hnoted⟩⟩
  rw [heq]
  dsimp only
  split
  · exact hnow
  · exact hnow.enter nofun nofun

theorem remembers_move {e : HandlerEvent} (hs : s.Remembers use) (h : s.Move plane meets e t) : t.Remembers use := by
  cases h with
  | tick now hnow => exact hs.tick hnow
  | rejected => exact hs
  | present => exact hs.enter nofun nofun
  | next _ hhandler hnext => exact (hs.next hhandler hnext).workspaces _
  | claim again hhandler hstage => exact hs.claim hhandler hstage
  | complete again hhandler hstage => exact hs.complete

theorem remembers_inductive (use : SingleUse B) : (handling plane meets B).Inductive (Remembers use) where
  start := by
    rintro s ⟨hnone, hstarted, -⟩
    refine ⟨fun h handler ttl hhandler => ?_, fun h handler ttl read hhandler => ?_, fun claims hmem => ?_⟩
    · cases (hnone h).symm.trans hhandler
    · cases (hnone h).symm.trans hhandler
    · rw [hstarted] at hmem
      cases hmem
  step hs hstep := remembers_move hs (step_move hstep)

/-- While an assertion that started a command has not expired, no claim with it starts another. -/
theorem remembered_until_expiry (use : SingleUse B) (hs : (handling plane meets B).Reachable s)
    {claims : AssertionClaims} (hmem : claims ∈ s.started) {exp : Int} (hexp : claims.exp = some exp)
    (hlive : s.clock < exp) {read : ℚ} (hread : read ≤ s.clock) :
    ¬ use.forgotten s.store (jti claims) read s.clock := by
  obtain ⟨exp', hexp', hover | ⟨ends, hends, hnoted⟩⟩ := ((remembers_inductive use).reachable hs).started claims hmem
  · obtain rfl := Option.some.inj (hexp.symm.trans hexp')
    exact absurd hover (not_le.mpr hlive)
  · obtain rfl := Option.some.inj (hexp.symm.trans hexp')
    exact use.remembers hread (hlive.trans_le hends) hnoted

/-- How many commands the assertion has started. -/
def starts (s : Handlers B) (id : String) : Nat := (s.started.filter fun claims => jti claims = id).length

/-- No assertion that has started a command and has expired is claimed again while its use is
forgotten and the execution is vacant. -/
def NotReused (use : SingleUse B) (plane : ExecutionPlane) (s : Handlers B) (e : HandlerEvent) : Prop :=
  ∀ h again handler ttl read claims exp, e = .act h (.claim again) → s.handlers h = some handler →
    handler.stage = .asking ttl read → claims ∈ s.started → jti claims = jti handler.claims →
    claims.exp = some exp → exp ≤ s.clock →
    ¬ (use.forgotten s.store (jti handler.claims) read s.clock ∧
      use.vacant s.store (asks plane handler ttl) read s.clock)

theorem starts_cons {claims : AssertionClaims} {started : List AssertionClaims} {id : String}
    (hs : t.started = claims :: started) : t.starts id =
      (if jti claims = id then 1 else 0) + (started.filter fun claims => jti claims = id).length := by
  unfold starts
  rw [hs, List.filter_cons]
  split
  · next heq => rw [if_pos (by simpa using heq), List.length_cons, Nat.add_comm]
  · next hne => rw [if_neg (by simpa using hne), Nat.zero_add]

/-- Only a claim that is acquired counts as a use. -/
theorem starts_claim (use : SingleUse B) {h : Nat} {handler : Handler} {ttl : Int} {read : ℚ} {again : Bool} {id : String}
    (hone : s.starts id ≤ 1) (hasks : (∃ claims ∈ s.started, jti claims = jti handler.claims) →
      ¬ (use.forgotten s.store (jti handler.claims) read s.clock ∧
        use.vacant s.store (asks plane handler ttl) read s.clock)) :
    (s.claim plane h handler ttl read again).starts id ≤ 1 := by
  obtain ⟨started, stage, heq, -, -, ⟨hstarted, -, -⟩ | ⟨attempt, response, hstarted, -, hanswer⟩⟩ :=
    claim_cases s plane h handler ttl read again
  · have hsame : (s.claim plane h handler ttl read again).started = s.started := by
      rw [heq, hstarted]
      dsimp only
      split <;> rfl
    unfold starts
    rw [hsame]
    exact hone
  · have hmore : (s.claim plane h handler ttl read again).started = handler.claims :: s.started := by
      rw [heq, hstarted]
      dsimp only
      split <;> rfl
    rw [starts_cons hmore]
    split
    · next hid =>
      have hnone : (s.started.filter fun claims => jti claims = id) = [] := by
        refine List.filter_eq_nil_iff.mpr fun claims hmem heq => ?_
        exact hasks ⟨claims, hmem, (of_decide_eq_true heq).trans hid.symm⟩ (use.acquires hanswer)
      rw [hnone]
      simp
    · rw [Nat.zero_add]
      exact hone

theorem single_use_step {e : HandlerEvent} {id : String} (hs : s.Remembers use) (hone : s.starts id ≤ 1)
    (hreuse : NotReused use plane s e) (hmove : s.Move plane meets e t) : t.starts id ≤ 1 := by
  cases hmove with
  | tick | rejected | present | next => exact hone
  | @claim h handler ttl read again hhandler hstage =>
    refine starts_claim use hone ?_
    rintro ⟨claims, hmem, hjti⟩ hfree
    obtain ⟨exp, hexp, hover⟩ := hs.started claims hmem
    -- before it expires the use is remembered; afterwards the condition applies
    rcases le_or_gt (exp : ℚ) s.clock with hle | hlive
    · exact hreuse h again handler ttl read claims exp rfl hhandler hstage hmem hjti hexp hle hfree
    · obtain hle | ⟨ends, hends, hnoted⟩ := hover
      · exact absurd hle (not_le.mpr hlive)
      · rw [hjti] at hnoted
        exact use.remembers (hs.asking h handler ttl read hhandler hstage).1 (hlive.trans_le hends) hnoted hfree.1
  | @complete h handler attempt response intact read again =>
    obtain ⟨committed, heq, -⟩ := complete_cases s plane h handler attempt response intact read again
    have hsame : (s.complete plane h handler attempt response intact read again).started = s.started := by
      rw [heq]
      dsimp only
      split <;> rfl
    unfold starts
    rw [hsame]
    exact hone

theorem single_use_inductive (use : SingleUse B) : ((handling plane meets B).only (NotReused use plane)).Inductive
    fun s => s.Remembers use ∧ ∀ id, s.starts id ≤ 1 where
  start {s} hstart := by
    refine ⟨System.Inductive.start (remembers_inductive use) (S := handling plane meets B) hstart, fun id => ?_⟩
    have hnone : s.started = [] := hstart.2.1
    simp [starts, hnone]
  step := by
    rintro s t e ⟨hs, hone⟩ ⟨hreuse, hstep⟩
    exact ⟨remembers_move hs (step_move hstep), fun id => single_use_step hs (hone id) hreuse (step_move hstep)⟩

end Handlers

open Handlers in
/-- Each assertion starts at most one command, as long as none that has expired is used again. -/
theorem assertions_single_use (backend : StateBackend) (plane : ExecutionPlane) (meets : String → String → Bool)
    {s : Handlers (buildExecutionStateStore backend)}
    (hs : ((handling plane meets _).only (NotReused (singleUse backend) plane)).Reachable s) (id : String) :
    s.starts id ≤ 1 :=
  ((single_use_inductive (singleUse backend)).reachable hs).2 id

/-- The assertion `j` starts a command at 1045, and is presented again at `now`. -/
def Sample.presentedTwice (now : ℚ) : List HandlerEvent :=
  [.tick 1045] ++ presented 0 "j" ++ [.act 0 .stop, .tick now] ++ presented 1 "j"

/-- An assertion starts a second command after it has expired, when the lease of the first is over. -/
theorem assertion_used_twice : ∃ s, (handling Sample.plane Sample.meets (buildExecutionStateStore .memory)).Reachable s ∧
    s.starts "j" = 2 := by
  have hcount : ((Sample.presentedTwice 1061).foldlM (Handlers.step Sample.plane Sample.meets)
      Sample.handlersStart).map (fun s => s.starts "j") = some 2 := by
    decide +kernel
  obtain ⟨s, hs, hcount⟩ := Option.map_eq_some_iff.mp hcount
  exact ⟨s, ⟨_, _, ⟨fun _ => rfl, rfl, rfl⟩, .of_foldlM hs⟩, hcount⟩

/-- No assertion that started a command has expired. -/
def Handlers.live {B : ExecutionStateStore} (s : Handlers B) : Bool :=
  s.started.all fun claims => claims.exp.all fun exp => s.clock < exp

/-- Before it expires, an assertion may be presented again. -/
theorem Handlers.NotReused.of_live {B : ExecutionStateStore} {plane : ExecutionPlane} {use : SingleUse B}
    {s : Handlers B} {e : HandlerEvent} (h : s.live = true) : NotReused use plane s e := by
  intro _ _ _ _ _ claims exp _ _ _ hmem _ hexp hover
  have hlive := List.all_eq_true.mp h claims hmem
  rw [hexp] at hlive
  exact absurd hover (not_le.mpr (of_decide_eq_true hlive))

/-- The assertion is presented again when the lease is over, and before it expires. -/
theorem assertions_single_use_sample : ∃ s : Handlers (buildExecutionStateStore .memory),
    (s.started = [Sample.assertionClaims "j"] ∧ (s.handlers 1).map (·.owner) = some "a") ∧ s.starts "j" ≤ 1 := by
  have hrun : ((Sample.presentedTwice 1059).foldlM (fun s e =>
      if s.live = true then Handlers.step Sample.plane Sample.meets s e else none) Sample.handlersStart).map
        (fun s => (s.started, (s.handlers 1).map (·.owner))) = some ([Sample.assertionClaims "j"], some "a") := by
    decide +kernel
  obtain ⟨s, hs, hends⟩ := Option.map_eq_some_iff.mp hrun
  have hrun : ((handling Sample.plane Sample.meets (buildExecutionStateStore .memory)).only
      (Handlers.NotReused (singleUse .memory) Sample.plane)).Run Sample.handlersStart (Sample.presentedTwice 1059) s :=
    (System.Run.only_of_foldlM hs).only_imp (I := fun _ => True) (fun _ _ _ _ _ _ => trivial)
      (fun s e _ h => .of_live h) trivial
  exact ⟨s, Prod.mk.inj hends, assertions_single_use .memory Sample.plane Sample.meets
    ⟨_, _, ⟨fun _ => rfl, rfl, rfl⟩, hrun⟩ "j"⟩

end CodeMate.Sandbox
