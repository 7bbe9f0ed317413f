import CodeMate.Sandbox.ExecutionLease
import CodeMate.Sandbox.PlaneSettings

/-!
# Records and their leases

A store that keeps a record for `retention` seconds guards a lease until it
ends if the lease is no longer than that (`Retaining`, with `memory_retaining`
and `redis_retaining`): the row stays, and no claim is acquired beside the
lease. `Guarded.run` carries this along the runs of the instances, and
`records_outlive_leases` says for the settings a server starts with which
requests it holds for, and what happens for the others.
-/

namespace CodeMate.Sandbox

open Framework Framework.Lease

/-! ## What keeps a lease -/

/-- The record is there until the lease ends, and keeps others out. -/
structure Keeps (B : ExecutionStateStore) (guards : B.Row → ℚ → Prop) (s : B.State) (clock : ℚ) (id : String)
    (ends : ℚ) : Prop where
  lasts : ∀ t, t < ends → (B.row s t id).isSome
  guarded : clock < ends → ∃ row, B.row s clock id = some row ∧ guards row ends

/-- A store that keeps a record for `retention` seconds from the last claim or completion on. -/
structure Retaining (B : ExecutionStateStore) (retention : ℤ) (guards : B.Row → ℚ → Prop) : Prop where
  claim {s : B.State} {request : ClaimRequest} {read clock : ℚ} {id : String} {ends : ℚ} : read ≤ clock →
    ends ≤ clock + retention → Keeps B guards s clock id ends →
    Keeps B guards (B.claim s request read clock).2 clock id ends
  complete {s : B.State} {request : CompleteRequest} {read clock : ℚ} {id : String} {ends : ℚ} :
    ends ≤ clock + retention → Keeps B guards s clock id ends →
    Keeps B guards (B.complete s request read clock).2 clock id ends
  /-- A lease that was just granted is kept, if it is no longer than the retention. -/
  acquired {s : B.State} {request : ClaimRequest} {read clock : ℚ} {response : Option ExecutionResponse}
    {attempt : Nat} : read ≤ clock → request.leaseSeconds ≤ retention →
    (B.claim s request read clock).1 = some ⟨.acquired, response, attempt⟩ →
    B.leaseUntil request read ≤ clock + retention ∧
      Keeps B guards (B.claim s request read clock).2 clock request.executionId (B.leaseUntil request read)
  /-- While the lease runs no claim of the execution is acquired. -/
  excludes {s : B.State} {request : ClaimRequest} {read clock : ℚ} {ends : ℚ} {response : Option ExecutionResponse}
    {attempt : Nat} : read ≤ clock → clock < ends → Keeps B guards s clock request.executionId ends →
    (B.claim s request read clock).1 ≠ some ⟨.acquired, response, attempt⟩
  row_mono {s : B.State} {clock t : ℚ} {id : String} {row : B.Row} :
    clock ≤ t → B.row s t id = some row → B.row s clock id = some row

theorem Keeps.congr {B : ExecutionStateStore} {guards : B.Row → ℚ → Prop} {s s' : B.State} {clock : ℚ} {id : String}
    {ends : ℚ} (h : Keeps B guards s clock id ends) (heq : ∀ t, B.row s' t id = B.row s t id) :
    Keeps B guards s' clock id ends where
  lasts t ht := by
    rw [heq]
    exact h.lasts t ht
  guarded hlive := by
    rw [heq]
    exact h.guarded hlive

/-! ## The store in memory -/

namespace MemoryExecutionStateStore

variable {s : MemoryExecutionStateStore} {request : ClaimRequest} {now : ℚ}

/-- A claim leaves the rows and acquires nothing, or it takes a new row or one whose lease has ended. -/
theorem claim_effect (s : MemoryExecutionStateStore) (request : ClaimRequest) (now : ℚ) :
    (s.claim request now).1.status ≠ .acquired ∧ (s.claim request now).2.executions = s.executions ∨
      (∀ row, s.executions request.executionId = some row → row.state = .running ∧ row.leaseUntil ≤ now) ∧
        ∃ row, (s.claim request now).2.executions request.executionId = some row ∧
          row.leaseUntil = now + request.leaseSeconds := by
  have huse (s' : MemoryExecutionStateStore) (hs : s'.executions = s.executions)
      (hrun : ∀ row, s.executions request.executionId = some row → row.state = .running) :
      (s'.useAssertion request now).1.status ≠ .acquired ∧
          (s'.useAssertion request now).2.executions = s.executions ∨
        (∀ row, s.executions request.executionId = some row → row.state = .running ∧ row.leaseUntil ≤ now) ∧
          ∃ row, (s'.useAssertion request now).2.executions request.executionId = some row ∧
            row.leaseUntil = now + request.leaseSeconds := by
    rw [useAssertion]
    dsimp only
    rw [hs]
    split
    · next row hrow =>
      split
      · exact Or.inl ⟨by simp, rfl⟩
      · next hended =>
        refine Or.inr ⟨fun row' hrow' => ?_, _, Function.update_self .., rfl⟩
        obtain rfl := Option.some.inj (hrow.symm.trans hrow')
        exact ⟨hrun _ hrow, not_lt.mp hended⟩
    · next hrow =>
      refine Or.inr ⟨fun row' hrow' => ?_, _, Function.update_self .., rfl⟩
      cases hrow.symm.trans hrow'
  rw [claim]
  have hpurge : (s.purge now).executions = s.executions := purge_executions
  rw [hpurge]
  split
  · next hrow =>
    split
    · exact Or.inl ⟨by simp, rfl⟩
    · refine huse _ hpurge fun row hrow' => ?_
      cases hrow.symm.trans hrow'
  · next row hrow =>
    split
    · exact Or.inl ⟨by simp, rfl⟩
    · split
      · exact Or.inl ⟨by simp, rfl⟩
      · next hstate =>
        split
        · split
          · exact Or.inl ⟨by simp, rfl⟩
          · exact Or.inl ⟨by simp, rfl⟩
        · refine huse _ hpurge fun row' hrow' => ?_
          obtain rfl := Option.some.inj (hrow.symm.trans hrow')
          exact hstate

/-- A completion leaves the rows or completes the one of its execution. -/
theorem complete_effect (s : MemoryExecutionStateStore) (request : CompleteRequest) (now : ℚ) :
    (s.complete request now).2.executions = s.executions ∨
      ∃ row, (s.complete request now).2.executions request.executionId = some row ∧
        row.state = .completed request.response := by
  rw [complete]
  split
  · exact Or.inl rfl
  · split
    · exact Or.inl rfl
    · exact Or.inr ⟨_, Function.update_self .., rfl⟩

end MemoryExecutionStateStore

/-- The row is completed, or its lease lasts until `ends`. -/
def MemoryRow.Guards (row : MemoryRow) (ends : ℚ) : Prop :=
  (∃ response, row.state = .completed response) ∨ ends ≤ row.leaseUntil

/-- A store in memory keeps its records for good. -/
theorem memory_retaining (retention : ℤ) : Retaining memory retention MemoryRow.Guards where
  claim {s request read clock id ends} hread hends h := by
    by_cases hid : id = request.executionId
    · subst hid
      rcases MemoryExecutionStateStore.claim_effect s request read with ⟨-, heq⟩ | ⟨hfree, row, hrow, -⟩
      · exact h.congr fun t => congrFun heq request.executionId
      · refine ⟨fun t _ => Option.isSome_iff_exists.mpr ⟨row, hrow⟩, fun hlive => ?_⟩
        obtain ⟨old, hold, hguards⟩ := h.guarded hlive
        obtain ⟨hrunning, hended⟩ := hfree old hold
        rcases hguards with ⟨response, hcompleted⟩ | hlease
        · cases hrunning.symm.trans hcompleted
        · exact absurd (hlive.trans_le (hlease.trans (hended.trans hread))) (lt_irrefl _)
    · exact h.congr fun t => MemoryExecutionStateStore.claim_frame hid
  complete {s request read clock id ends} hends h := by
    by_cases hid : id = request.executionId
    · subst hid
      rcases MemoryExecutionStateStore.complete_effect s request clock with heq | ⟨row, hrow, hstate⟩
      · exact h.congr fun t => congrFun heq request.executionId
      · exact ⟨fun t _ => Option.isSome_iff_exists.mpr ⟨row, hrow⟩, fun _ => ⟨row, hrow, Or.inl ⟨_, hstate⟩⟩⟩
    · exact h.congr fun t => MemoryExecutionStateStore.complete_frame hid
  acquired {s request read clock response attempt} hread hlease h := by
    have hle : memory.leaseUntil request read ≤ clock + retention := by
      have : (request.leaseSeconds : ℚ) ≤ retention := by exact_mod_cast hlease
      exact add_le_add hread this
    refine ⟨hle, ?_⟩
    rcases MemoryExecutionStateStore.claim_effect s request read with ⟨hnot, -⟩ | ⟨-, row, hrow, huntil⟩
    · have h : some (s.claim request read).1 = some ⟨.acquired, response, attempt⟩ := h
      exact absurd (congrArg ExecutionClaim.status (Option.some.inj h)) hnot
    · exact ⟨fun t _ => Option.isSome_iff_exists.mpr ⟨row, hrow⟩, fun _ => ⟨row, hrow, Or.inr huntil.ge⟩⟩
  excludes {s request read clock ends response attempt} hread hlive h hacquired := by
    have hacquired : some (s.claim request read).1 = some ⟨.acquired, response, attempt⟩ := hacquired
    rcases MemoryExecutionStateStore.claim_effect s request read with ⟨hnot, -⟩ | ⟨hfree, -⟩
    · exact hnot (congrArg ExecutionClaim.status (Option.some.inj hacquired))
    · obtain ⟨old, hold, hguards⟩ := h.guarded hlive
      obtain ⟨hrunning, hended⟩ := hfree old hold
      rcases hguards with ⟨response, hcompleted⟩ | hlease
      · cases hrunning.symm.trans hcompleted
      · exact absurd (hlive.trans_le (hlease.trans (hended.trans hread))) (lt_irrefl _)
  row_mono _ h := h

/-! ## The store in Redis -/

namespace RedisServer

variable {serializer : Serializer} {retention : ℤ}

/-- A claim leaves the rows and acquires nothing, or it takes a row that is not completed and has no
lease that runs, and keeps it for the retention. -/
theorem claim_effect (s : RedisServer) (request : ClaimRequest) (read clock : ℚ) :
    (∀ response attempt,
        (s.claim serializer retention request read clock).1 ≠ some ⟨.acquired, response, attempt⟩) ∧
      (s.claim serializer retention request read clock).2.executions = s.executions ∨
    (∀ row, get clock (s.executions request.executionId) = some row →
        row.state ≠ some .completed ∧ (row.state = some .running → row.leaseUntil.getD 0 ≤ ⌊read⌋)) ∧
      ∃ row, (s.claim serializer retention request read clock).2.executions request.executionId =
          some (row, clock + retention) ∧
        row.state = some .running ∧ row.leaseUntil = some (⌊read⌋ + request.leaseSeconds) := by
  by_cases hhash : ((get clock (s.executions request.executionId)).getD {}).requestHash.any (· ≠ request.requestHash)
  · have hscript : s.claimScript clock request.assertionJti request.requestHash request.executionId request.owner
        (max 1 request.assertionTtl) ⌊read⌋ (⌊read⌋ + request.leaseSeconds) retention = ((.conflict, 0, ""), s) := by
      rw [claimScript]
      exact if_pos hhash
    rw [claim_eq_of_script hscript]
    exact Or.inl ⟨by simp, rfl⟩
  · by_cases hstate : ((get clock (s.executions request.executionId)).getD {}).state = some .completed
    · left
      obtain ⟨attempt, payload, hscript⟩ : ∃ attempt payload,
          s.claimScript clock request.assertionJti request.requestHash request.executionId request.owner
            (max 1 request.assertionTtl) ⌊read⌋ (⌊read⌋ + request.leaseSeconds) retention =
          ((.cached, attempt, payload), s) := by
        rw [claimScript]
        exact ⟨_, _, (if_neg hhash).trans (if_pos hstate)⟩
      rw [claim, hscript]
      dsimp only
      split
      · exact ⟨by simp, rfl⟩
      · refine ⟨fun response attempt h => ?_, rfl⟩
        obtain ⟨_, -, h⟩ := Option.map_eq_some_iff.mp h
        cases h
    · rcases @claim_cases serializer retention s request read clock _ rfl (by simpa using hhash) hstate with ⟨answer, hnot, hanswer, heq⟩ | ⟨hfree, hanswer, hrow⟩
      · refine Or.inl ⟨fun response attempt h => hnot ?_, heq⟩
        rw [hanswer] at h
        rw [Option.some.inj h]
      · refine Or.inr ⟨fun row hget => ?_, _, hrow, rfl, rfl⟩
        rw [hget] at hstate hfree
        exact ⟨hstate, hfree⟩

/-- A completion leaves the rows or completes the one of its execution and keeps it for the retention. -/
theorem complete_effect (s : RedisServer) (request : CompleteRequest) (read clock : ℚ) :
    (s.complete serializer retention request read clock).2.executions = s.executions ∨
      ∃ row, (s.complete serializer retention request read clock).2.executions request.executionId =
          some (row, clock + retention) ∧ row.state = some .completed := by
  rw [complete, completeScript]
  repeat' split
  all_goals first | exact Or.inl rfl | exact Or.inr ⟨_, Function.update_self .., rfl⟩

theorem get_isSome {α : Type} {clock ends : ℚ} {a : α} (h : clock < ends) :
    get clock (some (a, ends)) = some a := by
  simp [get, h]

end RedisServer

/-- The row is completed, or it is running with a lease that lasts until `ends`. -/
def RedisRow.Guards (row : RedisRow) (ends : ℚ) : Prop :=
  row.state = some .completed ∨ row.state = some .running ∧ ends ≤ (row.leaseUntil.getD 0 : ℤ)

theorem redis_retaining (serializer : Serializer) (retention : ℤ) :
    Retaining (redis serializer retention) retention RedisRow.Guards where
  claim {s : RedisServer} {request read clock id ends} hread hends h := by
    by_cases hid : id = request.executionId
    · subst hid
      rcases RedisServer.claim_effect s request read clock with ⟨-, heq⟩ | ⟨hfree, row, hrow, -⟩
      · exact h.congr fun t => congrArg (RedisServer.get t) (congrFun heq request.executionId)
      · have hget {t : ℚ} (ht : t < ends) : RedisServer.get t
            ((s.claim serializer retention request read clock).2.executions request.executionId) = some row := by
          rw [hrow, RedisServer.get_isSome (ht.trans_le hends)]
        refine ⟨fun t ht => Option.isSome_iff_exists.mpr ⟨row, hget ht⟩, fun hlive => ?_⟩
        obtain ⟨old, hold, hguards⟩ := h.guarded hlive
        obtain ⟨hopen, hended⟩ := hfree old hold
        rcases hguards with hcompleted | ⟨hrunning, hlease⟩
        · exact absurd hcompleted hopen
        · have hfloor : ((old.leaseUntil.getD 0 : ℤ) : ℚ) ≤ read := Int.le_floor.mp (hended hrunning)
          exact absurd (hlive.trans_le (hlease.trans (hfloor.trans hread))) (lt_irrefl _)
    · exact h.congr fun t => congrArg (RedisServer.get t) (RedisServer.claim_frame hid)
  complete {s : RedisServer} {request read clock id ends} hends h := by
    by_cases hid : id = request.executionId
    · subst hid
      rcases RedisServer.complete_effect s request read clock with heq | ⟨row, hrow, hstate⟩
      · exact h.congr fun t => congrArg (RedisServer.get t) (congrFun heq request.executionId)
      · have hget {t : ℚ} (ht : t < ends) : RedisServer.get t
            ((s.complete serializer retention request read clock).2.executions request.executionId) = some row := by
          rw [hrow, RedisServer.get_isSome (ht.trans_le hends)]
        exact ⟨fun t ht => Option.isSome_iff_exists.mpr ⟨row, hget ht⟩,
          fun hlive => ⟨row, hget hlive, Or.inl hstate⟩⟩
    · exact h.congr fun t => congrArg (RedisServer.get t) (RedisServer.complete_frame hid)
  acquired {s request read clock response attempt} hread hlease h := by
    have hle : (redis serializer retention).leaseUntil request read ≤ clock + retention := by
      have hlease : (request.leaseSeconds : ℚ) ≤ retention := by exact_mod_cast hlease
      show (((⌊read⌋ + request.leaseSeconds : ℤ)) : ℚ) ≤ clock + retention
      push_cast
      exact add_le_add ((Int.floor_le read).trans hread) hlease
    refine ⟨hle, ?_⟩
    rcases RedisServer.claim_effect s request read clock with ⟨hnot, -⟩ | ⟨-, row, hrow, hrunning, huntil⟩
    · exact absurd h (hnot response attempt)
    · have hget {t : ℚ} (ht : t < (redis serializer retention).leaseUntil request read) : RedisServer.get t
          ((s.claim serializer retention request read clock).2.executions request.executionId) = some row := by
        rw [hrow, RedisServer.get_isSome (ht.trans_le hle)]
      refine ⟨fun t ht => Option.isSome_iff_exists.mpr ⟨row, hget ht⟩,
        fun hlive => ⟨row, hget hlive, Or.inr ⟨hrunning, ?_⟩⟩⟩
      rw [huntil]
      exact le_refl _
  excludes {s request read clock ends response attempt} hread hlive h hacquired := by
    rcases @RedisServer.claim_effect serializer retention s request read clock with ⟨hnot, -⟩ | ⟨hfree, -⟩
    · exact hnot response attempt hacquired
    · obtain ⟨old, hold, hguards⟩ := h.guarded hlive
      obtain ⟨hopen, hended⟩ := hfree old hold
      rcases hguards with hcompleted | ⟨hrunning, hlease⟩
      · exact hopen hcompleted
      · have hfloor : ((old.leaseUntil.getD 0 : ℤ) : ℚ) ≤ read := Int.le_floor.mp (hended hrunning)
        exact absurd (hlive.trans_le (hlease.trans (hfloor.trans hread))) (lt_irrefl _)
  row_mono h hrow := RedisServer.get_mono h hrow

/-! ## Runs -/

section Runs

variable {B : ExecutionStateStore} {guards : B.Row → ℚ → Prop} {retention : ℤ}

/-- A claim that was acquired, with the time it was made at. -/
def Plane.Acquired (s : Plane B) (request : ClaimRequest) (read : ℚ) : Prop :=
  ∃ response attempt, Done.claim request read (some ⟨.acquired, response, attempt⟩) ∈ s.log

/-- The instances at work, each claim one that `fits`. -/
def served (B : ExecutionStateStore) (fits : ClaimRequest → Prop) : System (Plane B) PlaneEvent where
  start s := s.log = [] ∧ s.pending = []
  step s e t := s.step e = some t ∧ ∀ request, e = .send (.claim request) → fits request

/-- Every lease that was granted is kept until it ends. -/
structure Guarded (guards : B.Row → ℚ → Prop) (retention : ℤ) (s : Plane B) : Prop where
  pending : ∀ call ∈ s.pending, call.2 ≤ s.clock
  fits : ∀ request read, (Call.claim request, read) ∈ s.pending → request.leaseSeconds ≤ retention
  ends_le : ∀ request read, s.Acquired request read → B.leaseUntil request read ≤ s.clock + retention
  keeps : ∀ request read, s.Acquired request read →
    Keeps B guards s.store s.clock request.executionId (B.leaseUntil request read)

/-- The records outlive the leases: a lease that runs has its record, and no claim of the execution
is acquired beside it, whenever it is carried out. -/
structure Outlives (s : Plane B) : Prop where
  recorded : ∀ request read, s.Acquired request read → s.clock < B.leaseUntil request read →
    (B.row s.store s.clock request.executionId).isSome
  alone : ∀ request read, s.Acquired request read → s.clock < B.leaseUntil request read →
    ∀ other read', other.executionId = request.executionId → read' ≤ s.clock →
      ∀ response attempt, (B.claim s.store other read' s.clock).1 ≠ some ⟨.acquired, response, attempt⟩

variable {s t : Plane B}

theorem served_mono {fits fits' : ClaimRequest → Prop} (hfits : ∀ request, fits request → fits' request)
    {es : List PlaneEvent} (hr : (served B fits).Run s es t) : (served B fits').Run s es t := by
  refine System.Run.mono (fun s e t hs => ?_) hr
  exact ⟨hs.1, fun request he => hfits request (hs.2 request he)⟩

theorem Guarded.outlives (hB : Retaining B retention guards) (h : Guarded guards retention s) : Outlives s where
  recorded request read hacquired hlive := (h.keeps request read hacquired).lasts s.clock hlive
  alone request read hacquired hlive other read' hid hread' response attempt := by
    have := h.keeps request read hacquired
    rw [← hid] at this
    exact hB.excludes hread' hlive this

/-- Time passes: the rows that were there until now are the ones there before. -/
theorem Guarded.tick (hB : Retaining B retention guards) (h : Guarded guards retention s) {now : ℚ}
    (hle : s.clock ≤ now) : Guarded guards retention { s with clock := now } where
  pending call hc := (h.pending call hc).trans hle
  fits := h.fits
  ends_le request read hacquired := (h.ends_le request read hacquired).trans (by simpa using hle)
  keeps request read hacquired := by
    have hkeeps := h.keeps request read hacquired
    refine ⟨hkeeps.lasts, fun hlive => ?_⟩
    obtain ⟨row, hrow, hguards⟩ := hkeeps.guarded (lt_of_le_of_lt hle hlive)
    obtain ⟨row', hrow'⟩ := Option.isSome_iff_exists.mp (hkeeps.lasts now hlive)
    obtain rfl := Option.some.inj (hrow.symm.trans (hB.row_mono hle hrow'))
    exact ⟨row, hrow', hguards⟩

theorem Guarded.claim (hB : Retaining B retention guards) (h : Guarded guards retention s) {request : ClaimRequest}
    {read : ℚ} (hread : read ≤ s.clock) (hfits : request.leaseSeconds ≤ retention) {pending : List (Call × ℚ)}
    (hp : pending ⊆ s.pending) : Guarded guards retention (s.carryOut pending (.claim request, read)) := by
  have hcases {request' : ClaimRequest} {read' : ℚ}
      (hacquired : (s.carryOut pending (.claim request, read)).Acquired request' read') :
      s.Acquired request' read' ∨ request' = request ∧ read' = read ∧
        ∃ response attempt, (B.claim s.store request read s.clock).1 = some ⟨.acquired, response, attempt⟩ := by
    obtain ⟨response, attempt, hmem⟩ := hacquired
    rcases List.mem_cons.mp hmem with heq | hmem
    · obtain ⟨rfl, rfl, hanswer⟩ := Done.claim.inj heq
      exact Or.inr ⟨rfl, rfl, response, attempt, hanswer.symm⟩
    · exact Or.inl ⟨response, attempt, hmem⟩
  refine ⟨fun call hc => h.pending call (hp hc), fun request' read' hc => h.fits request' read' (hp hc),
    fun request' read' hacquired => ?_, fun request' read' hacquired => ?_⟩
  · rcases hcases hacquired with hold | ⟨rfl, rfl, response, attempt, hanswer⟩
    · exact h.ends_le request' read' hold
    · exact (hB.acquired hread hfits hanswer).1
  · rcases hcases hacquired with hold | ⟨rfl, rfl, response, attempt, hanswer⟩
    · exact hB.claim hread (h.ends_le request' read' hold) (h.keeps request' read' hold)
    · exact (hB.acquired hread hfits hanswer).2

theorem Guarded.complete (hB : Retaining B retention guards) (h : Guarded guards retention s)
    {request : CompleteRequest} {read : ℚ} {pending : List (Call × ℚ)} (hp : pending ⊆ s.pending) :
    Guarded guards retention (s.carryOut pending (.complete request, read)) := by
  have hcases {request' : ClaimRequest} {read' : ℚ}
      (hacquired : (s.carryOut pending (.complete request, read)).Acquired request' read') :
      s.Acquired request' read' := by
    obtain ⟨response, attempt, hmem⟩ := hacquired
    exact ⟨response, attempt, (List.mem_cons.mp hmem).resolve_left nofun⟩
  exact ⟨fun call hc => h.pending call (hp hc), fun request' read' hc => h.fits request' read' (hp hc),
    fun request' read' hacquired => h.ends_le request' read' (hcases hacquired),
    fun request' read' hacquired =>
      hB.complete (h.ends_le request' read' (hcases hacquired)) (h.keeps request' read' (hcases hacquired))⟩

theorem Guarded.step (hB : Retaining B retention guards) (h : Guarded guards retention s) {e : PlaneEvent}
    (hs : (served B fun request => request.leaseSeconds ≤ retention).step s e t) : Guarded guards retention t := by
  obtain ⟨hs, hfits⟩ := hs
  cases e with
  | tick now =>
    obtain ⟨hle, rfl⟩ := step_tick hs
    exact h.tick hB hle
  | send call =>
    obtain rfl := Option.some.inj hs
    refine ⟨fun call' hc => ?_, fun request read hc => ?_, h.ends_le, h.keeps⟩
    · rcases List.mem_append.mp hc with hc | hc
      · exact h.pending call' hc
      · rw [List.mem_singleton.mp hc]
    · rcases List.mem_append.mp hc with hc | hc
      · exact h.fits request read hc
      · obtain ⟨rfl, -⟩ := Prod.mk.inj (List.mem_singleton.mp hc)
        exact hfits request rfl
  | run i again =>
    obtain ⟨⟨call, read⟩, hcall, rfl⟩ := Option.map_eq_some_iff.mp hs
    have hmem := List.mem_of_getElem? hcall
    have hp : (if again then s.pending else s.pending.eraseIdx i) ⊆ s.pending := by
      split
      · exact List.Subset.refl _
      · exact fun call hc => List.mem_of_mem_eraseIdx hc
    cases call with
    | claim request => exact h.claim hB (h.pending _ hmem) (h.fits _ _ hmem) hp
    | complete request => exact h.complete hB hp

theorem Guarded.run (hB : Retaining B retention guards) {s₀ : Plane B} {es : List PlaneEvent}
    (h₀ : s₀.log = [] ∧ s₀.pending = [])
    (hr : (served B fun request => request.leaseSeconds ≤ retention).Run s₀ es s) : Guarded guards retention s := by
  refine hr.inv (I := Guarded guards retention) (fun s e t h hs => h.step hB hs) ?_
  obtain ⟨hlog, hpending⟩ := h₀
  have hnone {request : ClaimRequest} {read : ℚ} : ¬ s₀.Acquired request read := by
    rintro ⟨_, _, hmem⟩
    rw [hlog] at hmem
    exact absurd hmem List.not_mem_nil
  refine ⟨fun call hc => ?_, fun request read hc => ?_, fun _ _ h => absurd h hnone, fun _ _ h => absurd h hnone⟩
  · rw [hpending] at hc
    exact absurd hc List.not_mem_nil
  · rw [hpending] at hc
    exact absurd hc List.not_mem_nil

end Runs

/-! ## The settings of a server -/

/-- A claim of an execution that is free is acquired as its first attempt. -/
theorem RedisServer.claim_free {serializer : Serializer} {retention : ℤ} {s : RedisServer} {request : ClaimRequest}
    {read clock : ℚ} (hreplay : RedisServer.get clock (s.replays request.assertionJti) = none)
    (hrow : RedisServer.get clock (s.executions request.executionId) = none) :
    s.claim serializer retention request read clock =
      (some { status := .acquired, attempt := 1 },
        { replays := Function.update s.replays request.assertionJti
            (some (request.executionId, clock + (max 1 request.assertionTtl : ℤ)))
          executions := Function.update s.executions request.executionId (some
            ({ attempt := some 1
               requestHash := some request.requestHash
               state := some .running
               owner := some request.owner
               leaseUntil := some (⌊read⌋ + request.leaseSeconds) }, clock + retention)) }) := by
  refine claim_eq_of_script ?_
  rw [claimScript, hrow]
  simp [leaseScript, hreplay]

namespace ServerSettings

variable {lower : String → String} (settings : ServerSettings lower) (plane : ExecutionPlane)
  (serializer : Serializer)

/-- `build_execution_state_store`. -/
def store : StateBackend :=
  if settings.stateBackend lower = "redis" then
    .redis serializer settings.sandboxExecutionStateRetentionSeconds
  else .memory

/-- The plane with the grace of the settings. -/
def configured : ExecutionPlane :=
  { plane with leaseGraceSeconds := settings.sandboxExecutionLeaseGraceSeconds }

/-- The claims that `execute` makes for a request that meets `ok`. -/
def Claims (ok : ExecutionRequest → Prop) (claim : ClaimRequest) : Prop :=
  ∃ request claims owner assertionTtl, ok request ∧
    claim = (settings.configured plane).claimRequest request claims owner assertionTtl

/-- Two first attempts of one execution, the second acquired beside the lease of the first. -/
def Doubled {B : ExecutionStateStore} (s : Plane B) : Prop :=
  ∃ first read second read', first.executionId = second.executionId ∧ first.owner ≠ second.owner ∧
    Done.claim first read (some { status := .acquired, attempt := 1 }) ∈ s.log ∧
    Done.claim second read' (some { status := .acquired, attempt := 1 }) ∈ s.log ∧
    s.clock < B.leaseUntil first read

theorem outlives_of_covers {s₀ s : Plane (buildExecutionStateStore (settings.store serializer))}
    {es : List PlaneEvent} (h₀ : s₀.log = [] ∧ s₀.pending = [])
    (hr : (served (buildExecutionStateStore (settings.store serializer))
      (settings.Claims plane settings.Covers)).Run s₀ es s) : Outlives s := by
  by_cases hredis : settings.stateBackend lower = "redis"
  · have hstore : settings.store serializer = .redis serializer settings.sandboxExecutionStateRetentionSeconds :=
      if_pos hredis
    have hfits (claim : ClaimRequest) (hclaim : settings.Claims plane settings.Covers claim) :
        claim.leaseSeconds ≤ settings.sandboxExecutionStateRetentionSeconds := by
      obtain ⟨request, claims, owner, ttl, hcovers, rfl⟩ := hclaim
      refine (settings.leaseSeconds_le_iff request).mpr hcovers _ ?_
      rw [recordRetention, if_pos hredis]
    generalize settings.store serializer = backend at s₀ s hstore
    subst hstore
    have hguarded := Guarded.run (redis_retaining serializer _) h₀ (served_mono hfits hr)
    exact hguarded.outlives (redis_retaining serializer _)
  · have hstore : settings.store serializer = .memory := if_neg hredis
    have hfits (claim : ClaimRequest) (hclaim : settings.Claims plane settings.Covers claim) :
        claim.leaseSeconds ≤ 3600 + max 10 settings.sandboxExecutionLeaseGraceSeconds := by
      obtain ⟨request, claims, owner, ttl, -, rfl⟩ := hclaim
      have := request.timeoutSeconds_le
      show request.timeoutSeconds + max 10 settings.sandboxExecutionLeaseGraceSeconds ≤ _
      omega
    generalize settings.store serializer = backend at s₀ s hstore
    subst hstore
    have hguarded := Guarded.run (memory_retaining _) h₀ (served_mono hfits hr)
    exact hguarded.outlives (memory_retaining _)

/-- Two claims of a request by two instances, each with an assertion of its own. -/
def firstClaim (request : ExecutionRequest) : ClaimRequest :=
  (settings.configured plane).claimRequest request { jti := some "1" } "a" 60

def secondClaim (request : ExecutionRequest) : ClaimRequest :=
  (settings.configured plane).claimRequest request { jti := some "2" } "b" 60

/-- The first claim, the time that the record is kept, the second claim. -/
def doubling (request : ExecutionRequest) (retention : ℤ) : List PlaneEvent :=
  [.send (.claim (settings.firstClaim plane request)), .run 0 false, .tick (max retention 0),
    .send (.claim (settings.secondClaim plane request)), .run 0 false]

theorem doubled_of_not_covers {request : ExecutionRequest} (h : ¬ settings.Covers request) :
    ∃ (s₀ s : Plane (buildExecutionStateStore (settings.store serializer))) (es : List PlaneEvent),
      (s₀.log = [] ∧ s₀.pending = []) ∧
      (served (buildExecutionStateStore (settings.store serializer))
        (settings.Claims plane (· = request))).Run s₀ es s ∧ Doubled s := by
  simp only [Covers, not_or, not_le] at h
  obtain ⟨hmemory, hgrace, htimeout⟩ := h
  have hredis := settings.stateBackend_cases.resolve_left hmemory
  have hstore : settings.store serializer = .redis serializer settings.sandboxExecutionStateRetentionSeconds :=
    if_pos hredis
  rw [hstore]
  have hid : (settings.firstClaim plane request).executionId = (settings.secondClaim plane request).executionId := rfl
  have hlease : (settings.firstClaim plane request).leaseSeconds = request.timeoutSeconds + 10 := by
    show request.timeoutSeconds + max 10 settings.sandboxExecutionLeaseGraceSeconds = _
    omega
  have hpos := request.timeoutSeconds_pos
  generalize settings.sandboxExecutionStateRetentionSeconds = retention at htimeout
  let s₀ : Plane (redis serializer retention) := ⟨0, ⟨fun _ => none, fun _ => none⟩, [], []⟩
  let s₁ : Plane (redis serializer retention) :=
    { s₀.carryOut [] (.claim (settings.firstClaim plane request), 0) with clock := max retention 0 }
  let s₂ := s₁.carryOut [] (.claim (settings.secondClaim plane request), max retention 0)
  have hfirst : ∃ store, RedisServer.claim serializer retention s₀.store (settings.firstClaim plane request) 0 0 =
      (some { status := .acquired, attempt := 1 }, store) ∧ store.replays "2" = none ∧
      ∃ row, store.executions (settings.secondClaim plane request).executionId = some (row, (0 : ℚ) + retention) :=
    ⟨_, RedisServer.claim_free rfl rfl, rfl, _, Function.update_self ..⟩
  obtain ⟨store, hfirst, hreplay, row, hrow⟩ := hfirst
  have hstore₁ : s₁.store = store := congrArg Prod.snd hfirst
  have hsecond : (RedisServer.claim serializer retention s₁.store (settings.secondClaim plane request)
      (max retention 0) (max retention 0)).1 = some { status := .acquired, attempt := 1 } := by
    rw [hstore₁, RedisServer.claim_free]
    · rw [show (settings.secondClaim plane request).assertionJti = "2" from rfl, hreplay]
      rfl
    · rw [hrow]
      simp [RedisServer.get]
  have hlog₁ : s₁.log = [.claim (settings.firstClaim plane request) 0
      (RedisServer.claim serializer retention s₀.store (settings.firstClaim plane request) 0 0).1] := rfl
  have hlog₂ : s₂.log = .claim (settings.secondClaim plane request) (max retention 0)
      (RedisServer.claim serializer retention s₁.store (settings.secondClaim plane request)
        (max retention 0) (max retention 0)).1 :: s₁.log := rfl
  rw [hsecond, hlog₁, hfirst] at hlog₂
  have hclaims (jti owner : String) : settings.Claims plane (· = request)
      ((settings.configured plane).claimRequest request { jti := some jti } owner 60) :=
    ⟨request, _, owner, 60, rfl, rfl⟩
  have hsend (jti owner : String) (s : Plane (redis serializer retention)) :
      (served (redis serializer retention) (settings.Claims plane (· = request))).step s
        (.send (.claim ((settings.configured plane).claimRequest request { jti := some jti } owner 60)))
        { s with pending := s.pending ++
          [(.claim ((settings.configured plane).claimRequest request { jti := some jti } owner 60), s.clock)] } := by
    refine ⟨rfl, fun claim he => ?_⟩
    cases he
    exact hclaims jti owner
  have hother {s t : Plane (redis serializer retention)} {e : PlaneEvent} (he : ∀ call, e ≠ .send call)
      (h : s.step e = some t) :
      (served (redis serializer retention) (settings.Claims plane (· = request))).step s e t :=
    ⟨h, fun claim heq => absurd heq (he _)⟩
  have htick : Plane.step { s₁ with clock := 0 } (.tick (max retention 0)) = some s₁ :=
    if_pos (le_max_right _ _)
  refine ⟨s₀, s₂, settings.doubling plane request retention, ⟨rfl, rfl⟩, ?_, ?_⟩
  · exact .cons (hsend "1" "a" s₀) (.cons (hother (by simp) rfl) (.cons (hother (by simp) htick)
      (.cons (hsend "2" "b" s₁) (.single (hother (by simp) rfl)))))
  · refine ⟨settings.firstClaim plane request, 0, settings.secondClaim plane request, max retention 0, hid,
      by simp [firstClaim, secondClaim, ExecutionPlane.claimRequest], by simp [hlog₂], by simp [hlog₂], ?_⟩
    show (max (retention : ℚ) 0) < ((⌊(0 : ℚ)⌋ + (settings.firstClaim plane request).leaseSeconds : ℤ) : ℚ)
    rw [hlease, Int.floor_zero, zero_add]
    exact max_lt (by exact_mod_cast htimeout) (by exact_mod_cast (by omega : 0 < request.timeoutSeconds + 10))

end ServerSettings

/-- The record of an execution is kept as long as its lease runs exactly for the requests that the
settings cover. While only such are served, in every state that is reached each lease that runs has
its record and no other claim of the execution is acquired; any other request can be run twice, each
time as a first attempt. -/
theorem records_outlive_leases {lower : String → String} (settings : ServerSettings lower) (plane : ExecutionPlane)
    (serializer : Serializer) :
    (∀ request, (∀ retention, settings.recordRetention = some retention → settings.leaseSeconds request ≤ retention) ↔
      settings.Covers request) ∧
    (∀ (s₀ s : Plane (buildExecutionStateStore (settings.store serializer))) (es : List PlaneEvent),
      (s₀.log = [] ∧ s₀.pending = []) →
      (served (buildExecutionStateStore (settings.store serializer))
        (settings.Claims plane settings.Covers)).Run s₀ es s → Outlives s) ∧
    ∀ request, ¬ settings.Covers request →
      ∃ (s₀ s : Plane (buildExecutionStateStore (settings.store serializer))) (es : List PlaneEvent),
        (s₀.log = [] ∧ s₀.pending = []) ∧
        (served (buildExecutionStateStore (settings.store serializer))
          (settings.Claims plane (· = request))).Run s₀ es s ∧ ServerSettings.Doubled s :=
  ⟨settings.leaseSeconds_le_iff, fun _ _ _ h₀ hr => settings.outlives_of_covers plane serializer h₀ hr,
    fun _ h => settings.doubled_of_not_covers plane serializer h⟩

/-- No grace and the least retention that the validation accepts with it. -/
def shortSettings : ServerSettings String.toLower where
  redisUrl := "redis://localhost:6379/0"
  sandboxExecutionPlaneBackend := "firecracker"
  sandboxWorkloadIdentityPublicKeyPath := some "/run/workload.pub"
  sandboxExecutionStateBackend := "redis"
  sandboxExecutionStateRetentionSeconds := 3600
  sandboxExecutionLeaseGraceSeconds := 0
  accepted := by decide +kernel

def longRequest : ExecutionRequest where
  executionId := "3f2b8c1e-6a57-4d0e-9b1c-2f4d5a6b7c8d"
  archiveBase64 := "H4sIAAAA"
  archiveSha256 := "e3b0c44298fc1c149afbf4c8996fb92427ae41e4649b934ca495991b7852b855"
  command := "pytest"
  shellCommand := "pytest"
  image := "python:3.12"
  requestedRuntime := .firecracker
  timeoutSeconds := 3600
  executionId_length := by decide
  timeoutSeconds_pos := (by decide : (0 : ℤ) < 3600)
  timeoutSeconds_le := by decide

/-- The record goes after an hour, ten seconds before the lease. -/
theorem records_outlive_leases_short : shortSettings.recordRetention = some 3600 ∧
    shortSettings.leaseSeconds longRequest = 3610 := by
  decide +kernel

end CodeMate.Sandbox
