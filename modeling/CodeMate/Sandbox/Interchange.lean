import CodeMate.Sandbox.ExecutionLease

/-!
# The two stores are interchangeable

The store in memory and the one in Redis get the same calls, at whole seconds
(`Twins`). As long as the rows that are asked for are retained, and no use of an
assertion ends at the very second of a call, what they hold stays the same
(`Alike`, kept by `alike_claim` and `alike_complete`), and `stores_interchangeable`:
they answer the same.
-/

namespace CodeMate.Sandbox

open Framework

/-- What a call returns. -/
inductive Answer
  | claim (claim : Option ExecutionClaim)
  | complete (committed : Bool)
  deriving DecidableEq

/-- A call that reads the clock and is carried out at `now`. -/
def ExecutionStateStore.answer (B : ExecutionStateStore) (s : B.State) (now : ℚ) : Call → Answer × B.State
  | .claim request => let (claim, s) := B.claim s request now now; (.claim claim, s)
  | .complete request => let (committed, s) := B.complete s request now now; (.complete committed, s)

def Call.executionId : Call → String
  | .claim request => request.executionId
  | .complete request => request.executionId

/-- The two stores, and the second of the last call. -/
structure Twins where
  clock : Int
  inMemory : MemoryExecutionStateStore
  server : RedisServer

def Twins.empty (clock : Int) : Twins := ⟨clock, ⟨fun _ => none, fun _ => none⟩, ⟨fun _ => none, fun _ => none⟩⟩

variable (serializer : Serializer) (retention : Int)

/-- What the execution plane passes, and that Redis reads a response back as it was written. -/
def Call.Passed : Call → Prop
  | .claim request => 1 ≤ request.assertionTtl ∧ 1 ≤ request.leaseSeconds
  | .complete request => serializer.RoundTrips request.response

/-- The row that is asked for is retained, and no use of the assertion ends at this very second. -/
structure Twins.Admits (s : Twins) (call : Call) (now : Int) : Prop where
  monotone : s.clock ≤ now
  passed : call.Passed serializer
  retained : ∀ row ends, s.server.executions call.executionId = some (row, ends) → (now : ℚ) < ends
  between : ∀ request, call = .claim request → ∀ ends execution,
    s.inMemory.replays request.assertionJti = some (ends, execution) → ends ≠ now

/-- Both stores carry out the call. -/
def Twins.apply (s : Twins) (call : Call) (now : Int) : Twins where
  clock := now
  inMemory := (memory.answer s.inMemory now call).2
  server := ((redis serializer retention).answer s.server now call).2

/-- The sequences of calls to both stores, which are empty at first. -/
def twins : System Twins (Call × Int) where
  start s := ∃ clock, s = .empty clock
  step s e t := s.Admits serializer e.1 e.2 ∧ t = s.apply serializer retention e.1 e.2

/-! ## What both hold -/

variable {serializer retention}

/-- A row of the store in memory, and the hash that Redis has for it. -/
inductive RowAlike (serializer : Serializer) : MemoryRow → RedisRow → Prop
  | running (requestHash owner : String) (lease : Int) (attempt : Nat) :
    RowAlike serializer ⟨requestHash, .running, owner, lease, attempt⟩
      { requestHash := some requestHash, state := some .running, owner := some owner, leaseUntil := some lease
        attempt := some attempt }
  | completed (requestHash owner : String) (attempt : Nat) (response : ExecutionResponse)
    (h : serializer.RoundTrips response) :
    RowAlike serializer ⟨requestHash, .completed response, owner, 0, attempt⟩
      { requestHash := some requestHash, state := some .completed, owner := some owner, leaseUntil := some 0
        attempt := some attempt, response := some (serializer.dump response) }

/-- Both stores have the row, or neither. -/
inductive RowsAlike (serializer : Serializer) : Option MemoryRow → Option (RedisRow × ℚ) → Prop
  | none : RowsAlike serializer none none
  | some {row : MemoryRow} {hash : RedisRow} {ends : ℚ} (h : RowAlike serializer row hash) :
    RowsAlike serializer (some row) (some (hash, ends))

/-- Both stores hold the same rows, and the same uses of assertions that are not over. -/
structure Twins.Alike (serializer : Serializer) (s : Twins) : Prop where
  rows : ∀ id, RowsAlike serializer (s.inMemory.executions id) (s.server.executions id)
  replays : ∀ jti (t : ℚ), s.clock ≤ t → (s.inMemory.replays jti).filter (fun value => t ≤ value.1) =
    ((s.server.replays jti).map Prod.swap).filter fun value => t ≤ value.1

variable {s : Twins} {now : Int}

theorem alike_empty (clock : Int) : (Twins.empty clock).Alike serializer :=
  ⟨fun _ => .none, fun _ _ _ => rfl⟩

theorem alike_later (h : s.Alike serializer) (hnow : s.clock ≤ now) :
    Twins.Alike serializer ⟨now, s.inMemory, s.server⟩ :=
  ⟨h.rows, fun jti t ht => h.replays jti t (le_trans (Int.cast_le.mpr hnow) ht)⟩

/-- The uses of assertions that are over are forgotten in memory. -/
theorem alike_purge (h : s.Alike serializer) (hnow : s.clock ≤ now) :
    Twins.Alike serializer ⟨now, s.inMemory.purge now, s.server⟩ where
  rows := h.rows
  replays jti t ht := by
    have hle : (s.clock : ℚ) ≤ t := le_trans (Int.cast_le.mpr hnow) ht
    rw [← h.replays jti t hle]
    show (Option.filter _ ((s.inMemory.replays jti).filter fun value => (now : ℚ) ≤ value.1)) = _
    rw [Option.filter_filter]
    refine congrArg (Option.filter · _) (funext fun value => ?_)
    simp only [Bool.and_eq_decide, decide_eq_true_eq, decide_eq_decide]
    exact ⟨fun hv => hv.2, fun hv => ⟨le_trans ht hv, hv⟩⟩

/-- A use of an assertion is live in both stores, or in neither. -/
theorem replay_get (h : s.Alike serializer) (hnow : s.clock ≤ now) (jti : String)
    (hbetween : ∀ ends execution, s.inMemory.replays jti = some (ends, execution) → ends ≠ now) :
    ((s.inMemory.purge now).replays jti).map Prod.snd = RedisServer.get now (s.server.replays jti) := by
  have hsame := h.replays jti now (Int.cast_le.mpr hnow)
  have hpurge : (s.inMemory.purge now).replays jti =
    (s.inMemory.replays jti).filter fun value => (now : ℚ) ≤ value.1 := rfl
  rw [hpurge, hsame]
  cases hserver : s.server.replays jti with
  | none => rfl
  | some entry =>
    obtain ⟨execution, ends⟩ := entry
    by_cases hlt : (now : ℚ) < ends
    · simp [RedisServer.get, Option.filter, hlt, hlt.le]
    · -- at the second at which a use ends, only the store in memory would still have it
      have hne : ¬ (now : ℚ) ≤ ends := by
        intro hle
        rw [hserver] at hsame
        simp only [Option.map_some, Prod.swap_prod_mk, Option.filter, hle, decide_true, if_true] at hsame
        cases hmemory : s.inMemory.replays jti with
        | none =>
          rw [hmemory] at hsame
          cases hsame
        | some value =>
          rw [hmemory] at hsame
          simp only at hsame
          split at hsame
          · obtain rfl := Option.some.inj hsame
            exact hbetween _ _ hmemory (le_antisymm (not_lt.mp hlt) hle)
          · cases hsame
      simp [RedisServer.get, Option.filter, hlt, hne]

/-- A use of an assertion that both stores note. -/
theorem alike_use (h : s.Alike serializer) (jti execution : String) (ends : ℚ) :
    Twins.Alike serializer ⟨s.clock,
      { s.inMemory with replays := Function.update s.inMemory.replays jti (some (ends, execution)) },
      { s.server with replays := Function.update s.server.replays jti (some (execution, ends)) }⟩ where
  rows := h.rows
  replays jti' t ht := by
    by_cases heq : jti' = jti
    · subst heq
      simp only [Function.update_self]
      rfl
    · simp only [Function.update_of_ne heq]
      exact h.replays jti' t ht

/-- A row that both stores write. -/
theorem alike_write (h : s.Alike serializer) (id : String) {row : MemoryRow} {hash : RedisRow} (ends : ℚ)
    (hrow : RowAlike serializer row hash) :
    Twins.Alike serializer ⟨s.clock,
      { s.inMemory with executions := Function.update s.inMemory.executions id (some row) },
      { s.server with executions := Function.update s.server.executions id (some (hash, ends)) }⟩ where
  rows id' := by
    by_cases heq : id' = id
    · subst heq
      simp only [Function.update_self]
      exact .some hrow
    · simp only [Function.update_of_ne heq]
      exact h.rows id'
  replays := h.replays

/-- A row that is asked for is still there. -/
theorem retained_get {call : Call} (hadm : s.Admits serializer call now) {hash : RedisRow} {ends : ℚ}
    (hserver : s.server.executions call.executionId = some (hash, ends)) :
    RedisServer.get (now : ℚ) (some (hash, ends)) = some hash := by
  have hlt := hadm.retained hash ends hserver
  simp [RedisServer.get, Option.filter, hlt]

/-! ## Each call -/

variable {request : ClaimRequest} {m : MemoryExecutionStateStore} {server : RedisServer}

/-- What the script answers is the claim of the store in memory, and both hold the same afterwards. -/
structure Corresponds (serializer : Serializer) (now : Int) (claim : ExecutionClaim × MemoryExecutionStateStore)
    (script : (ClaimStatus × Nat × String) × RedisServer) : Prop where
  answer : (script.1.2.2 = "" ∧ claim.1 = { status := script.1.1, attempt := script.1.2.1 }) ∨
    ∃ response, serializer.RoundTrips response ∧ script.1.2.2 = serializer.dump response ∧
      claim.1 = { status := script.1.1, response := some response, attempt := script.1.2.1 }
  alike : Twins.Alike serializer ⟨now, claim.2, script.2⟩

/-- `CLAIM_SCRIPT` as the execution plane calls it for the request at `now`. -/
def ClaimRequest.script (request : ClaimRequest) (retention now : Int) (server : RedisServer) (row : RedisRow) :
    (ClaimStatus × Nat × String) × RedisServer :=
  server.leaseScript now row request.assertionJti request.requestHash request.executionId request.owner
    (max 1 request.assertionTtl) now (now + request.leaseSeconds) retention

/-- Both stores give the request a new lease. -/
theorem alike_acquire (h : Twins.Alike serializer ⟨now, m, server⟩) (attempt : Nat) (ends : ℚ) :
    Twins.Alike serializer ⟨now, (m.acquire request now attempt).2,
      { server with executions := Function.update server.executions request.executionId (some
          ({ requestHash := some request.requestHash, state := some .running, owner := some request.owner
             leaseUntil := some (now + request.leaseSeconds), attempt := some attempt }, ends)) }⟩ := by
  refine alike_write h request.executionId ends ?_
  have hlease : ((now : ℚ) + request.leaseSeconds) = ((now + request.leaseSeconds : Int) : ℚ) := by push_cast; rfl
  rw [hlease]
  exact .running request.requestHash request.owner (now + request.leaseSeconds) attempt

/-- The script on a row that is not there. -/
theorem script_new (h : Twins.Alike serializer ⟨now, m, server⟩) (httl : 1 ≤ request.assertionTtl)
    (hrow : m.executions request.executionId = none)
    (hfree : RedisServer.get (now : ℚ) (server.replays request.assertionJti) = none) :
    Corresponds serializer now (m.useAssertion request now) (request.script retention now server {}) := by
  have hused := alike_use h request.assertionJti request.executionId (now + request.assertionTtl)
  have hmemory : m.useAssertion request now = ({ m with
      replays := Function.update m.replays request.assertionJti
        (some ((now : ℚ) + request.assertionTtl, request.executionId)) }).acquire request now 1 := by
    simp only [MemoryExecutionStateStore.useAssertion, hrow]
  have hscript : request.script retention now server {} = ((.acquired, 1, ""),
      { server with
        replays := Function.update server.replays request.assertionJti
          (some (request.executionId, (now : ℚ) + request.assertionTtl))
        executions := Function.update server.executions request.executionId (some
          ({ requestHash := some request.requestHash, state := some .running, owner := some request.owner
             leaseUntil := some (now + request.leaseSeconds), attempt := some 1 }, (now : ℚ) + retention)) }) := by
    simp only [ClaimRequest.script, RedisServer.leaseScript, hfree, max_eq_right httl]
    rfl
  rw [hmemory, hscript]
  exact ⟨.inl ⟨rfl, rfl⟩, alike_acquire hused 1 _⟩

/-- The script on a row that is running. -/
theorem script_running (h : Twins.Alike serializer ⟨now, m, server⟩) (httl : 1 ≤ request.assertionTtl)
    {owner : String} {lease : Int} {attempt : Nat}
    (hrow : m.executions request.executionId = some ⟨request.requestHash, .running, owner, lease, attempt⟩)
    (hfree : RedisServer.get (now : ℚ) (server.replays request.assertionJti) = none) :
    Corresponds serializer now (m.useAssertion request now) (request.script retention now server
      { requestHash := some request.requestHash, state := some .running, owner := some owner
        leaseUntil := some lease, attempt := some attempt }) := by
  have hused := alike_use h request.assertionJti request.executionId (now + request.assertionTtl)
  by_cases hlive : now < lease
  · have hmemory : m.useAssertion request now = ({ status := .inProgress, attempt := attempt },
        { m with
          replays := Function.update m.replays request.assertionJti
            (some ((now : ℚ) + request.assertionTtl, request.executionId)) }) := by
      simp only [MemoryExecutionStateStore.useAssertion, hrow]
      rw [if_pos (Int.cast_lt.mpr hlive)]
    rw [hmemory]
    simp only [ClaimRequest.script, RedisServer.leaseScript, hfree, max_eq_right httl]
    rw [if_pos ⟨trivial, hlive⟩]
    exact ⟨.inl ⟨rfl, rfl⟩, hused⟩
  · have hmemory : m.useAssertion request now = ({ m with
        replays := Function.update m.replays request.assertionJti
          (some ((now : ℚ) + request.assertionTtl, request.executionId)) }).acquire request now (attempt + 1) := by
      simp only [MemoryExecutionStateStore.useAssertion, hrow]
      rw [if_neg fun hlt => hlive (Int.cast_lt.mp hlt)]
    rw [hmemory]
    simp only [ClaimRequest.script, RedisServer.leaseScript, hfree, max_eq_right httl]
    rw [if_neg fun hlt => hlive hlt.2]
    exact ⟨.inl ⟨rfl, rfl⟩, alike_acquire hused (attempt + 1) _⟩

/-- Both stores answer a claim alike. -/
theorem claim_corresponds (retention : Int) (h : s.Alike serializer) (hadm : s.Admits serializer (.claim request) now) :
    Corresponds serializer now (s.inMemory.claim request now)
      (s.server.claimScript now request.assertionJti request.requestHash request.executionId request.owner
        (max 1 request.assertionTtl) now (now + request.leaseSeconds) retention) := by
  have hpurged := alike_purge h hadm.monotone
  have hreplay := replay_get h hadm.monotone request.assertionJti (hadm.between request rfl)
  have hrow := hpurged.rows request.executionId
  have hget := fun hash ends => @retained_get _ s now _ hadm hash ends
  dsimp only [Call.executionId] at hget
  have httl := hadm.passed.1
  simp only [MemoryExecutionStateStore.claim, RedisServer.claimScript]
  generalize s.inMemory.purge now = m at hpurged hreplay hrow ⊢
  generalize s.server.executions request.executionId = entry at hrow hget
  generalize hmemory : m.executions request.executionId = row at hrow
  rcases hrow with _ | ⟨⟨requestHash, owner, lease, attempt⟩ | ⟨requestHash, owner, attempt, response, hcodes⟩⟩
  · -- there is no row: a new one, unless the assertion was used
    show Corresponds serializer now _ (request.script retention now s.server {})
    cases hused : m.replays request.assertionJti with
    | none => exact script_new hpurged httl hmemory (by rw [← hreplay, hused]; rfl)
    | some use =>
      have huse : RedisServer.get (now : ℚ) (s.server.replays request.assertionJti) = some use.2 := by
        rw [← hreplay, hused]; rfl
      simp only [ClaimRequest.script, RedisServer.leaseScript, huse]
      rw [if_neg (by simp)]
      exact ⟨.inl ⟨rfl, rfl⟩, hpurged⟩
  · rw [hget _ _ rfl]
    dsimp only [Option.getD_some]
    by_cases hhash : requestHash = request.requestHash
    · subst hhash
      rw [if_neg (not_not.mpr rfl), if_neg (by simp), if_neg (by simp)]
      show Corresponds serializer now _ (request.script retention now s.server
        { requestHash := some request.requestHash, state := some .running, owner := some owner
          leaseUntil := some lease, attempt := some attempt })
      cases hused : m.replays request.assertionJti with
      | none => exact script_running hpurged httl hmemory (by rw [← hreplay, hused]; rfl)
      | some use =>
        have huse : RedisServer.get (now : ℚ) (s.server.replays request.assertionJti) = some use.2 := by
          rw [← hreplay, hused]; rfl
        simp only [ClaimRequest.script, RedisServer.leaseScript, huse, and_true]
        split
        · exact ⟨.inl ⟨rfl, rfl⟩, hpurged⟩
        · exact ⟨.inl ⟨rfl, rfl⟩, hpurged⟩
    · rw [if_pos hhash, if_pos (by simpa using hhash)]
      exact ⟨.inl ⟨rfl, rfl⟩, hpurged⟩
  · rw [hget _ _ rfl]
    dsimp only [Option.getD_some]
    by_cases hhash : requestHash = request.requestHash
    · rw [if_neg (by simpa using hhash), if_neg (by simpa using hhash), if_pos rfl]
      exact ⟨.inr ⟨response, hcodes, rfl, rfl⟩, hpurged⟩
    · rw [if_pos hhash, if_pos (by simpa using hhash)]
      exact ⟨.inl ⟨rfl, rfl⟩, hpurged⟩

/-- Both stores answer a call alike, and hold the same afterwards. -/
structure Twins.Agrees (serializer : Serializer) (retention : Int) (s : Twins) (call : Call) (now : Int) : Prop where
  answers : (memory.answer s.inMemory now call).1 = ((redis serializer retention).answer s.server now call).1
  alike : (s.apply serializer retention call now).Alike serializer

theorem claim_agrees (h : s.Alike serializer) (hadm : s.Admits serializer (.claim request) now) :
    s.Agrees serializer retention (.claim request) now := by
  have hclaim := claim_corresponds retention h hadm
  have hredis : (redis serializer retention).answer s.server now (.claim request) =
      (.claim (s.server.claim serializer retention request now now).1,
        (s.server.claim serializer retention request now now).2) := rfl
  simp only [RedisServer.claim, Int.floor_intCast] at hredis
  generalize s.server.claimScript now request.assertionJti request.requestHash request.executionId request.owner
    (max 1 request.assertionTtl) now (now + request.leaseSeconds) retention = script at hclaim hredis
  obtain ⟨⟨status, attempt, payload⟩, server⟩ := script
  obtain ⟨⟨rfl, hsame⟩ | ⟨response, hcodes, rfl, hsame⟩, halike⟩ := hclaim
  · refine ⟨?_, ?_⟩
    · rw [hredis, if_pos rfl]
      exact congrArg (fun claim => Answer.claim (some claim)) hsame
    · show Twins.Alike serializer ⟨now, (s.inMemory.claim request now).2, _⟩
      rw [hredis, if_pos rfl]
      exact halike
  · refine ⟨?_, ?_⟩
    · rw [hredis, if_neg hcodes.1, hcodes.2]
      exact congrArg (fun claim => Answer.claim (some claim)) hsame
    · show Twins.Alike serializer ⟨now, (s.inMemory.claim request now).2, _⟩
      rw [hredis, if_neg hcodes.1]
      exact halike

theorem complete_agrees {request : CompleteRequest} (h : s.Alike serializer)
    (hadm : s.Admits serializer (.complete request) now) :
    s.Agrees serializer retention (.complete request) now := by
  have hlater := alike_later h hadm.monotone
  have hget := fun hash ends => @retained_get _ s now _ hadm hash ends
  have hcodes : serializer.RoundTrips request.response := hadm.passed
  suffices hboth : (s.inMemory.complete request now).1 = (s.server.completeScript now request.executionId
        request.requestHash request.owner request.attempt (serializer.dump request.response) now retention).1 ∧
      Twins.Alike serializer ⟨now, (s.inMemory.complete request now).2, (s.server.completeScript now
        request.executionId request.requestHash request.owner request.attempt
        (serializer.dump request.response) now retention).2⟩ by
    have hredis : (redis serializer retention).answer s.server now (.complete request) =
        (.complete (s.server.complete serializer retention request now now).1,
          (s.server.complete serializer retention request now now).2) := rfl
    simp only [RedisServer.complete, Int.floor_intCast] at hredis
    refine ⟨?_, ?_⟩
    · rw [hredis]
      exact congrArg Answer.complete hboth.1
    · show Twins.Alike serializer ⟨now, (s.inMemory.complete request now).2, _⟩
      rw [hredis]
      exact hboth.2
  have hrow := h.rows request.executionId
  simp only [MemoryExecutionStateStore.complete, RedisServer.completeScript]
  dsimp only [Call.executionId] at hget
  generalize s.server.executions request.executionId = entry at hrow hget
  generalize s.inMemory.executions request.executionId = row at hrow
  rcases hrow with _ | ⟨⟨requestHash, owner, lease, attempt⟩ | ⟨requestHash, owner, attempt, response, _⟩⟩
  · exact ⟨rfl, hlater⟩
  · rw [hget _ _ rfl]
    dsimp only [Option.getD_some]
    by_cases hhash : requestHash = request.requestHash
    · by_cases howner : owner = request.owner
      · by_cases hattempt : attempt = request.attempt
        · by_cases hlive : lease ≤ now
          · have hlive' : (lease : ℚ) ≤ now := Int.cast_le.mpr hlive
            simp [hhash, howner, hattempt, hlive, hlive', hlater]
          · have hlive' : ¬ ((lease : ℚ) ≤ now) := fun hle => hlive (Int.cast_le.mp hle)
            subst hhash howner hattempt
            simp only [ne_eq, not_true_eq_false, if_false, false_or, hlive', hlive]
            exact ⟨trivial, alike_write hlater _ _ (.completed _ _ _ _ hcodes)⟩
        · simp [hhash, howner, hattempt, hlater]
      · simp [hhash, howner, hlater]
    · simp [hhash, hlater]
  · rw [hget _ _ rfl]
    dsimp only [Option.getD_some]
    rw [if_pos (.inl (by simp))]
    refine ⟨?_, ?_⟩
    · show false = _
      split_ifs <;> simp_all
    · split_ifs <;> simp_all

theorem alike_inductive (serializer : Serializer) (retention : Int) :
    (twins serializer retention).Inductive (Twins.Alike serializer) where
  start := by
    rintro s ⟨clock, rfl⟩
    exact alike_empty clock
  step := by
    rintro s t ⟨call, now⟩ h ⟨hadm, rfl⟩
    cases call with
    | claim request => exact (claim_agrees h hadm).alike
    | complete request => exact (complete_agrees h hadm).alike

/-- At every call of every sequence, the store in memory and the one in Redis give the same answer. -/
theorem stores_interchangeable (serializer : Serializer) (retention : Int) {s : Twins}
    (hs : (twins serializer retention).Reachable s) {call : Call} {now : Int} (hadm : s.Admits serializer call now) :
    (memory.answer s.inMemory now call).1 = ((redis serializer retention).answer s.server now call).1 := by
  have h := (alike_inductive serializer retention).reachable hs
  cases call with
  | claim request => exact (claim_agrees h hadm).answers
  | complete request => exact (complete_agrees h hadm).answers

namespace Sample

def claimRequest (jti owner : String) : ClaimRequest := ⟨"e", "h", jti, 60, owner, 30⟩

def take : Call := .claim (claimRequest "1" "a")

def takeOver : Call := .claim (claimRequest "2" "b")

def finish : Call := .complete ⟨"e", "h", "b", 2, response⟩

def askAgain : Call := .claim (claimRequest "3" "c")

/-- Both stores after the calls. -/
def both (es : List (Call × Int)) : Twins := es.foldl (fun s e => s.apply Sample.serializer 86400 e.1 e.2) (.empty 100)

theorem both_admits {es : List (Call × Int)} {call : Call} (hclock : (both es).clock ≤ now)
    (hpassed : call.Passed Sample.serializer)
    (hretained : ((both es).server.executions call.executionId).all (fun row => (now : ℚ) < row.2) = true)
    (hbetween : ∀ request, call = .claim request →
      ((both es).inMemory.replays request.assertionJti).all (fun use => use.1 ≠ (now : ℚ)) = true) :
    (both es).Admits Sample.serializer call now where
  monotone := hclock
  passed := hpassed
  retained row ends hrow := by
    rw [hrow] at hretained
    simpa using hretained
  between request hcall ends execution hused := by
    have hends := hbetween request hcall
    rw [hused] at hends
    simpa using hends

theorem both_snoc {es : List (Call × Int)} (call : Call) (now : Int)
    (h : (twins Sample.serializer 86400).Reachable (both es)) (hadm : (both es).Admits Sample.serializer call now) :
    (twins Sample.serializer 86400).Reachable (both (es ++ [(call, now)])) := by
  obtain ⟨s, events, hs, hr⟩ := h
  refine ⟨s, events ++ [(call, now)], hs, hr.snoc ⟨hadm, ?_⟩⟩
  simp [both]

end Sample

/-- A lease that runs out, the take-over and its completion; then the response is read back from both stores. -/
theorem stores_interchangeable_sample :
    let s := Sample.both [(Sample.take, 100), (Sample.takeOver, 131), (Sample.finish, 140)]
    (memory.answer s.inMemory ((150 : Int) : ℚ) Sample.askAgain).1 = .claim (some ⟨.cached, some Sample.response, 2⟩) ∧
      (memory.answer s.inMemory ((150 : Int) : ℚ) Sample.askAgain).1 =
        ((redis Sample.serializer 86400).answer s.server ((150 : Int) : ℚ) Sample.askAgain).1 := by
  have h₀ : (twins Sample.serializer 86400).Reachable (Sample.both []) := ⟨_, [], ⟨100, rfl⟩, .nil⟩
  have h₁ := Sample.both_snoc Sample.take 100 h₀ (Sample.both_admits (by decide)
    ⟨by decide, by decide⟩ (by decide +kernel) (by rintro _ ⟨rfl⟩; decide +kernel))
  have h₂ := Sample.both_snoc Sample.takeOver 131 h₁ (Sample.both_admits (by decide)
    ⟨by decide, by decide⟩ (by decide +kernel) (by rintro _ ⟨rfl⟩; decide +kernel))
  have h₃ := Sample.both_snoc Sample.finish 140 h₂ (Sample.both_admits (by decide)
    Sample.roundTrips (by decide +kernel) (by rintro _ ⟨⟩))
  refine ⟨by decide +kernel, stores_interchangeable Sample.serializer 86400 h₃ ?_⟩
  exact Sample.both_admits (by decide) ⟨by decide, by decide⟩ (by decide +kernel) (by rintro _ ⟨rfl⟩; decide +kernel)

end CodeMate.Sandbox
