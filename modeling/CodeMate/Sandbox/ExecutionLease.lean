import CodeMate.Sandbox.ExecutionStore

/-!
# One lease for each execution

What `claim` and `complete` do to a row, said once for both stores: they move
it as a leased entry moves, or leave it (`Lawful`, with `memory_lawful` and
`redis_lawful`). So the log of an execution is a history of leases
(`Tracks.step`), and later claims are answered from it (`Answers`);
`execution_store_safe` is what holds in every state that is reached while the
row is retained.
-/

namespace CodeMate.Sandbox

open Framework Framework.Lease

abbrev Execution := Entry String String ExecutionResponse ℚ

/-- A row that is held is that of the execution `e`. -/
def Matches {R : Type} (holds : R → Execution → Prop) (row : Option R) (e : Option Execution) : Prop :=
  ∀ r, row = some r → ∃ e', e = some e' ∧ holds r e'

/-- What `claim` makes of an execution, and answers. -/
inductive Claimed (request : ClaimRequest) (read leaseUntil : ℚ) :
    Option Execution → Option ExecutionClaim → Option Execution → Prop
  | conflict {e : Execution} : e.hash ≠ request.requestHash →
      Claimed request read leaseUntil (some e) (some { status := .conflict }) (some e)
  | cached (attempt : Nat) (response : ExecutionResponse) :
      Claimed request read leaseUntil (some (.completed request.requestHash attempt response))
        (some ⟨.cached, some response, attempt⟩) (some (.completed request.requestHash attempt response))
  | refused {e : Option Execution} {answer : ExecutionClaim} :
      (∀ e', e = some e' → ∃ owner attempt ends, e' = .running request.requestHash owner attempt ends) →
      answer.status ≠ .acquired → Claimed request read leaseUntil e (some answer) e
  | acquired {e : Option Execution} {attempt : Nat} {e' : Execution} :
      Move read e (.acquired request.requestHash request.owner attempt leaseUntil) e' →
      Claimed request read leaseUntil e (some { status := .acquired, attempt := attempt }) (some e')

/-- What `complete` makes of an execution, and answers. -/
inductive Settled (request : CompleteRequest) (instant : ℚ) :
    Option Execution → Bool → Option Execution → Prop
  | refused (e : Option Execution) : Settled request instant e false e
  | committed {e : Option Execution} {e' : Execution} :
      Move instant e (.completed request.requestHash request.owner request.attempt request.response) e' →
      Settled request instant e true (some e')

/-- A store whose operations move its rows as executions. -/
structure Lawful (B : ExecutionStateStore) (holds : B.Row → Execution → Prop) : Prop where
  claim {s : B.State} {request : ClaimRequest} {read clock : ℚ} {e : Option Execution} : read ≤ clock →
    Matches holds (B.row s clock request.executionId) e →
    (e ≠ none → (B.row s clock request.executionId).isSome) →
    ∃ e', Claimed request read (B.leaseUntil request read) e (B.claim s request read clock).1 e' ∧
      Matches holds (B.row (B.claim s request read clock).2 clock request.executionId) e'
  complete {s : B.State} {request : CompleteRequest} {read clock : ℚ} {e : Option Execution} :
    B.codes request.response → Matches holds (B.row s clock request.executionId) e →
    (e ≠ none → (B.row s clock request.executionId).isSome) →
    ∃ e', Settled request (B.instant read clock) e (B.complete s request read clock).1 e' ∧
      Matches holds (B.row (B.complete s request read clock).2 clock request.executionId) e'
  /-- A call leaves the rows of the other executions. -/
  claim_frame {s : B.State} {request : ClaimRequest} {read clock : ℚ} {id : String} :
    id ≠ request.executionId → ∀ t, B.row (B.claim s request read clock).2 t id = B.row s t id
  complete_frame {s : B.State} {request : CompleteRequest} {read clock : ℚ} {id : String} :
    id ≠ request.executionId → ∀ t, B.row (B.complete s request read clock).2 t id = B.row s t id
  /-- In time a row can only go. -/
  row_mono {s : B.State} {clock t : ℚ} {id : String} {row : B.Row} :
    clock ≤ t → B.row s t id = some row → B.row s clock id = some row
  instant_le {read clock : ℚ} : read ≤ clock → B.instant read clock ≤ clock
  /-- A claim with another request hash changes no row and no live replay record. -/
  conflict {s : B.State} {request : ClaimRequest} {read clock : ℚ} {row : B.Row} {e : Execution} :
    read ≤ clock → B.row s clock request.executionId = some row → holds row e → e.hash ≠ request.requestHash →
    (∀ t id, B.row (B.claim s request read clock).2 t id = B.row s t id) ∧
      ∀ t jti, clock ≤ t → B.replay (B.claim s request read clock).2 t jti = B.replay s t jti

/-! ## The store in memory -/

/-- The execution a row is of. -/
def MemoryRow.execution (row : MemoryRow) : Execution :=
  match row.state with
  | .running => .running row.requestHash row.owner row.attempt row.leaseUntil
  | .completed response => .completed row.requestHash row.attempt response

@[simp] theorem MemoryRow.hash_execution (row : MemoryRow) : row.execution.hash = row.requestHash := by
  unfold MemoryRow.execution
  split <;> rfl

theorem MemoryRow.execution_running {row : MemoryRow} (h : row.state = .running) :
    row.execution = .running row.requestHash row.owner row.attempt row.leaseUntil := by
  unfold MemoryRow.execution
  rw [h]

theorem MemoryRow.execution_completed {row : MemoryRow} {response : ExecutionResponse}
    (h : row.state = .completed response) :
    row.execution = .completed row.requestHash row.attempt response := by
  unfold MemoryRow.execution
  rw [h]

namespace MemoryExecutionStateStore

variable {s : MemoryExecutionStateStore} {request : ClaimRequest} {now : ℚ}

theorem useAssertion_claimed
    (h : ∀ row, s.executions request.executionId = some row →
      row.state = .running ∧ row.requestHash = request.requestHash) :
    Claimed request now (now + request.leaseSeconds) ((s.executions request.executionId).map (·.execution))
      (some (s.useAssertion request now).1)
      (((s.useAssertion request now).2.executions request.executionId).map (·.execution)) := by
  unfold useAssertion
  dsimp only
  split
  · next row hrow =>
    obtain ⟨hrun, hhash⟩ := h row hrow
    have hrun := MemoryRow.execution_running hrun
    rw [hhash] at hrun
    split
    · simp only [hrow, Option.map_some]
      exact .refused (fun e he => ⟨_, _, _, (Option.some.inj he).symm.trans hrun⟩) fun h => by cases h
    · next hlease =>
      simp only [acquire, hrow, Function.update_self, Option.map_some, hrun]
      exact .acquired (.takeover _ _ (not_lt.mp hlease))
  · next hrow =>
    simp only [acquire, hrow, Function.update_self, Option.map_none, Option.map_some]
    exact .acquired (.first _ _ _)

theorem purge_executions : (s.purge now).executions = s.executions := rfl

theorem claim_claimed :
    Claimed request now (now + request.leaseSeconds) ((s.executions request.executionId).map (·.execution))
      (some (s.claim request now).1)
      (((s.claim request now).2.executions request.executionId).map (·.execution)) := by
  unfold claim
  dsimp only
  have hpurge : (s.purge now).executions = s.executions := purge_executions
  rw [← hpurge]
  split
  · next hrow =>
    split
    · simp only [hrow, Option.map_none]
      exact .refused (fun e he => by cases he) fun h => by cases h
    · exact useAssertion_claimed (s := s.purge now) fun row h => by cases hrow.symm.trans h
  · next row hrow =>
    split
    · next hhash =>
      simp only [hrow, Option.map_some]
      exact .conflict (by simpa using hhash)
    · next hhash =>
      have hhash : row.requestHash = request.requestHash := not_not.mp hhash
      split
      · next response hstate =>
        simp only [hrow, Option.map_some, MemoryRow.execution_completed hstate, hhash]
        exact .cached _ _
      · next hstate =>
        have hrun := MemoryRow.execution_running hstate
        rw [hhash] at hrun
        have hrefused : ∀ e, some row.execution = some e → ∃ owner attempt ends,
            e = .running request.requestHash owner attempt ends :=
          fun e he => ⟨_, _, _, (Option.some.inj he).symm.trans hrun⟩
        split
        · split
          · simp only [hrow, Option.map_some]
            exact .refused hrefused fun h => by cases h
          · simp only [hrow, Option.map_some]
            exact .refused hrefused fun h => by cases h
        · refine useAssertion_claimed (s := s.purge now) fun row' h => ?_
          obtain rfl := Option.some.inj (hrow.symm.trans h)
          exact ⟨hstate, hhash⟩

theorem claim_frame {id : String} (h : id ≠ request.executionId) :
    (s.claim request now).2.executions id = s.executions id := by
  have huse : ∀ s' : MemoryExecutionStateStore,
      (s'.useAssertion request now).2.executions id = s'.executions id := by
    intro s'
    unfold useAssertion acquire
    dsimp only
    split
    · split
      · rfl
      · exact Function.update_of_ne h _ _
    · exact Function.update_of_ne h _ _
  unfold claim
  dsimp only
  split
  · split
    · rfl
    · exact huse _
  · split
    · rfl
    · split
      · rfl
      · split
        · split <;> rfl
        · exact huse _

theorem complete_settled {request : CompleteRequest} :
    Settled request now ((s.executions request.executionId).map (·.execution)) (s.complete request now).1
      (((s.complete request now).2.executions request.executionId).map (·.execution)) := by
  unfold complete
  split
  · exact .refused _
  · next row hrow =>
    split
    · exact .refused _
    · next hok =>
      obtain ⟨hstate, hhash, howner, hattempt, hlease⟩ := by simpa only [not_or, not_not, not_le] using hok
      simp only [hrow, Function.update_self, Option.map_some]
      rw [MemoryRow.execution_running hstate, MemoryRow.execution_completed rfl, hhash, howner, hattempt]
      exact .committed (.complete _ hlease)

theorem complete_frame {request : CompleteRequest} {id : String} (h : id ≠ request.executionId) :
    (s.complete request now).2.executions id = s.executions id := by
  unfold complete
  split
  · rfl
  · split
    · rfl
    · exact Function.update_of_ne h _ _

theorem claim_conflict {row : MemoryRow} (hrow : s.executions request.executionId = some row)
    (h : row.requestHash ≠ request.requestHash) : s.claim request now = ({ status := .conflict }, s.purge now) := by
  unfold claim
  dsimp only
  rw [purge_executions, hrow]
  exact if_pos h

end MemoryExecutionStateStore

theorem matches_map {row : Option MemoryRow} {e : Option Execution}
    (h : Matches (fun (row : MemoryRow) e => row.execution = e) row e) (hrow : e ≠ none → row.isSome) :
    row.map (·.execution) = e := by
  cases row with
  | none =>
    cases e with
    | none => rfl
    | some e => cases hrow (fun h => by cases h)
  | some row =>
    obtain ⟨e', rfl, he⟩ := h row rfl
    exact congrArg some he

theorem matches_execution (row : Option MemoryRow) :
    Matches (fun (row : MemoryRow) e => row.execution = e) row (row.map (·.execution)) := by
  rintro r rfl
  exact ⟨_, rfl, rfl⟩

theorem memory_lawful : Lawful memory fun row e => row.execution = e where
  claim _ h hrow := by
    rw [← matches_map h hrow]
    exact ⟨_, MemoryExecutionStateStore.claim_claimed, matches_execution _⟩
  complete _ h hrow := by
    rw [← matches_map h hrow]
    exact ⟨_, MemoryExecutionStateStore.complete_settled, matches_execution _⟩
  claim_frame h _ := MemoryExecutionStateStore.claim_frame h
  complete_frame h _ := MemoryExecutionStateStore.complete_frame h
  row_mono _ h := h
  instant_le _ := le_rfl
  conflict {s request read clock row e} hread hrow he hne := by
    obtain rfl := he
    have hne : MemoryRow.requestHash row ≠ request.requestHash :=
      fun h => hne ((MemoryRow.hash_execution row).trans h)
    have hclaim : s.claim request read = _ := MemoryExecutionStateStore.claim_conflict hrow hne
    show (∀ t id, (s.claim request read).2.executions id = s.executions id) ∧ ∀ t jti, clock ≤ t →
      (((s.claim request read).2.replays jti).filter fun value => t ≤ value.1).map Prod.snd =
        ((s.replays jti).filter fun value => t ≤ value.1).map Prod.snd
    rw [hclaim]
    refine ⟨fun t id => rfl, fun t jti ht => ?_⟩
    -- what the purge drops was over before the claim read the clock
    have hpurge : (((s.purge read).replays jti).filter fun value => decide (t ≤ value.1)) =
        (s.replays jti).filter fun value => decide (t ≤ value.1) := by
      show (((s.replays jti).filter fun value => decide (read ≤ value.1)).filter
        fun value => decide (t ≤ value.1)) = _
      rw [Option.filter_filter]
      refine congrArg (fun p => (s.replays jti).filter p) (funext fun value => ?_)
      by_cases hv : t ≤ value.1
      · simp [hv, (hread.trans ht).trans hv]
      · simp [hv]
    rw [hpurge]

/-! ## The store in Redis -/

section Redis

variable {serializer : Serializer} {retention : Int}

/-- The hash that the scripts write for an execution. -/
inductive RedisRow.Holds (serializer : Serializer) : RedisRow → Execution → Prop
  | running (hash owner : String) (attempt : Nat) (leaseUntil : Int) (response : Option String) :
      Holds serializer ⟨some hash, some .running, some owner, some leaseUntil, some attempt, response⟩
        (.running hash owner attempt (leaseUntil : ℚ))
  | completed (hash : String) (owner : Option String) (leaseUntil : Option Int) (attempt : Nat)
      {response : ExecutionResponse} : serializer.RoundTrips response →
      Holds serializer ⟨some hash, some .completed, owner, leaseUntil, some attempt,
        some (serializer.dump response)⟩ (.completed hash attempt response)

namespace RedisServer

theorem get_mono {α : Type} {clock t : ℚ} (h : clock ≤ t) {entry : Option (α × ℚ)} {a : α}
    (ha : get t entry = some a) : get clock entry = some a := by
  obtain ⟨v, hv, rfl⟩ := Option.map_eq_some_iff.mp ha
  obtain ⟨rfl, hlive⟩ := Option.filter_eq_some_iff.mp hv
  exact Option.map_eq_some_iff.mpr
    ⟨v, Option.filter_eq_some_iff.mpr ⟨rfl, decide_eq_true (h.trans_lt (of_decide_eq_true hlive))⟩, rfl⟩

/-- A key that was just written has its value, or has already expired. -/
theorem get_eq_some {α : Type} {clock : ℚ} {v : α × ℚ} {a : α} (h : get clock (some v) = some a) : v.1 = a := by
  obtain ⟨v', hv, rfl⟩ := Option.map_eq_some_iff.mp h
  obtain ⟨heq, -⟩ := Option.filter_eq_some_iff.mp hv
  rw [Option.some.inj heq]

variable {s : RedisServer} {request : ClaimRequest} {read clock : ℚ}

/-- The answer of a script that has no response to send. -/
theorem claim_eq_of_script {status : ClaimStatus} {attempt : Nat} {s' : RedisServer}
    (h : s.claimScript clock request.assertionJti request.requestHash request.executionId request.owner
      (max 1 request.assertionTtl) ⌊read⌋ (⌊read⌋ + request.leaseSeconds) retention =
        ((status, attempt, ""), s')) :
    s.claim serializer retention request read clock = (some { status := status, attempt := attempt }, s') := by
  unfold claim
  dsimp only
  rw [h]
  rfl

/-- `claim` on a row with a lease, or on none (`row = {}`), that has the hash of the request or no hash. -/
theorem claim_cases {row : RedisRow} (hget : (get clock (s.executions request.executionId)).getD {} = row)
    (hhash : row.requestHash.any (· ≠ request.requestHash) = false) (hstate : row.state ≠ some .completed) :
    (∃ answer : ExecutionClaim, answer.status ≠ .acquired ∧
      (s.claim serializer retention request read clock).1 = some answer ∧
      (s.claim serializer retention request read clock).2.executions = s.executions) ∨
    (row.state = some .running → row.leaseUntil.getD 0 ≤ ⌊read⌋) ∧
      (s.claim serializer retention request read clock).1 =
        some { status := .acquired, attempt := row.attempt.getD 0 + 1 } ∧
      (s.claim serializer retention request read clock).2.executions request.executionId = some
        ({ row with
            attempt := some (row.attempt.getD 0 + 1)
            requestHash := some request.requestHash
            state := some .running
            owner := some request.owner
            leaseUntil := some (⌊read⌋ + request.leaseSeconds) }, clock + retention) := by
  have hscript : s.claimScript clock request.assertionJti request.requestHash request.executionId request.owner
      (max 1 request.assertionTtl) ⌊read⌋ (⌊read⌋ + request.leaseSeconds) retention =
        s.leaseScript clock row request.assertionJti request.requestHash request.executionId request.owner
          (max 1 request.assertionTtl) ⌊read⌋ (⌊read⌋ + request.leaseSeconds) retention := by
    unfold claimScript
    dsimp only
    rw [hget, hhash, if_neg Bool.false_ne_true, if_neg hstate]
  unfold leaseScript at hscript
  dsimp only at hscript
  split at hscript
  · left
    split at hscript
    · rw [claim_eq_of_script hscript]
      exact ⟨_, (fun h => by cases h), rfl, rfl⟩
    · rw [claim_eq_of_script hscript]
      exact ⟨_, (fun h => by cases h), rfl, rfl⟩
  · split at hscript
    · rw [claim_eq_of_script hscript]
      exact .inl ⟨_, (fun h => by cases h), rfl, rfl⟩
    · next hlease =>
      rw [claim_eq_of_script hscript]
      exact .inr ⟨fun h => not_lt.mp fun hl => hlease ⟨h, hl⟩, rfl, Function.update_self ..⟩

theorem claim_conflict {row : RedisRow} {hash : String}
    (hget : get clock (s.executions request.executionId) = some row) (hrow : row.requestHash = some hash)
    (h : hash ≠ request.requestHash) :
    s.claim serializer retention request read clock = (some { status := .conflict }, s) := by
  refine claim_eq_of_script ?_
  unfold claimScript
  rw [hget]
  exact if_pos (by simpa [hrow] using h)

theorem claim_cached {row : RedisRow} {attempt : Nat} {response : ExecutionResponse}
    (hget : get clock (s.executions request.executionId) = some row)
    (hhash : row.requestHash = some request.requestHash) (hstate : row.state = some .completed)
    (hattempt : row.attempt = some attempt) (hresponse : row.response = some (serializer.dump response))
    (hcodes : serializer.RoundTrips response) :
    s.claim serializer retention request read clock = (some ⟨.cached, some response, attempt⟩, s) := by
  have hscript : s.claimScript clock request.assertionJti request.requestHash request.executionId request.owner
      (max 1 request.assertionTtl) ⌊read⌋ (⌊read⌋ + request.leaseSeconds) retention =
        ((.cached, attempt, serializer.dump response), s) := by
    unfold claimScript
    rw [hget]
    simp [hhash, hstate, hattempt, hresponse]
  unfold claim
  dsimp only
  rw [hscript]
  simp [hcodes.1, hcodes.2]

theorem claim_claimed {e : Option Execution}
    (hm : Matches (RedisRow.Holds serializer)
      (get clock (s.executions request.executionId)) e)
    (hrow : e ≠ none → (get clock (s.executions request.executionId)).isSome) :
    ∃ e', Claimed request read (((⌊read⌋ + request.leaseSeconds : Int) : ℚ)) e
        (s.claim serializer retention request read clock).1 e' ∧
      Matches (RedisRow.Holds serializer)
        (get clock ((s.claim serializer retention request read clock).2.executions request.executionId)) e' := by
  -- a lease that is granted stands in the new row
  have hnew : ∀ (row : RedisRow) (attempt : Nat),
      Matches (RedisRow.Holds serializer)
        (get clock (some
          (({ row with
              attempt := some attempt
              requestHash := some request.requestHash
              state := some .running
              owner := some request.owner
              leaseUntil := some (⌊read⌋ + request.leaseSeconds) } : RedisRow), clock + retention)))
        (some (.running request.requestHash request.owner attempt
          (((⌊read⌋ + request.leaseSeconds : Int) : ℚ)))) := by
    intro row attempt r hr
    obtain rfl := get_eq_some hr
    exact ⟨_, rfl, .running _ _ _ _ _⟩
  cases hget : get clock (s.executions request.executionId) with
  | none =>
    obtain rfl : e = none := by
      by_contra hne
      have := hrow hne
      rw [hget] at this
      cases this
    have hempty : (get clock (s.executions request.executionId)).getD {} = ({} : RedisRow) := by rw [hget]; rfl
    rcases claim_cases hempty rfl (fun h => by cases h) with
      ⟨answer, hne, hanswer, hsame⟩ | ⟨-, hanswer, hrow'⟩
    · rw [hanswer, hsame, hget]
      exact ⟨none, .refused (fun e he => by cases he) hne, fun r hr => by cases hr⟩
    · rw [hanswer, hrow']
      exact ⟨_, .acquired (.first _ _ _), hnew _ _⟩
  | some row =>
    obtain ⟨e', rfl, hholds⟩ := hm row hget
    by_cases hhash : e'.hash = request.requestHash
    · cases hholds with
      | running hash owner attempt leaseUntil response =>
        obtain rfl : hash = request.requestHash := hhash
        rcases claim_cases (by rw [hget, Option.getD_some]) (by simp) (fun h => by cases h) with
          ⟨answer, hne, hanswer, hsame⟩ | ⟨hlease, hanswer, hrow'⟩
        · rw [hanswer, hsame]
          exact ⟨_, .refused (fun e he => ⟨_, _, _, (Option.some.inj he).symm⟩) hne, hm⟩
        · rw [hanswer, hrow']
          have hended : leaseUntil ≤ ⌊read⌋ := hlease rfl
          exact ⟨_, .acquired (.takeover _ _ (Int.le_floor.mp hended)), hnew _ _⟩
      | completed hash owner leaseUntil attempt hcodes =>
        obtain rfl : hash = request.requestHash := hhash
        rw [claim_cached hget rfl rfl rfl rfl hcodes]
        exact ⟨_, .cached _ _, hm⟩
    · have hne : ∃ hash, row.requestHash = some hash ∧ hash = e'.hash := by
        cases hholds <;> exact ⟨_, rfl, rfl⟩
      obtain ⟨hash, hrow', rfl⟩ := hne
      rw [claim_conflict hget hrow' hhash]
      exact ⟨_, .conflict hhash, hm⟩

theorem claim_frame {id : String} (h : id ≠ request.executionId) :
    (s.claim serializer retention request read clock).2.executions id = s.executions id := by
  have hscript : ∀ (jti hash owner : String) (ttl now leaseUntil : Int),
      (s.claimScript clock jti hash request.executionId owner ttl now leaseUntil retention).2.executions id =
        s.executions id := by
    intro jti hash owner ttl now leaseUntil
    unfold claimScript leaseScript
    dsimp only
    split
    · rfl
    · split
      · rfl
      · split
        · split <;> rfl
        · split
          · rfl
          · exact Function.update_of_ne h _ _
  unfold claim
  dsimp only
  split
  · exact hscript ..
  · exact hscript ..

theorem complete_settled {request : CompleteRequest} {e : Option Execution}
    (hcodes : serializer.RoundTrips request.response)
    (hm : Matches (RedisRow.Holds serializer) (get clock (s.executions request.executionId)) e) :
    ∃ e', Settled request read e (s.complete serializer retention request read clock).1 e' ∧
      Matches (RedisRow.Holds serializer)
        (get clock ((s.complete serializer retention request read clock).2.executions request.executionId)) e' := by
  unfold complete completeScript
  cases hget : get clock (s.executions request.executionId) with
  | none =>
    rw [Option.getD_none]
    dsimp only
    rw [if_pos (fun h => by cases h), hget]
    exact ⟨e, .refused e, fun r hr => by cases hr⟩
  | some row =>
    obtain ⟨e', rfl, hholds⟩ := hm row hget
    rw [Option.getD_some]
    dsimp only
    split
    · exact ⟨_, .refused _, hm⟩
    · next hhash =>
      split
      · exact ⟨_, .refused _, hm⟩
      · next howner =>
        split
        · exact ⟨_, .refused _, hm⟩
        · next hattempt =>
          split
          · exact ⟨_, .refused _, hm⟩
          · next hstate =>
            split
            · exact ⟨_, .refused _, hm⟩
            · next hlease =>
              cases hholds with
              | completed => cases not_not.mp hstate
              | running hash owner attempt leaseUntil response =>
                obtain rfl : hash = request.requestHash := Option.some.inj (not_not.mp hhash)
                obtain rfl : owner = request.owner := Option.some.inj (not_not.mp howner)
                obtain rfl : attempt = request.attempt := Option.some.inj (not_not.mp hattempt)
                have hlive : ⌊read⌋ < leaseUntil := not_le.mp hlease
                refine ⟨_, .committed (.complete _ (Int.floor_lt.mp hlive)), fun r hr => ?_⟩
                dsimp only at hr
                rw [Function.update_self] at hr
                obtain rfl := get_eq_some hr
                exact ⟨_, rfl, .completed _ _ _ _ hcodes⟩

theorem complete_frame {request : CompleteRequest} {id : String} (h : id ≠ request.executionId) :
    (s.complete serializer retention request read clock).2.executions id = s.executions id := by
  unfold complete completeScript
  dsimp only
  repeat' split
  all_goals first | rfl | exact Function.update_of_ne h _ _

end RedisServer

theorem redis_lawful : Lawful (redis serializer retention) (RedisRow.Holds serializer) where
  claim _ h hrow := RedisServer.claim_claimed h hrow
  complete hcodes h _ := RedisServer.complete_settled hcodes h
  claim_frame h t := congrArg (RedisServer.get t) (RedisServer.claim_frame h)
  complete_frame h t := congrArg (RedisServer.get t) (RedisServer.complete_frame h)
  row_mono h hrow := RedisServer.get_mono h hrow
  instant_le h := h
  conflict {s request read clock row e} hread hrow he hne := by
    have hhash : ∃ hash, RedisRow.requestHash row = some hash ∧ hash = e.hash := by
      cases he <;> exact ⟨_, rfl, rfl⟩
    obtain ⟨hash, hhash, rfl⟩ := hhash
    have hclaim : (redis serializer retention).claim s request read clock = (some { status := .conflict }, s) :=
      RedisServer.claim_conflict hrow hhash hne
    rw [hclaim]
    exact ⟨fun t id => rfl, fun t jti ht => rfl⟩

end Redis

/-! ## Instances at work -/

section Plane

variable {B : ExecutionStateStore} {id : String}

theorem act_claim_of_ne {request : ClaimRequest} {read : ℚ} {answer : Option ExecutionClaim}
    (h : request.executionId ≠ id) : (Done.claim request read answer).act B id = none := by
  unfold Done.act
  split
  · next heq => cases heq; exact if_neg h
  · next heq => cases heq
  · rfl

theorem act_complete_of_ne {request : CompleteRequest} {instant : ℚ} {committed : Bool}
    (h : request.executionId ≠ id) : (Done.complete request instant committed).act B id = none := by
  cases committed with
  | false => rfl
  | true => exact if_neg h

theorem act_claim_time {request : ClaimRequest} {read : ℚ} {answer : Option ExecutionClaim}
    {a : ℚ × Act String String ExecutionResponse ℚ} (h : (Done.claim request read answer).act B id = some a) :
    a.1 = read := by
  unfold Done.act at h
  split at h
  · next heq =>
    cases heq
    split at h
    · obtain rfl := Option.some.inj h; rfl
    · cases h
  · next heq => cases heq
  · cases h

theorem act_complete_time {request : CompleteRequest} {instant : ℚ} {committed : Bool}
    {a : ℚ × Act String String ExecutionResponse ℚ}
    (h : (Done.complete request instant committed).act B id = some a) : a.1 = instant := by
  unfold Done.act at h
  split at h
  · next heq => cases heq
  · next heq =>
    cases heq
    split at h
    · obtain rfl := Option.some.inj h; rfl
    · cases h
  · cases h

theorem act_claim_of_status {request : ClaimRequest} {read : ℚ} {answer : ExecutionClaim}
    (h : answer.status ≠ .acquired) : (Done.claim request read (some answer)).act B id = none := by
  obtain ⟨status, response, attempt⟩ := answer
  cases status with
  | acquired => exact absurd rfl h
  | _ => rfl

theorem history_claim {request : ClaimRequest} {read : ℚ} {answer : Option ExecutionClaim}
    {e e' : Option Execution} (hc : Claimed request read (B.leaseUntil request read) e answer e')
    (hid : request.executionId = id) {log : List Done} (h : History (log.filterMap (·.act B id)) e) :
    History ((Done.claim request read answer :: log).filterMap (·.act B id)) e' := by
  cases hc with
  | conflict => exact h
  | cached => exact h
  | refused _ hs =>
    rw [List.filterMap_cons, act_claim_of_status hs]
    exact h
  | @acquired _ attempt _ hm =>
    have hact : (Done.claim request read (some { status := .acquired, attempt := attempt })).act B id =
        some (read, .acquired request.requestHash request.owner attempt (B.leaseUntil request read)) :=
      if_pos hid
    rw [List.filterMap_cons, hact]
    exact .cons h hm

theorem history_complete {request : CompleteRequest} {instant : ℚ} {committed : Bool}
    {e e' : Option Execution} (hc : Settled request instant e committed e')
    (hid : request.executionId = id) {log : List Done} (h : History (log.filterMap (·.act B id)) e) :
    History ((Done.complete request instant committed :: log).filterMap (·.act B id)) e' := by
  cases hc with
  | refused => exact h
  | committed hm =>
    have hact : (Done.complete request instant true).act B id =
        some (instant, .completed request.requestHash request.owner request.attempt request.response) :=
      if_pos hid
    rw [List.filterMap_cons, hact]
    exact .cons h hm

/-- A claim that comes after an act on its execution is answered accordingly:
after the completion with the response, and on another hash with a conflict. -/
def Answers (B : ExecutionStateStore) (id : String) (new old : Done) : Prop :=
  ∀ request read answer, new = .claim request read answer → request.executionId = id →
    (∀ t hash owner attempt response, old.act B id = some (t, .completed hash owner attempt response) →
      hash = request.requestHash → answer = some ⟨.cached, some response, attempt⟩) ∧
    ∀ t hash owner attempt leaseUntil, old.act B id = some (t, .acquired hash owner attempt leaseUntil) →
      hash ≠ request.requestHash → answer = some { status := .conflict }

theorem answers_claim {request : ClaimRequest} {read : ℚ} {answer : Option ExecutionClaim}
    {e e' : Option Execution} (hc : Claimed request read (B.leaseUntil request read) e answer e')
    {log : List Done} (h : History (log.filterMap (·.act B id)) e) {old : Done} (hold : old ∈ log) :
    Answers B id (.claim request read answer) old := by
  rintro _ _ _ ⟨⟩ -
  constructor
  · rintro t _ owner attempt response hact rfl
    obtain ⟨rfl, -⟩ := h.completed_of_mem (List.mem_filterMap.mpr ⟨old, hold, hact⟩)
    cases hc with
    | conflict hne => exact absurd rfl hne
    | cached => rfl
    | refused hrun => obtain ⟨_, _, _, h⟩ := hrun _ rfl; cases h
    | acquired hm => cases hm
  · intro t hash owner attempt leaseUntil hact hne
    have hmem := List.mem_filterMap.mpr ⟨old, hold, hact⟩
    cases e with
    | none => rw [h.eq_nil] at hmem; cases hmem
    | some e =>
      obtain rfl := h.hash_of_mem hmem
      cases hc with
      | conflict => rfl
      | cached => exact absurd rfl hne
      | refused hrun => obtain ⟨_, _, _, rfl⟩ := hrun _ rfl; exact absurd rfl hne
      | acquired hm => cases hm; exact absurd rfl hne

theorem answers_complete {request : CompleteRequest} {instant : ℚ} {committed : Bool} {old : Done} :
    Answers B id (.complete request instant committed) old := by
  intro _ _ _ h
  cases h

/-- What the log says of the execution `id`. -/
structure Tracks (holds : B.Row → Execution → Prop) (id : String) (s : Plane B) : Prop where
  pending : ∀ call ∈ s.pending, call.2 ≤ s.clock
  times : ∀ a ∈ s.acts id, a.1 ≤ s.clock
  retains : s.Retains id
  history : ∃ e, History (s.acts id) e ∧ Matches holds (B.row s.store s.clock id) e
  answers : s.log.Pairwise (Answers B id)

/-- Every response that was given to the store is read back. -/
def Plane.Coded (s : Plane B) : Prop :=
  ∀ request instant committed, Done.complete request instant committed ∈ s.log → B.codes request.response

variable {holds : B.Row → Execution → Prop} {s : Plane B}

/-- A row that stands in the history is held. -/
theorem Tracks.isSome (h : Tracks holds id s) {e : Option Execution} (he : History (s.acts id) e)
    (hne : e ≠ none) : (B.row s.store s.clock id).isSome := by
  refine h.retains fun hnil => hne ?_
  rw [hnil] at he
  cases he
  rfl

theorem Tracks.claim (hB : Lawful B holds) (h : Tracks holds id s) {request : ClaimRequest} {read : ℚ}
    (hread : read ≤ s.clock) {pending : List (Call × ℚ)} (hp : ∀ call ∈ pending, call.2 ≤ s.clock)
    (hr : (s.carryOut pending (.claim request, read)).Retains id) :
    Tracks holds id (s.carryOut pending (.claim request, read)) := by
  obtain ⟨e, he, hm⟩ := h.history
  by_cases hid : request.executionId = id
  · obtain ⟨e', hc, hm'⟩ := hB.claim hread (by rw [hid]; exact hm) (by rw [hid]; exact h.isSome he)
    rw [hid] at hm'
    have he' := history_claim hc hid he
    refine ⟨hp, fun a ha => ?_, hr, ⟨e', he', hm'⟩,
      List.pairwise_cons.mpr ⟨fun old hold => answers_claim hc he hold, h.answers⟩⟩
    obtain ⟨d, hd, hact⟩ := List.mem_filterMap.mp ha
    rcases List.mem_cons.mp hd with rfl | hd
    · rw [act_claim_time hact]; exact hread
    · exact h.times a (List.mem_filterMap.mpr ⟨d, hd, hact⟩)
  · have hacts : (s.carryOut pending (.claim request, read)).acts id = s.acts id := by
      show List.filterMap _ (_ :: s.log) = _
      rw [List.filterMap_cons, act_claim_of_ne hid]
      rfl
    refine ⟨hp, by rw [hacts]; exact h.times, hr, ⟨e, by rw [hacts]; exact he, ?_⟩,
      List.pairwise_cons.mpr ⟨fun old _ => ?_, h.answers⟩⟩
    · show Matches holds (B.row (B.claim s.store request read s.clock).2 s.clock id) e
      rw [hB.claim_frame (Ne.symm hid)]
      exact hm
    · rintro _ _ _ ⟨⟩ h
      exact absurd h hid

theorem Tracks.complete (hB : Lawful B holds) (h : Tracks holds id s) {request : CompleteRequest} {read : ℚ}
    (hread : read ≤ s.clock) (hcodes : B.codes request.response) {pending : List (Call × ℚ)}
    (hp : ∀ call ∈ pending, call.2 ≤ s.clock)
    (hr : (s.carryOut pending (.complete request, read)).Retains id) :
    Tracks holds id (s.carryOut pending (.complete request, read)) := by
  obtain ⟨e, he, hm⟩ := h.history
  have hans : (Done.complete request (B.instant read s.clock) (B.complete s.store request read s.clock).1 ::
      s.log).Pairwise (Answers B id) :=
    List.pairwise_cons.mpr ⟨fun old _ => answers_complete, h.answers⟩
  by_cases hid : request.executionId = id
  · obtain ⟨e', hc, hm'⟩ := hB.complete hcodes (by rw [hid]; exact hm) (by rw [hid]; exact h.isSome he)
    rw [hid] at hm'
    refine ⟨hp, fun a ha => ?_, hr, ⟨e', history_complete hc hid he, hm'⟩, hans⟩
    obtain ⟨d, hd, hact⟩ := List.mem_filterMap.mp ha
    rcases List.mem_cons.mp hd with rfl | hd
    · rw [act_complete_time hact]; exact hB.instant_le hread
    · exact h.times a (List.mem_filterMap.mpr ⟨d, hd, hact⟩)
  · have hacts : (s.carryOut pending (.complete request, read)).acts id = s.acts id := by
      show List.filterMap _ (_ :: s.log) = _
      rw [List.filterMap_cons, act_complete_of_ne hid]
      rfl
    refine ⟨hp, by rw [hacts]; exact h.times, hr, ⟨e, by rw [hacts]; exact he, ?_⟩, hans⟩
    show Matches holds (B.row (B.complete s.store request read s.clock).2 s.clock id) e
    rw [hB.complete_frame (Ne.symm hid)]
    exact hm

theorem step_tick {now : ℚ} {t : Plane B} (h : s.step (.tick now) = some t) :
    s.clock ≤ now ∧ t = { s with clock := now } := by
  have h : (if s.clock ≤ now then some { s with clock := now } else none) = some t := h
  split at h
  · next hle => exact ⟨hle, (Option.some.inj h).symm⟩
  · cases h

theorem Tracks.step (hB : Lawful B holds) (h : Tracks holds id s) {e : PlaneEvent} {t : Plane B}
    (hs : (retained B id).step s e t) (hcodes : t.Coded) : Tracks holds id t := by
  obtain ⟨hs, hr⟩ := hs
  cases e with
  | tick now =>
    obtain ⟨hle, rfl⟩ := step_tick hs
    obtain ⟨e, he, hm⟩ := h.history
    exact ⟨fun call hc => (h.pending call hc).trans hle, fun a ha => (h.times a ha).trans hle, hr,
      ⟨e, he, fun r hrow => hm r (hB.row_mono hle hrow)⟩, h.answers⟩
  | send call =>
    obtain rfl := Option.some.inj hs
    refine ⟨fun call' hc => ?_, h.times, hr, h.history, h.answers⟩
    rcases List.mem_append.mp hc with hc | hc
    · exact h.pending call' hc
    · rw [List.mem_singleton.mp hc]
  | run i again =>
    obtain ⟨⟨call, read⟩, hcall, rfl⟩ := Option.map_eq_some_iff.mp hs
    have hread := h.pending _ (List.mem_of_getElem? hcall)
    have hp : ∀ call ∈ (if again then s.pending else s.pending.eraseIdx i), call.2 ≤ s.clock := by
      intro call hc
      split at hc
      · exact h.pending call hc
      · exact h.pending call (List.mem_of_mem_eraseIdx hc)
    cases call with
    | claim request => exact h.claim hB hread hp hr
    | complete request => exact h.complete hB hread (hcodes _ _ _ List.mem_cons_self) hp hr

/-- A step adds to the log. -/
theorem log_subset {e : PlaneEvent} {t : Plane B} (h : s.step e = some t) : s.log ⊆ t.log := by
  cases e with
  | tick now => obtain ⟨-, rfl⟩ := step_tick h; exact List.Subset.refl _
  | send call => obtain rfl := Option.some.inj h; exact List.Subset.refl _
  | run i again =>
    obtain ⟨⟨call, read⟩, -, rfl⟩ := Option.map_eq_some_iff.mp h
    cases call <;> exact List.subset_cons_self _ _

theorem Tracks.run (hB : Lawful B holds) {s₀ : Plane B} {es : List PlaneEvent}
    (hr : (retained B id).Run s₀ es s) (h₀ : (retained B id).start s₀) (hcodes : s.Coded) :
    Tracks holds id s := by
  induction hr with
  | nil =>
    obtain ⟨hlog, hpending, hrow⟩ := h₀
    have hacts : s₀.acts id = [] := by unfold Plane.acts; rw [hlog]; rfl
    refine ⟨hpending, by rw [hacts]; exact fun a ha => absurd ha List.not_mem_nil, fun hne => absurd hacts hne,
      ⟨none, by rw [hacts]; exact .nil, fun r hr => ?_⟩, by rw [hlog]; exact .nil⟩
    cases hrow.symm.trans hr
  | snoc _ hs ih => exact (ih fun _ _ _ hd => hcodes _ _ _ (log_subset hs.1 hd)).step hB hs hcodes

/-- What is promised of the execution `id` while its row is retained. -/
structure Safe (id : String) (s : Plane B) : Prop where
  /-- Leases that have not ended have one owner and one attempt. -/
  one_lease : ∀ g ∈ leases (s.acts id), ∀ g' ∈ leases (s.acts id), s.clock < g.leaseUntil →
    s.clock < g'.leaseUntil → g.owner = g'.owner ∧ g.attempt = g'.attempt
  /-- The attempt grows with each acquisition. -/
  attempts : (leases (s.acts id)).Pairwise fun new old => old.attempt < new.attempt
  /-- After a call of `complete` that succeeded none succeeds. -/
  completed_once : ∀ after before request instant,
    s.log = after ++ .complete request instant true :: before → request.executionId = id →
    ∀ later t, .complete later t true ∈ after → later.executionId ≠ id
  /-- It succeeds for the holder of the last lease, while the lease is live. -/
  completed_live : ∀ after before request instant,
    s.log = after ++ .complete request instant true :: before → request.executionId = id →
    ∃ g, (leases (before.filterMap (·.act B id))).head? = some g ∧ g.owner = request.owner ∧
      g.attempt = request.attempt ∧ instant < g.leaseUntil
  /-- Later claims with the same hash get the response. -/
  cached : ∀ after before request instant,
    s.log = after ++ .complete request instant true :: before → request.executionId = id →
    ∀ claim read answer, .claim claim read answer ∈ after → claim.executionId = id →
      claim.requestHash = request.requestHash →
      answer = some ⟨.cached, some request.response, request.attempt⟩
  /-- Claims with another hash than that of the row get a conflict. -/
  conflict : ∀ after before first read attempt response,
    s.log = after ++ .claim first read (some ⟨.acquired, response, attempt⟩) :: before → first.executionId = id →
    ∀ claim read answer, .claim claim read answer ∈ after → claim.executionId = id →
      claim.requestHash ≠ first.requestHash → answer = some { status := .conflict }
  /-- Such a claim changes no row and no live replay record. -/
  conflict_frame : ∀ first read attempt response,
    .claim first read (some ⟨.acquired, response, attempt⟩) ∈ s.log → first.executionId = id →
    ∀ claim read, claim.executionId = id → claim.requestHash ≠ first.requestHash → read ≤ s.clock →
      (∀ t id', B.row (B.claim s.store claim read s.clock).2 t id' = B.row s.store t id') ∧
      ∀ t jti, s.clock ≤ t → B.replay (B.claim s.store claim read s.clock).2 t jti = B.replay s.store t jti

theorem act_committed {request : CompleteRequest} {instant : ℚ} (h : request.executionId = id) :
    (Done.complete request instant true).act B id =
      some (instant, .completed request.requestHash request.owner request.attempt request.response) := if_pos h

theorem act_acquired {request : ClaimRequest} {read : ℚ} {attempt : Nat} {response : Option ExecutionResponse}
    (h : request.executionId = id) :
    (Done.claim request read (some ⟨.acquired, response, attempt⟩)).act B id =
      some (read, .acquired request.requestHash request.owner attempt (B.leaseUntil request read)) := if_pos h

/-- The acts on both sides of a completion. -/
theorem acts_split {after before : List Done} {request : CompleteRequest} {instant : ℚ}
    (hlog : s.log = after ++ .complete request instant true :: before) (h : request.executionId = id) :
    s.acts id = after.filterMap (·.act B id) ++
      (instant, .completed request.requestHash request.owner request.attempt request.response) ::
        before.filterMap (·.act B id) := by
  unfold Plane.acts
  rw [hlog, List.filterMap_append, List.filterMap_cons, act_committed h]

theorem Tracks.safe (hB : Lawful B holds) (h : Tracks holds id s) : Safe id s := by
  obtain ⟨e, he, hm⟩ := h.history
  -- a completion is the last act, with the lease it was made under before it
  have hlast : ∀ {after before : List Done} {request : CompleteRequest} {instant : ℚ},
      s.log = after ++ .complete request instant true :: before → request.executionId = id →
      after.filterMap (·.act B id) = [] ∧ ∃ granted leaseUntil rest, before.filterMap (·.act B id) =
        (granted, .acquired request.requestHash request.owner request.attempt leaseUntil) :: rest ∧
          instant < leaseUntil := by
    intro after before request instant hlog hid
    rw [acts_split hlog hid] at he
    exact he.completed_append
  have hanswers : ∀ {after before : List Done} {old : Done}, s.log = after ++ old :: before →
      ∀ new ∈ after, Answers B id new old := by
    intro after before old hlog new hnew
    have hpair := h.answers
    rw [hlog] at hpair
    exact (List.pairwise_append.mp hpair).2.2 new hnew old List.mem_cons_self
  refine ⟨fun g hg g' hg' hl hl' => ?_, he.attempts, fun after before request instant hlog hid later t hmem hid' => ?_,
    fun after before request instant hlog hid => ?_,
    fun after before request instant hlog hid claim read answer hmem hid' hhash => ?_,
    fun after before first read attempt response hlog hid claim read' answer hmem hid' hhash => ?_,
    fun first read attempt response hmem hid claim read' hid' hhash hread => ?_⟩
  · obtain rfl := he.one_live h.times hg hg' hl hl'
    exact ⟨rfl, rfl⟩
  · have hmem := List.mem_filterMap.mpr ⟨_, hmem, act_committed (B := B) hid'⟩
    rw [(hlast hlog hid).1] at hmem
    cases hmem
  · obtain ⟨-, granted, leaseUntil, rest, hbefore, hlive⟩ := hlast hlog hid
    rw [hbefore, leases_acquired]
    exact ⟨_, rfl, rfl, rfl, hlive⟩
  · exact (hanswers hlog _ hmem claim read answer rfl hid').1 _ _ _ _ _ (act_committed hid) hhash.symm
  · exact (hanswers hlog _ hmem claim read' answer rfl hid').2 _ _ _ _ _ (act_acquired hid) hhash.symm
  · have hmem := List.mem_filterMap.mpr ⟨_, hmem, act_acquired (B := B) hid⟩
    have hne : e ≠ none := by
      rintro rfl
      rw [Plane.acts] at he
      rw [he.eq_nil] at hmem
      cases hmem
    obtain ⟨row, hrow⟩ := Option.isSome_iff_exists.mp (h.isSome he hne)
    obtain ⟨e', rfl, hholds⟩ := hm row hrow
    refine hB.conflict hread (by rw [hid']; exact hrow) hholds ?_
    rw [he.hash_of_mem hmem]
    exact hhash.symm

end Plane

/-- While the row of an execution is retained, at most one lease on it is
live, attempts grow, one `complete` at most succeeds, and later claims are
answered from the row. -/
theorem execution_store_safe (backend : StateBackend) (id : String)
    {s₀ s : Plane (buildExecutionStateStore backend)} {es : List PlaneEvent}
    (h₀ : (retained (buildExecutionStateStore backend) id).start s₀)
    (hr : (retained (buildExecutionStateStore backend) id).Run s₀ es s) (hcodes : s.Coded) : Safe id s := by
  cases backend with
  | memory => exact (Tracks.run memory_lawful hr h₀ hcodes).safe memory_lawful
  | redis => exact (Tracks.run redis_lawful hr h₀ hcodes).safe redis_lawful

namespace Sample

def response : ExecutionResponse where
  executionId := "e"
  backend := .firecracker
  passed := true
  exitCode := 0
  stdout := "ok"
  stderr := ""
  timedOut := false
  archiveSha256 := "a"
  workloadSubject := "spiffe://broker"
  attestation := []

def payload : String :=
  "\x7b\"execution_id\":\"e\",\"backend\":\"firecracker\",\"passed\":true,\"exit_code\":0,\"stdout\":\"ok\"," ++
    "\"stderr\":\"\",\"timed_out\":false,\"archive_sha256\":\"a\"," ++
    "\"workload_subject\":\"spiffe://broker\",\"attestation\":\x7b\x7d\x7d"

def serializer : Serializer where
  dump _ := payload
  load text := if text = payload then some response else none

theorem roundTrips : serializer.RoundTrips response := by
  unfold Serializer.RoundTrips
  decide +kernel

def store : ExecutionStateStore := buildExecutionStateStore (.redis serializer 86400)

def claim (jti hash owner : String) : PlaneEvent := .send (.claim ⟨"e", hash, jti, 60, owner, 30⟩)

def complete (owner : String) (attempt : Nat) : PlaneEvent := .send (.complete ⟨"e", "h", owner, attempt, response⟩)

/-- A lease that runs out, the take-over, a late completion, the completion,
and two later claims. -/
def events : List PlaneEvent :=
  [claim "1" "h" "a", .run 0 false, claim "2" "h" "b", .run 0 false, .tick 131, claim "3" "h" "b", .run 0 false,
    complete "a" 1, .run 0 false, complete "b" 2, .run 0 false, claim "4" "h" "c", .run 0 false,
    claim "5" "other" "c", .run 0 false]

def start : Plane store := ⟨100, ⟨fun _ => none, fun _ => none⟩, [], []⟩

/-- Where the run ends. -/
def final : Option (Plane store) :=
  events.foldlM (fun s e => (s.step e).filter fun t => t.Retains "e") start

def answered : Done → Option (ExecutionClaim ⊕ Bool)
  | .claim _ _ answer => answer.map .inl
  | .complete _ _ committed => some (.inr committed)

def responses : Done → Option ExecutionResponse
  | .claim .. => none
  | .complete request _ _ => some request.response

end Sample

theorem execution_store_safe_sample : ∃ s, Sample.final = some s ∧
    s.log.map Sample.answered =
      [some (.inl { status := .conflict }), some (.inl ⟨.cached, some Sample.response, 2⟩), some (.inr true),
        some (.inr false), some (.inl { status := .acquired, attempt := 2 }),
        some (.inl { status := .inProgress, attempt := 1 }), some (.inl { status := .acquired, attempt := 1 })] ∧
    Safe "e" s := by
  have hfinal : Sample.final.map (fun s => (s.log.map Sample.answered, s.log.filterMap Sample.responses)) = some
      ([some (.inl { status := .conflict }), some (.inl ⟨.cached, some Sample.response, 2⟩), some (.inr true),
        some (.inr false), some (.inl { status := .acquired, attempt := 2 }),
        some (.inl { status := .inProgress, attempt := 1 }), some (.inl { status := .acquired, attempt := 1 })],
        [Sample.response, Sample.response]) := by
    decide +kernel
  obtain ⟨s, hs, heq⟩ := Option.map_eq_some_iff.mp hfinal
  obtain ⟨hlog, hresponses⟩ := Prod.mk.inj heq
  have hrun : (retained Sample.store "e").Run Sample.start Sample.events s :=
    .of_foldlM_filter (S := retained Sample.store "e") (fun _ _ _ hstep hok => ⟨hstep, hok⟩) hs
  refine ⟨s, hs, hlog, execution_store_safe (.redis Sample.serializer 86400) "e"
    ⟨rfl, fun call hc => absurd hc List.not_mem_nil, rfl⟩ hrun fun request instant committed hmem => ?_⟩
  have hmem : request.response ∈ s.log.filterMap Sample.responses := List.mem_filterMap.mpr ⟨_, hmem, rfl⟩
  have heq : request.response = Sample.response := by simpa [hresponses] using hmem
  rw [heq]
  exact Sample.roundTrips

end CodeMate.Sandbox
