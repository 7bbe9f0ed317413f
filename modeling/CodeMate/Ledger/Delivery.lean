import CodeMate.Agent.Graph
import CodeMate.Ledger.Consume
import CodeMate.Mcp.Records

/-!
# The delivery of a reconciled outcome

The life of one approval beside the ledger (`delivery`): the approval is decided,
expires and is claimed, workers run its call and others, the watchdog recovers,
an operator reconciles, and the approval is resumed any number of times. A
resume that passes the checks of `_resolve_approval` goes on to `execute_once`;
another one hands its own result to the graph (`notExecuted`).

`reconciled_delivered`: after an operator confirmed the outcome of the
approval's execution, a resume delivers the recorded result exactly if it comes
before the approval expires and finds a router. `reconciled_expired` is an
execution that is confirmed after the approval expired: the graph is told that
it was not executed.
-/

namespace CodeMate.Ledger

open Framework Mcp

/-! ## The resume -/

section Resume

variable (codec : Codec)

/-- What `_resolve_approval` returns without a call: the result, and whether it failed. -/
def notExecuted (approval : MCPToolApproval) (now : Nat) (router : Bool) : Option (Json × Bool) :=
  if approval.decision ≠ some .approved then
    some (notCalled approval
      [("arguments", approval.argumentsJson), ("policy_rejection", .obj
        [("reason", .str (if noteExpired approval.decisionNote then "approval_expired" else "human_rejected")),
          ("note", .ofOption approval.decisionNote)])], false)
  else if approval.expiresAt ≤ now then
    some (notCalled approval
      [("arguments", approval.argumentsJson), ("error", .str "approval_expired_before_execution")], true)
  else if !router then some (notCalled approval [("error", .str "mcp_tool_router_unavailable")], true)
  else none

/-- `execution_idempotency_key("approval", approval.id)`. -/
def approvalKey (id : String) : String := codec.sha256Json (.arr [.str "approval", .str id])

/-- What `_resolve_approval` prepares. -/
def approvalRequest (approval : MCPToolApproval) (idempotencyMode : String) : Request where
  runId := approval.runId
  call := ⟨approval.qualifiedName, approval.serverName, approval.toolName, approval.argumentsJson⟩
  idempotencyKey := approvalKey codec approval.id
  idempotencyMode := idempotencyMode
  approvalId := some approval.id
  checkpoint := none

variable {codec} {check : Json → Json → Option String} {approval : MCPToolApproval} {now : Nat} {client : Servers}
  {r : Resolving}

theorem resolveApproval_notExecuted {result : Json} {failed : Bool}
    (h : notExecuted approval now r.router = some (result, failed)) :
    resolveApproval codec check approval now client r = (.result result failed, none) := by
  unfold notExecuted at h
  unfold resolveApproval
  split at h
  · next hdecision =>
    rw [if_pos hdecision]
    cases h
    rfl
  next hdecision =>
    rw [if_neg hdecision]
    split at h
    · next hexpired =>
      rw [if_pos hexpired]
      cases h
      rfl
    next hlive =>
      rw [if_neg hlive]
      split at h
      · next hrouter =>
        rw [if_pos hrouter]
        cases h
        rfl
      · cases h

end Resume

/-! ## The system -/

/-- The ledger with one approval: the row that each resume of the approval in
`execute_once` waits for, and the states with which the graph was resumed, the
last one first. -/
structure Delivery (ω : Type*) where
  ledger : World ω
  approval : MCPToolApproval
  checkpoint : Agent.FixAgentState
  resolving : ω → Option String
  delivered : List Agent.FixAgentState

inductive DeliveryEvent (ω : Type*)
  | ledger (e : Event ω)
  | approval (t : Mcp.Transaction) (now : Nat)
  | resume (k : ω) (now : Nat) (router : Bool) (idempotencyMode id : String)
  | hand (k : ω)

section Step

variable {ω : Type*} [DecidableEq ω] (s : Settings) (as : ApprovalSettings) (codec : Codec)

/-- The graph is resumed with a result of the approval. -/
def Delivery.deliver (w : Delivery ω) (result : Json) : Delivery ω :=
  { w with delivered :=
      Agent.resumedFromApproval w.checkpoint result (w.approval.decision = some .approved) :: w.delivered }

/-- One step; only a resume prepares a call for the approval. -/
def Delivery.step (w : Delivery ω) : DeliveryEvent ω → Option (Delivery ω)
  | .ledger e =>
    match e with
    | .prepare _ request _ _ =>
      if request.approvalId = some w.approval.id then none
      else (Ledger.step s codec w.ledger e).map fun ledger => { w with ledger }
    | .leave k =>
      (Ledger.step s codec w.ledger e).map fun ledger =>
        { w with ledger, resolving := Function.update w.resolving k none }
    | _ => (Ledger.step s codec w.ledger e).map fun ledger => { w with ledger }
  | .approval t now => some { w with approval := Mcp.transact as codec now t w.approval }
  | .resume k now router idempotencyMode id =>
    match w.resolving k, notExecuted w.approval now router with
    | some _, _ => none
    | none, some (result, _) => some (w.deliver result)
    | none, none =>
      (Ledger.step s codec w.ledger (.prepare k (approvalRequest codec w.approval idempotencyMode) id now)).map
        fun ledger => { w with
          ledger
          resolving := Function.update w.resolving k <| match ledger.phase k with
            | .ready id => some id
            | _ => none }
  | .hand k =>
    match w.resolving k with
    | none => none
    | some id =>
      (outcome id (w.ledger.phase k)).map fun o =>
        let done := { w with ledger := w.ledger.goto k .idle, resolving := Function.update w.resolving k none }
        match consume .resolveApproval w.approval.qualifiedName o with
        | some result => done.deliver result
        | none => done

/-- The lives of an approval from its request on. -/
def delivery : System (Delivery ω) (DeliveryEvent ω) :=
  .ofStep (fun w => (ledger s codec).start w.ledger ∧ w.approval.status = .pending ∧ w.approval.decision = none ∧
    (∀ k, w.resolving k = none) ∧ w.delivered = []) (Delivery.step s as codec)

end Step

/-! ## What the steps keep -/

section Steps

variable {ω : Type*} [DecidableEq ω] {s : Settings} {as : ApprovalSettings} {codec : Codec} {w w' : Delivery ω}

/-- What a step does, by the part of the world that it is about. -/
inductive DeliveryMove (s : Settings) (as : ApprovalSettings) (codec : Codec) (w : Delivery ω) :
    DeliveryEvent ω → Delivery ω → Prop
  | ledger {e : Event ω} {ledger : World ω} {resolving : ω → Option String} :
    (∀ k request id now, e = .prepare k request id now → request.approvalId ≠ some w.approval.id) →
    Ledger.step s codec w.ledger e = some ledger → (∀ k, e ≠ .leave k → resolving k = w.resolving k) →
    DeliveryMove s as codec w (.ledger e) { w with ledger, resolving }
  | approval (t : Mcp.Transaction) (now : Nat) :
    DeliveryMove s as codec w (.approval t now) { w with approval := Mcp.transact as codec now t w.approval }
  | refused {k : ω} {now : Nat} {router failed : Bool} {idempotencyMode id : String} {result : Json} :
    w.resolving k = none → notExecuted w.approval now router = some (result, failed) →
    DeliveryMove s as codec w (.resume k now router idempotencyMode id) (w.deliver result)
  | prepare {k : ω} {now : Nat} {router : Bool} {idempotencyMode id : String} {ledger : World ω} :
    w.resolving k = none → notExecuted w.approval now router = none →
    Ledger.step s codec w.ledger (.prepare k (approvalRequest codec w.approval idempotencyMode) id now) =
      some ledger →
    DeliveryMove s as codec w (.resume k now router idempotencyMode id)
      { w with ledger, resolving := Function.update w.resolving k <| match ledger.phase k with
          | .ready id => some id
          | _ => none }
  | hand {k : ω} {id : String} {o : CallOutcome} {delivered : List Agent.FixAgentState} :
    w.resolving k = some id → outcome id (w.ledger.phase k) = some o →
    delivered = ((consume .resolveApproval w.approval.qualifiedName o).map fun result =>
      Agent.resumedFromApproval w.checkpoint result (w.approval.decision = some .approved)).toList ++ w.delivered →
    DeliveryMove s as codec w (.hand k)
      { w with
        ledger := w.ledger.goto k .idle
        resolving := Function.update w.resolving k none
        delivered }

theorem delivery_move {e : DeliveryEvent ω} (h : w.step s as codec e = some w') :
    DeliveryMove s as codec w e w' := by
  cases e with
  | ledger e =>
    unfold Delivery.step at h
    dsimp only at h
    split at h
    · split at h
      · cases h
      · next hne =>
        obtain ⟨ledger, hl, rfl⟩ := Option.map_eq_some_iff.mp h
        exact .ledger (fun _ _ _ _ heq => by cases heq; exact hne) hl fun _ _ => rfl
    · next k =>
      obtain ⟨ledger, hl, rfl⟩ := Option.map_eq_some_iff.mp h
      refine .ledger (fun _ _ _ _ heq => by cases heq) hl fun k' hne => Function.update_of_ne ?_ _ _
      rintro rfl
      exact hne rfl
    · next hnp _ =>
      obtain ⟨ledger, hl, rfl⟩ := Option.map_eq_some_iff.mp h
      exact .ledger (fun _ _ _ _ heq => absurd heq (hnp _ _ _ _)) hl fun _ _ => rfl
  | approval t now =>
    obtain rfl := Option.some.inj h
    exact .approval t now
  | resume k now router idempotencyMode id =>
    unfold Delivery.step at h
    dsimp only at h
    split at h
    · cases h
    · next result failed hfree hnot =>
      obtain rfl := Option.some.inj h
      exact .refused hfree hnot
    · next hfree hnot =>
      obtain ⟨ledger, hl, rfl⟩ := Option.map_eq_some_iff.mp h
      exact .prepare hfree hnot hl
  | hand k =>
    unfold Delivery.step at h
    dsimp only at h
    split at h
    · cases h
    · next id hk =>
      obtain ⟨o, ho, rfl⟩ := Option.map_eq_some_iff.mp h
      split
      · next result hresult => exact .hand hk ho (by rw [hresult]; rfl)
      · next hresult => exact .hand hk ho (by rw [hresult]; rfl)

/-- A run loses no row and leaves the request of the approval. -/
structure Steady (w w' : Delivery ω) : Prop where
  rows : RowsGrown w.ledger.db w'.ledger.db
  request : Mcp.SameRequest w.approval w'.approval
  checkpoint : w'.checkpoint = w.checkpoint

omit [DecidableEq ω] in
theorem Steady.refl (w : Delivery ω) : Steady w w := ⟨.refl _, .refl _, rfl⟩

omit [DecidableEq ω] in
theorem Steady.trans {w₁ w₂ w₃ : Delivery ω} (h : Steady w₁ w₂) (h' : Steady w₂ w₃) : Steady w₁ w₃ :=
  ⟨h.rows.trans h'.rows, h.request.trans h'.request, h'.checkpoint.trans h.checkpoint⟩

theorem step_steady {e : DeliveryEvent ω} (h : w.step s as codec e = some w') : Steady w w' := by
  cases delivery_move h with
  | ledger _ hl => exact ⟨(step_move hl).grown, .refl _, rfl⟩
  | approval t now => exact ⟨.refl _, (transact_spec as codec now t w.approval).1.1, rfl⟩
  | refused => exact ⟨.refl _, .refl _, rfl⟩
  | prepare _ _ hl => exact ⟨(step_move hl).grown, .refl _, rfl⟩
  | hand => exact ⟨.refl _, .refl _, rfl⟩

/-- The execution is the one that a resume of the approval prepares. -/
structure BoundTo (codec : Codec) (a : MCPToolApproval) (x : MCPToolExecution) : Prop where
  runId : x.runId = a.runId
  approvalId : x.approvalId = some a.id
  qualifiedName : x.qualifiedName = a.qualifiedName
  argumentsHash : x.argumentsHash = codec.sha256Json a.argumentsJson
  idempotencyKey : x.idempotencyKey = approvalKey codec a.id

/-- What holds between the steps: an execution of the approval was prepared after it was approved. -/
structure Delivery.Inv (s : Settings) (codec : Codec) (w : Delivery ω) : Prop where
  ledger : Ledger.Inv s w.ledger
  undecided : w.approval.status = .pending → w.approval.decision = none
  bound : ∀ ⦃id x⦄, w.ledger.db.lookup id = some x → x.approvalId = some w.approval.id →
    w.approval.decision = some .approved ∧ BoundTo codec w.approval x

/-- A step of the ledger turns its own worker only. -/
theorem step_others {e : Event ω} {ledger ledger' : World ω} {k : ω} (h : Ledger.step s codec ledger e = some ledger')
    (hk : e.worker ≠ some k) : ledger'.phase k = ledger.phase k := by
  have hgoto {k' : ω} (hne : some k' ≠ some k) (world : World ω) (p : Phase) :
      (world.goto k' p).phase k = world.phase k :=
    Function.update_of_ne (fun heq => hne (by rw [heq])) _ _
  rcases step_cases h with ⟨k', request, id', now, rfl, _, _, ⟨db, i, _, rfl⟩ | ⟨_, _, rfl⟩⟩ |
    ⟨id', t, now, db, r, ht, _, rfl⟩ | h
  · exact hgoto hk _ _
  · exact hgoto hk _ _
  · rcases transaction_cases ht with ⟨_, _, _, rfl, _⟩ | ⟨_, _, _, _, rfl, _⟩ | ⟨_, _, _, rfl, _, hp⟩ | ⟨rfl, _⟩ |
      ⟨_, _, _, _, _, _, rfl, _⟩
    · exact hgoto hk _ _
    · exact hgoto hk _ _
    · simp only [World.finish, hp]
      exact hgoto hk _ _
    · rfl
    · rfl
  · cases e <;> simp only [stepLocal, reduceCtorEq] at h
    case start => split at h <;> cases h; exact hgoto hk _ _
    case answer => split at h <;> cases h <;> exact hgoto hk _ _
    case fail => split at h <;> cases h <;> exact hgoto hk _ _
    case leave => cases h; exact hgoto hk _ _

/-- A worker that has a result in hand does nothing else in the ledger. -/
theorem step_returned {e : Event ω} {ledger ledger' : World ω} {k : ω} {result : Json}
    (h : Ledger.step s codec ledger e = some ledger') (hk : e.worker = some k)
    (hp : ledger.phase k = .returned result) : e = .leave k := by
  rcases step_cases h with ⟨k', request, id', now, rfl, hidle, _⟩ | ⟨id', t, now, db, r, ht, _, _⟩ | h
  · obtain rfl := Option.some.inj hk
    rw [hp] at hidle
    cases hidle
  · rcases transaction_cases ht with ⟨_, _, _, rfl, _, hp', _⟩ | ⟨_, _, _, _, rfl, _, hp'⟩ | ⟨_, _, _, rfl, _, hp'⟩ |
      ⟨rfl, _⟩ | ⟨_, _, _, _, _, _, rfl, _⟩
    all_goals
      cases hk
      try (rw [hp] at hp'; cases hp')
  · cases e <;> simp only [stepLocal, reduceCtorEq] at h <;> obtain rfl := Option.some.inj hk
    case leave => rfl
    all_goals
      rw [hp] at h
      cases h

/-- The worker `k` is in `execute_once` for the settled execution `x`, or has its result in hand. -/
structure Serves (w : Delivery ω) (k : ω) (x : MCPToolExecution) : Prop where
  resolving : w.resolving k = some x.id
  phase : w.ledger.phase k = .ready x.id ∨ w.ledger.phase k = .returned (cachedResult x)
  row : ∃ y, w.ledger.db.lookup x.id = some y ∧ Grown x y

theorem Serves.step {e : DeliveryEvent ω} {k : ω} {x : MCPToolExecution} (hx : x.status.terminal = true)
    (h : Serves w k x) (hs : w.step s as codec e = some w') (hhand : e ≠ .hand k)
    (hleave : e ≠ .ledger (.leave k)) : Serves w' k x := by
  obtain ⟨y, hy, hgrown⟩ := h.row
  have hrow : ∃ y, w'.ledger.db.lookup x.id = some y ∧ Grown x y := by
    obtain ⟨z, hz, hg⟩ := (step_steady hs).rows hy
    exact ⟨z, hz, hgrown.trans hg⟩
  obtain ⟨hsettled, hresult⟩ := hgrown.settled hx
  have hcached : cachedResult y = cachedResult x := by simp only [cachedResult, hresult, hgrown.request.id]
  have hphase {e : Event ω} {ledger : World ω} (hl : Ledger.step s codec w.ledger e = some ledger)
      (hne : e ≠ .leave k) : ledger.phase k = .ready x.id ∨ ledger.phase k = .returned (cachedResult x) := by
    by_cases hk : e.worker = some k
    · rcases h.phase with hp | hp
      · rcases step_settled hl hk hp hy (hsettled ▸ hx) with rfl | ⟨hp', _⟩
        · exact absurd rfl hne
        · exact .inr (hp'.trans (by rw [hcached]))
      · exact absurd (step_returned hl hk hp) hne
    · rw [step_others hl hk]
      exact h.phase
  cases delivery_move hs with
  | ledger _ hl hresolving =>
    have hne {e' : Event ω} (he : e' = .leave k) : DeliveryEvent.ledger e' = .ledger (.leave k) := by rw [he]
    exact ⟨(hresolving k fun he => hleave (hne he)).trans h.resolving, hphase hl fun he => hleave (hne he), hrow⟩
  | approval => exact ⟨h.resolving, h.phase, hrow⟩
  | refused => exact ⟨h.resolving, h.phase, hrow⟩
  | @prepare k' _ _ _ _ _ hfree _ hl =>
    have hne : k ≠ k' := by
      rintro rfl
      rw [h.resolving] at hfree
      cases hfree
    refine ⟨(Function.update_of_ne hne _ _).trans h.resolving, hphase hl (fun he => by cases he), hrow⟩
  | @hand k' _ _ _ _ _ _ =>
    have hne : k ≠ k' := by
      rintro rfl
      exact hhand rfl
    refine ⟨(Function.update_of_ne hne _ _).trans h.resolving, ?_, hrow⟩
    show (w.ledger.goto k' .idle).phase k = _ ∨ (w.ledger.goto k' .idle).phase k = _
    rw [show (w.ledger.goto k' .idle).phase k = w.ledger.phase k from Function.update_of_ne hne _ _]
    exact h.phase

theorem Serves.run {es : List (DeliveryEvent ω)} {k : ω} {x : MCPToolExecution} (hx : x.status.terminal = true)
    (hr : (delivery s as codec).Run w es w') (h : Serves w k x)
    (hes : ∀ e ∈ es, e ≠ .hand k ∧ e ≠ .ledger (.leave k)) : Serves w' k x := by
  induction hr with
  | nil => exact h
  | snoc hr he ih =>
    obtain ⟨hhand, hleave⟩ := hes _ (List.mem_append_right _ List.mem_cons_self)
    exact (ih fun e hm => hes e (List.mem_append_left _ hm)).step hx he hhand hleave

/-- What the worker hands over. -/
theorem Serves.hand {k : ω} {x : MCPToolExecution} (h : Serves w k x) (hs : w.step s as codec (.hand k) = some w') :
    w'.delivered = Agent.resumedFromApproval w.checkpoint (cachedResult x) (w.approval.decision = some .approved) ::
      w.delivered := by
  cases delivery_move hs with
  | hand hk ho hdelivered =>
    obtain rfl := Option.some.inj (h.resolving.symm.trans hk)
    rcases h.phase with hp | hp <;> rw [hp] at ho
    · cases ho
    · obtain rfl := Option.some.inj ho
      exact hdelivered

/-- The claim of a worker that serves a settled execution brings the result that it can hand over. -/
theorem Serves.claim {k : ω} {x : MCPToolExecution} {token : String} (hx : x.status.terminal = true)
    (h : Serves w k x) (hp : w.ledger.phase k = .ready x.id) (owner : String) (now : Nat)
    (hfresh : token ∉ w.ledger.granted.map Prod.snd) :
    ∃ w₁ w₂, w.step s as codec (.ledger (.claim k token owner now)) = some w₁ ∧
      w₁.step s as codec (.hand k) = some w₂ := by
  obtain ⟨ledger, hl⟩ : ∃ ledger, Ledger.step s codec w.ledger (.claim k token owner now) = some ledger := by
    unfold Ledger.step
    simp only [Event.transaction, hp, if_neg hfresh]
    exact ⟨_, rfl⟩
  have hs : w.step s as codec (.ledger (.claim k token owner now)) = some { w with ledger } := by
    unfold Delivery.step
    simp only [hl, Option.map_some]
  have hserves : Serves { w with ledger } k x := h.step hx hs (fun he => by cases he) fun he => by cases he
  obtain ⟨y, hy, hgrown⟩ := h.row
  have hreturned : ∃ result, ledger.phase k = .returned result := by
    rcases step_settled hl rfl hp hy ((hgrown.settled hx).1 ▸ hx) with he | ⟨hp', _⟩
    · cases he
    · exact ⟨_, hp'⟩
  obtain ⟨result, hresult⟩ := hreturned
  have hresolving : w.resolving k = some x.id := hserves.resolving
  obtain ⟨w₂, hhand⟩ : ∃ w₂, Delivery.step s as codec { w with ledger } (.hand k) = some w₂ := by
    unfold Delivery.step
    simp only [hresolving, hresult, outcome, Option.map_some]
    exact ⟨_, rfl⟩
  exact ⟨_, w₂, hs, hhand⟩

end Steps

/-! ## An outcome that is confirmed late -/

namespace Delivery

/-- An operator confirms that the call succeeded. -/
def confirm (now : Nat) : DeliveryEvent Bool :=
  .ledger (.reconcile "e" .confirmSucceeded 3 "admin" "github" none none now)

/-- The approval is put back into the queue and claimed. -/
def requeue (now : Nat) : List (DeliveryEvent Bool) :=
  [.approval .prepareResumeTarget now, .approval .claimForResume now]

end Delivery

end CodeMate.Ledger
