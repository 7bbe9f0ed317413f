import CodeMate.Agent.Nodes
import CodeMate.Ledger.Session
import CodeMate.Mcp.Gate

/-!
# What the agent goes on with

`call_mcp_tools` and `_resolve_approval` run `execute_once` and go on with its
result, or leave the run to wait for a reconciliation (`consume`). `consuming`
is the ledger over sessions with what is consumed: a worker that comes to the
end of a call consumes it when it goes on (`next`).

`consumed_settled`: where no resume of an approval claims an execution that is
in progress, a worker ends a call only while its object shows its own lease or
is settled, and no session writes over a settled row from an object read before,
what is consumed is the result of a settled row, and the run waits for every other row.
`consumed_unsettled` has a run with two resumes of one approval, the second of
which goes on with an error while the first still executes the call.
-/

namespace CodeMate.Ledger

open Framework Mcp

/-- Who runs `execute_once`. -/
inductive Caller
  | callMCPTools
  | resolveApproval
deriving DecidableEq, Repr

/-- The text of an exception of the ledger. -/
def LedgerError.text : LedgerError → String
  | .notFound => "MCP execution not found"
  | .conflict message | .reconciliationRequired message => message
  | .inProgress => "MCP execution is already in progress"

/-- How `execute_once` ended for the execution `id`, if it did. -/
def outcome (id : String) : Phase → Option CallOutcome
  | .returned result => some (.result result)
  | .raised (.reconciliationRequired _) => some (.reconciliation id)
  | .raised .inProgress => some (.inProgress id LedgerError.inProgress.text)
  | .raised error => some (.error error.text)
  | _ => none

/-- The result that the caller goes on with; none where the run waits for a
reconciliation. `_resolve_approval` has one handler for a call in progress and
every other exception. -/
def consume (caller : Caller) (qualifiedName : String) : CallOutcome → Option Json
  | .result value => some value
  | .reconciliation _ => none
  | .inProgress _ error =>
    match caller with
    | .callMCPTools => none
    | .resolveApproval => some (callError qualifiedName error)
  | .error error => some (callError qualifiedName error)

/-! ## The callers -/

section Callers

/-- `call_mcp_tools` goes on with the result that it consumes, or leaves the run to wait. -/
theorem callMCPToolsFrom_consume (env : Agent.Env) (calling : Agent.Calling) (state : Agent.FixAgentState)
    (call : Call) (calls : List Call) (index : Nat) (results : List Json) :
    (∀ result, consume .callMCPTools call.qualifiedName
        (Agent.callMCPTool env calling state.mcpToolCatalog call (calling.reply index)).1 = some result →
      (Agent.callMCPToolsFrom env calling state (call :: calls) index results).state =
        (Agent.callMCPToolsFrom env calling state calls (index + 1) (results ++ [result])).state) ∧
    (consume .callMCPTools call.qualifiedName
        (Agent.callMCPTool env calling state.mcpToolCatalog call (calling.reply index)).1 = none →
      (Agent.callMCPToolsFrom env calling state (call :: calls) index results).state.status =
          some .waitingReconciliation ∧
        (Agent.callMCPToolsFrom env calling state (call :: calls) index results).state.mcpRoundResults = results) := by
  cases hout : (Agent.callMCPTool env calling state.mcpToolCatalog call (calling.reply index)).1 <;>
    simp [Agent.callMCPToolsFrom, hout, consume]

variable {codec : Codec} {check : Json → Json → Option String}

/-- The result of `execute_once` in `_resolve_approval`. -/
def approvedOutcome (codec : Codec) (check : Json → Json → Option String) (approval : MCPToolApproval)
    (client : Servers) (r : Resolving) : CallOutcome :=
  (executeOnce client (approvedAttempt codec check approval client r)
    (fun arguments result =>
      .obj (answeredResult approval.qualifiedName arguments result ++ [("approved", .bool true)])) r.reply).1

/-- The end of `_resolve_approval` after `execute_once`. -/
def executedResolution (qualifiedName : String) : CallOutcome → Resolution
  | .reconciliation executionId => .reconciliation executionId
  | .inProgress _ error | .error error => .result (callError qualifiedName error) true
  | .result value => .result value !(value.flag "ok")

/-- `_resolve_approval` hands over the result that it consumes, or raises. -/
theorem resolveApproval_consume {approval : MCPToolApproval} {now : Nat} {client : Servers} {r : Resolving}
    (happroved : approval.decision = some .approved) (hlive : now < approval.expiresAt) (hrouter : r.router = true) :
    (∀ result, consume .resolveApproval approval.qualifiedName (approvedOutcome codec check approval client r) =
        some result →
      (resolveApproval codec check approval now client r).1 = .result result !(result.flag "ok")) ∧
    (consume .resolveApproval approval.qualifiedName (approvedOutcome codec check approval client r) = none →
      ∃ executionId, (resolveApproval codec check approval now client r).1 = .reconciliation executionId) := by
  have hexecuted : (resolveApproval codec check approval now client r).1 =
      executedResolution approval.qualifiedName (approvedOutcome codec check approval client r) := by
    unfold resolveApproval
    rw [if_neg (not_not.mpr happroved), if_neg (Nat.not_le.mpr hlive), hrouter]
    rfl
  have herror (error : String) : (callError approval.qualifiedName error).flag "ok" = false := rfl
  rw [hexecuted]
  cases approvedOutcome codec check approval client r <;> simp [consume, executedResolution, herror]

end Callers

/-! ## The ledger with its callers -/

/-- A call under `execute_once`. -/
structure PreparedCall where
  caller : Caller
  qualifiedName : String
  executionId : String
deriving DecidableEq

/-- The caller prepares a call: `_resolve_approval` for its approval, `call_mcp_tools` without one. -/
def Request.caller (request : Request) : Caller :=
  if request.approvalId.isSome then .resolveApproval else .callMCPTools

/-- The ledger over sessions, the call that each worker is in, and what was
consumed, the last one first: `none` where the run waits. -/
structure Consuming (ω : Type*) where
  worker : SessionWorld ω
  call : ω → Option PreparedCall
  consumed : List (PreparedCall × Option Json)

section Step

variable {ω : Type*} [DecidableEq ω] (s : Settings) (codec : Codec)

/-- The calls after a step to `worker`. An exception of `prepare` is outside the handlers. -/
def Consuming.calls (w : Consuming ω) (worker : SessionWorld ω) : SessionEvent ω → ω → Option PreparedCall
  | .ledger (.prepare k request _ _) =>
    Function.update w.call k <| match worker.world.phase k with
      | .ready id => some ⟨request.caller, request.call.qualifiedName, id⟩
      | _ => none
  | .ledger (.leave k) | .next k => Function.update w.call k none
  | _ => w.call

/-- What the worker `k` consumes when it goes on. -/
def Consuming.takes (w : Consuming ω) (k : ω) : Option (PreparedCall × Option Json) := do
  let call ← w.call k
  let outcome ← outcome call.executionId (w.worker.world.phase k)
  return (call, consume call.caller call.qualifiedName outcome)

def Consuming.step (w : Consuming ω) (e : SessionEvent ω) : Option (Consuming ω) :=
  (sessionStep s codec w.worker e).map fun worker =>
    { worker
      call := w.calls worker e
      consumed := match e with
        | .next k => (w.takes k).toList ++ w.consumed
        | _ => w.consumed }

def consuming : System (Consuming ω) (SessionEvent ω) :=
  .ofStep (fun w => (sessionLedger s codec).start w.worker ∧ (∀ k, w.call k = none) ∧ w.consumed = [])
    (Consuming.step s codec)

/-- The lease that a transaction acts under. -/
def Transaction.lease : Transaction → Option String
  | .complete token .. | .markUnknown token _ => some token
  | _ => none

def Transaction.isClaim : Transaction → Bool
  | .claim .. => true
  | _ => false

/-- A worker's transaction on the object `c` of the committed row `d`: a resume of an
approval claims no execution in progress, the object shows the lease that is acted
under or is settled, and a settled row is written over from a settled object only. -/
def Sound (call : Option PreparedCall) (now : Nat) (t : Transaction) (c d : MCPToolExecution) : Prop :=
  (t.isClaim = true → (∃ x ∈ call, x.caller = .resolveApproval) → c.status = .executing → leaseLive c now = false) ∧
  (∀ token ∈ t.lease, c.status.terminal = true ∨ c.status = .executing ∧ c.leaseToken = some token) ∧
  (d.status.terminal = true → (transact s codec now t c).1 = c ∨ c.status.terminal = true)

instance (call : Option PreparedCall) (now : Nat) (t : Transaction) (c d : MCPToolExecution) :
    Decidable (Sound s codec call now t c d) :=
  inferInstanceAs (Decidable (_ ∧ _ ∧ _))

/-- The transaction of a worker's step is sound. -/
def SoundStep (w : Consuming ω) : SessionEvent ω → Prop
  | .ledger e => ∀ k ∈ e.worker, ∀ x ∈ e.transaction w.worker.world,
      ∀ c ∈ w.worker.sessions.select w.worker.world.db k x.1, ∀ d ∈ w.worker.world.db.lookup x.1,
        Sound s codec (w.call k) x.2.2 x.2.1 c d
  | _ => True

instance (w : Consuming ω) : DecidablePred (SoundStep s codec w)
  | .ledger e => inferInstanceAs (Decidable (∀ k ∈ e.worker, ∀ x ∈ e.transaction w.worker.world,
      ∀ c ∈ w.worker.sessions.select w.worker.world.db k x.1, ∀ d ∈ w.worker.world.db.lookup x.1,
        Sound s codec (w.call k) x.2.2 x.2.1 c d))
  | .next _ | .evict .. => inferInstanceAs (Decidable True)

end Step

/-! ## Settled rows stay settled -/

section Settled

/-- The row `d` has the request of `c`, and its outcome if `c` is settled. -/
structure Follows (c d : MCPToolExecution) : Prop where
  request : SameRequest c d
  settled : c.status.terminal = true → d.status = c.status ∧ d.resultJson = c.resultJson

theorem Follows.refl (c : MCPToolExecution) : Follows c c := ⟨.refl c, fun _ => ⟨rfl, rfl⟩⟩

theorem Follows.trans {a b c : MCPToolExecution} (h₁ : Follows a b) (h₂ : Follows b c) : Follows a c := by
  refine ⟨h₁.request.trans h₂.request, fun ht => ?_⟩
  obtain ⟨hs, hr⟩ := h₁.settled ht
  obtain ⟨hs', hr'⟩ := h₂.settled (hs ▸ ht)
  exact ⟨hs'.trans hs, hr'.trans hr⟩

theorem Effect.follows {s : Settings} {codec : Codec} {now : Nat} {t : Transaction} {e e' : MCPToolExecution}
    {r : Except LedgerError Reply} (h : Effect s codec now e t e' r) : Follows e e' :=
  ⟨h.request, h.settled⟩

theorem Follows.cachedResult {c d : MCPToolExecution} (h : Follows c d) (ht : c.status.terminal = true) :
    cachedResult d = cachedResult c := by
  simp only [Ledger.cachedResult, (h.settled ht).2, h.request.id]

/-- A flush of what a sound transaction changed. -/
theorem overlay_follows {s : Settings} {codec : Codec} {now : Nat} {t : Transaction} {c d : MCPToolExecution}
    (h : d.status.terminal = true → (transact s codec now t c).1 = c ∨ c.status.terminal = true) :
    Follows d (overlay c (transact s codec now t c).1 d) := by
  refine ⟨overlay_request, fun hd => ?_⟩
  rcases h hd with heq | hc
  · rw [heq]
    have hsame : overlay c c d = d := flush.unchanged c d
    rw [hsame]
    exact ⟨rfl, rfl⟩
  · obtain ⟨hs, hr⟩ := (transact_effect (Prod.eta (transact s codec now t c)).symm).settled hc
    simp only [overlay, hs, hr, column_unchanged, and_self]

/-- No row is lost, and each is followed. -/
def RowsFollow (db db' : Rows) : Prop :=
  ∀ ⦃id c⦄, db.lookup id = some c → ∃ d, db'.lookup id = some d ∧ Follows c d

theorem RowsFollow.refl (db : Rows) : RowsFollow db db := fun _ c h => ⟨c, h, .refl c⟩

theorem insert_follow {db : Rows} {id : String} {x : MCPToolExecution}
    (h : ∀ d, db.lookup id = some d → Follows d x) : RowsFollow db (db.insert id x) := by
  intro id' c hc
  by_cases hid : id' = id
  · subst hid
    exact ⟨x, AList.lookup_insert db, h c hc⟩
  · exact ⟨c, (AList.lookup_insert_ne hid).trans hc, .refl c⟩

/-- The execution `id` is settled with the result. -/
def SettledWith (db : Rows) (id : String) (result : Json) : Prop :=
  ∃ x, db.lookup id = some x ∧ x.status.terminal = true ∧ (result = storedResult db id ∨ result = cachedResult x)

theorem SettledWith.mono {db db' : Rows} {id : String} {result : Json} (h : SettledWith db id result)
    (hdb : RowsFollow db db') : SettledWith db' id result := by
  obtain ⟨c, hc, ht, hresult⟩ := h
  obtain ⟨d, hd, hcd⟩ := hdb hc
  obtain ⟨hs, hr⟩ := hcd.settled ht
  refine ⟨d, hd, hs ▸ ht, ?_⟩
  rcases hresult with rfl | rfl
  · left
    simp only [storedResult, hc, hd, Option.bind_some, hr]
  · exact .inr (hcd.cachedResult ht).symm

end Settled

/-! ## What a worker has in hand -/

/-- The worker is in the call that it has prepared, and its row exists. -/
def InHand (db : Rows) (call : Option PreparedCall) (id : String) : Prop :=
  (∃ c ∈ call, c.executionId = id) ∧ ∃ x, db.lookup id = some x

/-- What holds of a worker's phase: a result that it is about to consume is one of a
settled row, and for an exception that it is about to handle the run waits. -/
def PhaseOk (db : Rows) (call : Option PreparedCall) : Phase → Prop
  | .idle => True
  | .ready id | .leased id _ | .calling id _ | .settling id .. | .doubting id .. => InHand db call id
  | .returned result => ∀ c ∈ call, SettledWith db c.executionId result
  | .raised error => ∀ c ∈ call, ∀ o ∈ outcome c.executionId (.raised error), consume c.caller c.qualifiedName o = none

theorem PhaseOk.mono {db db' : Rows} {call : Option PreparedCall} {p : Phase} (h : PhaseOk db call p)
    (hdb : RowsFollow db db') : PhaseOk db' call p := by
  have hand {id : String} (h : InHand db call id) : InHand db' call id := by
    obtain ⟨x, hx⟩ := h.2
    obtain ⟨d, hd, _⟩ := hdb hx
    exact ⟨h.1, d, hd⟩
  cases p with
  | idle => trivial
  | ready | leased | calling | settling | doubting => exact hand h
  | returned result => exact fun c hc => (h c hc).mono hdb
  | raised error => exact h

section Transactions

variable {s : Settings} {codec : Codec} {now : Nat} {db : Rows} {call : Option PreparedCall} {id : String}
  {c d x : MCPToolExecution}

theorem afterClaim_ok {token owner : String} (hin : InHand db call id) (hx : db.lookup id = some x)
    (hcx : Follows c x)
    (hidle : (∃ x ∈ call, x.caller = .resolveApproval) → c.status = .executing → leaseLive c now = false) :
    PhaseOk db call (afterClaim id (claim s c token owner now).2) := by
  have hcached (ht : c.status.terminal = true) : PhaseOk db call (.returned (cachedResult c)) := by
    intro y hy
    obtain ⟨y', hy', rfl⟩ := hin.1
    obtain rfl := Option.some.inj (hy.symm.trans hy')
    exact ⟨x, hx, (hcx.settled ht).1 ▸ ht, .inr (hcx.cachedResult ht).symm⟩
  have hwaits (message : String) : PhaseOk db call (.raised (.reconciliationRequired message)) := by
    intro y _ o ho
    obtain rfl := Option.some.inj ho
    rfl
  unfold claim
  split
  · next h => exact hcached (by rw [h]; rfl)
  · next h => exact hcached (by rw [h]; rfl)
  · exact hwaits _
  · exact hwaits _
  · next h =>
    split
    · next hlive =>
      intro y hy o ho
      obtain rfl := Option.some.inj ho
      cases hcaller : y.caller with
      | callMCPTools => rfl
      | resolveApproval =>
        have hfree := hidle ⟨y, hy, hcaller⟩ h
        rw [hfree] at hlive
        cases hlive
    · dsimp only
      split
      · exact hin
      · exact hwaits _
  · exact hin

/-- The holder of the lease settles the row, or finds it settled. -/
theorem complete_settles {token : String} {result : Json} {failed : Bool} (hcd : Follows c d)
    (hheld : c.status.terminal = true ∨ c.status = .executing ∧ c.leaseToken = some token) :
    (complete codec c token result failed now).2 = .ok .row ∧
      (overlay c (complete codec c token result failed now).1 d).status.terminal = true := by
  unfold complete
  by_cases ht : c.status.terminal = true
  · rw [if_pos ht]
    refine ⟨rfl, ?_⟩
    simp only [overlay, column_unchanged, (hcd.settled ht).1, ht]
  · obtain ⟨hs, htoken⟩ := hheld.resolve_left ht
    rw [if_neg ht, if_neg (by simp [hs, htoken])]
    refine ⟨rfl, ?_⟩
    simp only [overlay, settle, hs, column]
    cases failed <;> rfl

theorem markUnknown_reply {token reason : String}
    (hheld : c.status.terminal = true ∨ c.status = .executing ∧ c.leaseToken = some token) :
    (markUnknown c token reason now).2 = .ok .row := by
  unfold markUnknown
  split
  · rfl
  · next ht =>
    obtain ⟨hs, htoken⟩ := hheld.resolve_left ht
    rw [if_neg (by simp [hs, htoken])]

end Transactions

/-! ## The invariant -/

section Invariant

variable {ω : Type*} [DecidableEq ω] {s : Settings} {codec : Codec} {w w' : Consuming ω}

/-- What holds between the steps. -/
structure Consuming.Inv (w : Consuming ω) : Prop where
  ids : ∀ ⦃id x⦄, w.worker.world.db.lookup id = some x → x.id = id
  tracks : Tracks Follows w.worker.world.db w.worker.sessions
  phases : ∀ k, PhaseOk w.worker.world.db (w.call k) (w.worker.world.phase k)

omit [DecidableEq ω] in
/-- A step that turns one worker. -/
theorem Consuming.Inv.turn (hw : w.Inv) (k : ω) (hdb : RowsFollow w.worker.world.db w'.worker.world.db)
    (hids : ∀ ⦃id x⦄, w'.worker.world.db.lookup id = some x → x.id = id)
    (htracks : Tracks Follows w'.worker.world.db w'.worker.sessions)
    (hothers : ∀ k', k' ≠ k → w'.worker.world.phase k' = w.worker.world.phase k' ∧ w'.call k' = w.call k')
    (hk : PhaseOk w'.worker.world.db (w'.call k) (w'.worker.world.phase k)) : w'.Inv := by
  refine ⟨hids, htracks, fun k' => ?_⟩
  by_cases hne : k' = k
  · rw [hne]
    exact hk
  · obtain ⟨hphase, hcall⟩ := hothers k' hne
    rw [hphase, hcall]
    exact (hw.phases k').mono hdb

omit [DecidableEq ω] in
/-- A step that turns no worker. -/
theorem Consuming.Inv.still (hw : w.Inv) (hdb : RowsFollow w.worker.world.db w'.worker.world.db)
    (hids : ∀ ⦃id x⦄, w'.worker.world.db.lookup id = some x → x.id = id)
    (htracks : Tracks Follows w'.worker.world.db w'.worker.sessions)
    (hphase : w'.worker.world.phase = w.worker.world.phase) (hcall : w'.call = w.call) : w'.Inv := by
  refine ⟨hids, htracks, fun k => ?_⟩
  rw [hphase, hcall]
  exact (hw.phases k).mono hdb

theorem insert_ids {db : Rows} {id : String} {x : MCPToolExecution}
    (hids : ∀ ⦃id x⦄, db.lookup id = some x → x.id = id) (hx : x.id = id) :
    ∀ ⦃id' x'⦄, (db.insert id x).lookup id' = some x' → x'.id = id' := by
  intro id' x' h
  rcases lookup_insert_cases h with ⟨rfl, rfl⟩ | ⟨_, h⟩
  · exact hx
  · exact hids h

/-- `prepare` in a session: the rows that it finds or inserts. -/
theorem prepareIn_ok {db db' : Rows} {S S' : ExecutionSessions ω} {k : ω} {request : Request} {id i : String}
    {now : Nat} (hids : ∀ ⦃id x⦄, db.lookup id = some x → x.id = id) (ht : Tracks Follows db S) (hid : id ∉ db)
    (h : prepareIn s codec db S k request id now = (S', .ok (db', i))) :
    RowsFollow db db' ∧ (∀ ⦃id x⦄, db'.lookup id = some x → x.id = id) ∧ Tracks Follows db' S' ∧
      ∃ x, db'.lookup i = some x := by
  have hnone {x : MCPToolExecution} (hx : db.lookup id = some x) : False :=
    hid (AList.lookup_isSome.mp (by rw [hx]; rfl))
  unfold prepareIn at h
  split at h
  · next d hd =>
    obtain ⟨rfl, hr⟩ := Prod.mk.inj h
    obtain ⟨_, id', hl⟩ := Rows.byKey_some hd
    cases hv : verifySameRequest codec ((S.cached k d.id).getD d) request.runId request.call
        request.approvalId with
    | error _ => rw [hv] at hr; cases hr
    | ok _ =>
      rw [hv] at hr
      cases hr
      exact ⟨.refl _, hids, ht.load .refl, d, by rw [hids hl]; exact hl⟩
  · split at h
    · next e he =>
      obtain ⟨rfl, hr⟩ := Prod.mk.inj h
      cases hr
      have hfollow : RowsFollow db (db.insert id e) := insert_follow fun d hd => (hnone hd).elim
      refine ⟨hfollow, insert_ids hids (newRow_ok he).2.1, ?_, e, AList.lookup_insert db⟩
      exact (ht.insert (fun _ _ _ h₁ h₂ => h₁.trans h₂) fun d hd => (hnone hd).elim).refresh .refl
    · cases h

theorem prepareIn_error {db : Rows} {S S' : ExecutionSessions ω} {k : ω} {request : Request} {id : String}
    {now : Nat} {error : LedgerError} (ht : Tracks Follows db S)
    (h : prepareIn s codec db S k request id now = (S', .error error)) : Tracks Follows db S' := by
  unfold prepareIn at h
  split at h
  · obtain ⟨rfl, _⟩ := Prod.mk.inj h
    exact ht.load .refl
  · split at h <;> obtain ⟨rfl, hr⟩ := Prod.mk.inj h
    · cases hr
    · exact ht

/-- A worker's transaction. -/
theorem transactIn_inv {e : Event ω} {k : ω} {id : String} {t : Transaction} {now : Nat} (hw : w.Inv)
    (hsound : SoundStep s codec w (.ledger e)) (ht : e.transaction w.worker.world = some (id, t, now))
    (hk : e.worker = some k) {db : Rows} {S : ExecutionSessions ω} {r : Except LedgerError Reply}
    (htr : transactIn flush (transact s codec now t) (.error .notFound) w.worker.world.db w.worker.sessions k id =
      (db, S, r)) : Consuming.Inv ⟨⟨w.worker.world.finish id db r e, S⟩, w.call, w.consumed⟩ := by
  have hin : InHand w.worker.world.db (w.call k) id := by
    have hphase := hw.phases k
    rcases transaction_cases ht with ⟨_, _, _, rfl, _, hp, _⟩ | ⟨_, _, _, _, rfl, _, hp⟩ |
      ⟨_, _, _, rfl, _, hp⟩ | ⟨rfl, _⟩ | ⟨_, _, _, _, _, _, rfl, _⟩
    all_goals try cases hk
    all_goals
      rw [hp] at hphase
      exact hphase
  obtain ⟨d, hd⟩ := hin.2
  obtain ⟨c, hc⟩ : ∃ c, w.worker.sessions.select w.worker.world.db k id = some c := by
    unfold Sessions.select
    split
    · exact ⟨_, rfl⟩
    · exact ⟨d, hd⟩
  have hs : Sound s codec (w.call k) now t c d := hsound k hk _ ht c hc d hd
  have hcd : Follows c d := by
    obtain ⟨d', hd', hcd⟩ := hw.tracks.select .refl hc
    obtain rfl := Option.some.inj (hd.symm.trans hd')
    exact hcd
  have hdx : Follows d (overlay c (transact s codec now t c).1 d) := overlay_follows hs.2.2
  have hdb : db = w.worker.world.db.insert id (overlay c (transact s codec now t c).1 d) ∧
      r = (transact s codec now t c).2 := by
    unfold transactIn at htr
    rw [hc, hd] at htr
    obtain ⟨hrow, hrest⟩ := Prod.mk.inj htr
    exact ⟨hrow.symm, (Prod.mk.inj hrest).2.symm⟩
  obtain ⟨rfl, rfl⟩ := hdb
  have htracks : Tracks Follows (w.worker.world.db.insert id (overlay c (transact s codec now t c).1 d)) S := by
    have h : Tracks Follows
        (transactIn flush (transact s codec now t) (.error .notFound) w.worker.world.db w.worker.sessions k id).1
        (transactIn flush (transact s codec now t) (.error .notFound) w.worker.world.db w.worker.sessions k id).2.1 :=
      hw.tracks.transact .refl (fun _ _ _ h₁ h₂ => h₁.trans h₂) fun c' d' hc' hd' _ => by
        obtain rfl := Option.some.inj (hc.symm.trans hc')
        obtain rfl := Option.some.inj (hd.symm.trans hd')
        exact hdx
    rw [htr] at h
    exact h
  have hfollow : RowsFollow w.worker.world.db
      (w.worker.world.db.insert id (overlay c (transact s codec now t c).1 d)) :=
    insert_follow fun d' hd' => Option.some.inj (hd.symm.trans hd') ▸ hdx
  have hids := insert_ids hw.ids (hdx.request.id.trans (hw.ids hd))
  have hx := AList.lookup_insert (a := id) (b := overlay c (transact s codec now t c).1 d) w.worker.world.db
  rcases transaction_cases ht with ⟨_, token, owner, rfl, rfl, _, _⟩ | ⟨_, token, result, failed, rfl, rfl, _⟩ |
    ⟨_, token, exc, rfl, rfl, hp⟩ | ⟨rfl, _⟩ | ⟨_, _, _, _, _, _, rfl, _⟩
  · obtain rfl := Option.some.inj hk
    refine hw.turn _ hfollow hids htracks (fun k' hne => ⟨Function.update_of_ne hne _ _, rfl⟩) ?_
    simp only [World.finish, World.goto, Function.update_self]
    exact afterClaim_ok ⟨hin.1, _, hx⟩ hx (hcd.trans hdx) (hs.1 rfl)
  · obtain rfl := Option.some.inj hk
    obtain ⟨hreply, hsettled⟩ := @complete_settles codec now c d token result failed hcd
      (hs.2.1 token rfl)
    refine hw.turn _ hfollow hids htracks (fun k' hne => ⟨Function.update_of_ne hne _ _, rfl⟩) ?_
    simp only [World.finish, World.goto, Function.update_self]
    simp only [transact] at hx ⊢
    rw [hreply]
    intro y hy
    obtain ⟨y', hy', rfl⟩ := hin.1
    obtain rfl := Option.some.inj (hy.symm.trans hy')
    exact ⟨_, hx, hsettled, .inl rfl⟩
  · obtain rfl := Option.some.inj hk
    have hreply := @markUnknown_reply now c token ("Remote outcome is unknown: " ++ exc) (hs.2.1 token rfl)
    simp only [World.finish, hp]
    refine hw.turn _ hfollow hids htracks (fun k' hne => ⟨Function.update_of_ne hne _ _, rfl⟩) ?_
    simp only [World.goto, Function.update_self]
    simp only [transact]
    rw [hreply]
    intro y _ o ho
    obtain rfl := Option.some.inj ho
    rfl
  · cases hk
  · cases hk

/-- A step that locks no row. -/
theorem stepLocal_phases {e : Event ω} {world : World ω} (h : stepLocal w.worker.world e = some world)
    (hw : w.Inv) (hleave : ∀ k, e ≠ .leave k) :
    Consuming.Inv ⟨⟨world, w.worker.sessions⟩, w.call, w.consumed⟩ := by
  have hturn (k : ω) {p q : Phase} (started : List (String × String)) (hk : w.worker.world.phase k = p)
      (hp : PhaseOk w.worker.world.db (w.call k) p → PhaseOk w.worker.world.db (w.call k) q) :
      Consuming.Inv ⟨⟨{ w.worker.world with started }.goto k q, w.worker.sessions⟩, w.call, w.consumed⟩ := by
    refine hw.turn k (.refl _) hw.ids hw.tracks (fun k' hne => ⟨Function.update_of_ne hne _ _, rfl⟩) ?_
    simp only [World.goto, Function.update_self]
    exact hp (hk ▸ hw.phases k)
  cases e <;> simp only [stepLocal, reduceCtorEq] at h
  case start k =>
    split at h
    · next hk =>
      obtain rfl := Option.some.inj h
      exact hturn k _ hk fun hin => hin
    · cases h
  case answer k raw =>
    split at h
    · next hk =>
      obtain rfl := Option.some.inj h
      exact hturn k _ hk fun hin => hin
    · next hk =>
      obtain rfl := Option.some.inj h
      exact hturn k _ hk fun hin => hin
    · cases h
  case fail k exc =>
    split at h
    · next hk =>
      obtain rfl := Option.some.inj h
      exact hturn k _ hk fun hin => hin
    · next hk =>
      obtain rfl := Option.some.inj h
      exact hturn k _ hk fun hin => hin
    · cases h
  case leave k => exact absurd rfl (hleave k)

/-- A transaction of the watchdog or of an operator. -/
theorem locked_inv {e : Event ω} {id : String} {t : Transaction} {now : Nat} {db : Rows}
    {r : Except LedgerError Reply} (hw : w.Inv) (ht : e.transaction w.worker.world = some (id, t, now))
    (hk : e.worker = none) (hl : locked s codec now t w.worker.world.db id = (db, r)) :
    Consuming.Inv ⟨⟨w.worker.world.finish id db r e,
      if db.lookup id = w.worker.world.db.lookup id then w.worker.sessions else w.worker.sessions.outdate id⟩,
      w.call, w.consumed⟩ := by
  have hphase : (w.worker.world.finish id db r e).phase = w.worker.world.phase := by
    rcases transaction_cases ht with ⟨_, _, _, rfl, _⟩ | ⟨_, _, _, _, rfl, _⟩ | ⟨_, _, _, rfl, _⟩ | ⟨rfl, _⟩ |
      ⟨_, _, _, _, _, _, rfl, _⟩
    all_goals first | rfl | cases hk
  have hcached (S : ExecutionSessions ω) (hS : S.cached = w.worker.sessions.cached)
      (h : Tracks Follows db w.worker.sessions) : Tracks Follows db S :=
    fun k i c hc => h (by rw [← hS]; exact hc)
  have htracks (h : Tracks Follows db w.worker.sessions) : Tracks Follows db
      (if db.lookup id = w.worker.world.db.lookup id then w.worker.sessions else w.worker.sessions.outdate id) := by
    split
    · exact h
    · exact hcached _ rfl h
  rcases locked_effect hl with ⟨rfl, _⟩ | ⟨c, x, hc, rfl, heff⟩
  · refine hw.still ?_ ?_ ?_ hphase rfl
    · rw [finish_db]
      exact .refl _
    · rw [finish_db]
      exact hw.ids
    · rw [finish_db]
      exact htracks hw.tracks
  · have hcx : ∀ d, w.worker.world.db.lookup id = some d → Follows d x :=
      fun d hd => Option.some.inj (hc.symm.trans hd) ▸ heff.follows
    refine hw.still ?_ ?_ ?_ hphase rfl
    · rw [finish_db]
      exact insert_follow hcx
    · rw [finish_db]
      exact insert_ids hw.ids ((hcx c hc).request.id.trans (hw.ids hc))
    · rw [finish_db]
      exact htracks (hw.tracks.insert (fun _ _ _ h₁ h₂ => h₁.trans h₂) hcx)

theorem Consuming.Inv.step {e : SessionEvent ω} (hw : w.Inv) (hsound : SoundStep s codec w e)
    (hs : w.step s codec e = some w') : w'.Inv := by
  obtain ⟨worker, h, rfl⟩ := Option.map_eq_some_iff.mp hs
  unfold sessionStep at h
  split at h
  · next k request id now =>
    split at h
    · split at h
      · cases h
      next hid =>
        split at h
        · next S db i hp =>
          obtain rfl := Option.some.inj h
          obtain ⟨hfollow, hids, htracks, x, hx⟩ := prepareIn_ok hw.ids hw.tracks hid hp
          refine hw.turn k hfollow hids htracks
            (fun k' hne => ⟨Function.update_of_ne hne _ _, Function.update_of_ne hne _ _⟩) ?_
          simp only [World.goto, Consuming.calls, Function.update_self]
          exact ⟨⟨_, rfl, rfl⟩, x, hx⟩
        · next S error hp =>
          obtain rfl := Option.some.inj h
          refine hw.turn k (.refl _) hw.ids (prepareIn_error hw.tracks hp)
            (fun k' hne => ⟨Function.update_of_ne hne _ _, Function.update_of_ne hne _ _⟩) ?_
          simp only [World.goto, Consuming.calls, Function.update_self]
          intro c hc
          cases hc
    · cases h
  · next k =>
    obtain rfl := Option.some.inj h
    refine hw.turn k (.refl _) hw.ids hw.tracks.close
      (fun k' hne => ⟨Function.update_of_ne hne _ _, Function.update_of_ne hne _ _⟩) ?_
    simp only [World.goto, Function.update_self]
    trivial
  · next e hnp hnl =>
    have hcalls (worker : SessionWorld ω) : w.calls worker (.ledger e) = w.call := by
      cases e <;> first | rfl | exact absurd rfl (hnp _ _ _ _) | exact absurd rfl (hnl _)
    rw [hcalls]
    split at h
    · next id t now k ht hk =>
      generalize htr : transactIn flush _ _ w.worker.world.db w.worker.sessions k id = x at h
      obtain ⟨db, S, r⟩ := x
      obtain rfl := Option.some.inj h
      exact transactIn_inv hw hsound ht hk htr
    · next id t now ht hk =>
      generalize hl : locked s codec now t w.worker.world.db id = x at h
      obtain ⟨db, r⟩ := x
      obtain rfl := Option.some.inj h
      exact locked_inv hw ht hk hl
    · next ht =>
      obtain ⟨world, hl, rfl⟩ := Option.map_eq_some_iff.mp h
      exact stepLocal_phases hl hw (fun k heq => hnl k heq)
  · next k =>
    have hidle (worker : SessionWorld ω) (hworker : worker = { w.worker with world := w.worker.world.goto k .idle })
        (consumed : List (PreparedCall × Option Json)) :
        Consuming.Inv ⟨worker, Function.update w.call k none, consumed⟩ := by
      subst hworker
      refine hw.turn k (.refl _) hw.ids hw.tracks
        (fun k' hne => ⟨Function.update_of_ne hne _ _, Function.update_of_ne hne _ _⟩) ?_
      simp only [World.goto, Function.update_self]
      trivial
    split at h
    · exact hidle _ (Option.some.inj h).symm _
    · exact hidle _ (Option.some.inj h).symm _
    · cases h
  · next k id =>
    obtain rfl := Option.some.inj h
    exact hw.still (.refl _) hw.ids hw.tracks.evict rfl rfl

theorem Consuming.Inv.start (h : (consuming s codec).start w) : w.Inv := by
  obtain ⟨⟨⟨hdb, _, _, hidle⟩, hsessions⟩, _, _⟩ := h
  refine ⟨fun id x hx => ?_, by rw [hsessions]; exact .empty _ _, fun k => by rw [hidle k]; trivial⟩
  rw [hdb] at hx
  cases hx

/-- A worker that goes on from a call consumes its outcome. -/
theorem next_consumed {k : ω} {call : PreparedCall} (hcall : w.call k = some call)
    (hnext : w.step s codec (.next k) = some w') :
    ∃ o, w.takes k = some (call, o) ∧ w'.consumed = (call, o) :: w.consumed := by
  obtain ⟨worker, h, rfl⟩ := Option.map_eq_some_iff.mp hnext
  obtain ⟨o, ho⟩ : ∃ o, outcome call.executionId (w.worker.world.phase k) = some o := by
    unfold sessionStep at h
    dsimp only at h
    split at h
    · next hp => exact ⟨_, by rw [hp]; rfl⟩
    · next error hp =>
      rw [hp]
      cases error <;> exact ⟨_, rfl⟩
    · cases h
  have htakes : w.takes k = some (call, consume call.caller call.qualifiedName o) := by
    simp only [Consuming.takes, hcall, ho, Option.bind_eq_bind, Option.bind_some, pure]
  exact ⟨_, htakes, by simp only [htakes, Option.toList_some, List.singleton_append]⟩

omit [DecidableEq ω] in
/-- What a worker consumes is the result of a settled row. -/
theorem takes_settled {k : ω} {call : PreparedCall} {result : Json} (hw : w.Inv)
    (h : w.takes k = some (call, some result)) :
    SettledWith w.worker.world.db call.executionId result := by
  have hphase := hw.phases k
  unfold Consuming.takes at h
  obtain ⟨call', hcall, h⟩ := Option.bind_eq_some_iff.mp h
  obtain ⟨o, ho, h⟩ := Option.bind_eq_some_iff.mp h
  obtain ⟨rfl, hresult⟩ := Prod.mk.inj (Option.some.inj h)
  rw [hcall] at hphase
  cases hp : w.worker.world.phase k with
  | returned value =>
    rw [hp] at hphase ho
    obtain rfl := Option.some.inj ho
    obtain rfl := Option.some.inj hresult
    exact hphase _ rfl
  | raised error =>
    rw [hp] at hphase ho
    rw [hphase _ rfl o ho] at hresult
    cases hresult
  | _ =>
    rw [hp] at ho
    cases ho

/-- What the agent goes on with. In every run whose transactions are sound, a worker that
goes on from a call consumes the result of its execution, which is settled, and it leaves
the run to wait where the execution is not settled. -/
theorem consumed_settled (hs : (consuming s codec).start w) {es : List (SessionEvent ω)}
    (h : ((consuming s codec).only (SoundStep s codec)).Run w es w') {k : ω} {call : PreparedCall}
    {w'' : Consuming ω} (hcall : w'.call k = some call) (hnext : w'.step s codec (.next k) = some w'') :
    ∃ o, w''.consumed = (call, o) :: w'.consumed ∧
      (∀ result, o = some result → SettledWith w'.worker.world.db call.executionId result) ∧
      ∀ x, w'.worker.world.db.lookup call.executionId = some x → x.status.terminal = false → o = none := by
  have hinv : w'.Inv := h.inv (fun _ _ _ hi he => hi.step he.1 he.2) (.start hs)
  obtain ⟨o, htakes, hconsumed⟩ := next_consumed hcall hnext
  have hsettled (result : Json) (ho : o = some result) : SettledWith w'.worker.world.db call.executionId result :=
    takes_settled hinv (ho ▸ htakes)
  refine ⟨o, hconsumed, hsettled, fun x hx ht => ?_⟩
  cases ho : o with
  | none => rfl
  | some result =>
    obtain ⟨x', hx', ht', _⟩ := hsettled result ho
    obtain rfl := Option.some.inj (hx.symm.trans hx')
    rw [ht] at ht'
    cases ht'

end Invariant

/-! ## Where a call is in progress -/

def sampleConsuming : Consuming Bool := ⟨sampleSessions, fun _ => none, []⟩

theorem sampleConsuming_start : (consuming sampleSettings sampleCodec).start sampleConsuming :=
  ⟨sampleSessions_start, fun _ => rfl, rfl⟩

/-- The call of an approval. -/
def approvedRequest : Request := { sampleRequest with approvalId := some "a" }

/-- Two resumes of one approval: the first one executes the call when the second one claims it. -/
def secondResume : List (SessionEvent Bool) :=
  [.ledger (.prepare true approvedRequest "e" 0), .ledger (.claim true "t" "pid:1" 5), .ledger (.start true),
    .ledger (.prepare false approvedRequest "f" 6), .ledger (.claim false "u" "pid:2" 7)]

/-- A call whose lease runs out, in a session whose objects expire meanwhile. -/
def lostLease : List (SessionEvent Bool) :=
  [.ledger (.prepare true sampleRequest "e" 0), .ledger (.claim true "t" "pid:1" 5), .ledger (.start true),
    .ledger (.recoverStale "e" 126), .evict true "e", .ledger (.answer true (.obj [("ok", .bool true)])),
    .ledger (.complete true 127)]

/-- The second of two resumes goes on with an error while the first still executes the
call, and `call_mcp_tools` goes on with an error for an execution that was recovered to
unknown. -/
theorem consumed_unsettled :
    (¬ ∀ (w w' w'' : Consuming Bool) (es : List (SessionEvent Bool)) (k : Bool) (call : PreparedCall)
      (x : MCPToolExecution) (o : Option Json),
      (consuming sampleSettings sampleCodec).start w → (consuming sampleSettings sampleCodec).Run w es w' →
      w'.step sampleSettings sampleCodec (.next k) = some w'' → w''.consumed = (call, o) :: w'.consumed →
      w'.worker.world.db.lookup call.executionId = some x → x.status.terminal = false → o = none) ∧
    (∃ (w w' : Consuming Bool) (x : MCPToolExecution),
      (consuming sampleSettings sampleCodec).Run sampleConsuming secondResume w ∧
      w.step sampleSettings sampleCodec (.next false) = some w' ∧
      w.worker.world.db.lookup "e" = some x ∧ x.status = .executing ∧
      w'.consumed = [(⟨.resolveApproval, "docs.search", "e"⟩,
        some (callError "docs.search" "MCP execution is already in progress"))]) ∧
    ∃ (w w' : Consuming Bool) (x : MCPToolExecution),
      (consuming sampleSettings sampleCodec).Run sampleConsuming lostLease w ∧
      w.step sampleSettings sampleCodec (.next true) = some w' ∧
      w.worker.world.db.lookup "e" = some x ∧ x.status = .unknown ∧
      w'.consumed = [(⟨.callMCPTools, "docs.search", "e"⟩,
        some (callError "docs.search" "MCP execution lease is no longer valid"))] := by
  refine ⟨fun h => ?_, ⟨_, _, _, .of_foldlM rfl, rfl, rfl, rfl, rfl⟩, _, _, _, .of_foldlM rfl, rfl, rfl, rfl, rfl⟩
  have hnone := h sampleConsuming _ _ secondResume false ⟨.resolveApproval, "docs.search", "e"⟩ _ _
    sampleConsuming_start (.of_foldlM rfl) rfl rfl rfl rfl
  cases hnone

/-- A call, and the resume of another worker that finds it settled. -/
def settledTwice : List (SessionEvent Bool) :=
  [.ledger (.prepare true approvedRequest "e" 0), .ledger (.claim true "t" "pid:1" 5), .ledger (.start true),
    .ledger (.answer true (.obj [("ok", .bool true)])), .ledger (.complete true 9), .next true,
    .ledger (.prepare false approvedRequest "f" 20), .ledger (.claim false "u" "pid:2" 21)]

theorem consumed_settled_sample : ∃ (w : Consuming Bool) (o : Option Json),
    w.consumed = [(⟨.resolveApproval, "docs.search", "e"⟩, o),
      (⟨.resolveApproval, "docs.search", "e"⟩, some (.obj [("ok", .bool true), ("execution_id", .str "e"),
        ("idempotency_key", .str "key")]))] ∧
    ∀ result, o = some result → SettledWith w.worker.world.db "e" result := by
  obtain ⟨w, hw⟩ : ∃ w, settledTwice.foldlM (fun w e => if SoundStep sampleSettings sampleCodec w e then
      w.step sampleSettings sampleCodec e else none) sampleConsuming = some w := ⟨_, rfl⟩
  have hrun : ((consuming sampleSettings sampleCodec).only (SoundStep sampleSettings sampleCodec)).Run
      sampleConsuming settledTwice w := .only_of_foldlM hw
  obtain ⟨w', hnext, hdb, hcall, hbefore⟩ : ∃ w', w.step sampleSettings sampleCodec (.next false) = some w' ∧
      w'.worker.world.db = w.worker.world.db ∧
      w.call false = some ⟨.resolveApproval, "docs.search", "e"⟩ ∧
      w.consumed = [(⟨.resolveApproval, "docs.search", "e"⟩, some (.obj [("ok", .bool true),
        ("execution_id", .str "e"), ("idempotency_key", .str "key")]))] := by
    obtain rfl := Option.some.inj hw
    exact ⟨_, rfl, rfl, rfl, rfl⟩
  obtain ⟨o, hconsumed, hsettled, _⟩ := consumed_settled sampleConsuming_start hrun hcall hnext
  exact ⟨w', o, hconsumed.trans (by rw [hbefore]), hdb ▸ hsettled⟩

end CodeMate.Ledger
