import CodeMate.Framework.Session
import CodeMate.Ledger.Atomic

/-!
# The ledger over ORM sessions

`execute_once` as it runs: each worker has a session (`expire_on_commit=False`),
`_locked` selects the row for update but gives the object that the session
already holds, and a commit flushes the columns that were changed in it
(`flush`). The watchdog's `recover_stale` and the API's `reconcile` are the
first use of a session of their own, and so read the committed row.

`lost_update` gives runs in which this is not the atomic ledger: two workers
that both read the row while it was prepared both get a lease, and a worker
whose lease was recovered overwrites the outcome. `session_refines`: where no
other session has committed the row since the worker's session read it, each
decision is on the committed row, and a run of such steps is one of the atomic
ledger.
-/

namespace CodeMate.Ledger

open Framework

/-- `UPDATE mcp_tool_executions SET …` for the columns changed in the object. -/
def overlay (c n d : MCPToolExecution) : MCPToolExecution where
  id := column c.id n.id d.id
  runId := column c.runId n.runId d.runId
  approvalId := column c.approvalId n.approvalId d.approvalId
  qualifiedName := column c.qualifiedName n.qualifiedName d.qualifiedName
  serverName := column c.serverName n.serverName d.serverName
  toolName := column c.toolName n.toolName d.toolName
  argumentsJson := column c.argumentsJson n.argumentsJson d.argumentsJson
  argumentsHash := column c.argumentsHash n.argumentsHash d.argumentsHash
  idempotencyKey := column c.idempotencyKey n.idempotencyKey d.idempotencyKey
  idempotencyMode := column c.idempotencyMode n.idempotencyMode d.idempotencyMode
  retrySafe := column c.retrySafe n.retrySafe d.retrySafe
  status := column c.status n.status d.status
  attemptCount := column c.attemptCount n.attemptCount d.attemptCount
  recoveryCount := column c.recoveryCount n.recoveryCount d.recoveryCount
  deduplicationHits := column c.deduplicationHits n.deduplicationHits d.deduplicationHits
  leaseToken := column c.leaseToken n.leaseToken d.leaseToken
  leaseOwner := column c.leaseOwner n.leaseOwner d.leaseOwner
  leaseExpiresAt := column c.leaseExpiresAt n.leaseExpiresAt d.leaseExpiresAt
  checkpointJson := column c.checkpointJson n.checkpointJson d.checkpointJson
  checkpointHash := column c.checkpointHash n.checkpointHash d.checkpointHash
  resultJson := column c.resultJson n.resultJson d.resultJson
  errorMessage := column c.errorMessage n.errorMessage d.errorMessage
  reconciliationNote := column c.reconciliationNote n.reconciliationNote d.reconciliationNote
  reconciledBy := column c.reconciledBy n.reconciledBy d.reconciledBy
  reconciledProvider := column c.reconciledProvider n.reconciledProvider d.reconciledProvider
  version := column c.version n.version d.version
  startedAt := column c.startedAt n.startedAt d.startedAt
  finishedAt := column c.finishedAt n.finishedAt d.finishedAt
  reconciledAt := column c.reconciledAt n.reconciledAt d.reconciledAt
  updatedAt := column c.updatedAt n.updatedAt d.updatedAt

def flush : Flush MCPToolExecution where
  overlay := overlay
  current c n := by simp only [overlay, column_current]
  unchanged c d := by simp only [overlay, column_unchanged]

/-- A flush of what a transaction changed leaves the request of the row. -/
theorem overlay_request {s : Settings} {codec : Codec} {now : Nat} {t : Transaction}
    {c d : MCPToolExecution} : SameRequest d (overlay c (transact s codec now t c).1 d) := by
  obtain ⟨h1, h2, h3, h4, h5, h6, h7⟩ :=
    (transact_effect (Prod.eta (transact s codec now t c)).symm).request
  refine ⟨?_, ?_, ?_, ?_, ?_, ?_, ?_⟩ <;> simp only [overlay, *, column_unchanged]

abbrev ExecutionSessions (ω : Type*) := Sessions ω String MCPToolExecution

structure SessionWorld (ω : Type*) where
  world : World ω
  sessions : ExecutionSessions ω

/-- The steps of the atomic ledger, and those of a session: a job goes on to
its next `execute_once` in the same session, and an object it no longer uses
is collected. -/
inductive SessionEvent (ω : Type*)
  | ledger (e : Event ω)
  | next (k : ω)
  | evict (k : ω) (id : String)

/-- The step of the atomic ledger. -/
def SessionEvent.atomic {ω : Type*} : SessionEvent ω → Option (Event ω)
  | .ledger e => some e
  | .next k => some (.leave k)
  | .evict .. => none

section Step

variable {ω : Type*} [DecidableEq ω] (s : Settings) (codec : Codec)

/-- `prepare` of the session `k`: the request is compared with the object that
the select by key gives. -/
def prepareIn (db : Rows) (S : ExecutionSessions ω) (k : ω) (request : Request) (id : String) (now : Nat) :
    ExecutionSessions ω × Except LedgerError (Rows × String) :=
  match db.byKey request.idempotencyKey with
  | some d => (S.load db k d.id, do
      verifySameRequest codec ((S.cached k d.id).getD d) request.runId request.call request.approvalId
      return (db, d.id))
  | none =>
    match newRow s codec id request.runId request.call request.idempotencyKey
      request.idempotencyMode request.approvalId request.checkpoint now with
    | .ok e => (S.refresh k id e, .ok (db.insert id e, id))
    | .error err => (S, .error err)

/-- One step over the sessions. -/
def sessionStep (w : SessionWorld ω) : SessionEvent ω → Option (SessionWorld ω)
  | .ledger (.prepare k request id now) =>
    match w.world.phase k with
    | .idle =>
      if id ∈ w.world.db then none
      else match prepareIn s codec w.world.db w.sessions k request id now with
        | (S, .ok (db, id)) => some ⟨{ w.world with db }.goto k (.ready id), S⟩
        | (S, .error e) => some ⟨w.world.goto k (.raised e), S⟩
    | _ => none
  | .ledger (.leave k) => some ⟨w.world.goto k .idle, w.sessions.close k⟩
  | .ledger e =>
    match e.transaction w.world, e.worker with
    | some (id, t, now), some k =>
      let (db, S, r) :=
        transactIn flush (transact s codec now t) (.error .notFound) w.world.db w.sessions k id
      some ⟨w.world.finish id db r e, S⟩
    | some (id, t, now), none =>
      let (db, r) := locked s codec now t w.world.db id
      some ⟨w.world.finish id db r e,
        if db.lookup id = w.world.db.lookup id then w.sessions else w.sessions.outdate id⟩
    | none, _ => (stepLocal w.world e).map fun world => { w with world }
  | .next k =>
    match w.world.phase k with
    | .returned _ | .raised _ => some { w with world := w.world.goto k .idle }
    | _ => none
  | .evict k id => some { w with sessions := w.sessions.evict k id }

/-- The ledger over sessions, none of which holds a row yet. -/
def sessionLedger : System (SessionWorld ω) (SessionEvent ω) :=
  .ofStep (fun w => (ledger s codec).start w.world ∧ w.sessions = .empty) (sessionStep s codec)

/-- No other session has committed the row that a worker's step locks since
the worker's session read it. -/
def Unshared (w : SessionWorld ω) : SessionEvent ω → Prop
  | .ledger e => ∀ k ∈ e.worker, ∀ x ∈ e.transaction w.world, w.sessions.stale k x.1 = false
  | _ => True

end Step

section Refinement

variable {ω : Type*} [DecidableEq ω] {s : Settings} {codec : Codec} {w w' : SessionWorld ω}

/-- What a session holds is bound to the request of the committed row, and is
that row unless another session has committed it since. -/
structure Synced (w : SessionWorld ω) : Prop where
  coherent : Coherent w.world.db w.sessions
  tracks : Tracks SameRequest w.world.db w.sessions

theorem prepareIn_synced {db : Rows} {S S' : ExecutionSessions ω} {k : ω} {request : Request} {id : String}
    {now : Nat} {r : Except LedgerError (Rows × String)} (hid : id ∉ db) (hc : Coherent db S)
    (ht : Tracks SameRequest db S) (h : prepareIn s codec db S k request id now = (S', r)) :
    (∀ db' i, r = .ok (db', i) → Coherent db' S' ∧ Tracks SameRequest db' S') ∧
    (∀ e, r = .error e → Coherent db S' ∧ Tracks SameRequest db S') := by
  unfold prepareIn at h
  split at h
  · next d _ =>
    obtain ⟨rfl, rfl⟩ := Prod.mk.inj h
    have hl : Coherent db (S.load db k d.id) ∧ Tracks SameRequest db (S.load db k d.id) :=
      ⟨hc.load, ht.load .refl⟩
    refine ⟨fun db' i hr => ?_, fun _ _ => hl⟩
    cases hv : verifySameRequest codec ((S.cached k d.id).getD d) request.runId request.call
        request.approvalId with
    | ok _ => rw [hv] at hr; cases hr; exact hl
    | error _ => rw [hv] at hr; cases hr
  · split at h <;> obtain ⟨rfl, rfl⟩ := Prod.mk.inj h
    · next e _ =>
      refine ⟨fun db' i hr => ?_, fun _ hr => by cases hr⟩
      obtain ⟨rfl, rfl⟩ := Prod.mk.inj (Except.ok.inj hr)
      refine ⟨hc.refresh, (ht.insert (fun _ _ _ h₁ h₂ => h₁.trans h₂) fun d hd => ?_).refresh .refl⟩
      exact absurd (AList.lookup_isSome.mp (by rw [hd]; rfl)) hid
    · exact ⟨fun _ _ hr => (by cases hr), fun _ _ => ⟨hc, ht⟩⟩

omit [DecidableEq ω] in
theorem locked_synced (s : Settings) (codec : Codec) (now : Nat) (t : Transaction) (id : String)
    (hw : Synced w) :
    Coherent (locked s codec now t w.world.db id).1
      (if (locked s codec now t w.world.db id).1.lookup id = w.world.db.lookup id then w.sessions
        else w.sessions.outdate id) ∧
    Tracks SameRequest (locked s codec now t w.world.db id).1
      (if (locked s codec now t w.world.db id).1.lookup id = w.world.db.lookup id then w.sessions
        else w.sessions.outdate id) := by
  rcases locked_effect (Prod.eta (locked s codec now t w.world.db id)).symm with ⟨hdb, _⟩ | ⟨e, e', he, hdb, heff⟩
  · rw [hdb, if_pos rfl]
    exact ⟨hw.coherent, hw.tracks⟩
  · rw [hdb, AList.lookup_insert, he]
    have htr : Tracks SameRequest (w.world.db.insert id e') w.sessions :=
      hw.tracks.insert (fun _ _ _ h₁ h₂ => h₁.trans h₂) fun d hd =>
        Option.some.inj (he.symm.trans hd) ▸ heff.request
    split
    · next heq =>
      obtain rfl := Option.some.inj heq
      exact ⟨hw.coherent.same (lookup_insert_same he), htr⟩
    · exact ⟨hw.coherent.outdate, htr⟩

theorem sessionStep_synced {e : SessionEvent ω} (h : sessionStep s codec w e = some w') (hw : Synced w) :
    Synced w' := by
  unfold sessionStep at h
  split at h
  · next k request id now =>
    split at h
    · split at h
      · cases h
      · next hid =>
        split at h <;> obtain rfl := Option.some.inj h
        · next hp =>
          obtain ⟨hc, ht⟩ := (prepareIn_synced hid hw.coherent hw.tracks hp).1 _ _ rfl
          exact ⟨hc, ht⟩
        · next hp =>
          obtain ⟨hc, ht⟩ := (prepareIn_synced hid hw.coherent hw.tracks hp).2 _ rfl
          exact ⟨hc, ht⟩
    · cases h
  · obtain rfl := Option.some.inj h
    exact ⟨hw.coherent.close, hw.tracks.close⟩
  · next e _ _ =>
    split at h
    · obtain rfl := Option.some.inj h
      exact ⟨by rw [finish_db]; exact hw.coherent.transact,
        by rw [finish_db]; exact hw.tracks.transact .refl (fun _ _ _ h₁ h₂ => h₁.trans h₂) fun _ _ _ _ _ =>
          overlay_request⟩
    · obtain rfl := Option.some.inj h
      obtain ⟨hc, ht⟩ := locked_synced s codec _ _ _ hw
      exact ⟨by rw [finish_db]; exact hc, by rw [finish_db]; exact ht⟩
    · obtain ⟨world, hl, rfl⟩ := Option.map_eq_some_iff.mp h
      exact ⟨by rw [stepLocal_db hl]; exact hw.coherent, by rw [stepLocal_db hl]; exact hw.tracks⟩
  · split at h <;> cases h <;> exact ⟨hw.coherent, hw.tracks⟩
  · obtain rfl := Option.some.inj h
    exact ⟨hw.coherent.evict, hw.tracks.evict⟩

omit [DecidableEq ω] in
/-- `prepare` compares a request with the same row, whatever the session holds of it. -/
theorem verifySameRequest_eq {c d : MCPToolExecution} (h : SameRequest c d) (runId : String) (call : Call)
    (approvalId : Option String) :
    verifySameRequest codec c runId call approvalId = verifySameRequest codec d runId call approvalId := by
  simp only [verifySameRequest, h.runId, h.approvalId, h.qualifiedName, h.argumentsHash]

theorem prepareIn_eq (codec : Codec) (k : ω) (request : Request) (id : String) (now : Nat) (hw : Synced w)
    (hi : Inv s w.world) :
    (prepareIn s codec w.world.db w.sessions k request id now).2 =
      prepare s codec w.world.db request id now := by
  unfold prepareIn prepare
  cases hd : w.world.db.byKey request.idempotencyKey with
  | some d =>
    obtain ⟨_, i, hl⟩ := Rows.byKey_some hd
    have hv : verifySameRequest codec ((w.sessions.cached k d.id).getD d) request.runId request.call
        request.approvalId = verifySameRequest codec d request.runId request.call request.approvalId := by
      cases hc : w.sessions.cached k d.id with
      | none => rfl
      | some c =>
        obtain ⟨d', hd', hr⟩ := hw.tracks hc
        rw [hi.store.id hl] at hd'
        obtain rfl := Option.some.inj (hl.symm.trans hd')
        exact verifySameRequest_eq hr _ _ _
    simp only [hv]
  | none =>
    cases newRow s codec id request.runId request.call request.idempotencyKey request.idempotencyMode
      request.approvalId request.checkpoint now <;> rfl

/-- A step whose object is not stale is the step of the atomic ledger. -/
theorem sessionStep_atomic {e : SessionEvent ω} (h : sessionStep s codec w e = some w') (hw : Synced w)
    (hi : Inv s w.world) (hu : Unshared w e) :
    (e.atomic = none → w'.world = w.world) ∧
    ∀ a, e.atomic = some a → step s codec w.world a = some w'.world := by
  unfold sessionStep at h
  split at h
  · next k request id now =>
    refine ⟨fun ha => (by cases ha), fun a ha => ?_⟩
    obtain rfl := Option.some.inj ha
    split at h
    · next hk =>
      split at h
      · cases h
      · next hid =>
        have hp := prepareIn_eq codec k request id now hw hi
        simp only [step, hk, if_neg hid, ← hp]
        split at h <;> next heq => obtain rfl := Option.some.inj h; rw [heq]
    · cases h
  · next k =>
    obtain rfl := Option.some.inj h
    exact ⟨fun ha => (by cases ha), fun a ha => by obtain rfl := Option.some.inj ha; rfl⟩
  · next e hnp hnl =>
    refine ⟨fun ha => (by cases ha), fun a ha => ?_⟩
    obtain rfl := Option.some.inj ha
    rw [step_of_not_prepare hnp]
    split at h
    · next id t now k ht hk =>
      have hcur := transactIn_current flush (transact s codec now t) (.error .notFound) hw.coherent
        (hu k hk _ ht)
      dsimp only at hcur
      generalize hx : transactIn flush _ _ w.world.db w.sessions k id = x at h
      obtain ⟨db, S, r⟩ := x
      obtain rfl := Option.some.inj h
      have hl : locked s codec now t w.world.db id = (db, r) :=
        Prod.ext (hcur.1.symm.trans (by rw [hx])) (hcur.2.symm.trans (by rw [hx]))
      simp only [ht, hl]
    · next id t now ht _ =>
      generalize hl : locked s codec now t w.world.db id = x at h
      obtain ⟨db, r⟩ := x
      obtain rfl := Option.some.inj h
      simp only [ht, hl]
    · next ht =>
      obtain ⟨world, hl, rfl⟩ := Option.map_eq_some_iff.mp h
      rw [ht]; exact hl
  · refine ⟨fun ha => (by cases ha), fun a ha => ?_⟩
    obtain rfl := Option.some.inj ha
    split at h <;> cases h <;> rfl
  · obtain rfl := Option.some.inj h
    exact ⟨fun _ => rfl, fun _ ha => by cases ha⟩

/-- A worker's step decides on the last committed row. -/
def DecidesOnCommitted (w : SessionWorld ω) : SessionEvent ω → Prop
  | .ledger e => ∀ k ∈ e.worker, ∀ x ∈ e.transaction w.world,
      w.sessions.select w.world.db k x.1 = w.world.db.lookup x.1
  | _ => True

theorem Synced.start (h : (sessionLedger s codec).start w) : Synced w := by
  obtain ⟨_, hS⟩ := h
  exact ⟨by rw [hS]; exact .empty _, by rw [hS]; exact .empty _ _⟩

/-- Where no other session has committed the row that a worker's step locks
since the worker's session read it, the sessions refine the atomic ledger: a
run of such steps is a run of the atomic ledger over the same committed rows,
and each of them, and the next, decides on the last committed row. -/
theorem session_refines (hs : (sessionLedger s codec).start w) {es : List (SessionEvent ω)}
    (h : ((sessionLedger s codec).only Unshared).Run w es w') :
    (ledger s codec).Run w.world (es.filterMap SessionEvent.atomic) w'.world ∧
    ∀ e, Unshared w' e → DecidesOnCommitted w' e := by
  have hstart : (ledger s codec).start w.world := hs.1
  obtain ⟨world, hr, heq, hsync, _⟩ := h.simulate (T := ledger s codec)
    (R := fun v a => a = v.world ∧ Synced v ∧ Inv s v.world) (f := SessionEvent.atomic)
    (fun v v' e a hR he hf => by
      obtain ⟨rfl, hv, hi⟩ := hR
      have hw := (sessionStep_atomic he.2 hv hi he.1).1 hf
      exact ⟨hw.symm, sessionStep_synced he.2 hv, by rw [hw]; exact hi⟩)
    (fun v v' e d a hR he hf => by
      obtain ⟨rfl, hv, hi⟩ := hR
      have hstep := (sessionStep_atomic he.2 hv hi he.1).2 d hf
      exact ⟨v'.world, hstep, rfl, sessionStep_synced he.2 hv, (step_move hstep).inv hi⟩)
    (t := w.world) ⟨rfl, .start hs, inductive_inv.start hstart⟩
  subst heq
  refine ⟨hr, fun e hu => ?_⟩
  cases e with
  | ledger e => exact fun k hk x hx => hsync.coherent.select (hu k hk x hx)
  | next | evict => trivial

end Refinement

/-! ## Where the row is shared -/

def sampleSessions : SessionWorld Bool := ⟨⟨∅, fun _ => .idle, [], []⟩, .empty⟩

theorem sampleSessions_start : (sessionLedger sampleSettings sampleCodec).start sampleSessions :=
  ⟨⟨rfl, rfl, rfl, fun _ => rfl⟩, rfl⟩

/-- Two workers read the row while it is prepared, and both claim it. -/
def sharedClaim : List (SessionEvent Bool) :=
  [.ledger (.prepare true sampleRequest "e" 0), .ledger (.prepare false sampleRequest "f" 1),
    .ledger (.claim true "t" "pid:1" 5), .ledger (.start true), .ledger (.claim false "u" "pid:2" 6),
    .ledger (.start false)]

/-- The watchdog recovers the lease of a worker whose call then returns. -/
def lateAnswer : List (SessionEvent Bool) :=
  [.ledger (.prepare true sampleRequest "e" 0), .ledger (.claim true "t" "pid:1" 5),
    .ledger (.start true), .ledger (.recoverStale "e" 126),
    .ledger (.answer true (.obj [("ok", .bool true)]))]

/-- The sessions do not refine the atomic ledger: a worker's `complete` decides
on a lease that was taken away from it, and settles the row that was recovered
to unknown; and two workers both move a prepared row to executing, so that a
remote call which is not retry-safe is started twice. -/
theorem lost_update :
    (¬ ∀ (w w' w'' : SessionWorld Bool) (es : List (SessionEvent Bool)) (e : SessionEvent Bool),
      (sessionLedger sampleSettings sampleCodec).start w →
      (sessionLedger sampleSettings sampleCodec).Run w es w' →
      sessionStep sampleSettings sampleCodec w' e = some w'' → DecidesOnCommitted w' e) ∧
    (∃ (w w' : SessionWorld Bool) (x x' : MCPToolExecution),
      (sessionLedger sampleSettings sampleCodec).Run sampleSessions lateAnswer w ∧
      w.world.db.lookup "e" = some x ∧ x.status = .unknown ∧
      sessionStep sampleSettings sampleCodec w (.ledger (.complete true 127)) = some w' ∧
      w'.world.db.lookup "e" = some x' ∧ x'.status = .succeeded) ∧
    ∃ (w : SessionWorld Bool) (x : MCPToolExecution),
      (sessionLedger sampleSettings sampleCodec).Run sampleSessions sharedClaim w ∧
      w.world.db.lookup "e" = some x ∧ x.retrySafe = false ∧ w.world.started.countP (·.1 = "e") = 2 := by
  refine ⟨fun h => ?_, ⟨_, _, _, _, .of_foldlM rfl, rfl, rfl, rfl, rfl, rfl⟩, _, _, .of_foldlM rfl, rfl, rfl, rfl⟩
  have hd := h sampleSessions _ _ lateAnswer (.ledger (.complete true 127)) sampleSessions_start
    (.of_foldlM rfl) rfl true rfl _ rfl
  exact absurd (congrArg (Option.map (·.status)) hd) (by decide)

/-- A worker alone, and the watchdog after it: none shares the row. -/
def unsharedCall : List (SessionEvent Bool) :=
  [.ledger (.prepare true sampleRequest "e" 0), .ledger (.claim true "t" "pid:1" 5),
    .ledger (.start true), .ledger (.answer true (.obj [("ok", .bool true)])),
    .ledger (.complete true 9), .ledger (.recoverStale "e" 126)]

theorem session_refines_unshared : ∃ (w : SessionWorld Bool) (x : MCPToolExecution),
    w.world.db.lookup "e" = some x ∧ x.status = .succeeded ∧
    (ledger sampleSettings sampleCodec).Run sampleSessions.world
      (unsharedCall.filterMap SessionEvent.atomic) w.world := by
  have hr : ∃ w x, ((sessionLedger sampleSettings sampleCodec).only Unshared).Run sampleSessions unsharedCall w ∧
      w.world.db.lookup "e" = some x ∧ x.status = .succeeded := by
    refine ⟨_, _, .cons ⟨?_, rfl⟩ (.cons ⟨?_, rfl⟩ (.cons ⟨?_, rfl⟩ (.cons ⟨?_, rfl⟩ (.cons ⟨?_, rfl⟩
      (.cons ⟨?_, rfl⟩ .nil))))), rfl, rfl⟩
    all_goals
      rintro k ⟨⟩ x ⟨⟩
      try rfl
  obtain ⟨w, x, hr, hx, hs⟩ := hr
  exact ⟨w, x, hx, hs, (session_refines sampleSessions_start hr).1⟩

end CodeMate.Ledger
