import CodeMate.Framework.Run
import CodeMate.Framework.Session
import CodeMate.Ledger.Row

/-!
# The atomic ledger: workers over committed rows

Any number of workers call `execute_once`, and every method that locks a row
is one transaction on the row as it was committed last. A worker's call is cut
where another's transaction can come between: after `prepare`, after `claim`,
before and during the remote call, and before the outcome is stored. `World`
also records every lease granted and every remote call started. A worker can
be cut off at any point (`leave`), `recover_stale` and `reconcile` can come at
any time, and each step reads whatever time it likes.

`Inv` holds in every reachable world (`inductive_inv`), and a row changes only
as `Grown` allows (`run_grown`); `at_most_once` puts together what follows.
-/

namespace CodeMate.Ledger

open Framework

/-- The arguments of `prepare`. -/
structure Request where
  runId : String
  call : Call
  idempotencyKey : String
  idempotencyMode : String
  approvalId : Option String
  checkpoint : Option Json

/-- Where a worker stands in `execute_once`. -/
inductive Phase
  | idle
  | ready (id : String)
  | leased (id token : String)
  | calling (id token : String)
  | settling (id token : String) (result : Json) (failed : Bool)
  | doubting (id token exc : String)
  | returned (result : Json)
  | raised (error : LedgerError)

/-- The committed rows by id. -/
abbrev Rows := AList fun _ : String => MCPToolExecution

/-- The row bound to an idempotency key. -/
def Rows.byKey (db : Rows) (key : String) : Option MCPToolExecution :=
  (db.entries.find? fun row => row.2.idempotencyKey == key).map Sigma.snd

structure World (ω : Type*) where
  db : Rows
  phase : ω → Phase
  /-- Each lease handed out, with its row. -/
  granted : List (String × String)
  /-- Each remote call started, with its row, under the lease it was made with. -/
  started : List (String × String)

inductive Event (ω : Type*)
  | prepare (k : ω) (request : Request) (id : String) (now : Nat)
  | claim (k : ω) (token owner : String) (now : Nat)
  | start (k : ω)
  | answer (k : ω) (raw : Json)
  | fail (k : ω) (exc : String)
  | complete (k : ω) (now : Nat)
  | markUnknown (k : ω) (now : Nat)
  | recoverStale (id : String) (now : Nat)
  | reconcile (id : String) (action : ReconcileAction) (expectedVersion : Nat)
      (actor provider : String) (note : Option String) (result : Option Json) (now : Nat)
  | leave (k : ω)

/-- `prepare`: the row already bound to the key, or a new one; unique ids and
keys are the table's constraints. -/
def prepare (s : Settings) (codec : Codec) (db : Rows) (request : Request) (id : String) (now : Nat) :
    Except LedgerError (Rows × String) :=
  match db.byKey request.idempotencyKey with
  | some e => do
    verifySameRequest codec e request.runId request.call request.approvalId
    return (db, e.id)
  | none => do
    let e ← newRow s codec id request.runId request.call request.idempotencyKey
      request.idempotencyMode request.approvalId request.checkpoint now
    return (db.insert id e, id)

/-- A locked transaction on the row `id`. -/
def locked (s : Settings) (codec : Codec) (now : Nat) (t : Transaction) (db : Rows) (id : String) :
    Rows × Except LedgerError Reply :=
  transactOn (transact s codec now t) (.error .notFound) db id

/-- `dict(execution.result_json or {})` of the row `id`. -/
def storedResult (db : Rows) (id : String) : Json :=
  .obj (((db.lookup id).bind (·.resultJson)).getD (.obj [])).members

/-- The result that `execute_once` stores: the call's own, with the row's id and key. -/
def answered (db : Rows) (id : String) (raw : Json) : Json :=
  (raw.set "execution_id" (.str id)).set "idempotency_key"
    (.str (((db.lookup id).map (·.idempotencyKey)).getD ""))

/-- Where `claim` leaves a worker. -/
def afterClaim (id : String) : Except LedgerError Reply → Phase
  | .ok (.leased token) => .leased id token
  | .ok (.cached result) => .returned result
  | .ok _ => .idle
  | .error e => .raised e

/-- Where `complete` leaves it. -/
def afterComplete (db : Rows) (id : String) : Except LedgerError Reply → Phase
  | .ok _ => .returned (storedResult db id)
  | .error e => .raised e

/-- Where `mark_unknown` leaves it: the outcome is for an operator to settle. -/
def afterUnknown (db : Rows) (id exc : String) : Except LedgerError Reply → Phase
  | .ok _ => .raised (.reconciliationRequired (orElse ((db.lookup id).bind (·.errorMessage)) exc))
  | .error e => .raised e

section Step

variable {ω : Type*}

/-- The locked transaction of a step, its row and its time; lease tokens are
fresh (`uuid4`). -/
def Event.transaction (w : World ω) : Event ω → Option (String × Transaction × Nat)
  | .claim k token owner now =>
    match w.phase k with
    | .ready id => if token ∈ w.granted.map Prod.snd then none else some (id, .claim token owner, now)
    | _ => none
  | .complete k now =>
    match w.phase k with
    | .settling id token result failed => some (id, .complete token result failed, now)
    | _ => none
  | .markUnknown k now =>
    match w.phase k with
    | .doubting id token exc => some (id, .markUnknown token ("Remote outcome is unknown: " ++ exc), now)
    | _ => none
  | .recoverStale id now => some (id, .recoverStale, now)
  | .reconcile id action expectedVersion actor provider note result now =>
    some (id, .reconcile action expectedVersion actor provider note result, now)
  | _ => none

/-- The worker a step is of. -/
def Event.worker : Event ω → Option ω
  | .prepare k .. | .claim k .. | .start k | .answer k _ | .fail k _ | .complete k _ | .markUnknown k _
  | .leave k => some k
  | .recoverStale .. | .reconcile .. => none

variable [DecidableEq ω]

def World.goto (w : World ω) (k : ω) (p : Phase) : World ω :=
  { w with phase := Function.update w.phase k p }

/-- The world after the transaction of a step on the row `id`, which left the
rows `db` and returned or raised `r`. -/
def World.finish (w : World ω) (id : String) (db : Rows) (r : Except LedgerError Reply) :
    Event ω → World ω
  | .claim k .. =>
    { w with db, granted := (leaseOf r).toList.map (id, ·) ++ w.granted }.goto k (afterClaim id r)
  | .complete k _ => { w with db }.goto k (afterComplete db id r)
  | .markUnknown k _ =>
    match w.phase k with
    | .doubting _ _ exc => { w with db }.goto k (afterUnknown db id exc r)
    | _ => { w with db }
  | _ => { w with db }

/-- A step that locks no row; `none` where the event is not possible. -/
def stepLocal (w : World ω) : Event ω → Option (World ω)
  | .start k =>
    match w.phase k with
    | .leased id token =>
      some ({ w with started := (id, token) :: w.started }.goto k (.calling id token))
    | _ => none
  -- An answer without a call is a refusal: the circuit breaker or a quota.
  | .answer k raw =>
    match w.phase k with
    | .leased id token | .calling id token =>
      let result := answered w.db id raw
      some (w.goto k (.settling id token result (!result.flag "ok")))
    | _ => none
  | .fail k exc =>
    match w.phase k with
    | .leased id token | .calling id token => some (w.goto k (.doubting id token exc))
    | _ => none
  | .leave k => some (w.goto k .idle)
  | _ => none

variable (s : Settings) (codec : Codec)

/-- One step; `none` where the event is not possible. Ids of new rows are fresh. -/
def step (w : World ω) : Event ω → Option (World ω)
  | .prepare k request id now =>
    match w.phase k with
    | .idle =>
      if id ∈ w.db then none
      else match prepare s codec w.db request id now with
        | .ok (db, id) => some ({ w with db }.goto k (.ready id))
        | .error e => some (w.goto k (.raised e))
    | _ => none
  | e =>
    match e.transaction w with
    | some (id, t, now) =>
      let (db, r) := locked s codec now t w.db id
      some (w.finish id db r e)
    | none => stepLocal w e

/-- The ledger, from an empty table. -/
def ledger : System (World ω) (Event ω) :=
  .ofStep (fun w => w.db = ∅ ∧ w.granted = [] ∧ w.started = [] ∧ ∀ k, w.phase k = .idle) (step s codec)

end Step

/-! ## The rows -/

/-- `e'` is `e` or a later version of it. -/
structure Grown (e e' : MCPToolExecution) : Prop where
  request : SameRequest e e'
  version : e' = e ∨ e.version < e'.version
  settled : e.status.terminal = true → e'.status = e.status ∧ e'.resultJson = e.resultJson

theorem Grown.refl (e : MCPToolExecution) : Grown e e := ⟨.refl e, .inl rfl, fun _ => ⟨rfl, rfl⟩⟩

theorem Grown.trans {a b c : MCPToolExecution} (h₁ : Grown a b) (h₂ : Grown b c) : Grown a c := by
  refine ⟨h₁.request.trans h₂.request, ?_, fun ht => ?_⟩
  · rcases h₁.version with rfl | h
    · exact h₂.version
    · rcases h₂.version with rfl | h'
      · exact .inr h
      · exact .inr (Nat.lt_trans h h')
  · obtain ⟨hs, hr⟩ := h₁.settled ht
    obtain ⟨hs', hr'⟩ := h₂.settled (hs ▸ ht)
    exact ⟨hs'.trans hs, hr'.trans hr⟩

theorem Effect.grown {s : Settings} {codec : Codec} {now : Nat} {t : Transaction}
    {e e' : MCPToolExecution} {r : Except LedgerError Reply} (h : Effect s codec now e t e' r) :
    Grown e e' :=
  ⟨h.request, h.version, h.settled⟩

/-- No row is lost, and each has grown. -/
def RowsGrown (db db' : Rows) : Prop :=
  ∀ ⦃id e⦄, db.lookup id = some e → ∃ e', db'.lookup id = some e' ∧ Grown e e'

theorem RowsGrown.refl (db : Rows) : RowsGrown db db := fun _ e h => ⟨e, h, .refl e⟩

theorem RowsGrown.trans {a b c : Rows} (h₁ : RowsGrown a b) (h₂ : RowsGrown b c) : RowsGrown a c := by
  intro id e h
  obtain ⟨e₁, hl₁, hg₁⟩ := h₁ h
  obtain ⟨e₂, hl₂, hg₂⟩ := h₂ hl₁
  exact ⟨e₂, hl₂, hg₁.trans hg₂⟩

theorem Rows.byKey_some {db : Rows} {key : String} {e : MCPToolExecution} (h : db.byKey key = some e) :
    e.idempotencyKey = key ∧ ∃ id, db.lookup id = some e := by
  obtain ⟨⟨id, row⟩, hf, rfl⟩ := Option.map_eq_some_iff.mp h
  refine ⟨by simpa using List.find?_some hf, id, ?_⟩
  exact AList.mem_lookup_iff.mpr (List.mem_of_find?_eq_some hf)

theorem Rows.byKey_none {db : Rows} {key : String} (h : db.byKey key = none) {id : String}
    {e : MCPToolExecution} (hl : db.lookup id = some e) : e.idempotencyKey ≠ key := by
  have hn := List.find?_eq_none.mp (Option.map_eq_none_iff.mp h) ⟨id, e⟩ (AList.mem_lookup_iff.mp hl)
  simpa using hn

section Store

variable {s : Settings} {codec : Codec} {now : Nat} {t : Transaction} {db db' : Rows} {id : String}
  {r : Except LedgerError Reply} {granted : List (String × String)}

theorem locked_effect (h : locked s codec now t db id = (db', r)) :
    (db' = db ∧ r = .error .notFound) ∨
    ∃ e e', db.lookup id = some e ∧ db' = db.insert id e' ∧ Effect s codec now e t e' r := by
  unfold locked transactOn at h
  split at h
  · obtain ⟨rfl, rfl⟩ := Prod.mk.inj h
    exact .inl ⟨rfl, rfl⟩
  · next e he =>
    obtain ⟨rfl, rfl⟩ := Prod.mk.inj h
    exact .inr ⟨e, _, he, rfl, transact_effect rfl⟩

theorem locked_no_lease (ht : ∀ token owner, t ≠ .claim token owner)
    (h : locked s codec now t db id = (db', r)) : leaseOf r = none := by
  rcases locked_effect h with ⟨_, rfl⟩ | ⟨_, _, _, _, heff⟩
  · rfl
  · by_contra hne
    obtain ⟨token, hl⟩ := Option.ne_none_iff_exists'.mp hne
    obtain ⟨⟨owner, htc⟩, _⟩ := heff.leased hl
    exact ht token owner htc

theorem insert_grown {e e' : MCPToolExecution} (he : db.lookup id = some e) (hg : Grown e e') :
    RowsGrown db (db.insert id e') := by
  intro id₁ e₁ h₁
  by_cases hid : id₁ = id
  · subst hid
    obtain rfl := Option.some.inj (he.symm.trans h₁)
    exact ⟨e', AList.lookup_insert db, hg⟩
  · exact ⟨e₁, (AList.lookup_insert_ne hid).trans h₁, .refl e₁⟩

theorem locked_grown (h : locked s codec now t db id = (db', r)) : RowsGrown db db' := by
  rcases locked_effect h with ⟨rfl, _⟩ | ⟨e, e', he, rfl, heff⟩
  · exact .refl _
  · exact insert_grown he heff.grown

theorem prepare_spec {request : Request} {i : String}
    (h : prepare s codec db request id now = .ok (db', i)) :
    (∃ e, db.byKey request.idempotencyKey = some e ∧ db' = db ∧ i = e.id) ∨
    ∃ e, db.byKey request.idempotencyKey = none ∧ db' = db.insert id e ∧ i = id ∧
      newRow s codec id request.runId request.call request.idempotencyKey request.idempotencyMode
        request.approvalId request.checkpoint now = .ok e := by
  unfold prepare at h
  split at h
  · next e he =>
    cases hv : verifySameRequest codec e request.runId request.call request.approvalId with
    | error _ => rw [hv] at h; cases h
    | ok _ => rw [hv] at h; cases h; exact .inl ⟨e, he, rfl, rfl⟩
  · next hn =>
    cases hr : newRow s codec id request.runId request.call request.idempotencyKey
      request.idempotencyMode request.approvalId request.checkpoint now with
    | error _ => rw [hr] at h; cases h
    | ok e => rw [hr] at h; cases h; exact .inr ⟨e, hn, rfl, rfl, rfl⟩

theorem prepare_grown {request : Request} {i : String} (hid : id ∉ db)
    (h : prepare s codec db request id now = .ok (db', i)) : RowsGrown db db' := by
  rcases prepare_spec h with ⟨_, _, rfl, _⟩ | ⟨e, _, rfl, _, _⟩
  · exact .refl _
  · intro id₁ e₁ h₁
    have hne : id₁ ≠ id := by
      rintro rfl
      exact hid (AList.lookup_isSome.mp (by rw [h₁]; rfl))
    exact ⟨e₁, (AList.lookup_insert_ne hne).trans h₁, .refl e₁⟩

/-- What holds of the rows and of the leases granted so far: each row is in
order under its own id, its attempts are its leases, the lease it shows is one
of them, a key names one row, and no lease was granted twice. -/
structure Store (s : Settings) (db : Rows) (granted : List (String × String)) : Prop where
  ok {id : String} {e : MCPToolExecution} : db.lookup id = some e → RowOk s e
  id {id : String} {e : MCPToolExecution} : db.lookup id = some e → e.id = id
  count {id : String} {e : MCPToolExecution} : db.lookup id = some e →
    e.attemptCount = granted.countP (·.1 = id)
  token {id : String} {e : MCPToolExecution} {token : String} : db.lookup id = some e →
    e.leaseToken = some token → (id, token) ∈ granted
  unique {id id' : String} {e e' : MCPToolExecution} : db.lookup id = some e →
    db.lookup id' = some e' → e.idempotencyKey = e'.idempotencyKey → id = id'
  known {p : String × String} : p ∈ granted → p.1 ∈ db
  nodup : (granted.map Prod.snd).Nodup

theorem Store.empty : Store s ∅ [] :=
  ⟨nofun, nofun, nofun, nofun, nofun, nofun, .nil⟩

theorem lookup_insert_cases {id₁ : String} {e e₁ : MCPToolExecution}
    (h : (db.insert id e).lookup id₁ = some e₁) :
    (id₁ = id ∧ e₁ = e) ∨ (id₁ ≠ id ∧ db.lookup id₁ = some e₁) := by
  by_cases hid : id₁ = id
  · subst hid
    exact .inl ⟨rfl, Option.some.inj (h.symm.trans (AList.lookup_insert db))⟩
  · exact .inr ⟨hid, (AList.lookup_insert_ne hid).symm.trans h⟩

theorem Store.prepare {request : Request} {i : String} (hst : Store s db granted) (hid : id ∉ db)
    (h : prepare s codec db request id now = .ok (db', i)) : Store s db' granted := by
  rcases prepare_spec h with ⟨_, _, rfl, _⟩ | ⟨e, hk, rfl, _, hr⟩
  · exact hst
  obtain ⟨hok, heid, hkey, _, hatt, htok⟩ := newRow_ok hr
  have hnone : granted.countP (·.1 = id) = 0 :=
    List.countP_eq_zero.mpr fun p hp hpid => hid (of_decide_eq_true hpid ▸ hst.known hp)
  refine ⟨fun hl => ?_, fun hl => ?_, fun hl => ?_, fun hl ht => ?_, fun hl hl' he => ?_,
    fun hp => (AList.mem_insert db).mpr (.inr (hst.known hp)), hst.nodup⟩
  · rcases lookup_insert_cases hl with ⟨_, rfl⟩ | ⟨_, hl⟩
    exacts [hok, hst.ok hl]
  · rcases lookup_insert_cases hl with ⟨rfl, rfl⟩ | ⟨_, hl⟩
    exacts [heid, hst.id hl]
  · rcases lookup_insert_cases hl with ⟨rfl, rfl⟩ | ⟨_, hl⟩
    exacts [hatt.trans hnone.symm, hst.count hl]
  · rcases lookup_insert_cases hl with ⟨rfl, rfl⟩ | ⟨_, hl⟩
    · rw [htok] at ht; cases ht
    · exact hst.token hl ht
  · rcases lookup_insert_cases hl with ⟨rfl, rfl⟩ | ⟨_, h₁⟩ <;>
      rcases lookup_insert_cases hl' with ⟨rfl, rfl⟩ | ⟨_, h₂⟩
    · rfl
    · exact absurd (he.symm.trans hkey) (Rows.byKey_none hk h₂)
    · exact absurd (he.trans hkey) (Rows.byKey_none hk h₁)
    · exact hst.unique h₁ h₂ he

/-- A transaction keeps the store, if a lease it grants is a fresh one. -/
theorem Store.locked (hst : Store s db granted)
    (hfresh : ∀ token owner, t = .claim token owner → token ∉ granted.map Prod.snd)
    (h : locked s codec now t db id = (db', r)) :
    Store s db' ((leaseOf r).toList.map (id, ·) ++ granted) := by
  rcases locked_effect h with ⟨rfl, rfl⟩ | ⟨e, e', he, rfl, heff⟩
  · exact hst
  have hreq := heff.request
  have hmem {id₁ token : String} (hm : (id₁, token) ∈ granted) :
      (id₁, token) ∈ (leaseOf r).toList.map (id, ·) ++ granted := List.mem_append_right _ hm
  have hother {id₁ : String} (hne : id₁ ≠ id) :
      ((leaseOf r).toList.map (id, ·) ++ granted).countP (·.1 = id₁) = granted.countP (·.1 = id₁) := by
    simp [List.countP_append, Ne.symm hne, Function.comp_def]
  refine ⟨fun hl => ?_, fun hl => ?_, fun hl => ?_, fun hl ht => ?_, fun hl hl' hk => ?_, fun hp => ?_, ?_⟩
  · rcases lookup_insert_cases hl with ⟨_, rfl⟩ | ⟨_, hl⟩
    exacts [heff.ok (hst.ok he), hst.ok hl]
  · rcases lookup_insert_cases hl with ⟨rfl, rfl⟩ | ⟨_, hl⟩
    exacts [hreq.id.trans (hst.id he), hst.id hl]
  · rcases lookup_insert_cases hl with ⟨rfl, rfl⟩ | ⟨hne, hl⟩
    · rw [heff.attempts, hst.count he, List.countP_append, Nat.add_comm]
      congr 1
      simp [Function.comp_def]
    · rw [hother hne, hst.count hl]
  · rcases lookup_insert_cases hl with ⟨rfl, rfl⟩ | ⟨_, hl⟩
    · rcases heff.leaseToken with ⟨_, hs | hn⟩ | ⟨_, hs⟩
      · exact hmem (hst.token he (hs ▸ ht))
      · rw [hn] at ht; cases ht
      · simp [← hs, ht]
    · exact hmem (hst.token hl ht)
  · rcases lookup_insert_cases hl with ⟨rfl, rfl⟩ | ⟨_, h₁⟩ <;>
      rcases lookup_insert_cases hl' with ⟨rfl, rfl⟩ | ⟨_, h₂⟩
    · rfl
    · exact hst.unique he h₂ (hreq.idempotencyKey.symm.trans hk)
    · exact hst.unique h₁ he (hk.trans hreq.idempotencyKey)
    · exact hst.unique h₁ h₂ hk
  · rcases List.mem_append.mp hp with hp | hp
    · obtain ⟨_, _, rfl⟩ := List.mem_map.mp hp
      exact (AList.mem_insert db).mpr (.inl rfl)
    · exact (AList.mem_insert db).mpr (.inr (hst.known hp))
  · cases hr : leaseOf r with
    | none => simpa using hst.nodup
    | some token =>
      obtain ⟨⟨owner, ht⟩, _⟩ := heff.leased hr
      simpa using ⟨by simpa using hfresh token owner ht, hst.nodup⟩

end Store

/-! ## The steps -/

section World

variable {ω : Type*} [DecidableEq ω] {s : Settings} {codec : Codec} {w w' : World ω} {e : Event ω}

/-- No worker gets a lease that it did not have. -/
def NoLease (phase phase' : ω → Phase) : Prop :=
  ∀ ⦃k id token⦄, phase' k = .leased id token → phase k = .leased id token

omit [DecidableEq ω] in
theorem NoLease.refl (phase : ω → Phase) : NoLease phase phase := fun _ _ _ h => h

theorem NoLease.update (phase : ω → Phase) (k : ω) {p : Phase} (hp : ∀ id token, p ≠ .leased id token) :
    NoLease phase (Function.update phase k p) := by
  intro k' id token h
  by_cases hk : k' = k
  · subst hk
    rw [Function.update_self] at h
    exact absurd h (hp id token)
  · rwa [Function.update_of_ne hk] at h

/-- What a step does to the world, leaving aside where it sends a worker that
holds no lease. -/
inductive Move (s : Settings) (codec : Codec) (w : World ω) : World ω → Prop
  | turn {phase : ω → Phase} : NoLease w.phase phase → Move s codec w { w with phase }
  | prepare {request : Request} {id i : String} {now : Nat} {db : Rows} {phase : ω → Phase} :
    id ∉ w.db → prepare s codec w.db request id now = .ok (db, i) → NoLease w.phase phase →
    Move s codec w { w with db, phase }
  | claim {k : ω} {id token owner : String} {now : Nat} {db : Rows} {r : Except LedgerError Reply} :
    token ∉ w.granted.map Prod.snd → locked s codec now (.claim token owner) w.db id = (db, r) →
    Move s codec w ({ w with db, granted := (leaseOf r).toList.map (id, ·) ++ w.granted }.goto k
      (afterClaim id r))
  | start {k : ω} {id token : String} : w.phase k = .leased id token →
    Move s codec w ({ w with started := (id, token) :: w.started }.goto k (.calling id token))
  | transaction {id : String} {t : Transaction} {now : Nat} {db : Rows} {r : Except LedgerError Reply}
      {phase : ω → Phase} : (∀ token owner, t ≠ .claim token owner) →
    locked s codec now t w.db id = (db, r) → NoLease w.phase phase → Move s codec w { w with db, phase }

theorem step_of_not_prepare (h : ∀ k request id now, e ≠ .prepare k request id now) :
    step s codec w e = match e.transaction w with
      | some (id, t, now) =>
        some (w.finish id (locked s codec now t w.db id).1 (locked s codec now t w.db id).2 e)
      | none => stepLocal w e := by
  cases e <;> first | rfl | exact absurd rfl (h _ _ _ _)

theorem step_cases (h : step s codec w e = some w') :
    (∃ k request id now, e = .prepare k request id now ∧ w.phase k = .idle ∧ id ∉ w.db ∧
      ((∃ db i, prepare s codec w.db request id now = .ok (db, i) ∧ w' = { w with db }.goto k (.ready i)) ∨
        ∃ err, prepare s codec w.db request id now = .error err ∧ w' = w.goto k (.raised err))) ∨
    (∃ id t now db r, e.transaction w = some (id, t, now) ∧ locked s codec now t w.db id = (db, r) ∧
      w' = w.finish id db r e) ∨
    stepLocal w e = some w' := by
  unfold step at h
  split at h
  · next k request id now =>
    refine .inl ⟨k, request, id, now, rfl, ?_⟩
    split at h
    · next hk =>
      split at h
      · cases h
      · next hid =>
        refine ⟨hk, hid, ?_⟩
        split at h <;> obtain rfl := Option.some.inj h
        · next db i hp => exact .inl ⟨db, i, hp, rfl⟩
        · next err hp => exact .inr ⟨err, hp, rfl⟩
    · cases h
  · split at h
    · next id t now ht =>
      obtain rfl := Option.some.inj h
      exact .inr (.inl ⟨id, t, now, _, _, ht, rfl, rfl⟩)
    · exact .inr (.inr h)

omit [DecidableEq ω] in
/-- What a transaction of a step is, by the step. -/
theorem transaction_cases {id : String} {t : Transaction} {now : Nat}
    (ht : e.transaction w = some (id, t, now)) :
    (∃ k token owner, e = .claim k token owner now ∧ t = .claim token owner ∧ w.phase k = .ready id ∧
      token ∉ w.granted.map Prod.snd) ∨
    (∃ k token result failed, e = .complete k now ∧ t = .complete token result failed ∧
      w.phase k = .settling id token result failed) ∨
    (∃ k token exc, e = .markUnknown k now ∧
      t = .markUnknown token ("Remote outcome is unknown: " ++ exc) ∧ w.phase k = .doubting id token exc) ∨
    (e = .recoverStale id now ∧ t = .recoverStale) ∨
    ∃ action version actor provider note result,
      e = .reconcile id action version actor provider note result now ∧
      t = .reconcile action version actor provider note result := by
  cases e <;> simp only [Event.transaction, reduceCtorEq] at ht
  case claim k token owner now =>
    split at ht
    · next hk =>
      split at ht <;> cases ht
      next hf => exact .inl ⟨k, token, owner, rfl, rfl, hk, hf⟩
    · cases ht
  case complete k now =>
    split at ht <;> cases ht
    next token result failed hk => exact .inr (.inl ⟨k, token, result, failed, rfl, rfl, hk⟩)
  case markUnknown k now =>
    split at ht <;> cases ht
    next token exc hk => exact .inr (.inr (.inl ⟨k, token, exc, rfl, rfl, hk⟩))
  case recoverStale =>
    cases ht
    exact .inr (.inr (.inr (.inl ⟨rfl, rfl⟩)))
  case reconcile =>
    cases ht
    exact .inr (.inr (.inr (.inr ⟨_, _, _, _, _, _, rfl, rfl⟩)))

theorem transaction_move {id : String} {t : Transaction} {now : Nat} {db : Rows}
    {r : Except LedgerError Reply} (ht : e.transaction w = some (id, t, now))
    (hl : locked s codec now t w.db id = (db, r)) : Move s codec w (w.finish id db r e) := by
  rcases transaction_cases ht with ⟨k, token, owner, rfl, rfl, _, hf⟩ | ⟨k, token, result, failed, rfl, rfl, hk⟩ |
    ⟨k, token, exc, rfl, rfl, hk⟩ | ⟨rfl, rfl⟩ | ⟨_, _, _, _, _, _, rfl, rfl⟩
  · exact .claim hf hl
  · refine .transaction (fun _ _ h => by cases h) hl (.update w.phase k fun _ _ => ?_)
    unfold afterComplete
    split <;> nofun
  · simp only [World.finish, hk]
    refine .transaction (fun _ _ h => by cases h) hl (.update w.phase k fun _ _ => ?_)
    unfold afterUnknown
    split <;> nofun
  · exact .transaction (fun _ _ h => by cases h) hl (.refl _)
  · exact .transaction (fun _ _ h => by cases h) hl (.refl _)

theorem stepLocal_move (h : stepLocal w e = some w') : Move s codec w w' := by
  have turn (k : ω) {p : Phase} (hp : ∀ id token, p ≠ .leased id token) : Move s codec w (w.goto k p) :=
    .turn (.update w.phase k hp)
  cases e <;> simp only [stepLocal, reduceCtorEq] at h
  case start k =>
    split at h <;> cases h
    next hk => exact .start hk
  case answer k raw => split at h <;> cases h <;> exact turn k nofun
  case fail k exc => split at h <;> cases h <;> exact turn k nofun
  case leave k => cases h; exact turn k nofun

theorem step_move (h : step s codec w e = some w') : Move s codec w w' := by
  rcases step_cases h with ⟨k, request, id, now, rfl, _, hid, ⟨db, i, hp, rfl⟩ | ⟨err, _, rfl⟩⟩ |
    ⟨id, t, now, db, r, ht, hl, rfl⟩ | h
  · exact .prepare hid hp (.update w.phase k nofun)
  · exact .turn (.update w.phase k nofun)
  · exact transaction_move ht hl
  · exact stepLocal_move h

/-- What holds of the remote calls: each was made under a lease granted for
its row, each lease served for at most one, and a worker that holds a lease
and has not called yet holds it alone. -/
structure Calls (w : World ω) : Prop where
  granted {p : String × String} : p ∈ w.started → p ∈ w.granted
  nodup : w.started.Nodup
  held {k : ω} {id token : String} : w.phase k = .leased id token →
    (id, token) ∈ w.granted ∧ (id, token) ∉ w.started
  alone {k k' : ω} {id id' token : String} : w.phase k = .leased id token →
    w.phase k' = .leased id' token → k = k'

omit [DecidableEq ω] in
theorem Calls.turn {phase : ω → Phase} {db : Rows} (h : Calls w) (hn : NoLease w.phase phase) :
    Calls { w with db, phase } :=
  ⟨h.granted, h.nodup, fun hk => h.held (hn hk), fun hk hk' => h.alone (hn hk) (hn hk')⟩

theorem goto_leased {k k' : ω} {p : Phase} {id token : String} (h : (w.goto k p).phase k' = .leased id token) :
    (k' = k ∧ p = .leased id token) ∨ (k' ≠ k ∧ w.phase k' = .leased id token) := by
  by_cases hk : k' = k
  · subst hk
    exact .inl ⟨rfl, by simpa [World.goto] using h⟩
  · exact .inr ⟨hk, by simpa [World.goto, Function.update_of_ne hk] using h⟩

theorem afterClaim_leased {id id' token : String} {r : Except LedgerError Reply}
    (h : afterClaim id r = .leased id' token) : id = id' ∧ leaseOf r = some token := by
  unfold afterClaim at h
  split at h <;> cases h
  exact ⟨rfl, rfl⟩

theorem Calls.claim {k : ω} {id token owner : String} {now : Nat} {db : Rows}
    {r : Except LedgerError Reply} (h : Calls w) (hf : token ∉ w.granted.map Prod.snd)
    (hl : locked s codec now (.claim token owner) w.db id = (db, r)) :
    Calls ({ w with db, granted := (leaseOf r).toList.map (id, ·) ++ w.granted }.goto k
      (afterClaim id r)) := by
  have hnot {id' : String} (hm : (id', token) ∈ w.granted) : False :=
    hf (List.mem_map.mpr ⟨_, hm, rfl⟩)
  -- The lease the claim grants, if it does, is its own fresh token.
  have hown {token' : String} (hr : leaseOf r = some token') : token' = token := by
    rcases locked_effect hl with ⟨_, rfl⟩ | ⟨_, _, _, _, heff⟩
    · cases hr
    · obtain ⟨⟨owner', ht⟩, _⟩ := heff.leased hr
      exact ((Transaction.claim.inj ht).1).symm
  refine ⟨fun hp => List.mem_append_right _ (h.granted hp), h.nodup, fun hk => ?_, fun hk hk' => ?_⟩
  · rcases goto_leased hk with ⟨_, hp⟩ | ⟨_, hk⟩
    · obtain ⟨rfl, hr⟩ := afterClaim_leased hp
      refine ⟨List.mem_append_left _ (by simp [hr]), fun hs => ?_⟩
      exact hnot (hown hr ▸ h.granted hs)
    · exact ⟨List.mem_append_right _ (h.held hk).1, (h.held hk).2⟩
  · rcases goto_leased hk with ⟨rfl, hp⟩ | ⟨_, h₁⟩ <;> rcases goto_leased hk' with ⟨rfl, hp'⟩ | ⟨_, h₂⟩
    · rfl
    · exact (hnot (hown (afterClaim_leased hp).2 ▸ (h.held h₂).1)).elim
    · exact (hnot (hown (afterClaim_leased hp').2 ▸ (h.held h₁).1)).elim
    · exact h.alone h₁ h₂

theorem Calls.start {k : ω} {id token : String} (h : Calls w) (hk : w.phase k = .leased id token) :
    Calls ({ w with started := (id, token) :: w.started }.goto k (.calling id token)) := by
  obtain ⟨hg, hs⟩ := h.held hk
  refine ⟨fun hp => ?_, List.nodup_cons.mpr ⟨hs, h.nodup⟩, fun hk' => ?_, fun hk₁ hk₂ => ?_⟩
  · rcases List.mem_cons.mp hp with rfl | hp
    exacts [hg, h.granted hp]
  · rcases goto_leased hk' with ⟨_, hp⟩ | ⟨hne, hk'⟩
    · cases hp
    · refine ⟨(h.held hk').1, fun hm => ?_⟩
      rcases List.mem_cons.mp hm with heq | hm
      · obtain ⟨rfl, rfl⟩ := Prod.mk.inj heq
        exact hne (h.alone hk' hk)
      · exact (h.held hk').2 hm
  · rcases goto_leased hk₁ with ⟨_, hp⟩ | ⟨_, hk₁⟩
    · cases hp
    rcases goto_leased hk₂ with ⟨_, hp⟩ | ⟨_, hk₂⟩
    · cases hp
    exact h.alone hk₁ hk₂

/-- The invariant of the ledger. -/
structure Inv (s : Settings) (w : World ω) : Prop where
  store : Store s w.db w.granted
  calls : Calls w

theorem Move.inv (h : Move s codec w w') (hi : Inv s w) : Inv s w' := by
  obtain ⟨hst, hc⟩ := hi
  cases h with
  | turn hn => exact ⟨hst, hc.turn hn⟩
  | prepare hid hp hn => exact ⟨hst.prepare hid hp, hc.turn hn⟩
  | claim hf hl =>
    exact ⟨hst.locked (fun _ _ ht => (Transaction.claim.inj ht).1 ▸ hf) hl, hc.claim hf hl⟩
  | start hk => exact ⟨hst, hc.start hk⟩
  | transaction ht hl hn =>
    have hst' := hst.locked (fun token owner h => absurd h (ht token owner)) hl
    rw [locked_no_lease ht hl] at hst'
    exact ⟨hst', hc.turn hn⟩

theorem Move.grown (h : Move s codec w w') : RowsGrown w.db w'.db := by
  cases h with
  | turn | start => exact .refl _
  | prepare hid hp => exact prepare_grown hid hp
  | claim _ hl | transaction _ hl => exact locked_grown hl

theorem inductive_inv : (ledger s codec).Inductive (Inv (ω := ω) s) where
  start {w} h := by
    obtain ⟨hdb, hg, hs, hp⟩ := h
    refine ⟨by rw [hdb, hg]; exact .empty, ⟨?_, ?_, ?_, ?_⟩⟩
    · rw [hs]; exact nofun
    · rw [hs]; exact .nil
    · intro k id token h; rw [hp k] at h; cases h
    · intro k k' id id' token h; rw [hp k] at h; cases h
  step hi h := (step_move h).inv hi

/-- The worker `k` has the outcome of the row `id` in hand, under the lease `token`. -/
def Holds (w : World ω) (k : ω) (id token : String) : Prop :=
  (∃ result failed, w.phase k = .settling id token result failed) ∨ ∃ exc, w.phase k = .doubting id token exc

@[simp] theorem goto_db (w : World ω) (k : ω) (p : Phase) : (w.goto k p).db = w.db := rfl

@[simp] theorem finish_db (w : World ω) (id : String) (db : Rows) (r : Except LedgerError Reply)
    (e : Event ω) : (w.finish id db r e).db = db := by
  cases e <;> try rfl
  simp only [World.finish]
  split <;> rfl

theorem stepLocal_db (h : stepLocal w e = some w') : w'.db = w.db := by
  cases e <;> simp only [stepLocal, reduceCtorEq] at h
  case start | answer | fail => split at h <;> cases h <;> rfl
  case leave => cases h; rfl

/-- A row changes in a step by the step's transaction only. -/
theorem step_row (h : step s codec w e = some w') {id : String} {x x' : MCPToolExecution}
    (hx : w.db.lookup id = some x) (hx' : w'.db.lookup id = some x') (hne : x' ≠ x) :
    ∃ t now r, e.transaction w = some (id, t, now) ∧ Effect s codec now x t x' r := by
  have same (hl : w'.db.lookup id = w.db.lookup id) : False :=
    hne (Option.some.inj (hx'.symm.trans (hl.trans hx)))
  rcases step_cases h with ⟨k, request, id₁, now, rfl, _, hid, ⟨db, i, hp, rfl⟩ | ⟨err, _, rfl⟩⟩ |
    ⟨id₁, t, now, db, r, ht, hl, rfl⟩ | h
  · rcases prepare_spec hp with ⟨_, _, rfl, _⟩ | ⟨_, _, rfl, _, _⟩
    · exact (same rfl).elim
    · have hne' : id ≠ id₁ := by
        rintro rfl
        exact hid (AList.lookup_isSome.mp (by rw [hx]; rfl))
      exact (same (AList.lookup_insert_ne hne')).elim
  · exact (same rfl).elim
  · rw [finish_db] at hx'
    rcases locked_effect hl with ⟨rfl, _⟩ | ⟨x₁, x₁', h₁, rfl, heff⟩
    · exact absurd (Option.some.inj (hx'.symm.trans hx)) hne
    rcases lookup_insert_cases hx' with ⟨rfl, rfl⟩ | ⟨_, hl'⟩
    · obtain rfl := Option.some.inj (h₁.symm.trans hx)
      exact ⟨t, now, r, ht, heff⟩
    · exact absurd (Option.some.inj (hl'.symm.trans hx)) hne
  · exact (same (by rw [stepLocal_db h])).elim

/-- A settled row serves a worker that is about to claim it from the store. -/
theorem step_settled (h : step s codec w e = some w') {k : ω} (hk : e.worker = some k) {id : String}
    (hp : w.phase k = .ready id) {x : MCPToolExecution} (hx : w.db.lookup id = some x)
    (ht : x.status.terminal = true) :
    e = .leave k ∨ w'.phase k = .returned (cachedResult x) ∧ w'.started = w.started := by
  have hc (token owner : String) (now : Nat) :
      transact s codec now (.claim token owner) x = (countHit x now, .ok (.cached (cachedResult x))) := by
    simp only [transact, claim]
    cases hs : x.status <;> simp_all [ExecutionStatus.terminal]
  rcases step_cases h with ⟨_, _, _, _, rfl, hidle, _⟩ | ⟨id₁, t, now, db, r, htr, hl, rfl⟩ | h
  · obtain rfl := Option.some.inj hk
    rw [hp] at hidle; cases hidle
  · rcases transaction_cases htr with ⟨_, token, owner, rfl, rfl, hready, _⟩ | ⟨_, _, _, _, rfl, _, hother⟩ |
      ⟨_, _, _, rfl, _, hother⟩ | ⟨rfl, _⟩ | ⟨_, _, _, _, _, _, rfl, _⟩
    · obtain rfl := Option.some.inj hk
      obtain rfl := Phase.ready.inj (hp.symm.trans hready)
      simp only [locked, transactOn, hx, hc] at hl
      obtain ⟨rfl, rfl⟩ := Prod.mk.inj hl
      exact .inr ⟨by simp [World.finish, World.goto, afterClaim], rfl⟩
    · obtain rfl := Option.some.inj hk
      rw [hp] at hother; cases hother
    · obtain rfl := Option.some.inj hk
      rw [hp] at hother; cases hother
    · cases hk
    · cases hk
  · cases e <;> simp only [stepLocal, reduceCtorEq] at h <;> obtain rfl := Option.some.inj hk
    case leave => exact .inl rfl
    all_goals simp only [hp, reduceCtorEq] at h

/-- The settings' defaults. -/
def sampleSettings : Settings := ⟨3, 120, 30, 200000⟩

def sampleCodec : Codec := ⟨fun _ => "", fun _ => "", id, fun _ => ""⟩

def sampleRequest : Request :=
  { runId := "run", call := ⟨"docs.search", "docs", "search", .obj []⟩, idempotencyKey := "key",
    idempotencyMode := "none", approvalId := none, checkpoint := none }

/-- One worker, from `prepare` to `complete`. -/
def sampleCall : List (Event Unit) :=
  [.prepare () sampleRequest "e" 0, .claim () "t" "pid:1" 5, .start (),
    .answer () (.obj [("ok", .bool true)]), .complete () 9]

end World

end CodeMate.Ledger
