import CodeMate.Audit.Outbox

/-!
# The leases of the outbox

`Leased` holds in every run: the ids of the rows are keys, a row has a token
exactly while it is being delivered, and no token is in the hands of two
workers. It does not say that a worker that has called the sink still has the
row's lease: the write of the outcome does not look at it. `lease_lost` is a
run in which a delivered row is set back, and `delivered_stays` says what holds
where no row is claimed again during a call (`Unreclaimed`).
-/

namespace CodeMate.Audit

open Framework

variable {ω : Type*} [DecidableEq ω] {digest : Json → String} {s : Settings} {w w' : World ω} {e : Event ω}

structure Leased (w : World ω) : Prop where
  keyed : Keyed w.db
  idIssued : ∀ r ∈ w.db, r.id ∈ w.issued
  tokenIssued : ∀ r ∈ w.db, ∀ token, r.leaseToken = some token → token ∈ w.issued
  leased : ∀ r ∈ w.db, r.leaseToken.isSome ↔ r.status = .delivering
  object : ∀ k, ∀ c ∈ (w.phase k).hands, c.status = .delivering ∧ ∃ token ∈ w.issued, c.leaseToken = some token
  nodup : ∀ k, (w.phase k).tokens.Nodup
  apart : ∀ k k', ∀ token ∈ (w.phase k).tokens, token ∈ (w.phase k').tokens → k = k'

variable (digest s) in
theorem Leased.start (h : (outbox digest s).start w) : Leased w := by
  obtain ⟨hdb, hphase, hissued, _⟩ := h
  have hhands (k : ω) : (w.phase k).hands = [] := by rw [hphase k]; rfl
  refine ⟨hdb ▸ .nil, ?_, ?_, ?_, fun k => ?_, fun k => ?_, fun k _ token ht => ?_⟩
  · simp [hdb]
  · simp [hdb]
  · simp [hdb]
  · simp [hhands]
  · simp [Phase.tokens, hhands]
  · simp [Phase.tokens, hhands] at ht

variable (s) in
/-- What a worker writes over a row that it was delivering. -/
theorem overlay_outcome (now : Nat) (result : Except String Json) {c : SecurityAuditDelivery}
    (d : SecurityAuditDelivery) (hc : c.status = .delivering) (ht : c.leaseToken.isSome) :
    (overlay c (recordOutcome s now result c) d).status = (recordOutcome s now result c).status ∧
      (recordOutcome s now result c).status.isOutcome ∧
      (overlay c (recordOutcome s now result c) d).leaseToken = none ∧
      (overlay c (recordOutcome s now result c) d).attemptCount = d.attemptCount := by
  have hn : (recordOutcome s now result c).status.isOutcome ∧ (recordOutcome s now result c).leaseToken = none ∧
      (recordOutcome s now result c).attemptCount = c.attemptCount := by
    unfold recordOutcome
    cases result with
    | ok receipt => exact ⟨rfl, rfl, rfl⟩
    | error message => dsimp only; split <;> exact ⟨rfl, rfl, rfl⟩
  obtain ⟨hout, htoken, hcount⟩ := hn
  refine ⟨?_, hout, ?_, ?_⟩
  · show column c.status _ d.status = _
    refine if_neg fun heq => ?_
    rw [heq, hc] at hout
    cases hout
  · show column c.leaseToken _ d.leaseToken = _
    rw [htoken]
    exact if_neg fun heq => by rw [← heq] at ht; cases ht
  · show column c.attemptCount _ d.attemptCount = _
    rw [hcount, column_unchanged]

/-- A step keeps the token of a row, takes it away together with the status, or
gives the row a new one. -/
theorem Touched.lease {r r' : SecurityAuditDelivery} (h : Touched digest s w r r' e)
    (hobject : ∀ k, ∀ c ∈ (w.phase k).hands, c.status = .delivering ∧ ∃ token ∈ w.issued, c.leaseToken = some token) :
    r'.leaseToken = r.leaseToken ∧ r'.status = r.status ∨ r'.leaseToken = none ∧ r'.status ≠ .delivering ∨
      ∃ token ∈ e.made, r'.leaseToken = some token ∧ r'.status = .delivering := by
  cases e with
  | enqueue | get | crash | purge => obtain rfl := h; exact .inl ⟨rfl, rfl⟩
  | claim k limit locked tokens now =>
    obtain ⟨_, ⟨rfl, _⟩ | ⟨_, _, token, ht, rfl⟩⟩ := h
    · exact .inl ⟨rfl, rfl⟩
    · exact .inr (.inr ⟨token, ht, rfl, rfl⟩)
  | finish k response now =>
    obtain ⟨c, todo, hphase, ⟨rfl, _⟩ | ⟨_, rfl⟩⟩ := h
    · exact .inl ⟨rfl, rfl⟩
    · obtain ⟨hc, token, _, ht⟩ := hobject k c (by rw [hphase]; exact List.mem_cons_self)
      obtain ⟨hstatus, hout, hnone, _⟩ := overlay_outcome s now
        (deliver digest s response c) r hc (by rw [ht]; rfl)
      refine .inr (.inl ⟨hnone, fun hd => ?_⟩)
      rw [← hstatus, hd] at hout
      cases hout
  | requeue limit locked =>
    rcases h with ⟨rfl, _⟩ | ⟨_, rfl⟩
    · exact .inl ⟨rfl, rfl⟩
    · exact .inr (.inl ⟨rfl, fun hd => by cases hd⟩)

theorem mem_newRows {eventId : String} {record : Json} {ids : List String} {now : Nat} {r : SecurityAuditDelivery}
    (h : r ∈ newRows digest s eventId record ids now) :
    r.id ∈ ids ∧ r.status = .pending ∧ r.attemptCount = 0 ∧ r.leaseToken = none := by
  obtain ⟨⟨sink, id⟩, hmem, rfl⟩ := List.mem_map.mp h
  exact ⟨(List.of_mem_zip hmem).2, rfl, rfl, rfl⟩

theorem keyed_newRows {eventId : String} {record : Json} {ids : List String} {now : Nat} (h : ids.Nodup)
    (hlen : ids.length = s.sinks.length) : Keyed (newRows digest s eventId record ids now) := by
  rw [Keyed, Table.Keyed, newRows, List.map_map]
  show (List.map Prod.snd (s.sinks.zip ids)).Nodup
  rw [List.map_snd_zip hlen.le]
  exact h

/-- The rows of the table after a step. -/
theorem step_row (h : step digest s w e = some w') (hk : Keyed w.db) {r' : SecurityAuditDelivery} (hr' : r' ∈ w'.db) :
    (∃ r ∈ w.db, r'.id = r.id ∧ Touched digest s w r r' e) ∨
      r'.id ∈ e.made ∧ r'.status = .pending ∧ r'.attemptCount = 0 ∧ r'.leaseToken = none := by
  rcases step_db h hk with ⟨f, hdb, hf⟩ | ⟨eventId, record, ids, now, rfl, hlen, hdb⟩ | ⟨now, rfl, hdb⟩ <;> rw [hdb] at hr'
  · obtain ⟨r, hr, rfl⟩ := List.mem_map.mp hr'
    exact .inl ⟨r, hr, hf r hr⟩
  · rcases List.mem_append.mp hr' with hr' | hr'
    · exact .inl ⟨r', hr', rfl, rfl⟩
    · exact .inr (mem_newRows hr')
  · exact .inl ⟨r', (List.mem_filter.mp hr').1, rfl, rfl⟩

/-- The rows of the table before a step. -/
theorem step_kept (h : step digest s w e = some w') (hk : Keyed w.db) {r : SecurityAuditDelivery} (hr : r ∈ w.db) :
    (∃ r' ∈ w'.db, r'.id = r.id ∧ Touched digest s w r r' e) ∨ ∃ now, e = .purge now ∧ purgeable s now r = true := by
  rcases step_db h hk with ⟨f, hdb, hf⟩ | ⟨eventId, record, ids, now, rfl, hlen, hdb⟩ | ⟨now, rfl, hdb⟩ <;> rw [hdb]
  · exact .inl ⟨f r, List.mem_map_of_mem hr, hf r hr⟩
  · exact .inl ⟨r, List.mem_append_left _ hr, rfl, rfl⟩
  · by_cases hp : purgeable s now r = true
    · exact .inr ⟨now, rfl, hp⟩
    · exact .inl ⟨r, List.mem_filter.mpr ⟨hr, by simpa using hp⟩, rfl, rfl⟩

theorem keyed_step (h : step digest s w e = some w') (hk : Keyed w.db) (hissued : ∀ r ∈ w.db, r.id ∈ w.issued) :
    Keyed w'.db := by
  obtain ⟨_, hnodup, hfresh⟩ := step_issued h
  rcases step_db h hk with ⟨f, hdb, hf⟩ | ⟨eventId, record, ids, now, rfl, hlen, hdb⟩ | ⟨now, rfl, hdb⟩ <;> rw [hdb]
  · exact hk.map fun r hr => (hf r hr).1
  · refine hk.append (keyed_newRows hnodup hlen) fun r hr hid => ?_
    obtain ⟨old, hold, heq⟩ := List.mem_map.mp hid
    exact hfresh r.id (mem_newRows hr).1 (heq ▸ hissued old hold)
  · exact hk.sublist List.filter_sublist

/-- Every step keeps the leases. -/
theorem Leased.step (hw : Leased w) (h : step digest s w e = some w') : Leased w' := by
  obtain ⟨hissued, hnodup, hfresh⟩ := step_issued h
  have hold {id : String} (hid : id ∈ w.issued) : id ∈ w'.issued := hissued ▸ List.mem_append_right _ hid
  have hmade {id : String} (hid : id ∈ e.made) : id ∈ w'.issued := hissued ▸ List.mem_append_left _ hid
  have htokens (k : ω) {token : Option String} (ht : token ∈ (w.phase k).tokens) :
      ∃ t ∈ w.issued, token = some t := by
    obtain ⟨c, hc, rfl⟩ := List.mem_map.mp ht
    exact (hw.object k c hc).2
  refine ⟨keyed_step h hw.keyed hw.idIssued, fun r' hr' => ?_, fun r' hr' => ?_, fun r' hr' => ?_, fun k c hc => ?_,
    fun k => ?_, fun k k' token ht ht' => ?_⟩
  · rcases step_row h hw.keyed hr' with ⟨r, hr, hid, _⟩ | ⟨hid, _⟩
    · exact hid ▸ hold (hw.idIssued r hr)
    · exact hmade hid
  · rcases step_row h hw.keyed hr' with ⟨r, hr, _, htouch⟩ | ⟨_, _, _, hnone⟩ <;> intro token ht
    · rcases htouch.lease hw.object with ⟨hsame, _⟩ | ⟨hnone, _⟩ | ⟨t, hmem, hnew, _⟩
      · exact hold (hw.tokenIssued r hr token (hsame ▸ ht))
      · rw [hnone] at ht; cases ht
      · rw [hnew] at ht; obtain rfl := Option.some.inj ht; exact hmade hmem
    · rw [hnone] at ht; cases ht
  · rcases step_row h hw.keyed hr' with ⟨r, hr, _, htouch⟩ | ⟨_, hpending, _, hnone⟩
    · rcases htouch.lease hw.object with ⟨hsame, hstatus⟩ | ⟨hnone, hstatus⟩ | ⟨t, _, hnew, hstatus⟩
      · rw [hsame, hstatus]; exact hw.leased r hr
      · simp [hnone, hstatus]
      · simp [hnew, hstatus]
    · simp [hnone, hpending]
  · rcases step_hands h k with ⟨_, hkept⟩ | ⟨limit, locked, tokens, now, rfl, _, hlen, hphase⟩
    · rcases hkept c hc with hc | ⟨hdb, c₀, hc₀, _, htoken⟩
      · obtain ⟨hstatus, token, ht, hc⟩ := hw.object k c hc
        exact ⟨hstatus, token, hold ht, hc⟩
      · obtain ⟨_, token, ht, hc₀⟩ := hw.object k c₀ hc₀
        rw [hc₀] at htoken
        exact ⟨(hw.leased c hdb).mp (by rw [htoken]; rfl), token, hold ht, htoken⟩
    · rw [hphase] at hc
      obtain ⟨r, hr, token, ht, rfl⟩ := mem_claimBatch hc
      exact ⟨rfl, token, hmade ht, rfl⟩
  · rcases step_hands h k with ⟨hsub, _⟩ | ⟨limit, locked, tokens, now, rfl, hnew, hlen, hphase⟩
    · exact (hw.nodup k).sublist hsub
    · rw [hphase]
      show ((claimBatch s limit locked tokens now w.db).map SecurityAuditDelivery.leaseToken).Nodup
      rw [leases_claimBatch hlen]
      exact hnew.1.map (Option.some_injective _)
  · have hcase (k : ω) {token : Option String} (ht : token ∈ (w'.phase k).tokens) :
        token ∈ (w.phase k).tokens ∨ (∃ t, token = some t ∧ t ∉ w.issued) ∧ ∃ limit locked tokens now,
          e = .claim k limit locked tokens now := by
      rcases step_hands h k with ⟨hsub, _⟩ | ⟨limit, locked, tokens, now, rfl, hnew, hlen, hphase⟩
      · exact .inl (hsub.subset ht)
      · rw [hphase] at ht
        have ht : token ∈ (claimBatch s limit locked tokens now w.db).map SecurityAuditDelivery.leaseToken := ht
        rw [leases_claimBatch hlen] at ht
        obtain ⟨t, hmem, rfl⟩ := List.mem_map.mp ht
        exact .inr ⟨⟨t, rfl, hnew.2 t hmem⟩, limit, locked, tokens, now, rfl⟩
    have hclash {k : ω} {token : Option String} (ht : token ∈ (w.phase k).tokens)
        (hnew : ∃ t, token = some t ∧ t ∉ w.issued) : False := by
      obtain ⟨t, rfl, hnot⟩ := hnew
      obtain ⟨t', hin, heq⟩ := htokens k ht
      exact hnot (Option.some.inj heq ▸ hin)
    rcases hcase k ht with h₁ | ⟨h₁, _, _, _, _, rfl⟩ <;> rcases hcase k' ht' with h₂ | ⟨h₂, _, _, _, _, he⟩
    · exact hw.apart k k' token h₁ h₂
    · exact (hclash h₁ h₂).elim
    · exact (hclash h₂ h₁).elim
    · cases he; rfl

/-! ## Where no row is claimed during a call -/

variable (s) in
/-- No row is claimed while a worker has called the sink for it, and no worker
goes on with an object of a row that was claimed again. -/
def Unreclaimed (w : World ω) : Event ω → Prop
  | .claim _ limit locked _ now =>
    ∀ r ∈ claimedRows s limit locked now w.db, ∀ k, ∀ c ∈ (w.phase k).called, c.id ≠ r.id
  | .get k true => ∀ next ∈ (w.phase k).hands.head?, (w.row next.id).any (·.leaseToken = next.leaseToken) = true
  | _ => True

instance (w : World Bool) : (e : Event Bool) → Decidable (Unreclaimed s w e)
  | .claim _ limit locked _ now =>
    inferInstanceAs (Decidable (∀ r ∈ claimedRows s limit locked now w.db, ∀ k, ∀ c ∈ (w.phase k).called, c.id ≠ r.id))
  | .get k true => inferInstanceAs
      (Decidable (∀ next ∈ (w.phase k).hands.head?, (w.row next.id).any (·.leaseToken = next.leaseToken) = true))
  | .get _ false | .enqueue .. | .finish .. | .crash _ | .requeue .. | .purge _ => isTrue trivial

/-- A worker that has called the sink has the row's lease. -/
structure Held (w : World ω) : Prop extends Leased w where
  current : ∀ k c, (w.phase k).called = some c → ∃ r ∈ w.db, r.id = c.id ∧ r.leaseToken = c.leaseToken

theorem Held.delivering (hw : Held w) {k : ω} {c r : SecurityAuditDelivery} (hc : (w.phase k).called = some c)
    (ht : r.leaseToken = c.leaseToken) (hr : r ∈ w.db) : r.status = .delivering := by
  obtain ⟨_, token, _, htoken⟩ := hw.object k c (mem_hands hc)
  exact (hw.leased r hr).mp (by rw [ht, htoken]; rfl)

theorem Held.step (hw : Held w) (hok : Unreclaimed s w e) (h : step digest s w e = some w') : Held w' := by
  refine ⟨hw.toLeased.step h, fun k c hc => ?_⟩
  rcases step_called h hc with ⟨hcalled, hnot⟩ | ⟨held, next, todo, rfl, hphase, htoken, hrow⟩
  · obtain ⟨r, hr, hid, ht⟩ := hw.current k c hcalled
    have hstatus := hw.delivering hcalled ht hr
    rcases step_kept h hw.keyed hr with ⟨r', hr', hid', htouch⟩ | ⟨now, _, hp⟩
    · refine ⟨r', hr', hid'.trans hid, ?_⟩
      suffices hsame : r'.leaseToken = r.leaseToken by rw [hsame, ht]
      cases e with
      | enqueue | get | crash | purge => rw [show r' = r from htouch]
      | claim k' limit locked tokens now =>
        obtain ⟨_, ⟨rfl, _⟩ | ⟨hclaimed, _⟩⟩ := htouch
        · rfl
        · exact absurd hid.symm (hok r hclaimed k c hcalled)
      | finish k' response now =>
        obtain ⟨c', todo, hphase, ⟨rfl, _⟩ | ⟨hid₂, _⟩⟩ := htouch
        · rfl
        · have hcalled' : (w.phase k').called = some c' := by rw [hphase]; rfl
          obtain ⟨r₂, hr₂, hid₂', ht₂⟩ := hw.current k' c' hcalled'
          obtain rfl := hw.keyed.eq hr hr₂ (hid₂.trans hid₂'.symm)
          have hk := hw.apart k k' c.leaseToken (List.mem_map_of_mem (mem_hands hcalled))
            (by rw [← ht, ht₂]; exact List.mem_map_of_mem (mem_hands hcalled'))
          exact absurd (by rw [hk]) (hnot response now)
      | requeue limit locked =>
        rcases htouch with ⟨rfl, _⟩ | ⟨hdead, _⟩
        · rfl
        · rw [(mem_deadLetters hdead).2] at hstatus; cases hstatus
    · simp only [purgeable, hstatus, decide_eq_true_eq] at hp
      cases hp.1
  · have hkeep : ∀ r ∈ w.db, r ∈ w'.db := fun r hr => by
      rcases step_kept h hw.keyed hr with ⟨r', hr', _, htouch⟩ | ⟨_, he, _⟩
      · obtain rfl : r' = r := htouch
        exact hr'
      · cases he
    rcases hrow with ⟨rfl, rfl⟩ | ⟨hmem, _⟩
    · obtain ⟨r, hrow, ht⟩ := (Option.any_eq_true _ _).mp (hok c (by rw [hphase]; rfl))
      obtain ⟨hr, hid⟩ := Table.find_some hrow
      exact ⟨r, hkeep r hr, hid, by simpa using ht⟩
    · exact ⟨c, hkeep c hmem, rfl, rfl⟩

variable (digest s) in
/-- In the runs in which no row is claimed during a call, every worker that has
called the sink has the lease. -/
theorem held : ((outbox (ω := ω) digest s).only (Unreclaimed s)).Inductive Held where
  start h := ⟨.start digest s h, fun k c hc => by rw [h.2.1 k] at hc; cases hc⟩
  step hw he := hw.step he.1 he.2

/-- The row that a worker writes is the one that it has the lease of. -/
theorem Held.written (hw : Held w) {k : ω} {c r : SecurityAuditDelivery} (hc : (w.phase k).called = some c)
    (hr : r ∈ w.db) (hid : r.id = c.id) : c.leaseToken = r.leaseToken ∧ r.status = .delivering := by
  obtain ⟨r₁, hr₁, hid₁, ht⟩ := hw.current k c hc
  obtain rfl := hw.keyed.eq hr hr₁ (hid.trans hid₁.symm)
  exact ⟨ht.symm, hw.delivering hc ht hr⟩

/-- A row whose outcome changes is written by the worker that has its lease. -/
theorem Held.writer (hw : Held w) (h : Audit.step digest s w e = some w') {r r' : SecurityAuditDelivery}
    (hr : r ∈ w.db) (hr' : r' ∈ w'.db) (hid : r'.id = r.id) (hne : r' ≠ r) (hout : r'.status.isOutcome = true) :
    ∃ k response now c, e = .finish k response now ∧ (w.phase k).called = some c ∧ c.id = r.id ∧
      c.leaseToken = r.leaseToken ∧ r.status = .delivering := by
  rcases step_row h hw.keyed hr' with ⟨r₀, hr₀, hid₀, htouch⟩ | ⟨_, hpending, _⟩
  · obtain rfl := hw.keyed.eq hr hr₀ (hid.symm.trans hid₀)
    cases e with
    | enqueue | get | crash | purge => exact absurd htouch hne
    | claim k limit locked tokens now =>
      obtain ⟨_, ⟨rfl, _⟩ | ⟨_, _, token, _, rfl⟩⟩ := htouch
      · exact absurd rfl hne
      · cases hout
    | finish k response now =>
      obtain ⟨c, todo, hphase, ⟨rfl, _⟩ | ⟨hc, _⟩⟩ := htouch
      · exact absurd rfl hne
      · have hcalled : (w.phase k).called = some c := by rw [hphase]; rfl
        exact ⟨k, response, now, c, rfl, hcalled, hc.symm, hw.written hcalled hr hc⟩
    | requeue limit locked =>
      rcases htouch with ⟨rfl, _⟩ | ⟨_, rfl⟩
      · exact absurd rfl hne
      · cases hout
  · rw [hpending] at hout; cases hout

theorem not_delivered_of_claimable {now : Nat} {r : SecurityAuditDelivery} (h : claimable now r = true) :
    r.status ≠ .delivered ∧ r.status ≠ .deadLetter := by
  simp only [claimable, decide_eq_true_eq] at h
  rcases h with h | ⟨h, _⟩ | ⟨h, _⟩ <;> simp [h]

theorem purgeable_iff {now : Nat} {r : SecurityAuditDelivery} :
    purgeable s now r = true ↔ r.status = .delivered ∧ ∃ t, r.deliveredAt = some t ∧ t + s.retention < now := by
  simp [purgeable, Option.any_eq_true]

/-- A step leaves a delivered row as it is, or removes it after its retention. -/
theorem Held.delivered (hw : Held w) (h : Audit.step digest s w e = some w') {r : SecurityAuditDelivery}
    (hr : r ∈ w.db) (hd : r.status = .delivered) :
    r ∈ w'.db ∨ ∃ now t, e = .purge now ∧ r.deliveredAt = some t ∧ t + s.retention < now := by
  rcases step_kept h hw.keyed hr with ⟨r', hr', hid, htouch⟩ | ⟨now, he, hp⟩
  · suffices hsame : r' = r from .inl (hsame ▸ hr')
    cases e with
    | enqueue | get | crash | purge => exact htouch
    | claim k limit locked tokens now =>
      obtain ⟨_, ⟨hsame, _⟩ | ⟨hclaimed, _⟩⟩ := htouch
      · exact hsame
      · exact absurd hd (not_delivered_of_claimable (mem_claimedRows hclaimed).2).1
    | finish k response now =>
      obtain ⟨c, todo, hphase, ⟨hsame, _⟩ | ⟨hc, _⟩⟩ := htouch
      · exact hsame
      · have hdelivering := (hw.written (k := k) (by rw [hphase]; rfl) hr hc).2
        rw [hd] at hdelivering
        cases hdelivering
    | requeue limit locked =>
      rcases htouch with ⟨hsame, _⟩ | ⟨hdead, _⟩
      · exact hsame
      · have hdead := (mem_deadLetters hdead).2
        rw [hd] at hdead
        cases hdead
  · obtain ⟨_, t, ht, hlt⟩ := purgeable_iff.mp hp
    exact .inr ⟨now, t, he, ht, hlt⟩

/-- Only delivered rows are removed, after their retention. -/
theorem Leased.removed (hw : Leased w) (h : Audit.step digest s w e = some w') {r : SecurityAuditDelivery}
    (hr : r ∈ w.db) (hgone : ∀ r' ∈ w'.db, r'.id ≠ r.id) :
    r.status = .delivered ∧ ∃ now t, e = .purge now ∧ r.deliveredAt = some t ∧ t + s.retention < now := by
  rcases step_kept h hw.keyed hr with ⟨r', hr', hid, _⟩ | ⟨now, he, hp⟩
  · exact absurd hid (hgone r' hr')
  · obtain ⟨hd, t, ht, hlt⟩ := purgeable_iff.mp hp
    exact ⟨hd, now, t, he, ht, hlt⟩

/-- Where no row is claimed again during a call, a delivered row stays as it is
until it is purged after its retention, no other row is removed, and an outcome
is written only by the worker that has the row's lease. -/
theorem delivered_stays (hr : ((outbox digest s).only (Unreclaimed s)).Reachable w) :
    (∀ es w', ((outbox digest s).only (Unreclaimed s)).Run w es w' → ∀ r ∈ w.db, r.status = .delivered →
      r ∈ w'.db ∨ ∃ now t, .purge now ∈ es ∧ r.deliveredAt = some t ∧ t + s.retention < now) ∧
    (∀ e w', ((outbox digest s).only (Unreclaimed s)).step w e w' → ∀ r ∈ w.db, (∀ r' ∈ w'.db, r'.id ≠ r.id) →
      r.status = .delivered ∧ ∃ now t, e = .purge now ∧ r.deliveredAt = some t ∧ t + s.retention < now) ∧
    ∀ e w', ((outbox digest s).only (Unreclaimed s)).step w e w' → ∀ r ∈ w.db, ∀ r' ∈ w'.db, r'.id = r.id →
      r' ≠ r → r'.status.isOutcome = true → ∃ k response now c, e = .finish k response now ∧
        (w.phase k).called = some c ∧ c.id = r.id ∧ c.leaseToken = r.leaseToken ∧ r.status = .delivering := by
  have hw : Held w := (held digest s).reachable hr
  refine ⟨fun es w' hrun r hmem hd => ?_, fun e w' he r hmem hgone => hw.removed he.2 hmem hgone,
    fun e w' he r hmem r' hmem' hid hne hout => hw.writer he.2 hmem hmem' hid hne hout⟩
  induction hrun with
  | nil => exact .inl hmem
  | @snoc es u w' e hrun he ih =>
    rcases ih with hmem | ⟨now, t, hpurge, ht, hlt⟩
    · rcases ((held digest s).run hrun hw).delivered he.2 hmem hd with hmem | ⟨now, t, rfl, ht, hlt⟩
      · exact .inl hmem
      · exact .inr ⟨now, t, List.mem_append_right _ (List.mem_singleton_self _), ht, hlt⟩
    · exact .inr ⟨now, t, List.mem_append_left _ hpurge, ht, hlt⟩

namespace Sample

def settings : Settings :=
  { sinks := ["http"], siemUrl := "https://siem.example/events", siemHmacSecret := "secret", maxAttempts := 3 }

def sha256 : Json → String := fun _ => "digest"

def start : World Bool := ⟨[], fun _ => .idle, [], []⟩

theorem started (digest : Json → String) (s : Settings) : (outbox digest s).start start := ⟨rfl, fun _ => rfl, rfl, rfl⟩

def claimed : List (Event Bool) :=
  [.enqueue "event-1" (.obj [("id", .str "event-1")]) ["row-1"] 0, .claim false none [] ["token-1"] 0, .get false false]

/-- The other worker claims the row after the lease, and delivers it. -/
def overlapped : List (Event Bool) :=
  claimed ++ [.claim true none [] ["token-2"] (seconds 61), .get true false, .finish true (.ok .null) (seconds 62)]

/-- The call of the first worker ends. -/
def late : Event Bool := .finish false (.error "ReadTimeout: timed out") (seconds 70)

def delivered : List (Event Bool) := claimed ++ [.finish false (.ok .null) (seconds 2)]

end Sample

/-- A worker whose call outlasts its lease sets back a row that was delivered in
the meantime. -/
theorem lease_lost : ∃ w w' : World Bool, (outbox Sample.sha256 Sample.settings).Reachable w ∧
    (outbox Sample.sha256 Sample.settings).step w Sample.late w' ∧
    w.db.map (·.status) = [.delivered] ∧ w'.db.map (·.status) = [.retry] := by
  have hrun : (Sample.overlapped.foldlM (step Sample.sha256 Sample.settings) Sample.start).map
      (fun w => (w.db.map (·.status), (step Sample.sha256 Sample.settings w Sample.late).map
        fun w' => w'.db.map (·.status))) = some ([.delivered], some [.retry]) := by
    decide +kernel
  obtain ⟨w, hw, hends⟩ := Option.map_eq_some_iff.mp hrun
  obtain ⟨hdb, hlate⟩ := Prod.mk.inj hends
  obtain ⟨w', hw', hdb'⟩ := Option.map_eq_some_iff.mp hlate
  exact ⟨w, w', ⟨_, _, Sample.started _ _, .of_foldlM hw⟩, hw', hdb, hdb'⟩

/-- The row that the worker delivered within its lease is there in every later state before its purge. -/
theorem delivered_stays_sample : ∃ w : World Bool,
    w.db.map (·.status) = [.delivered] ∧ ∀ es w',
      ((outbox Sample.sha256 Sample.settings).only (Unreclaimed Sample.settings)).Run w es w' →
        ∀ r ∈ w.db, r ∈ w'.db ∨ ∃ now t, .purge now ∈ es ∧ r.deliveredAt = some t ∧
          t + Sample.settings.retention < now := by
  have hrun : (Sample.delivered.foldlM (fun w e =>
      if Unreclaimed Sample.settings w e then step Sample.sha256 Sample.settings w e else none) Sample.start).map
        (fun w => w.db.map (·.status)) = some [.delivered] := by
    decide +kernel
  obtain ⟨w, hw, hdb⟩ := Option.map_eq_some_iff.mp hrun
  have hreach : ((outbox Sample.sha256 Sample.settings).only (Unreclaimed Sample.settings)).Reachable w :=
    ⟨_, _, Sample.started Sample.sha256 Sample.settings, .only_of_foldlM hw⟩
  refine ⟨w, hdb, fun es w' hes r hr => (delivered_stays hreach).1 es w' hes r hr ?_⟩
  have hmem : r.status ∈ w.db.map (·.status) := List.mem_map_of_mem hr
  rw [hdb] at hmem
  exact List.mem_singleton.mp hmem

end CodeMate.Audit
