import CodeMate.Audit.Leases
import CodeMate.Framework.Log
import Mathlib.Data.List.Count

/-!
# The attempts of a delivery

`claims` counts how often a row was claimed since it was enqueued or requeued.
The bound on the attempts is looked at only when a failure is written:
`claims_unbounded` is a run in which a worker is lost after its claim and the
row is claimed once more than the bound allows. `attempts_bounded` says what
holds where every last attempt is written (`LastWritten`).
-/

namespace CodeMate.Audit

open Framework

/-- How often a row was claimed since its last requeue. -/
def claims (id : String) (log : List Act) : Nat :=
  (Log.since (fun a => a = .requeued id) log).count (.claimed id)

/-! ## What is added to the log -/

section Counting

variable {id : String} {ids : List String} {log : List Act}

theorem claims_append {acts : List Act} (h : .requeued id ∉ acts) :
    claims id (acts ++ log) = acts.count (.claimed id) + claims id log := by
  have hno : ∀ a ∈ acts, decide (a = Act.requeued id) = false := fun a ha => by
    by_contra hreq
    exact h (of_decide_eq_true (Bool.eq_true_of_not_eq_false hreq) ▸ ha)
  rw [claims, Log.since_append hno, List.count_append]
  rfl

theorem claims_claimed : claims id (ids.map .claimed ++ log) = ids.count id + claims id log := by
  rw [claims_append (by simp), List.count_map_of_injective _ _ fun _ _ h => Act.claimed.inj h]

theorem claims_sent (other : String) : claims id (.sent other :: log) = claims id log := by
  rw [← List.singleton_append, claims_append (by simp)]
  simp

theorem claims_requeued (h : id ∉ ids) : claims id (ids.map .requeued ++ log) = claims id log := by
  rw [claims_append (by simpa using h), List.count_eq_zero.mpr (by simp), Nat.zero_add]

/-- A requeue starts the count again. -/
theorem claims_requeued_self (h : id ∈ ids) : claims id (ids.map .requeued ++ log) = 0 := by
  induction ids with
  | nil => cases h
  | cons i ids ih =>
    rw [List.map_cons, List.cons_append]
    by_cases hi : i = id
    · subst hi
      simp [claims, Log.since]
    · have hmem : id ∈ ids := (List.mem_cons.mp h).resolve_left fun heq => hi heq.symm
      rw [← List.singleton_append, claims_append (by simpa using fun heq => hi heq.symm), ih hmem]
      simp

end Counting

variable {ω : Type*} [DecidableEq ω] {digest : Json → String} {s : Settings} {w w' : World ω} {e : Event ω}
  {r r' : SecurityAuditDelivery} {id : String}

variable (s) in
/-- The count of a row after a step. -/
def counted (w : World ω) (id : String) : Event ω → Nat
  | .claim _ limit locked _ now =>
    ((claimedRows s limit locked now w.db).map SecurityAuditDelivery.id).count id + claims id w.log
  | .requeue limit locked =>
    if id ∈ (deadLetters limit locked w.db).map SecurityAuditDelivery.id then 0 else claims id w.log
  | .enqueue .. | .get .. | .finish .. | .crash _ | .purge _ => claims id w.log

theorem step_claims (h : step digest s w e = some w') : claims id w'.log = counted s w id e := by
  cases e with
  | enqueue eventId record ids now =>
    simp only [step] at h
    split at h
    · obtain rfl := Option.some.inj h; rfl
    · cases h
  | claim k limit locked tokens now =>
    simp only [step] at h
    split at h
    · split at h
      · next hguard =>
        obtain rfl := Option.some.inj h
        show claims id ((claimBatch s limit locked tokens now w.db).map (.claimed ∘ SecurityAuditDelivery.id) ++ w.log) = _
        rw [← List.map_map, ids_claimBatch hguard.2, claims_claimed]
        rfl
      · cases h
    · cases h
  | get k held =>
    simp only [step] at h
    split at h
    · obtain rfl := Option.some.inj h
      unfold World.get
      repeat (first | split | exact claims_sent _ | rfl)
    · obtain rfl := Option.some.inj h; rfl
    · cases h
  | finish k response now =>
    simp only [step] at h
    split at h
    · obtain rfl := Option.some.inj h
      unfold World.write
      split <;> rfl
    · cases h
  | crash k => obtain rfl := Option.some.inj h; rfl
  | requeue limit locked =>
    obtain rfl := Option.some.inj h
    have hids : ((deadLetters limit locked w.db).map requeue).map (fun row => Act.requeued row.id) =
        ((deadLetters limit locked w.db).map SecurityAuditDelivery.id).map .requeued := by
      rw [List.map_map, List.map_map]
      rfl
    dsimp only
    rw [hids]
    rw [counted]
    split
    · next hmem => exact claims_requeued_self hmem
    · next hmem => exact claims_requeued hmem
  | purge now => obtain rfl := Option.some.inj h; rfl

omit [DecidableEq ω] in
/-- The count of a row that a claim takes goes up by one. -/
theorem counted_claim {k : ω} {limit : Option Nat} {locked tokens : List String} {now : Nat} (hk : Keyed w.db)
    (hr : r ∈ claimedRows s limit locked now w.db) :
    counted s w r.id (.claim k limit locked tokens now) = claims r.id w.log + 1 := by
  have hnodup : Keyed (claimedRows s limit locked now w.db) := hk.oldest
  rw [counted, List.count_eq_one_of_mem hnodup (List.mem_map_of_mem hr), Nat.add_comm]

omit [DecidableEq ω] in
theorem counted_unclaimed {k : ω} {limit : Option Nat} {locked tokens : List String} {now : Nat}
    (hid : id ∉ (claimedRows s limit locked now w.db).map SecurityAuditDelivery.id) :
    counted s w id (.claim k limit locked tokens now) = claims id w.log := by
  rw [counted, List.count_eq_zero.mpr hid, Nat.zero_add]

/-! ## Where every last attempt is written -/

variable (s) in
/-- No row is claimed while its last attempt is in the hands of a worker, and no
worker is lost that has the last attempt of a row in its hands; no worker goes
on with an object of a row that was claimed again, or writes such a row. -/
def LastWritten (w : World ω) : Event ω → Prop
  | .claim _ limit locked _ now => ∀ r ∈ claimedRows s limit locked now w.db, ∀ k, ∀ c ∈ (w.phase k).hands,
      c.id = r.id → c.leaseToken = r.leaseToken → r.attemptCount < s.attempts
  | .get k true => ∀ next ∈ (w.phase k).hands.head?, (w.row next.id).any (·.leaseToken = next.leaseToken) = true
  | .finish k _ _ => ∀ c ∈ (w.phase k).called, (w.row c.id).any (·.leaseToken = c.leaseToken) = true
  | .crash k => ∀ c ∈ (w.phase k).hands, ∀ r ∈ w.db, c.id = r.id → c.leaseToken = r.leaseToken →
      r.attemptCount < s.attempts
  | _ => True

instance (w : World Bool) : (e : Event Bool) → Decidable (LastWritten s w e)
  | .claim _ limit locked _ now => inferInstanceAs
      (Decidable (∀ r ∈ claimedRows s limit locked now w.db, ∀ k, ∀ c ∈ (w.phase k).hands,
        c.id = r.id → c.leaseToken = r.leaseToken → r.attemptCount < s.attempts))
  | .get k true => inferInstanceAs
      (Decidable (∀ next ∈ (w.phase k).hands.head?, (w.row next.id).any (·.leaseToken = next.leaseToken) = true))
  | .finish k _ _ => inferInstanceAs
      (Decidable (∀ c ∈ (w.phase k).called, (w.row c.id).any (·.leaseToken = c.leaseToken) = true))
  | .crash k => inferInstanceAs (Decidable (∀ c ∈ (w.phase k).hands, ∀ r ∈ w.db,
      c.id = r.id → c.leaseToken = r.leaseToken → r.attemptCount < s.attempts))
  | .get _ false | .enqueue .. | .requeue .. | .purge _ => isTrue trivial

/-- The worker has the lease of the row. -/
def Holds (w : World ω) (k : ω) (r : SecurityAuditDelivery) : Prop :=
  ∃ c ∈ (w.phase k).hands, c.id = r.id ∧ c.leaseToken = r.leaseToken

variable (s) in
/-- The attempts of a row are counted in the row, and a row that may be claimed
again has some left, unless a worker has it in its hands. -/
structure Bounded (w : World ω) : Prop extends Leased w where
  counts : ∀ r ∈ w.db, r.attemptCount = claims r.id w.log
  unlogged : ∀ id, id ∉ w.issued → claims id w.log = 0
  agrees : ∀ k, ∀ c ∈ (w.phase k).hands, ∀ r ∈ w.db, c.id = r.id → c.leaseToken = r.leaseToken →
    c.attemptCount = r.attemptCount
  bound : ∀ id, claims id w.log ≤ s.attempts
  left : ∀ r ∈ w.db, r.status = .pending ∨ r.status = .retry → r.attemptCount < s.attempts
  holder : ∀ r ∈ w.db, r.status = .delivering → s.attempts ≤ r.attemptCount → ∃ k, Holds w k r

/-- A row that a claim takes has attempts left. -/
theorem Bounded.claimed (hw : Bounded s w) {k : ω} {limit : Option Nat} {locked tokens : List String} {now : Nat}
    (hok : LastWritten s w (.claim k limit locked tokens now)) (hr : r ∈ claimedRows s limit locked now w.db) :
    r.attemptCount < s.attempts := by
  obtain ⟨hdb, hclaimable⟩ := mem_claimedRows hr
  simp only [claimable, decide_eq_true_eq] at hclaimable
  rcases hclaimable with hpending | ⟨hretry, _⟩ | ⟨hdelivering, _⟩
  · exact hw.left r hdb (.inl hpending)
  · exact hw.left r hdb (.inr hretry)
  · by_contra hlast
    obtain ⟨k', c, hc, hid, ht⟩ := hw.holder r hdb hdelivering (by omega)
    exact hlast (hok r hr k' c hc hid ht)

/-- A row that a step leaves with a token of before is the row of before. -/
theorem Touched.same (h : Touched digest s w r r' e) (hw : Leased w) {token : String}
    (ht : r'.leaseToken = some token) (hnew : token ∉ e.made) : r' = r := by
  cases e with
  | enqueue | get | crash | purge => exact h
  | claim k limit locked tokens now =>
    obtain ⟨_, ⟨rfl, _⟩ | ⟨_, _, token', ht', rfl⟩⟩ := h
    · rfl
    · exact absurd (Option.some.inj ht ▸ ht') hnew
  | finish k response now =>
    obtain ⟨c, todo, hphase, ⟨rfl, _⟩ | ⟨_, rfl⟩⟩ := h
    · rfl
    · obtain ⟨hc, token', _, htoken⟩ := hw.object k c (by rw [hphase]; exact List.mem_cons_self)
      have hnone := (overlay_outcome s now (deliver digest s response c) r hc (by rw [htoken]; rfl)).2.2.1
      rw [hnone] at ht
      cases ht
  | requeue limit locked =>
    rcases h with ⟨rfl, _⟩ | ⟨_, rfl⟩
    · rfl
    · cases ht

/-- What a worker has in its hands counts the attempts as the row does. -/
theorem Bounded.agrees_step (hw : Bounded s w) (h : Audit.step digest s w e = some w') :
    ∀ k, ∀ c ∈ (w'.phase k).hands, ∀ r ∈ w'.db, c.id = r.id → c.leaseToken = r.leaseToken →
      c.attemptCount = r.attemptCount := by
  intro k c hc r' hr' hid ht
  obtain ⟨_, _, hfresh⟩ := step_issued h
  have hw' := hw.toLeased.step h
  rcases step_hands h k with ⟨_, hkept⟩ | ⟨limit, locked, tokens, now, rfl, _, hlen, hphase⟩
  · obtain ⟨c₀, hc₀, hid₀, ht₀, hcount⟩ : ∃ c₀ ∈ (w.phase k).hands, c.id = c₀.id ∧ c.leaseToken = c₀.leaseToken ∧
        (c = c₀ ∨ c ∈ w.db) := by
      rcases hkept c hc with hmem | ⟨hdb, c₀, hc₀, hid₀, ht₀⟩
      · exact ⟨c, hmem, rfl, rfl, .inl rfl⟩
      · exact ⟨c₀, hc₀, hid₀, ht₀, .inr hdb⟩
    obtain ⟨_, token, hissued, htoken⟩ := hw.object k c₀ hc₀
    have hsome : r'.leaseToken = some token := by rw [← ht, ht₀, htoken]
    rcases step_row h hw.keyed hr' with ⟨r, hr, hid', htouch⟩ | ⟨_, _, _, hnone⟩
    · obtain rfl := htouch.same hw.toLeased hsome fun hmade => hfresh token hmade hissued
      rcases hcount with rfl | hdb
      · exact hw.agrees k c hc₀ r' hr hid ht
      · rw [hw.keyed.eq hdb hr hid]
    · rw [hnone] at hsome; cases hsome
  · rw [hphase] at hc
    have hdb : c ∈ w'.db := by
      rw [(step_claim h).1]
      exact (mem_store_claimBatch hlen hw.keyed).mpr (.inl hc)
    rw [hw'.keyed.eq hdb hr' hid]

/-- A failure that is to be tried again has attempts left. -/
theorem attempts_of_retry {now : Nat} {result : Except String Json} {c : SecurityAuditDelivery}
    (h : (recordOutcome s now result c).status = .retry) : c.attemptCount < s.attempts := by
  unfold recordOutcome at h
  cases result with
  | ok receipt => cases h
  | error message =>
    dsimp only at h
    split at h
    · cases h
    · next hlt => omega

/-- The row that a worker writes, where it has the lease. -/
theorem LastWritten.current (hok : LastWritten s w e) (hw : Leased w) {k : ω} {response : Except String Json} {now : Nat}
    (he : e = .finish k response now) {c : SecurityAuditDelivery} (hc : (w.phase k).called = some c)
    (hr : r ∈ w.db) (hid : r.id = c.id) : c.leaseToken = r.leaseToken := by
  subst he
  obtain ⟨r₁, hrow, ht⟩ := (Option.any_eq_true _ _).mp (hok c hc)
  obtain ⟨hr₁, hid₁⟩ := Table.find_some hrow
  obtain rfl := hw.keyed.eq hr hr₁ (hid.trans hid₁.symm)
  exact (of_decide_eq_true ht).symm

theorem Bounded.counts_step (hw : Bounded s w) (h : Audit.step digest s w e = some w') :
    ∀ r ∈ w'.db, r.attemptCount = claims r.id w'.log := by
  intro r' hr'
  obtain ⟨_, _, hfresh⟩ := step_issued h
  rw [step_claims h]
  rcases step_row h hw.keyed hr' with ⟨r, hr, hid, htouch⟩ | ⟨hmade, _, hzero, _⟩
  · have hcount := hw.counts r hr
    rw [hid]
    cases e with
    | enqueue | get | crash | purge =>
      obtain rfl : r' = r := htouch
      exact hcount
    | claim k limit locked tokens now =>
      obtain ⟨_, ⟨rfl, hnot⟩ | ⟨hclaimed, _, token, _, rfl⟩⟩ := htouch
      · rw [counted_unclaimed fun hmem => ?_, hcount]
        obtain ⟨r₁, hr₁, hid₁⟩ := List.mem_map.mp hmem
        exact hnot (hw.keyed.eq (mem_claimedRows hr₁).1 hr hid₁ ▸ hr₁)
      · rw [counted_claim hw.keyed hclaimed, ← hcount]
        rfl
    | finish k response now =>
      obtain ⟨c, todo, hphase, ⟨rfl, _⟩ | ⟨_, rfl⟩⟩ := htouch
      · exact hcount
      · obtain ⟨hc, token, _, htoken⟩ := hw.object k c (by rw [hphase]; exact List.mem_cons_self)
        rw [(overlay_outcome s now (deliver digest s response c) r hc (by rw [htoken]; rfl)).2.2.2]
        exact hcount
    | requeue limit locked =>
      rw [counted]
      rcases htouch with ⟨rfl, hnot⟩ | ⟨hdead, rfl⟩
      · rw [if_neg fun hmem => ?_, hcount]
        obtain ⟨r₁, hr₁, hid₁⟩ := List.mem_map.mp hmem
        exact hnot (hw.keyed.eq (mem_deadLetters hr₁).1 hr hid₁ ▸ hr₁)
      · rw [if_pos (List.mem_map_of_mem hdead)]
        rfl
  · have hnew : claims r'.id w.log = 0 := hw.unlogged r'.id (hfresh r'.id hmade)
    rw [hzero]
    cases e with
    | enqueue => exact hnew.symm
    | claim k limit locked tokens now =>
      rw [counted_unclaimed fun hmem => ?_, hnew]
      obtain ⟨r₁, hr₁, hid₁⟩ := List.mem_map.mp hmem
      exact hfresh r'.id hmade (hid₁ ▸ hw.idIssued r₁ (mem_claimedRows hr₁).1)
    | get | finish | crash | requeue | purge => cases hmade

theorem Bounded.bound_step (hw : Bounded s w) (hok : LastWritten s w e) (h : Audit.step digest s w e = some w') :
    ∀ id, claims id w'.log ≤ s.attempts ∧ (id ∉ w'.issued → claims id w'.log = 0) := by
  intro id
  obtain ⟨hissued, _⟩ := step_issued h
  have hzero (hid : id ∉ w'.issued) : claims id w.log = 0 :=
    hw.unlogged id fun hmem => hid (hissued ▸ List.mem_append_right _ hmem)
  rw [step_claims h]
  cases e with
  | enqueue | get | finish | crash | purge => exact ⟨hw.bound id, hzero⟩
  | claim k limit locked tokens now =>
    by_cases hmem : id ∈ (claimedRows s limit locked now w.db).map SecurityAuditDelivery.id
    · obtain ⟨r, hr, rfl⟩ := List.mem_map.mp hmem
      have hdb := (mem_claimedRows hr).1
      have hleft := hw.claimed hok hr
      rw [counted_claim hw.keyed hr, ← hw.counts r hdb]
      exact ⟨hleft, fun hnot => absurd (hissued ▸ List.mem_append_right _ (hw.idIssued r hdb)) hnot⟩
    · rw [counted_unclaimed hmem]
      exact ⟨hw.bound id, hzero⟩
  | requeue limit locked =>
    rw [counted]
    split
    · exact ⟨Nat.zero_le _, fun _ => rfl⟩
    · exact ⟨hw.bound id, hzero⟩

theorem Bounded.left_step (hw : Bounded s w) (hok : LastWritten s w e) (h : Audit.step digest s w e = some w') :
    ∀ r ∈ w'.db, r.status = .pending ∨ r.status = .retry → r.attemptCount < s.attempts := by
  intro r' hr' hstatus
  have hpos : 0 < s.attempts := Nat.lt_of_lt_of_le Nat.one_pos (Nat.le_max_left 1 _)
  rcases step_row h hw.keyed hr' with ⟨r, hr, hid, htouch⟩ | ⟨_, _, hzero, _⟩
  · cases e with
    | enqueue | get | crash | purge =>
      obtain rfl : r' = r := htouch
      exact hw.left r' hr hstatus
    | claim k limit locked tokens now =>
      obtain ⟨_, ⟨rfl, _⟩ | ⟨_, _, token, _, rfl⟩⟩ := htouch
      · exact hw.left r' hr hstatus
      · rcases hstatus with hs | hs <;> cases hs
    | finish k response now =>
      obtain ⟨c, todo, hphase, ⟨rfl, _⟩ | ⟨hcid, rfl⟩⟩ := htouch
      · exact hw.left r' hr hstatus
      · have hhands : c ∈ (w.phase k).hands := by rw [hphase]; exact List.mem_cons_self
        obtain ⟨hc, token, _, htoken⟩ := hw.object k c hhands
        obtain ⟨hnew, hout, _, hcount⟩ :=
          overlay_outcome s now (deliver digest s response c) r hc (by rw [htoken]; rfl)
        have hcur := hok.current hw.toLeased rfl (by rw [hphase]; rfl) hr hcid
        rw [hcount, ← hw.agrees k c hhands r hr hcid.symm hcur]
        rw [hnew] at hstatus
        rcases hstatus with hs | hs
        · rw [hs] at hout; cases hout
        · exact attempts_of_retry hs
    | requeue limit locked =>
      rcases htouch with ⟨rfl, _⟩ | ⟨_, rfl⟩
      · exact hw.left r' hr hstatus
      · exact hpos
  · rw [hzero]; exact hpos

/-- The last attempt of a row stays in the hands of its worker until it is written. -/
theorem Bounded.holder_step (hw : Bounded s w) (hok : LastWritten s w e) (h : Audit.step digest s w e = some w') :
    ∀ r ∈ w'.db, r.status = .delivering → s.attempts ≤ r.attemptCount → ∃ k, Holds w' k r := by
  intro r' hr' hstatus hlast
  rcases step_row h hw.keyed hr' with ⟨r, hr, hid, htouch⟩ | ⟨_, hpending, _⟩
  · have hkeep (hsame : r' = r) (hnot : ∀ k response now c, e = .finish k response now →
        (w.phase k).called = some c → r.id ≠ c.id) : ∃ k, Holds w' k r' := by
      subst hsame
      obtain ⟨k, c, hc, hcid, ht⟩ := hw.holder r' hr hstatus hlast
      refine ⟨k, ?_⟩
      rcases step_released h hc with ⟨c', hc', hid', ht'⟩ | rfl | ⟨response, now, row, rfl, hcalled, hrow⟩ | ⟨rfl, hrow⟩
      · exact ⟨c', hc', hid'.trans hcid, ht'.trans ht⟩
      · exact absurd (hok c hc r' hr hcid ht) (by omega)
      · rcases hrow with rfl | hrow
        · exact absurd hcid.symm (hnot k response now c rfl hcalled)
        · have hsome := hok row hcalled
          rw [hrow] at hsome
          cases hsome
      · exact absurd ht.symm (hrow r' (hw.keyed.find_eq_some.mpr ⟨hr, hcid.symm⟩))
    cases e with
    | enqueue | get | crash | purge => exact hkeep htouch fun _ _ _ _ he => by cases he
    | claim k limit locked tokens now =>
      obtain ⟨_, ⟨hsame, _⟩ | ⟨_, hbatch, _⟩⟩ := htouch
      · exact hkeep hsame fun _ _ _ _ he => by cases he
      · exact ⟨k, r', by rw [(step_claim h).2]; exact hbatch, rfl, rfl⟩
    | finish k response now =>
      obtain ⟨c, todo, hphase, ⟨hsame, hne⟩ | ⟨_, rfl⟩⟩ := htouch
      · refine hkeep hsame fun k' _ _ c' he hcalled => ?_
        obtain ⟨rfl, _, _⟩ := Event.finish.inj he
        rw [hphase] at hcalled
        exact Option.some.inj hcalled ▸ hne
      · obtain ⟨hc, token, _, htoken⟩ := hw.object k c (by rw [hphase]; exact List.mem_cons_self)
        obtain ⟨hnew, hout, _⟩ :=
          overlay_outcome s now (deliver digest s response c) r hc (by rw [htoken]; rfl)
        rw [← hnew, hstatus] at hout
        cases hout
    | requeue limit locked =>
      rcases htouch with ⟨hsame, _⟩ | ⟨_, rfl⟩
      · exact hkeep hsame fun _ _ _ _ he => by cases he
      · cases hstatus
  · rw [hpending] at hstatus; cases hstatus

variable (digest s) in
theorem bounded : ((outbox (ω := ω) digest s).only (LastWritten s)).Inductive (Bounded s) where
  start {w} h := by
    have hleased : Leased w := .start digest s h
    obtain ⟨hdb, hphase, _, hlog⟩ := h
    have hzero (id : String) : claims id w.log = 0 := by rw [hlog]; rfl
    refine ⟨hleased, ?_, fun id _ => hzero id, fun k c hc => ?_, fun id => by rw [hzero id]; exact Nat.zero_le _, ?_, ?_⟩
    · simp [hdb]
    · rw [hphase k] at hc; cases hc
    · simp [hdb]
    · simp [hdb]
  step {w w' e} hw he :=
    ⟨hw.toLeased.step he.2, hw.counts_step he.2, fun id hid => (hw.bound_step he.1 he.2 id).2 hid, hw.agrees_step he.2,
      fun id => (hw.bound_step he.1 he.2 id).1, hw.left_step he.1 he.2, hw.holder_step he.1 he.2⟩

/-- A worker has no lease of a dead letter. -/
theorem Leased.not_dead (hw : Leased w) {k : ω} {c : SecurityAuditDelivery} (hc : c ∈ (w.phase k).hands) (hr : r ∈ w.db)
    (hd : r.status = .deadLetter) : r.leaseToken ≠ c.leaseToken := by
  intro ht
  obtain ⟨_, token, _, htoken⟩ := hw.object k c hc
  have hdelivering := (hw.leased r hr).mp (by rw [ht, htoken]; rfl)
  rw [hd] at hdelivering
  cases hdelivering

/-- A dead letter is not sent. -/
theorem Leased.dead_unsent (hw : Leased w) (hok : LastWritten s w e) (h : Audit.step digest s w e = some w')
    (hr : r ∈ w.db) (hd : r.status = .deadLetter) : w'.log.count (.sent r.id) = w.log.count (.sent r.id) := by
  have hother {acts : List Act} (hno : .sent r.id ∉ acts) : (acts ++ w.log).count (.sent r.id) =
      w.log.count (.sent r.id) := by
    rw [List.count_append, List.count_eq_zero.mpr hno, Nat.zero_add]
  cases e with
  | enqueue eventId record ids now =>
    simp only [Audit.step] at h
    split at h
    · obtain rfl := Option.some.inj h; rfl
    · cases h
  | claim k limit locked tokens now =>
    simp only [Audit.step] at h
    split at h
    · split at h
      · obtain rfl := Option.some.inj h
        exact hother (by simp)
      · cases h
    · cases h
  | get k held =>
    simp only [Audit.step] at h
    split at h
    · next next todo hphase =>
      obtain rfl := Option.some.inj h
      have hnext : next ∈ (w.phase k).hands := by rw [hphase]; exact List.mem_cons_self
      unfold World.get
      split
      · next row hrow =>
        split
        · next ht =>
          refine List.count_cons_of_ne fun heq => hw.not_dead hnext hr hd ?_
          have hid : row.id = r.id := Act.sent.inj heq
          cases held with
          | true =>
            obtain rfl := Option.some.inj hrow
            obtain ⟨r₁, hrow₁, ht₁⟩ := (Option.any_eq_true _ _).mp (hok next (by rw [hphase]; rfl))
            obtain ⟨hr₁, hid₁⟩ := Table.find_some hrow₁
            obtain rfl := hw.keyed.eq hr₁ hr (hid₁.trans hid)
            exact of_decide_eq_true ht₁
          | false =>
            obtain rfl := hw.keyed.eq (Table.find_some hrow).1 hr hid
            exact ht
        · rfl
      · rfl
    · obtain rfl := Option.some.inj h; rfl
    · cases h
  | finish k response now =>
    simp only [Audit.step] at h
    split at h
    · obtain rfl := Option.some.inj h
      unfold World.write
      split <;> rfl
    · cases h
  | crash k => obtain rfl := Option.some.inj h; rfl
  | requeue limit locked =>
    obtain rfl := Option.some.inj h
    exact hother (by simp)
  | purge now => obtain rfl := Option.some.inj h; rfl

/-- A dead letter stays one until it is requeued. -/
theorem Leased.dead_kept (hw : Leased w) (hok : LastWritten s w e) (h : Audit.step digest s w e = some w')
    (hr : r ∈ w.db) (hd : r.status = .deadLetter) :
    r ∈ w'.db ∨ ∃ limit locked, e = .requeue limit locked ∧ requeue r ∈ w'.db := by
  rcases step_kept h hw.keyed hr with ⟨r', hr', hid, htouch⟩ | ⟨now, _, hp⟩
  · cases e with
    | enqueue | get | crash | purge => exact .inl (htouch ▸ hr')
    | claim k limit locked tokens now =>
      obtain ⟨_, ⟨rfl, _⟩ | ⟨hclaimed, _⟩⟩ := htouch
      · exact .inl hr'
      · exact absurd hd (not_delivered_of_claimable (mem_claimedRows hclaimed).2).2
    | finish k response now =>
      obtain ⟨c, todo, hphase, ⟨rfl, _⟩ | ⟨hcid, _⟩⟩ := htouch
      · exact .inl hr'
      · have hcur := hok.current hw rfl (by rw [hphase]; rfl) hr hcid
        exact absurd hcur.symm (hw.not_dead (by rw [hphase]; exact List.mem_cons_self) hr hd)
    | requeue limit locked =>
      rcases htouch with ⟨rfl, _⟩ | ⟨_, rfl⟩
      · exact .inl hr'
      · exact .inr ⟨limit, locked, rfl, hr'⟩
  · rw [(purgeable_iff.mp hp).1] at hd
    cases hd

/-- Where every last attempt is written, a row is claimed at most as often as
the bound allows before it is requeued; one that was claimed that often is
delivered, a dead letter, or at its last attempt in the hands of a worker; and a
dead letter is not sent and stays one until it is requeued. -/
theorem attempts_bounded (hr : ((outbox digest s).only (LastWritten s)).Reachable w) :
    (∀ id, claims id w.log ≤ s.attempts) ∧
    (∀ r ∈ w.db, claims r.id w.log = s.attempts → r.status = .delivered ∨ r.status = .deadLetter ∨
      r.status = .delivering ∧ ∃ k, Holds w k r) ∧
    ∀ e w', ((outbox digest s).only (LastWritten s)).step w e w' → ∀ r ∈ w.db, r.status = .deadLetter →
      w'.log.count (.sent r.id) = w.log.count (.sent r.id) ∧
        (r ∈ w'.db ∨ ∃ limit locked, e = .requeue limit locked ∧ requeue r ∈ w'.db) := by
  have hw : Bounded s w := (bounded digest s).reachable hr
  refine ⟨hw.bound, fun r hmem hall => ?_, fun e w' he r hmem hd =>
    ⟨hw.dead_unsent he.1 he.2 hmem hd, hw.dead_kept he.1 he.2 hmem hd⟩⟩
  rw [← hw.counts r hmem] at hall
  cases hstatus : r.status with
  | pending => have hlt := hw.left r hmem (.inl hstatus); omega
  | retry => have hlt := hw.left r hmem (.inr hstatus); omega
  | delivered => exact .inl rfl
  | deadLetter => exact .inr (.inl rfl)
  | delivering => exact .inr (.inr ⟨rfl, hw.holder r hmem hstatus hall.ge⟩)

namespace Sample

def once : Settings := { settings with maxAttempts := 1 }

/-- The first worker is lost after its claim, and the row is claimed again. -/
def lost : List (Event Bool) :=
  [.enqueue "event-1" (.obj [("id", .str "event-1")]) ["row-1"] 0, .claim false none [] ["token-1"] 0, .crash false,
    .claim true none [] ["token-2"] (seconds 61), .get true false]

/-- The only attempt fails. -/
def failed : List (Event Bool) := claimed ++ [.finish false (.error "ReadTimeout: timed out") (seconds 2)]

end Sample

/-- A row whose only attempt was made by a worker that was lost is claimed again, and sent. -/
theorem claims_unbounded : ∃ w : World Bool, (outbox Sample.sha256 Sample.once).Reachable w ∧
    claims "row-1" w.log = 2 ∧ .sent "row-1" ∈ w.log ∧ Sample.once.attempts = 1 := by
  have hrun : (Sample.lost.foldlM (step Sample.sha256 Sample.once) Sample.start).map
      (fun w => (claims "row-1" w.log, decide (.sent "row-1" ∈ w.log))) = some (2, true) := by
    decide +kernel
  obtain ⟨w, hw, hends⟩ := Option.map_eq_some_iff.mp hrun
  obtain ⟨hclaims, hsent⟩ := Prod.mk.inj hends
  exact ⟨w, ⟨_, _, Sample.started _ _, .of_foldlM hw⟩, hclaims, of_decide_eq_true hsent, rfl⟩

/-- The row whose only attempt failed is a dead letter. -/
theorem attempts_bounded_sample : ∃ w : World Bool, w.db.map (·.status) = [.deadLetter] ∧
    claims "row-1" w.log = Sample.once.attempts ∧ ∀ id, claims id w.log ≤ Sample.once.attempts := by
  have hrun : (Sample.failed.foldlM (fun w e =>
      if LastWritten Sample.once w e then step Sample.sha256 Sample.once w e else none) Sample.start).map
        (fun w => (w.db.map (·.status), claims "row-1" w.log)) = some ([.deadLetter], 1) := by
    decide +kernel
  obtain ⟨w, hw, hends⟩ := Option.map_eq_some_iff.mp hrun
  obtain ⟨hdb, hclaims⟩ := Prod.mk.inj hends
  have hreach : ((outbox Sample.sha256 Sample.once).only (LastWritten Sample.once)).Reachable w :=
    ⟨_, _, Sample.started Sample.sha256 Sample.once, .only_of_foldlM hw⟩
  exact ⟨w, hdb, hclaims, (attempts_bounded hreach).1⟩

end CodeMate.Audit
