import CodeMate.Framework.Window
import CodeMate.Quota.Reserve

/-!
# The rows of the quota tables

`Rows` holds in every state that is reached: the keys of events and charges
are unique, a charge is one call and is made at the time it is written, and no
client has read a time after the clock; `Dated` that everything was charged to
policies there are, after their last resets. From them follow what the queries of
`_policy_usage` count (`base_fst`, `minuteCalls_eq`, …), and what `decision` has
checked when it lets a request through (`decision_ok`, `checkPolicy_new`,
`checkPolicy_concurrent`).
-/

namespace CodeMate.Quota

open Framework.Window

/-! ## The decision -/

section Admit

variable {db : Tables} {a : Arithmetic} {default : ℚ} {policies : List MCPQuotaPolicy} {r : Request} {now : Int}
  {costUnits : ℚ} {existing : Option MCPQuotaEvent}

theorem decision_ok (h : db.decision a default policies r now = .ok (costUnits, existing)) :
    existing = db.events.find? (·.idempotencyKey == r.idempotencyKey) ∧ costUnits = maxCost default policies ∧
      ∀ p ∈ policies, db.checkPolicy a r now costUnits existing p = none := by
  unfold Tables.decision at h
  dsimp only at h
  split at h
  · cases h
  · split at h
    · cases h
    · split at h
      · cases h
      · next hnone =>
        obtain ⟨rfl, rfl⟩ := Prod.mk.inj (Except.ok.inj h)
        exact ⟨rfl, rfl, List.findSome?_eq_none_iff.mp hnone⟩

theorem maxCost_pos (hne : policies ≠ []) (h : ∀ p ∈ policies, 0 < p.callCostUnits) :
    0 < maxCost default policies := by
  have hfold : ∀ (rest : List MCPQuotaPolicy) (cost : ℚ), 0 < cost →
      0 < rest.foldl (fun cost p => max cost p.callCostUnits) cost := by
    intro rest
    induction rest with
    | nil => exact fun cost hc => hc
    | cons p rest ih => exact fun cost hc => ih _ (lt_max_of_lt_left hc)
  cases policies with
  | nil => exact absurd rfl hne
  | cons p rest => exact hfold rest _ (h p List.mem_cons_self)

theorem exceeds_false {limit : Option ℚ} {proposed : ℚ} (h : exceeds limit proposed = false) {n : ℚ}
    (hn : limit = some n) : proposed ≤ n := by
  rw [hn] at h
  exact not_lt.mp (of_decide_eq_false h)

/-- A policy that lets a new event through has room for it. -/
theorem checkPolicy_new {p : MCPQuotaPolicy} (h : db.checkPolicy a r now costUnits none p = none) :
    let limits := p.effectiveLimits now
    let usage := db.policyUsage a p now r.context.runId none
    (∀ n, limits.rateLimitPerMinute = some n → usage.minuteCalls + 1 ≤ n) ∧
    (∀ n, limits.dailyCallLimit = some n → usage.dailyCalls + 1 ≤ n) ∧
    ∀ n, limits.dailyCostLimit = some n → a.add usage.dailyCost costUnits ≤ n := by
  unfold Tables.checkPolicy at h
  dsimp only at h ⊢
  split at h
  · cases h
  · split at h
    · cases h
    · split at h
      · cases h
      · next hfind =>
        have hall := List.find?_eq_none.mp hfind
        have hrate := hall _ List.mem_cons_self
        have hcalls := hall _ (List.mem_cons_of_mem _ List.mem_cons_self)
        have hcost := hall _ (List.mem_cons_of_mem _ (List.mem_cons_of_mem _ List.mem_cons_self))
        simp only [Bool.not_eq_true] at hrate hcalls hcost
        refine ⟨fun n hn => ?_, fun n hn => ?_, fun n hn => exceeds_false hcost hn⟩
        · rw [hn, Option.map_some] at hrate
          exact_mod_cast exceeds_false hrate rfl
        · rw [hn, Option.map_some] at hcalls
          exact_mod_cast exceeds_false hcalls rfl

/-- A policy that lets an event through has room for its lease. -/
theorem checkPolicy_concurrent {p : MCPQuotaPolicy} (h : db.checkPolicy a r now costUnits existing p = none)
    {n : Nat} (hn : (p.effectiveLimits now).concurrentLimit = some n) :
    (db.activeEvents p now (existing.map (·.id))).length + 1 ≤ n := by
  unfold Tables.checkPolicy at h
  dsimp only at h
  split at h
  · cases h
  · split at h
    · cases h
    · split at h
      · cases h
      · split at h
        · cases h
        · next hexceeds =>
          rw [hn, Option.map_some] at hexceeds
          exact_mod_cast exceeds_false (Bool.not_eq_true _ ▸ hexceeds) rfl

end Admit

/-! ## Usage -/

section Usage

variable {db : Tables} {p : MCPQuotaPolicy} {now : Int}

theorem Tables.event_some {id : String} {e : MCPQuotaEvent} (h : db.event id = some e) :
    e ∈ db.events ∧ e.id = id := by
  have hid : (e.id == id) = true := List.find?_some (p := fun e : MCPQuotaEvent => e.id == id) h
  exact ⟨List.mem_of_find?_eq_some h, beq_iff_eq.mp hid⟩

theorem Tables.event_of_mem (hids : (db.events.map MCPQuotaEvent.id).Nodup) {e : MCPQuotaEvent} (he : e ∈ db.events) :
    db.event e.id = some e := by
  have hsome : (db.event e.id).isSome := by
    unfold Tables.event
    rw [List.find?_isSome]
    exact ⟨e, he, beq_iff_eq.mpr rfl⟩
  obtain ⟨e', he'⟩ := Option.isSome_iff_exists.mp hsome
  obtain ⟨hmem, hid⟩ := Tables.event_some he'
  rw [he', List.inj_on_of_nodup_map hids hmem he hid]

/-- The charges of the policy `id`. -/
def chargesOf (charges : List MCPQuotaCharge) (id : String) : List MCPQuotaCharge :=
  charges.filter fun c => c.policyId = id

/-- Every charge is of an event, is one call, and was made after the last reset of `p`. -/
structure Tables.Countable (db : Tables) (p : MCPQuotaPolicy) : Prop where
  joined : ∀ c ∈ db.charges, ∃ e, db.event c.eventId = some e
  calls : ∀ c ∈ db.charges, c.calls = 1
  reset : ∀ reset, p.resetAt = some reset → ∀ c ∈ db.charges, reset ≤ c.createdAt

namespace Tables.Countable

variable (h : db.Countable p)
include h

theorem base_fst : (db.base p).map Prod.fst = chargesOf db.charges p.id := by
  obtain ⟨hjoined, -, hreset⟩ := h
  unfold Tables.base chargesOf
  generalize db.charges = charges at hjoined hreset
  induction charges with
  | nil => rfl
  | cons c charges ih =>
    have ih := ih (fun c hc => hjoined c (List.mem_cons_of_mem _ hc))
      fun reset hr c hc => hreset reset hr c (List.mem_cons_of_mem _ hc)
    obtain ⟨e, he⟩ := hjoined c List.mem_cons_self
    by_cases hc : c.policyId = p.id
    · have hrow : db.baseRow p c = some (c, e) := by
        rw [Tables.baseRow, if_pos ⟨hc, fun reset hr => hreset reset hr c List.mem_cons_self⟩, he, Option.map_some]
      rw [List.filterMap_cons_some hrow, List.filter_cons, if_pos (decide_eq_true hc), List.map_cons, ih]
    · have hrow : db.baseRow p c = none := if_neg fun hcond => hc hcond.1
      rw [List.filterMap_cons_none hrow, List.filter_cons, if_neg (by simpa using hc), ih]

theorem base_filter (q : MCPQuotaCharge → Bool) :
    ((db.base p).filter fun row => q row.1).map Prod.fst = (chargesOf db.charges p.id).filter q := by
  rw [← h.base_fst, List.filter_map]
  rfl

theorem sumCalls_filter (q : MCPQuotaCharge → Bool) :
    sumCalls ((db.base p).filter fun row => q row.1) = total (fun _ => 1) q (chargesOf db.charges p.id) := by
  have hcalls : ((chargesOf db.charges p.id).filter q).map MCPQuotaCharge.calls =
      ((chargesOf db.charges p.id).filter q).map fun _ => 1 :=
    List.map_congr_left fun c hc => h.calls c (List.mem_of_mem_filter (List.mem_of_mem_filter hc))
  rw [total, ← hcalls, ← h.base_filter q, List.map_map]
  rfl

/-- A cut at a reset that is before all charges does not show. -/
theorem cut (cutoff : Int) (c : MCPQuotaCharge) (hc : c ∈ chargesOf db.charges p.id) :
    decide (maxDatetime cutoff p.resetAt ≤ c.createdAt) = decide (cutoff ≤ c.createdAt) := by
  unfold maxDatetime
  cases hr : p.resetAt with
  | none => rfl
  | some reset =>
    have hreset := h.reset reset hr c (List.mem_of_mem_filter hc)
    simp [hreset]

theorem minuteCalls_eq {a : Arithmetic} {runId exclude : Option String} :
    (db.policyUsage a p now runId exclude).minuteCalls =
      total (fun _ => 1) (fun c => now - minute ≤ c.createdAt) (chargesOf db.charges p.id) := by
  refine (h.sumCalls_filter fun c => maxDatetime (now - minute) p.resetAt ≤ c.createdAt).trans ?_
  exact total_congr (h.cut _)

theorem dailyCalls_eq {a : Arithmetic} {runId exclude : Option String} :
    (db.policyUsage a p now runId exclude).dailyCalls =
      total (fun _ => 1) (fun c => midnight now ≤ c.createdAt) (chargesOf db.charges p.id) := by
  refine (h.sumCalls_filter fun c => maxDatetime (midnight now) p.resetAt ≤ c.createdAt).trans ?_
  exact total_congr (h.cut _)

theorem dailyCost_eq {a : Arithmetic} (ha : a.Exact) {runId exclude : Option String} :
    (db.policyUsage a p now runId exclude).dailyCost =
      total MCPQuotaCharge.costUnits (fun c => midnight now ≤ c.createdAt) (chargesOf db.charges p.id) := by
  have hbase := h.base_filter fun c => maxDatetime (midnight now) p.resetAt ≤ c.createdAt
  have hcut : (chargesOf db.charges p.id).filter (fun c => decide (maxDatetime (midnight now) p.resetAt ≤ c.createdAt)) =
      (chargesOf db.charges p.id).filter fun c => decide (midnight now ≤ c.createdAt) := List.filter_congr (h.cut _)
  rw [hcut] at hbase
  rw [total, ← hbase, List.map_map]
  exact ha.sum _

end Tables.Countable

end Usage

/-! ## Every state that is reached -/

/-- What a client remembers is sound: the clock it has read, and a cost to charge. -/
def Phase.Ok (clock : Int) : Phase → Prop
  | .idle => True
  | .started _ now => now ≤ clock
  | .waiting _ now _ => now ≤ clock
  | .locked _ now _ => now ≤ clock
  | .admitted _ now _ costUnits _ => now ≤ clock ∧ 0 < costUnits
  | .releasing _ _ => True

theorem Phase.Ok.mono {phase : Phase} {clock clock' : Int} (h : phase.Ok clock) (hle : clock ≤ clock') :
    phase.Ok clock' := by
  cases phase with
  | idle => trivial
  | started => exact le_trans h hle
  | waiting => exact le_trans h hle
  | locked => exact le_trans h hle
  | admitted => exact ⟨le_trans h.1 hle, h.2⟩
  | releasing => trivial

variable {ω : Type*}

/-- The rows of events and charges. -/
structure Rows (w : World ω) : Prop where
  ids : (w.db.events.map MCPQuotaEvent.id).Nodup
  keys : (w.db.events.map MCPQuotaEvent.idempotencyKey).Nodup
  joined : ∀ c ∈ w.db.charges, c.eventId ∈ w.db.events.map MCPQuotaEvent.id
  calls : ∀ c ∈ w.db.charges, c.calls = 1
  cost : ∀ c ∈ w.db.charges, 0 < c.costUnits
  /-- An event is charged once to a policy. -/
  once : w.db.charges.Pairwise fun c c' => c.policyId = c'.policyId → c.eventId ≠ c'.eventId
  sorted : w.db.charges.Pairwise fun c c' => c'.createdAt ≤ c.createdAt
  times : ∀ c ∈ w.db.charges, c.createdAt ≤ w.clock
  policies : ∀ p ∈ w.db.policies, 0 < p.callCostUnits
  phases : ∀ k, (w.phase k).Ok w.clock

namespace Rows

theorem exists_event {w : World ω} (h : Rows w) {c : MCPQuotaCharge} (hc : c ∈ w.db.charges) :
    ∃ e, w.db.event c.eventId = some e := by
  obtain ⟨e, he, hid⟩ := List.mem_map.mp (h.joined c hc)
  have hsome : (w.db.event c.eventId).isSome := by
    unfold Tables.event
    rw [List.find?_isSome]
    exact ⟨e, he, beq_iff_eq.mpr hid⟩
  exact Option.isSome_iff_exists.mp hsome

variable [DecidableEq ω] {s : Settings} {w t : World ω}

theorem setPhase (h : Rows w) {k : ω} {phase : Phase} (hk : phase.Ok w.clock) : Rows (w.set k phase) :=
  { h with phases := w.set_all k phase (P := fun _ phase => phase.Ok w.clock) hk h.phases }

theorem unlock (h : Rows w) (k : ω) : Rows (w.unlock k) := { h with }

theorem finish (h : Rows w) (k : ω) {phase : Phase} (hk : phase.Ok w.clock) : Rows ((w.set k phase).unlock k) :=
  (h.setPhase hk).unlock k

omit [DecidableEq ω] in
/-- Updates of an event keep its id and its key. -/
theorem setEvent (h : Rows w) {id : String} {f : MCPQuotaEvent → MCPQuotaEvent} (hid : ∀ e, (f e).id = e.id)
    (hkey : ∀ e, (f e).idempotencyKey = e.idempotencyKey) : Rows (w.setEvent id f) := by
  have hids : (w.setEvent id f).db.events.map MCPQuotaEvent.id = w.db.events.map MCPQuotaEvent.id := by
    show (w.db.events.map _).map _ = _
    rw [List.map_map]
    refine List.map_congr_left fun e _ => ?_
    show MCPQuotaEvent.id (if e.id = id then f e else e) = e.id
    split
    · exact hid e
    · rfl
  have hkeys : (w.setEvent id f).db.events.map MCPQuotaEvent.idempotencyKey =
      w.db.events.map MCPQuotaEvent.idempotencyKey := by
    show (w.db.events.map _).map _ = _
    rw [List.map_map]
    refine List.map_congr_left fun e _ => ?_
    show MCPQuotaEvent.idempotencyKey (if e.id = id then f e else e) = e.idempotencyKey
    split
    · exact hkey e
    · rfl
  exact ⟨by rw [hids]; exact h.ids, by rw [hkeys]; exact h.keys, by rw [hids]; exact h.joined, h.calls, h.cost,
    h.once, h.sorted, h.times, h.policies, h.phases⟩

omit [DecidableEq ω] in
/-- The charges of a new event. -/
theorem charge (h : Rows w) {r : Request} {now : Int} {policies : List MCPQuotaPolicy} {costUnits : ℚ}
    {id token : String} {checked : String → List String}
    (hnodup : (policies.map MCPQuotaPolicy.id).Nodup) (hcost : 0 < costUnits)
    (hkey : ∀ e ∈ w.db.events, e.idempotencyKey ≠ r.idempotencyKey) (hid : ∀ e ∈ w.db.events, e.id ≠ id) :
    Rows { w with
      db := { w.db with
        events := newEvent s w r now costUnits id token :: w.db.events
        charges := newCharges w policies costUnits id ++ w.db.charges }
      checked := checked } := by
  have hnew : ∀ c ∈ newCharges w policies costUnits id,
      c.eventId = id ∧ c.calls = 1 ∧ 0 < c.costUnits ∧ c.createdAt = w.clock := by
    intro c hc
    obtain ⟨p, -, rfl⟩ := List.mem_map.mp hc
    exact ⟨rfl, rfl, hcost, rfl⟩
  have hold : ∀ c ∈ w.db.charges, c.eventId ≠ id := by
    intro c hc heq
    obtain ⟨e, he, hid'⟩ := List.mem_map.mp (h.joined c hc)
    exact hid e he (hid'.trans heq)
  refine ⟨List.nodup_cons.mpr ⟨fun hmem => ?_, h.ids⟩, List.nodup_cons.mpr ⟨fun hmem => ?_, h.keys⟩,
    fun c hc => ?_, fun c hc => ?_, fun c hc => ?_,
    List.pairwise_append.mpr ⟨?_, h.once, fun c hc c' hc' _ => ?_⟩,
    List.pairwise_append.mpr ⟨?_, h.sorted, fun c hc c' hc' => ?_⟩, fun c hc => ?_, h.policies, h.phases⟩
  · obtain ⟨e, he, heq⟩ := List.mem_map.mp hmem
    exact hid e he heq
  · obtain ⟨e, he, heq⟩ := List.mem_map.mp hmem
    exact hkey e he heq
  · rcases List.mem_append.mp hc with hc | hc
    · rw [(hnew c hc).1]; exact List.mem_cons_self
    · exact List.mem_cons_of_mem _ (h.joined c hc)
  · rcases List.mem_append.mp hc with hc | hc
    · exact (hnew c hc).2.1
    · exact h.calls c hc
  · rcases List.mem_append.mp hc with hc | hc
    · exact (hnew c hc).2.2.1
    · exact h.cost c hc
  · refine List.Pairwise.map _ (R := fun p q : MCPQuotaPolicy => p.id ≠ q.id) (fun p q hne heq => absurd heq hne) ?_
    exact List.pairwise_map.mp hnodup
  · rw [(hnew c hc).1]
    exact (hold c' hc').symm
  · exact List.pairwise_of_forall_mem_list fun c hc c' hc' => by rw [(hnew c hc).2.2.2, (hnew c' hc').2.2.2]
  · rw [(hnew c hc).2.2.2]
    exact h.times c' hc'
  · rcases List.mem_append.mp hc with hc | hc
    · rw [(hnew c hc).2.2.2]
    · exact h.times c hc

theorem step (h : Rows w) (hl : Locked w) {e : Event ω} (hm : Moves s w e t) : Rows t := by
  cases hm with
  | tick hle =>
    exact { h with
      times := fun c hc => (h.times c hc).trans hle
      phases := fun k => (h.phases k).mono hle }
  | stay => exact h
  | begun => exact h.setPhase (le_refl w.clock)
  | @queried k r now candidates hk => have hok := h.phases k; rw [hk] at hok; exact h.setPhase hok
  | @locked k r now candidates role hk =>
    have hok := h.phases k
    rw [hk] at hok
    refine Rows.setPhase ?_ hok
    exact { h with }
  | @admitted k r now policies costUnits existing hk hne hdecision =>
    have hok := h.phases k
    rw [hk] at hok
    obtain ⟨-, rfl, -⟩ := decision_ok hdecision
    refine h.setPhase ⟨hok, maxCost_pos hne fun p hp => h.policies p (hl.mem (k := k) ?_)⟩
    rw [hk]
    exact hp
  | refused => exact h.setPhase trivial
  | rejected => refine h.finish _ ?_; trivial
  | @renewed k r now policies costUnits eventId id token hk =>
    refine Rows.finish ?_ _ trivial
    have hset : Rows (w.setEvent eventId fun e =>
        { e with status := "reserved", leaseToken := some token, leaseExpiresAt := some (now + s.lease) }) :=
      h.setEvent (fun _ => rfl) fun _ => rfl
    exact { hset with }
  | retried => refine h.finish _ ?_; exact le_refl w.clock
  | @charged k r now policies costUnits id token hk hkey hid =>
    have hok := h.phases k
    rw [hk] at hok
    refine Rows.finish ?_ _ trivial
    refine h.charge ?_ hok.2 hkey hid
    have hnodup := hl.nodup k
    rw [hk] at hnodup
    exact hnodup
  | fetched => exact h.setPhase trivial
  | cleared =>
    refine Rows.finish ?_ _ trivial
    exact h.setEvent (fun _ => rfl) fun _ => rfl
  | left => refine h.finish _ ?_; trivial
  | @created p _ hnormal =>
    refine { h with policies := fun q hq => ?_ }
    rcases List.mem_cons.mp hq with rfl | hq
    · simp only [normalized, Bool.and_eq_true, decide_eq_true_eq] at hnormal
      exact hnormal.1.1.1.1.1.1
    · exact h.policies q hq
  | @updated id limits callCostUnits enabled frozen _ hnormal =>
    refine { h with policies := fun q hq => ?_ }
    obtain ⟨p, hp, rfl⟩ := List.mem_map.mp hq
    split
    · simp only [normalized, Bool.and_eq_true, decide_eq_true_eq] at hnormal
      exact hnormal.1.1.1.1.1.1
    · exact h.policies p hp

end Rows

/-- Everything was charged since `t₀`, to policies there are, after their last resets. -/
structure Dated (t₀ : Int) (w : World ω) : Prop where
  clock : t₀ ≤ w.clock
  first : ∀ c ∈ w.db.charges, t₀ ≤ c.createdAt
  known : ∀ c ∈ w.db.charges, c.policyId ∈ w.db.policies.map MCPQuotaPolicy.id
  resets : ∀ p ∈ w.db.policies, ∀ reset, p.resetAt = some reset → reset ≤ t₀

namespace Dated

variable {t₀ : Int}

theorem countable {w : World ω} (h : Dated t₀ w) (hr : Rows w) {p : MCPQuotaPolicy} (hp : p ∈ w.db.policies) :
    w.db.Countable p where
  joined _ hc := hr.exists_event hc
  calls := hr.calls
  reset reset hreset c hc := (h.resets p hp reset hreset).trans (h.first c hc)

theorem step [DecidableEq ω] {s : Settings} {w t : World ω} (h : Dated t₀ w) (hl : Locked w) {e : Event ω}
    (hm : Moves s w e t) : Dated t₀ t := by
  cases hm with
  | tick hle => exact { h with clock := h.clock.trans hle }
  | stay | begun | queried | locked | admitted | refused | rejected | renewed | retried | fetched | cleared | left =>
    exact { h with }
  | @charged k r now policies costUnits id token hk =>
    have hmem : ∀ p ∈ policies, p ∈ w.db.policies := fun p hp => hl.mem (k := k) (by rw [hk]; exact hp)
    refine { h with first := fun c hc => ?_, known := fun c hc => ?_ }
    · rcases List.mem_append.mp hc with hc | hc
      · obtain ⟨p, -, rfl⟩ := List.mem_map.mp hc
        exact h.clock
      · exact h.first c hc
    · rcases List.mem_append.mp hc with hc | hc
      · obtain ⟨p, hp, rfl⟩ := List.mem_map.mp hc
        exact List.mem_map_of_mem (hmem p hp)
      · exact h.known c hc
  | created =>
    exact { h with
      known := fun c hc => List.mem_cons_of_mem _ (h.known c hc)
      resets := List.forall_mem_cons.mpr ⟨(fun _ hreset => by cases hreset), h.resets⟩ }
  | @updated id limits callCostUnits enabled frozen =>
    refine { h with known := fun c hc => ?_, resets := fun q hq reset hreset => ?_ }
    · obtain ⟨p, hp, hid⟩ := List.mem_map.mp (h.known c hc)
      refine List.mem_map.mpr ⟨_, List.mem_map_of_mem hp, ?_⟩
      rw [← hid]
      split <;> rfl
    · obtain ⟨p, hp, rfl⟩ := List.mem_map.mp hq
      refine h.resets p hp reset ?_
      rw [← hreset]
      split <;> rfl

end Dated

end CodeMate.Quota
