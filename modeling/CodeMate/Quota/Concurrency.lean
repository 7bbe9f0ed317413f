import CodeMate.Quota.Limits
import Mathlib.Data.List.Dedup

/-!
# The concurrent limit

`holders` are the events that have a live lease and were last checked against a
policy. A check counts the events that are charged to the policy, but an event
is charged once, when it is new: reserved again under a policy that has come
since, it is checked against that policy and never charged to it. In runs
without such renewals (`ChargedRenewal`) there are never more holders than the
limit, if it was not lowered (`concurrent_limit`); with one there can be
(`concurrent_limit_exceeded`).
-/

namespace CodeMate.Quota

open Framework

/-! ## The limit over time -/

def MCPQuotaPolicy.concurrentLimitAt (p : MCPQuotaPolicy) (now : Int) : Option Nat :=
  (p.effectiveLimits now).concurrentLimit

/-- The limit is not below the old one, and there was one before if there is one now. -/
def Raised (old new : Option Nat) : Prop := ∀ n, new = some n → ∃ m, old = some m ∧ m ≤ n

theorem Raised.refl (limit : Option Nat) : Raised limit limit := fun n hn => ⟨n, hn, le_rfl⟩

theorem Raised.trans {a b c : Option Nat} (h₁ : Raised a b) (h₂ : Raised b c) : Raised a c := by
  intro n hn
  obtain ⟨m, hm, hle⟩ := h₂ n hn
  obtain ⟨l, hl, hle'⟩ := h₁ m hm
  exact ⟨l, hl, hle'.trans hle⟩

instance (old new : Option Nat) : Decidable (Raised old new) :=
  match new with
  | none => isTrue fun _ h => by cases h
  | some n =>
    match old with
    | none => isFalse fun h => by obtain ⟨_, h, _⟩ := h n rfl; cases h
    | some m =>
      if hle : m ≤ n then isTrue fun k hk => ⟨m, rfl, hle.trans (Option.some.inj hk).le⟩
      else isFalse fun h => by
        obtain ⟨_, hm, h⟩ := h n rfl
        exact hle ((Option.some.inj hm).trans_le h)

/-- The row of a policy after an update. -/
def MCPQuotaPolicy.updated (p : MCPQuotaPolicy) (limits : Limits) (callCostUnits : ℚ) (enabled frozen : Bool) :
    MCPQuotaPolicy :=
  { p with limits := limits, callCostUnits := callCostUnits, enabled := enabled, frozen := frozen }

/-- A new limit shows at an earlier time as it does now, or not at all: the
override that hides it at the earlier time may have run out. -/
theorem MCPQuotaPolicy.updated_earlier (p : MCPQuotaPolicy) (limits : Limits) (callCostUnits : ℚ)
    (enabled frozen : Bool) {now clock : Int} (hle : now ≤ clock) :
    let p' := p.updated limits callCostUnits enabled frozen
    p'.concurrentLimitAt now = p'.concurrentLimitAt clock ∨
      p'.concurrentLimitAt now = p.concurrentLimitAt now := by
  dsimp only [updated, concurrentLimitAt, effectiveLimits]
  cases p.temporaryOverrideExpiresAt with
  | none => exact .inl rfl
  | some expires =>
    cases p.temporaryOverride with
    | none => exact .inl rfl
    | some o =>
      dsimp only [Override.apply]
      by_cases hclock : clock < expires
      · rw [if_pos hclock, if_pos (hle.trans_lt hclock)]
        exact .inl rfl
      · by_cases hnow : now < expires
        · rw [if_pos hnow, if_neg hclock, if_pos hnow]
          cases o.concurrentLimit with
          | none => exact .inl rfl
          | some limit => exact .inr rfl
        · rw [if_neg hnow, if_neg hclock]
          exact .inl rfl

/-! ## Holders -/

section

variable {ω : Type*}

/-- The events that have a live lease and were last checked against the policy `pid`. -/
def holders (w : World ω) (pid : String) : List String :=
  (w.db.events.filter fun e => e.Live w.clock ∧ pid ∈ w.checked e.id).map MCPQuotaEvent.id

theorem mem_holders {w : World ω} {pid id : String} : id ∈ holders w pid ↔
    ∃ e ∈ w.db.events, e.Live w.clock ∧ pid ∈ w.checked id ∧ e.id = id := by
  unfold holders
  rw [List.mem_map]
  constructor
  · rintro ⟨e, he, rfl⟩
    obtain ⟨he, hlive⟩ := List.mem_filter.mp he
    obtain ⟨hlive, hchecked⟩ := of_decide_eq_true hlive
    exact ⟨e, he, hlive, hchecked, rfl⟩
  · rintro ⟨e, he, hlive, hchecked, rfl⟩
    exact ⟨e, List.mem_filter.mpr ⟨he, decide_eq_true ⟨hlive, hchecked⟩⟩, rfl⟩

theorem Rows.holders_nodup {w : World ω} (h : Rows w) (pid : String) : (holders w pid).Nodup :=
  h.ids.sublist (List.filter_sublist.map _)

theorem Rows.event_eq {w : World ω} (h : Rows w) {e : MCPQuotaEvent} (he : e ∈ w.db.events) :
    w.db.event e.id = some e := Tables.event_of_mem h.ids he

/-! ## Runs -/

/-- The step does not lower the concurrent limit of `pid`. -/
def NotLowered (pid : String) (w : World ω) : Event ω → Prop
  | .tick now => ∀ p ∈ w.db.policies, p.id = pid → Raised (p.concurrentLimitAt w.clock) (p.concurrentLimitAt now)
  | .update id limits callCostUnits enabled frozen => ∀ p ∈ w.db.policies, p.id = pid → p.id = id →
    Raised (p.concurrentLimitAt w.clock)
      ((p.updated limits callCostUnits enabled frozen).concurrentLimitAt w.clock)
  | _ => True

instance (pid : String) (w : World ω) : DecidablePred (NotLowered pid w)
  | .tick now => inferInstanceAs (Decidable (∀ p ∈ w.db.policies, p.id = pid →
    Raised (p.concurrentLimitAt w.clock) (p.concurrentLimitAt now)))
  | .update id limits callCostUnits enabled frozen => inferInstanceAs (Decidable (∀ p ∈ w.db.policies, p.id = pid →
    p.id = id → Raised (p.concurrentLimitAt w.clock)
      ((p.updated limits callCostUnits enabled frozen).concurrentLimitAt w.clock)))
  | .begin .. | .query _ | .lock .. | .decide _ | .write .. | .fetch .. | .clear _ | .leave _
  | .create _ => isTrue trivial

/-- The event that the phase renews was charged to `pid`, if `pid` is among its policies. -/
def Phase.ChargedRenewal (pid : String) (charges : List MCPQuotaCharge) : Phase → Prop
  | .admitted _ _ policies _ (some eventId) => pid ∈ policies.map MCPQuotaPolicy.id →
    ∃ c ∈ charges, c.eventId = eventId ∧ c.policyId = pid
  | _ => True

/-- The step does not renew an event under `pid` that was never charged to it. -/
def ChargedRenewal (pid : String) (w : World ω) : Event ω → Prop
  | .write k _ _ => (w.phase k).ChargedRenewal pid w.db.charges
  | _ => True

/-- A client that is about to write found a place free under `pid`. -/
def Phase.HasPlace (pid : String) (holders : List String) : Phase → Prop
  | .admitted _ now policies _ existing => ∀ p ∈ policies, p.id = pid → ∀ n, p.concurrentLimitAt now = some n →
    (holders.filter fun id => some id ≠ existing).length + 1 ≤ n
  | _ => True

theorem Phase.Ok.now_le {phase : Phase} {clock now : Int} (h : phase.Ok clock) (hnow : phase.now = some now) :
    now ≤ clock := by
  cases phase with
  | started | waiting | locked =>
    obtain rfl := Option.some.inj hnow
    exact h
  | admitted =>
    obtain rfl := Option.some.inj hnow
    exact h.1
  | _ => cases hnow

theorem Phase.HasPlace.mono {pid : String} {ids ids' : List String} {phase : Phase} (h : phase.HasPlace pid ids)
    (hn : ids'.Nodup) (hsub : ids' ⊆ ids) : phase.HasPlace pid ids' := by
  cases phase with
  | admitted r now policies costUnits existing =>
    intro p hp hid n hlimit
    have hplace := h p hp hid n hlimit
    refine le_trans (Nat.add_le_add_right ((hn.filter _).length_le_of_subset fun id hmem => ?_) 1) hplace
    obtain ⟨hmem, hne⟩ := List.mem_filter.mp hmem
    exact List.mem_filter.mpr ⟨hsub hmem, hne⟩
  | _ => trivial

theorem Phase.HasPlace.of_not {pid : String} {ids : List String} {phase : Phase}
    (h : ∀ p ∈ phase.policies, p.id ≠ pid) : phase.HasPlace pid ids := by
  cases phase with
  | admitted => exact fun p hp hid => absurd hid (h p hp)
  | _ => trivial

/-- The holders of `pid` are charged to it and within its limit, and clients
that are about to write have a place. -/
structure Counted (pid : String) (w : World ω) : Prop where
  charged : ∀ e ∈ w.db.events, pid ∈ w.checked e.id → ∃ c ∈ w.db.charges, c.eventId = e.id ∧ c.policyId = pid
  bound : ∀ p ∈ w.db.policies, p.id = pid → ∀ n, p.concurrentLimitAt w.clock = some n →
    (holders w pid).length ≤ n
  readings : ∀ k, ∀ now, (w.phase k).now = some now → ∀ p ∈ w.db.policies, p.id = pid →
    Raised (p.concurrentLimitAt now) (p.concurrentLimitAt w.clock)
  place : ∀ k, (w.phase k).HasPlace pid (holders w pid)

namespace Counted

variable {pid : String} {w t : World ω}

/-- The check counts the holders that are not renewed. -/
theorem place_of_decision (h : Counted pid w) {t₀ : Int} (hr : Rows w) (hd : Dated t₀ w) {a : Arithmetic} {default : ℚ}
    {policies : List MCPQuotaPolicy} {r : Request} {now : Int} {costUnits : ℚ} {existing : Option MCPQuotaEvent}
    (hnow : now ≤ w.clock) (hsub : policies ⊆ w.db.policies)
    (hdecision : w.db.decision a default policies r now = .ok (costUnits, existing)) :
    (Phase.admitted r now policies costUnits (existing.map (·.id))).HasPlace pid (holders w pid) := by
  obtain ⟨-, -, hcheck⟩ := decision_ok hdecision
  intro p hp hid n hn
  refine le_trans (Nat.add_le_add_right ?_ 1) (checkPolicy_concurrent (hcheck p hp) hn)
  rw [← List.length_map MCPQuotaEvent.id]
  refine ((hr.holders_nodup pid).filter _).length_le_of_subset fun id hmem => ?_
  obtain ⟨hmem, hne⟩ := List.mem_filter.mp hmem
  obtain ⟨e, he, ⟨expires, hlease, hlive⟩, hchecked, rfl⟩ := mem_holders.mp hmem
  obtain ⟨c, hc, hevent, hpolicy⟩ := h.charged e he hchecked
  have hcount := hd.countable hr (hsub hp)
  have hrow : w.db.baseRow p c = some (c, e) := by
    rw [Tables.baseRow, if_pos ⟨hpolicy.trans hid.symm, fun reset hreset => hcount.reset reset hreset c hc⟩, hevent,
      hr.event_eq he, Option.map_some]
  refine List.mem_map_of_mem (List.mem_dedup.mpr (List.mem_filter.mpr ⟨?_, ?_⟩))
  · exact List.mem_map_of_mem (f := Prod.snd) (List.mem_filterMap.mpr ⟨c, hc, hrow⟩)
  · exact decide_eq_true ⟨⟨expires, hlease, hnow.trans_lt hlive⟩, of_decide_eq_true hne⟩

/-- A step that leaves the policies and the phases, and adds no holder. -/
theorem fewer (h : Counted pid w) (hr : Rows t) (hpolicies : t.db.policies = w.db.policies)
    (hclock : t.clock = w.clock) (hphase : t.phase = w.phase)
    (hcharged : ∀ e ∈ t.db.events, pid ∈ t.checked e.id → ∃ c ∈ t.db.charges, c.eventId = e.id ∧ c.policyId = pid)
    (hsub : holders t pid ⊆ holders w pid) : Counted pid t where
  charged := hcharged
  bound p hp hid n hn := by
    rw [hpolicies] at hp
    rw [hclock] at hn
    exact ((hr.holders_nodup pid).length_le_of_subset hsub).trans (h.bound p hp hid n hn)
  readings := by rw [hpolicies, hclock, hphase]; exact h.readings
  place := by rw [hphase]; exact fun k => (h.place k).mono (hr.holders_nodup pid) hsub

/-- The write of `k`: it may add one holder, `eventId`, if it was checked against `pid`. -/
theorem write [DecidableEq ω] (eventId : String) (h : Counted pid w) (hl : Locked w) (hr : Rows t) {k : ω} {r : Request} {now : Int}
    {policies : List MCPQuotaPolicy} {costUnits : ℚ} {existing : Option String}
    (hk : w.phase k = .admitted r now policies costUnits existing) (hpolicies : t.db.policies = w.db.policies)
    (hclock : t.clock = w.clock) (hphase : t.phase = Function.update w.phase k .idle)
    (hcharged : ∀ e ∈ t.db.events, pid ∈ t.checked e.id → ∃ c ∈ t.db.charges, c.eventId = e.id ∧ c.policyId = pid)
    (hsub : ∀ id ∈ holders t pid,
      id ∈ holders w pid ∧ some id ≠ existing ∨ id = eventId ∧ pid ∈ policies.map MCPQuotaPolicy.id) :
    Counted pid t := by
  have hidle : Counted pid (w.set k .idle) :=
    ⟨h.charged, h.bound, w.set_all k .idle (P := fun _ phase => ∀ now, phase.now = some now →
      ∀ p ∈ w.db.policies, p.id = pid → Raised (p.concurrentLimitAt now) (p.concurrentLimitAt w.clock))
      (fun _ hnow => by cases hnow) h.readings,
      w.set_all k .idle (P := fun _ phase => phase.HasPlace pid (holders w pid)) trivial h.place⟩
  by_cases hin : pid ∈ policies.map MCPQuotaPolicy.id
  · obtain ⟨p, hp, rfl⟩ := List.mem_map.mp hin
    have hpk : p ∈ (w.phase k).policies := by rw [hk]; exact hp
    have hplace := h.place k
    rw [hk] at hplace
    refine ⟨hcharged, fun q hq hid n hn => ?_, ?_, fun j => ?_⟩
    · -- the new holder takes the place that was found
      rw [hpolicies] at hq
      rw [hclock] at hn
      obtain rfl := hl.eq_of_id hq (hl.mem hpk) hid
      obtain ⟨m, hm, hle⟩ := h.readings k now (by rw [hk]; rfl) q hq rfl n hn
      refine le_trans ?_ ((hplace q hp rfl m hm).trans hle)
      rw [← List.length_cons (a := eventId)]
      refine (hr.holders_nodup q.id).length_le_of_subset fun id hmem => ?_
      rcases hsub id hmem with ⟨hold, hne⟩ | ⟨rfl, -⟩
      · exact List.mem_cons_of_mem _ (List.mem_filter.mpr ⟨hold, decide_eq_true hne⟩)
      · exact List.mem_cons_self
    · rw [hpolicies, hclock, hphase]
      exact hidle.readings
    · rw [hphase]
      by_cases hj : j = k
      · rw [hj, Function.update_self]
        trivial
      · rw [Function.update_of_ne hj]
        exact .of_not fun q hq heq => hj (hl.apart hq hpk heq)
  · refine hidle.fewer hr hpolicies hclock hphase hcharged fun id hmem => ?_
    rcases hsub id hmem with ⟨hold, -⟩ | ⟨-, hin'⟩
    · exact hold
    · exact absurd hin' hin

variable [DecidableEq ω] {s : Settings}

theorem setPhase (h : Counted pid w) {k : ω} {phase : Phase} (hnow : ∀ now, phase.now = some now →
    ∀ p ∈ w.db.policies, p.id = pid → Raised (p.concurrentLimitAt now) (p.concurrentLimitAt w.clock))
    (hplace : phase.HasPlace pid (holders w pid)) : Counted pid (w.set k phase) where
  charged := h.charged
  bound := h.bound
  readings := w.set_all k phase (P := fun _ phase => ∀ now, phase.now = some now →
    ∀ p ∈ w.db.policies, p.id = pid → Raised (p.concurrentLimitAt now) (p.concurrentLimitAt w.clock)) hnow h.readings
  place := w.set_all k phase (P := fun _ phase => phase.HasPlace pid (holders w pid)) hplace h.place

theorem finish (h : Counted pid w) (k : ω) {phase : Phase} (hnow : ∀ now, phase.now = some now →
    ∀ p ∈ w.db.policies, p.id = pid → Raised (p.concurrentLimitAt now) (p.concurrentLimitAt w.clock))
    (hplace : phase.HasPlace pid (holders w pid)) : Counted pid ((w.set k phase).unlock k) :=
  { h.setPhase (k := k) hnow hplace with }

/-- An event is reserved again under policies that it was charged to. -/
theorem renew (h : Counted pid w) (hl : Locked w) {k : ω} {r : Request} {now : Int}
    {policies : List MCPQuotaPolicy} {costUnits : ℚ} {eventId : String}
    (hk : w.phase k = .admitted r now policies costUnits (some eventId))
    (hcharged : (w.phase k).ChargedRenewal pid w.db.charges) (hpolicies : t.db.policies = w.db.policies)
    (hclock : t.clock = w.clock) (hphase : t.phase = Function.update w.phase k .idle)
    {f : MCPQuotaEvent → MCPQuotaEvent}
    (hevents : t.db.events = (w.setEvent eventId f).db.events) (hcharges : t.db.charges = w.db.charges)
    (hchecked : t.checked = Function.update w.checked eventId (policies.map MCPQuotaPolicy.id))
    (hf : ∀ e, (f e).id = e.id) (hr : Rows t) : Counted pid t := by
  rw [hk] at hcharged
  have hid : ∀ e : MCPQuotaEvent, (if e.id = eventId then f e else e).id = e.id := by
    intro e
    split
    · exact hf e
    · rfl
  refine h.write eventId hl hr hk hpolicies hclock hphase (fun e' he' hin => ?_) fun id hmem => ?_
  · rw [hevents] at he'
    obtain ⟨e, he, rfl⟩ := List.mem_map.mp he'
    rw [hchecked, hid] at hin
    rw [hcharges, hid]
    by_cases heq : e.id = eventId
    · rw [heq, Function.update_self] at hin
      rw [heq]
      exact hcharged hin
    · rw [Function.update_of_ne heq] at hin
      exact h.charged e he hin
  · obtain ⟨e', he', hlive, hin, rfl⟩ := mem_holders.mp hmem
    rw [hevents] at he'
    obtain ⟨e, he, rfl⟩ := List.mem_map.mp he'
    rw [hchecked, hid] at hin
    rw [hclock] at hlive
    rw [hid]
    by_cases heq : e.id = eventId
    · rw [heq, Function.update_self] at hin
      exact .inr ⟨heq, hin⟩
    · rw [Function.update_of_ne heq] at hin
      rw [if_neg heq] at hlive
      exact .inl ⟨mem_holders.mpr ⟨e, he, hlive, hin, rfl⟩, fun hsome => heq (Option.some.inj hsome)⟩

/-- A new event is charged to all its policies. -/
theorem charge (h : Counted pid w) (hl : Locked w) {k : ω} {r : Request} {now : Int}
    {policies : List MCPQuotaPolicy} {costUnits : ℚ} {id token : String}
    (hk : w.phase k = .admitted r now policies costUnits none) (hid : ∀ e ∈ w.db.events, e.id ≠ id)
    (hpolicies : t.db.policies = w.db.policies) (hclock : t.clock = w.clock)
    (hphase : t.phase = Function.update w.phase k .idle)
    (hevents : t.db.events = newEvent s w r now costUnits id token :: w.db.events)
    (hcharges : t.db.charges = newCharges w policies costUnits id ++ w.db.charges)
    (hchecked : t.checked = Function.update w.checked id (policies.map MCPQuotaPolicy.id)) (hr : Rows t) :
    Counted pid t := by
  refine h.write id hl hr hk hpolicies hclock hphase (fun e he hin => ?_) fun i hmem => ?_
  · rw [hevents] at he
    rw [hchecked] at hin
    rw [hcharges]
    rcases List.mem_cons.mp he with rfl | he
    · rw [show (newEvent s w r now costUnits id token).id = id from rfl, Function.update_self] at hin
      obtain ⟨p, hp, rfl⟩ := List.mem_map.mp hin
      exact ⟨_, List.mem_append_left _ (List.mem_map_of_mem hp), rfl, rfl⟩
    · rw [Function.update_of_ne (hid e he)] at hin
      obtain ⟨c, hc, hcharge⟩ := h.charged e he hin
      exact ⟨c, List.mem_append_right _ hc, hcharge⟩
  · obtain ⟨e, he, hlive, hin, rfl⟩ := mem_holders.mp hmem
    rw [hevents] at he
    rw [hchecked] at hin
    rw [hclock] at hlive
    rcases List.mem_cons.mp he with rfl | he
    · rw [show (newEvent s w r now costUnits id token).id = id from rfl, Function.update_self] at hin
      exact .inr ⟨rfl, hin⟩
    · rw [Function.update_of_ne (hid e he)] at hin
      exact .inl ⟨mem_holders.mpr ⟨e, he, hlive, hin, rfl⟩, fun h => by cases h⟩

omit [DecidableEq ω] in
/-- An event without a lease is no holder. -/
theorem release (h : Counted pid w) {eventId : String} {f : MCPQuotaEvent → MCPQuotaEvent}
    (hf : ∀ e, (f e).id = e.id) (hlease : ∀ e, (f e).leaseExpiresAt = none) (hr : Rows (w.setEvent eventId f)) :
    Counted pid (w.setEvent eventId f) := by
  have hid : ∀ e : MCPQuotaEvent, (if e.id = eventId then f e else e).id = e.id := by
    intro e
    split
    · exact hf e
    · rfl
  refine h.fewer hr rfl rfl rfl (fun e' he' hin => ?_) fun id hmem => ?_
  · obtain ⟨e, he, rfl⟩ := List.mem_map.mp he'
    rw [hid] at hin ⊢
    exact h.charged e he hin
  · obtain ⟨e', he', hlive, hin, rfl⟩ := mem_holders.mp hmem
    obtain ⟨e, he, rfl⟩ := List.mem_map.mp he'
    rw [hid] at hin ⊢
    split at hlive
    · obtain ⟨expires, hexpires, -⟩ := hlive
      rw [hlease] at hexpires
      cases hexpires
    · exact mem_holders.mpr ⟨e, he, hlive, hin, rfl⟩

omit [DecidableEq ω] in
/-- Time passes, and no limit is lowered by it. -/
theorem tick (h : Counted pid w) {now : Int} (hle : w.clock ≤ now)
    (hlow : NotLowered pid w (.tick now : Event ω))
    (hr : Rows { w with clock := now }) : Counted pid { w with clock := now } := by
  have hsub : holders { w with clock := now } pid ⊆ holders w pid := by
    intro id hmem
    obtain ⟨e, he, ⟨expires, hlease, hlive⟩, hchecked, rfl⟩ := mem_holders.mp hmem
    exact mem_holders.mpr ⟨e, he, ⟨expires, hlease, hle.trans_lt hlive⟩, hchecked, rfl⟩
  have hnodup := hr.holders_nodup pid
  refine ⟨h.charged, fun p hp hid n hn => ?_, fun k t ht p hp hid => ?_, fun k => (h.place k).mono hnodup hsub⟩
  · obtain ⟨m, hm, hmn⟩ := hlow p hp hid n hn
    exact (hnodup.length_le_of_subset hsub).trans ((h.bound p hp hid m hm).trans hmn)
  · exact (h.readings k t ht p hp hid).trans (hlow p hp hid)

omit [DecidableEq ω] in
/-- A new policy has no holders. -/
theorem create (h : Counted pid w) {t₀ : Int} (hd : Dated t₀ w) {p : MCPQuotaPolicy}
    (hid : ∀ q ∈ w.db.policies, q.id ≠ p.id) :
    Counted pid { w with db := { w.db with policies := CodeMate.Quota.created p :: w.db.policies } } := by
  refine ⟨h.charged, List.forall_mem_cons.mpr ⟨fun heq n _ => ?_, h.bound⟩, fun k now hnow =>
    List.forall_mem_cons.mpr ⟨fun _ => .refl _, h.readings k now hnow⟩, h.place⟩
  have hnone : holders w pid = [] := by
    refine List.eq_nil_iff_forall_not_mem.mpr fun id hmem => ?_
    obtain ⟨e, he, -, hchecked, rfl⟩ := mem_holders.mp hmem
    obtain ⟨c, hc, -, hpolicy⟩ := h.charged e he hchecked
    obtain ⟨q, hq, hqid⟩ := List.mem_map.mp (hd.known c hc)
    exact hid q hq ((hqid.trans hpolicy).trans heq.symm)
  show (holders w pid).length ≤ n
  rw [hnone]
  exact Nat.zero_le n

omit [DecidableEq ω] in
theorem update_policy (h : Counted pid w) (hr : Rows w) {id : String} {limits : Limits} {callCostUnits : ℚ}
    {enabled frozen : Bool} (hlow : NotLowered pid w (Event.update id limits callCostUnits enabled frozen)) :
    Counted pid { w with db := { w.db with
      policies := w.db.policies.map fun p =>
        if p.id = id then p.updated limits callCostUnits enabled frozen else p } } := by
  refine ⟨h.charged, fun q hq hid n hn => ?_, fun k now hnow q hq hid => ?_, h.place⟩
  · obtain ⟨p, hp, rfl⟩ := List.mem_map.mp hq
    by_cases hpid : p.id = id
    · rw [if_pos hpid] at hid hn
      obtain ⟨m, hm, hle⟩ := hlow p hp hid hpid n hn
      exact (h.bound p hp hid m hm).trans hle
    · rw [if_neg hpid] at hid hn
      exact h.bound p hp hid n hn
  · obtain ⟨p, hp, rfl⟩ := List.mem_map.mp hq
    by_cases hpid : p.id = id
    · rw [if_pos hpid] at hid ⊢
      have hle : now ≤ w.clock := (hr.phases k).now_le hnow
      rcases p.updated_earlier limits callCostUnits enabled frozen hle with heq | heq
      · rw [heq]
        exact .refl _
      · rw [heq]
        exact (h.readings k now hnow p hp hid).trans (hlow p hp hid hpid)
    · rw [if_neg hpid] at hid ⊢
      exact h.readings k now hnow p hp hid

theorem step (h : Counted pid w) (hl : Locked w) (hr : Rows w) {t₀ : Int} (hd : Dated t₀ w) {e : Event ω}
    (hm : Moves s w e t) (hlow : NotLowered pid w e) (hren : ChargedRenewal pid w e) : Counted pid t := by
  have hrt := hr.step hl hm
  cases hm with
  | tick hle => exact h.tick hle hlow hrt
  | stay => exact h
  | begun => exact h.setPhase (fun now hnow p _ _ => by rw [← Option.some.inj hnow]; exact .refl _) trivial
  | @queried k r now candidates hk =>
    exact h.setPhase (fun t ht => h.readings k t (by rw [hk]; exact ht)) trivial
  | @locked k r now candidates role hk =>
    refine Counted.setPhase ?_ (fun t ht => h.readings k t (by rw [hk]; exact ht)) trivial
    exact { h with }
  | @admitted k r now policies costUnits existing hk hne hdecision =>
    have hok := hr.phases k
    rw [hk] at hok
    refine h.setPhase (fun t ht => h.readings k t (by rw [hk]; exact ht)) ?_
    exact h.place_of_decision hr hd hok (fun p hp => hl.mem (k := k) (by rw [hk]; exact hp)) hdecision
  | refused => exact h.setPhase (fun _ hnow => by cases hnow) trivial
  | rejected => exact h.finish _ (fun _ hnow => by cases hnow) trivial
  | renewed id token hk =>
    exact h.renew hl hk hren rfl rfl rfl rfl rfl rfl (fun _ => rfl) hrt
  | retried => exact h.finish _ (fun now hnow p _ _ => by rw [← Option.some.inj hnow]; exact .refl _) trivial
  | charged _ hk _ hid => exact h.charge hl hk hid rfl rfl rfl rfl rfl rfl hrt
  | fetched => exact h.setPhase (fun _ hnow => by cases hnow) trivial
  | @cleared k eventId outcome hk =>
    refine Counted.finish ?_ _ (fun _ hnow => by cases hnow) trivial
    exact h.release (fun _ => rfl) (fun _ => rfl) (hr.setEvent (fun _ => rfl) fun _ => rfl)
  | left => exact h.finish _ (fun _ hnow => by cases hnow) trivial
  | created hid => exact h.create hd hid
  | updated => exact h.update_policy hr hlow

end Counted

instance (pid : String) (charges : List MCPQuotaCharge) : DecidablePred (Phase.ChargedRenewal pid charges)
  | .admitted _ _ policies _ (some eventId) => inferInstanceAs (Decidable (pid ∈ policies.map MCPQuotaPolicy.id →
    ∃ c ∈ charges, c.eventId = eventId ∧ c.policyId = pid))
  | .admitted _ _ _ _ none => isTrue trivial
  | .idle | .started .. | .waiting .. | .locked .. | .releasing .. => isTrue trivial

instance (pid : String) (w : World ω) : DecidablePred (ChargedRenewal pid w)
  | .write k _ _ => inferInstanceAs (Decidable ((w.phase k).ChargedRenewal pid w.db.charges))
  | .tick _ | .begin .. | .query _ | .lock .. | .decide _ | .fetch .. | .clear _ | .leave _ | .create _
  | .update .. => isTrue trivial

/-! ## The limit -/

/-- However reservations, releases and changes of policies come: while no event
is renewed under `pid` without a charge to it and its limit is not lowered, no
more events than the limit hold a live lease that was checked against `pid`. -/
theorem concurrent_limit [DecidableEq ω] (s : Settings) (pid : String) {w : World ω}
    (h : ((quota s).only fun w e => NotLowered pid w e ∧ ChargedRenewal pid w e).Reachable w) {p : MCPQuotaPolicy}
    (hp : p ∈ w.db.policies) (hid : p.id = pid) {n : Nat} (hn : p.concurrentLimitAt w.clock = some n) :
    (holders w pid).length ≤ n := by
  obtain ⟨w₀, es, h₀, hr⟩ := h
  have hcounted : Counted pid w₀ := by
    have hevents : ∀ e, e ∉ w₀.db.events := by rw [h₀.events]; exact fun e => List.not_mem_nil
    have hnone : holders w₀ pid = [] := by rw [holders, h₀.events]; rfl
    refine ⟨fun e he => absurd he (hevents e), fun q _ _ m _ => ?_, fun k now hnow => ?_, fun k => ?_⟩
    · rw [hnone]
      exact Nat.zero_le m
    · rw [h₀.phase k] at hnow
      cases hnow
    · rw [h₀.phase k]
      trivial
  have hrun := hr.inv (I := fun w => Locked w ∧ Rows w ∧ Dated w₀.clock w ∧ Counted pid w) ?_
    ⟨h₀.locked, h₀.rows, h₀.dated, hcounted⟩
  · obtain ⟨-, -, -, hcounted⟩ := hrun
    exact hcounted.bound p hp hid n hn
  · rintro w e t ⟨hl, hrows, hd, hc⟩ ⟨⟨hlow, hren⟩, hs⟩
    have hm := step_moves hs
    exact ⟨hl.step hm, hrows.step hl hm, hd.step hl hm, hc.step hl hrows hd hm hlow hren⟩

end

namespace Sample

def narrow : MCPQuotaPolicy := { policy with id := "q", limits := ⟨none, none, none, some 1, none, none⟩ }

def wide : MCPQuotaPolicy := { policy with limits := ⟨none, none, none, none, none, none⟩ }

def under (policies : List MCPQuotaPolicy) : World Unit :=
  ⟨0, ⟨policies, [], []⟩, fun _ => none, fun _ => .idle, fun _ => []⟩

/-- A reservation. -/
def reserve (key id token : String) : List (Event Unit) :=
  [.begin () (request key), .query (), .lock () none, .decide (), .write () id token]

/-- A call whose lease runs out and that is reserved again. -/
def renewals : List (Event Unit) := reserve "1" "e" "a" ++ [.tick 180000000] ++ reserve "1" "-" "b"

/-- Where that ends under a policy that allows one call. -/
def renewed : Option (World Unit) :=
  renewals.foldlM (fun w e => if NotLowered "q" w e ∧ ChargedRenewal "q" w e then step settings w e else none)
    (under [narrow])

/-- Between the two, a policy comes that allows one call; then a second call is reserved. -/
def overrun : List (Event Unit) :=
  reserve "1" "e" "a" ++ [.tick 180000000, .create narrow] ++ reserve "1" "-" "b" ++ reserve "2" "f" "c"

theorem under_fresh {p : MCPQuotaPolicy} (hnormal : normalized (p.effectiveLimits 0) p.callCostUnits = true)
    (hreset : p.resetAt = none) : Fresh (under [p]) := by
  refine ⟨rfl, rfl, fun _ => rfl, List.nodup_singleton _, fun q hq => ?_, fun q hq reset h => ?_⟩
  · obtain rfl := List.mem_singleton.mp hq
    exact hnormal
  · obtain rfl := List.mem_singleton.mp hq
    rw [hreset] at h
    cases h

end Sample

theorem concurrent_limit_sample : ∃ w, Sample.renewed = some w ∧ holders w "q" = ["e"] ∧
    (holders w "q").length ≤ 1 := by
  have hfinal : Sample.renewed.map (fun w => (w.clock, w.db.policies, holders w "q")) =
      some (180000000, [Sample.narrow], ["e"]) := by
    decide +kernel
  obtain ⟨w, hw, heq⟩ := Option.map_eq_some_iff.mp hfinal
  obtain ⟨hclock, hrest⟩ := Prod.mk.inj heq
  obtain ⟨hpolicies, hholders⟩ := Prod.mk.inj hrest
  have hfresh : Fresh (Sample.under [Sample.narrow]) := Sample.under_fresh rfl rfl
  have hrun : ((quota Sample.settings).only fun w e => NotLowered "q" w e ∧ ChargedRenewal "q" w e).Run
      (Sample.under [Sample.narrow]) Sample.renewals w := System.Run.only_of_foldlM hw
  refine ⟨w, hw, hholders, ?_⟩
  exact concurrent_limit Sample.settings "q" ⟨_, _, hfresh, hrun⟩ (p := Sample.narrow)
    (by rw [hpolicies]; exact List.mem_singleton_self _) rfl (by rw [hclock]; rfl)

/-- An event that is renewed under a policy that has come since is not counted. -/
theorem concurrent_limit_exceeded : ¬ ∀ w : World Unit,
    ((quota Sample.settings).only (NotLowered "q")).Reachable w → ∀ p ∈ w.db.policies, p.id = "q" →
      p.enabled = true → ∀ n, p.concurrentLimitAt w.clock = some n → (holders w "q").length ≤ n := by
  have hfinal : (Sample.overrun.foldlM (fun w e => if NotLowered "q" w e then step Sample.settings w e else none)
      (Sample.under [Sample.wide])).map (fun w => (w.clock, w.db.policies, holders w "q")) =
      some (180000000, [Sample.narrow, Sample.wide], ["f", "e"]) := by
    decide +kernel
  obtain ⟨w, hw, heq⟩ := Option.map_eq_some_iff.mp hfinal
  obtain ⟨hclock, hrest⟩ := Prod.mk.inj heq
  obtain ⟨hpolicies, hholders⟩ := Prod.mk.inj hrest
  intro h
  have hfresh : Fresh (Sample.under [Sample.wide]) := Sample.under_fresh rfl rfl
  have hrun : ((quota Sample.settings).only (NotLowered "q")).Run (Sample.under [Sample.wide]) Sample.overrun w :=
    System.Run.only_of_foldlM hw
  have hle := h w ⟨_, _, hfresh, hrun⟩ Sample.narrow (by rw [hpolicies]; exact List.mem_cons_self) rfl rfl 1
    (by rw [hclock]; rfl)
  rw [hholders] at hle
  exact absurd hle (by decide)

end CodeMate.Quota
