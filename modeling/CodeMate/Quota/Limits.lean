import Mathlib.Algebra.Order.Group.Nat
import Mathlib.Algebra.Order.Ring.Rat
import CodeMate.Quota.Rows

/-!
# The limits hold in every window

With the policies as they are, without resets, every charge was let through by
a check that saw all earlier charges of its policies, because the policies'
rows are locked from the check to the commit (`Metered.charged`). The clock was
read before the locks, so the check counted from an earlier cut than the charge
itself needs (`Framework.Window.Limited.cons_of_check`). So no trailing minute and no
day holds more than its limit (`quota_limits`).
-/

namespace CodeMate.Quota

open Framework Framework.Window

/-! ## Days -/

theorem day_pos : 0 < day := by decide

theorem midnight_eq (t : Int) : midnight t = day * (t / day) := by
  have h := Int.mul_ediv_add_emod t day
  unfold midnight
  omega

theorem midnight_mono {t u : Int} (h : t ≤ u) : midnight t ≤ midnight u := by
  rw [midnight_eq, midnight_eq]
  exact Int.mul_le_mul_of_nonneg_left (Int.ediv_le_ediv day_pos h) day_pos.le

/-- A time is not before the midnight of any time of the same day. -/
theorem midnight_le {t u : Int} (h : t / day = u / day) : midnight t ≤ u := by
  rw [midnight_eq, h]
  exact Int.mul_ediv_self_le day_pos.ne'

/-! ## Charges of one policy -/

section

variable {ω : Type*} {w : World ω} {policies : List MCPQuotaPolicy} {costUnits : ℚ} {id : String}

/-- The new charges, for a policy that is reserved under. -/
theorem chargesOf_new {q : MCPQuotaPolicy} (hq : q ∈ policies) (hnodup : (policies.map MCPQuotaPolicy.id).Nodup) :
    (newCharges w policies costUnits id).filter (fun c => c.policyId = q.id) =
      [⟨id, q.id, 1, costUnits, w.clock⟩] := by
  induction policies with
  | nil => cases hq
  | cons p policies ih =>
    obtain ⟨hp, hnodup⟩ := List.nodup_cons.mp hnodup
    show List.filter _ (⟨id, p.id, 1, costUnits, w.clock⟩ :: newCharges w policies costUnits id) = _
    rcases List.mem_cons.mp hq with rfl | hq
    · have hrest : (newCharges w policies costUnits id).filter (fun c => c.policyId = q.id) = [] := by
        rw [List.filter_eq_nil_iff]
        intro c hc heq
        obtain ⟨p, hmem, rfl⟩ := List.mem_map.mp hc
        exact hp (List.mem_map.mpr ⟨p, hmem, of_decide_eq_true heq⟩)
      rw [List.filter_cons, if_pos (decide_eq_true rfl), hrest]
    · have hne : p.id ≠ q.id := fun heq => hp (heq ▸ List.mem_map_of_mem hq)
      rw [List.filter_cons, if_neg (by simpa using hne)]
      exact ih hq hnodup

theorem chargesOf_new_of_not {pid : String} (h : ∀ p ∈ policies, p.id ≠ pid) :
    (newCharges w policies costUnits id).filter (fun c => c.policyId = pid) = [] := by
  rw [List.filter_eq_nil_iff]
  intro c hc heq
  obtain ⟨p, hp, rfl⟩ := List.mem_map.mp hc
  exact h p hp (of_decide_eq_true heq)

end

/-! ## The invariant -/

/-- What a client read from the clock, if it has. -/
def Phase.now : Phase → Option Int
  | .started _ now => some now
  | .waiting _ now _ => some now
  | .locked _ now _ => some now
  | .admitted _ now _ _ _ => some now
  | _ => none

/-- The policy `id` has room for one more call of this cost. -/
structure Room (charges : List MCPQuotaCharge) (limits : Limits) (now : Int) (costUnits : ℚ) (id : String) :
    Prop where
  rate : ∀ n, limits.rateLimitPerMinute = some n →
    total (fun _ => 1) (fun c => now - minute ≤ c.createdAt) (chargesOf charges id) + 1 ≤ n
  calls : ∀ n, limits.dailyCallLimit = some n →
    total (fun _ => 1) (fun c => midnight now ≤ c.createdAt) (chargesOf charges id) + 1 ≤ n
  cost : ∀ n, limits.dailyCostLimit = some n →
    total MCPQuotaCharge.costUnits (fun c => midnight now ≤ c.createdAt) (chargesOf charges id) + costUnits ≤ n

/-- The policies of a client that is about to charge have room. -/
def Phase.HasRoom (charges : List MCPQuotaCharge) : Phase → Prop
  | .admitted _ now policies costUnits none =>
    ∀ p ∈ policies, Room charges (p.effectiveLimits now) now costUnits p.id
  | _ => True

/-- The charges of the policy `id` were within the limits, each when it was made. -/
structure Within (charges : List MCPQuotaCharge) (limits : Limits) (id : String) : Prop where
  rate : ∀ n, limits.rateLimitPerMinute = some n →
    Limited MCPQuotaCharge.createdAt (fun _ => 1) (fun t => t - minute) n (chargesOf charges id)
  calls : ∀ n, limits.dailyCallLimit = some n →
    Limited MCPQuotaCharge.createdAt (fun _ => 1) midnight n (chargesOf charges id)
  cost : ∀ n, limits.dailyCostLimit = some n →
    Limited MCPQuotaCharge.createdAt MCPQuotaCharge.costUnits midnight n (chargesOf charges id)

theorem Within.nil (limits : Limits) {charges : List MCPQuotaCharge} {id : String} (h : chargesOf charges id = []) :
    Within charges limits id :=
  ⟨fun n _ => by rw [h]; exact .nil, fun n _ => by rw [h]; exact .nil, fun n _ => by rw [h]; exact .nil⟩

section

variable {ω : Type*}

/-- All policies were charged within their limits, and clients that are about
to charge have room. -/
structure Metered (w : World ω) : Prop where
  positive : ∀ p ∈ w.db.policies, ∀ n, (p.effectiveLimits w.clock).dailyCostLimit = some n → 0 < n
  within : ∀ p ∈ w.db.policies, Within w.db.charges (p.effectiveLimits w.clock) p.id
  /-- The limits are those of every time that a client has read. -/
  readings : ∀ k, ∀ now, (w.phase k).now = some now →
    ∀ p ∈ w.db.policies, p.effectiveLimits now = p.effectiveLimits w.clock
  room : ∀ k, (w.phase k).HasRoom w.db.charges

/-- The step leaves the limits unchanged: no update, and no override that runs out. -/
def Unchanged (w : World ω) : Event ω → Prop
  | .update .. => False
  | .tick now => ∀ p ∈ w.db.policies, p.effectiveLimits now = p.effectiveLimits w.clock
  | _ => True

instance (w : World ω) : DecidablePred (Unchanged w)
  | .update .. => isFalse id
  | .tick now => inferInstanceAs (Decidable (∀ p ∈ w.db.policies, p.effectiveLimits now = p.effectiveLimits w.clock))
  | .begin .. | .query _ | .lock .. | .decide _ | .write .. | .fetch .. | .clear _ | .leave _
  | .create _ => isTrue trivial

namespace Metered

variable [DecidableEq ω] {t₀ : Int} {s : Settings} {w t : World ω}

theorem setPhase (h : Metered w) {k : ω} {phase : Phase} (hnow : ∀ now, phase.now = some now →
    ∀ p ∈ w.db.policies, p.effectiveLimits now = p.effectiveLimits w.clock)
    (hroom : phase.HasRoom w.db.charges) : Metered (w.set k phase) :=
  { h with
    readings := w.set_all k phase (P := fun _ phase => ∀ now, phase.now = some now →
      ∀ p ∈ w.db.policies, p.effectiveLimits now = p.effectiveLimits w.clock) hnow h.readings
    room := w.set_all k phase (P := fun _ phase => phase.HasRoom w.db.charges) hroom h.room }

theorem finish (h : Metered w) (k : ω) {phase : Phase} (hnow : ∀ now, phase.now = some now →
    ∀ p ∈ w.db.policies, p.effectiveLimits now = p.effectiveLimits w.clock)
    (hroom : phase.HasRoom w.db.charges) : Metered ((w.set k phase).unlock k) := { h.setPhase hnow hroom with }

omit [DecidableEq ω] in
/-- The check leaves room. -/
theorem room_of_decision (hd : Dated t₀ w) (hr : Rows w) (ha : s.arithmetic.Exact) {r : Request} {now : Int}
    {policies : List MCPQuotaPolicy} {costUnits : ℚ} (hsub : policies ⊆ w.db.policies)
    (hdecision : w.db.decision s.arithmetic s.defaultCallCostUnits policies r now = .ok (costUnits, none)) :
    ∀ p ∈ policies, Room w.db.charges (p.effectiveLimits now) now costUnits p.id := by
  obtain ⟨-, -, hcheck⟩ := decision_ok hdecision
  intro p hp
  have hc := hd.countable hr (hsub hp)
  obtain ⟨hrate, hcalls, hcost⟩ := checkPolicy_new (hcheck p hp)
  rw [hc.minuteCalls_eq] at hrate
  rw [hc.dailyCalls_eq] at hcalls
  rw [hc.dailyCost_eq ha] at hcost
  refine ⟨hrate, hcalls, fun n hn => ?_⟩
  rw [← ha.add]
  exact hcost n hn

/-- The charges with those of a new event. -/
abbrev charged (w : World ω) (policies : List MCPQuotaPolicy) (costUnits : ℚ) (id : String) :
    List MCPQuotaCharge :=
  newCharges w policies costUnits id ++ w.db.charges

omit [DecidableEq ω] in
theorem chargesOf_charged {policies : List MCPQuotaPolicy} {costUnits : ℚ} {id pid : String}
    (hout : ∀ q ∈ policies, q.id ≠ pid) :
    chargesOf (charged w policies costUnits id) pid = chargesOf w.db.charges pid := by
  show List.filter _ (newCharges w policies costUnits id ++ w.db.charges) = _
  rw [List.filter_append, chargesOf_new_of_not hout]
  rfl

omit [DecidableEq ω] in
/-- A charge that has room is within the limits. -/
theorem within_charge (h : Metered w) (hr : Rows w) {now : Int} {policies : List MCPQuotaPolicy}
    {costUnits : ℚ} {id : String} (hnow : now ≤ w.clock)
    (hnodup : (policies.map MCPQuotaPolicy.id).Nodup)
    (hroom : ∀ p ∈ policies, Room w.db.charges (p.effectiveLimits now) now costUnits p.id) {p : MCPQuotaPolicy}
    (hp : p ∈ w.db.policies) (hlimits : p ∈ policies → p.effectiveLimits now = p.effectiveLimits w.clock)
    (hin : p ∈ policies ∨ ∀ q ∈ policies, q.id ≠ p.id) :
    Within (charged w policies costUnits id) (p.effectiveLimits w.clock) p.id := by
  have hwithin := h.within p hp
  have htimes : ∀ c ∈ chargesOf w.db.charges p.id, c.createdAt ≤ w.clock :=
    fun c hc => hr.times c (List.mem_of_mem_filter hc)
  have hcosts : ∀ c ∈ chargesOf w.db.charges p.id, 0 ≤ c.costUnits :=
    fun c hc => (hr.cost c (List.mem_of_mem_filter hc)).le
  rcases hin with hin | hout
  · have hcharges : chargesOf (charged w policies costUnits id) p.id =
        ⟨id, p.id, 1, costUnits, w.clock⟩ :: chargesOf w.db.charges p.id := by
      show List.filter _ (newCharges w policies costUnits id ++ w.db.charges) = _
      rw [List.filter_append, chargesOf_new hin hnodup]
      rfl
    have hroom := hroom p hin
    rw [hlimits hin] at hroom
    refine ⟨fun n hn => ?_, fun n hn => ?_, fun n hn => ?_⟩
    · rw [hcharges]
      have hcut : Monotone fun t : Int => t - minute := fun _ _ h => Int.sub_le_sub_right h minute
      exact (hwithin.rate n hn).cons_of_check hcut (fun _ _ => Nat.zero_le _) htimes hnow (hroom.rate n hn)
    · rw [hcharges]
      exact (hwithin.calls n hn).cons_of_check (fun _ _ h => midnight_mono h) (fun _ _ => Nat.zero_le _) htimes hnow
        (hroom.calls n hn)
    · rw [hcharges]
      exact (hwithin.cost n hn).cons_of_check (fun _ _ h => midnight_mono h) hcosts htimes hnow (hroom.cost n hn)
  · have hcharges : chargesOf (charged w policies costUnits id) p.id = _ := chargesOf_charged hout
    exact ⟨by rw [hcharges]; exact hwithin.rate, by rw [hcharges]; exact hwithin.calls,
      by rw [hcharges]; exact hwithin.cost⟩

omit [DecidableEq ω] in
/-- The room of a client is not touched by charges to the policies of another. -/
theorem room_charge {limits : Limits} {now : Int} {policies : List MCPQuotaPolicy} {costUnits cost : ℚ}
    {id pid : String} (hout : ∀ q ∈ policies, q.id ≠ pid) (hroom : Room w.db.charges limits now cost pid) :
    Room (charged w policies costUnits id) limits now cost pid := by
  have hcharges : chargesOf (charged w policies costUnits id) pid = _ := chargesOf_charged hout
  exact ⟨by rw [hcharges]; exact hroom.rate, by rw [hcharges]; exact hroom.calls, by rw [hcharges]; exact hroom.cost⟩

theorem charge (h : Metered w) (hl : Locked w) (hr : Rows w) {k : ω} {r : Request} {now : Int}
    {policies : List MCPQuotaPolicy} {costUnits : ℚ} {id token : String} {checked : String → List String}
    (hk : w.phase k = .admitted r now policies costUnits none) :
    Metered (World.set
      { w with
        db := { w.db with
          events := newEvent s w r now costUnits id token :: w.db.events
          charges := newCharges w policies costUnits id ++ w.db.charges }
        checked := checked } k .idle) := by
  have hpolicies : (w.phase k).policies = policies := by rw [hk]; rfl
  have hmem : ∀ p ∈ policies, p ∈ w.db.policies := fun p hp => hl.mem (k := k) (hpolicies ▸ hp)
  have hok := hr.phases k
  have hroom := h.room k
  rw [hk] at hok hroom
  have hnodup : (policies.map MCPQuotaPolicy.id).Nodup := hpolicies ▸ hl.nodup k
  have hnow := h.readings k now (by rw [hk]; rfl)
  refine ⟨h.positive, fun p hp => ?_,
    World.set_all _ k .idle (P := fun _ phase => ∀ now, phase.now = some now →
      ∀ p ∈ w.db.policies, p.effectiveLimits now = p.effectiveLimits w.clock)
      (fun _ hnow => by cases hnow) h.readings, fun j => ?_⟩
  · refine h.within_charge hr hok.1 hnodup hroom hp (fun _ => hnow p hp) ?_
    by_cases hin : p ∈ policies
    · exact .inl hin
    · exact .inr fun q hq heq => hin (hl.eq_of_id (hmem q hq) hp heq ▸ hq)
  · by_cases hj : j = k
    · subst hj
      show Phase.HasRoom _ (Function.update w.phase j Phase.idle j)
      rw [Function.update_self]
      trivial
    · show Phase.HasRoom _ (Function.update w.phase k Phase.idle j)
      rw [Function.update_of_ne hj]
      have hroom := h.room j
      cases hphase : w.phase j with
      | admitted r' now' policies' cost existing =>
        cases existing with
        | some _ => trivial
        | none =>
          rw [hphase] at hroom
          intro p hp
          refine room_charge (fun q hq heq => hj ?_) (hroom p hp)
          exact hl.apart (by rw [hphase]; exact hp) (hpolicies ▸ hq) heq.symm
      | _ => trivial

theorem step (h : Metered w) (hl : Locked w) (hr : Rows w) (hd : Dated t₀ w) (ha : s.arithmetic.Exact) {e : Event ω}
    (hm : Moves s w e t) (he : Unchanged w e) : Metered t := by
  cases hm with
  | @tick now hle =>
    have he : ∀ p ∈ w.db.policies, p.effectiveLimits now = p.effectiveLimits w.clock := he
    exact { h with
      positive := fun p hp n hn => h.positive p hp n (by rw [← he p hp]; exact hn)
      within := fun p hp => by
        have hwithin := h.within p hp
        rw [← he p hp] at hwithin
        exact hwithin
      readings := fun k t ht p hp => (h.readings k t ht p hp).trans (he p hp).symm }
  | stay => exact h
  | begun => exact h.setPhase (fun now hnow p _ => by rw [← Option.some.inj hnow]) trivial
  | @queried k r now candidates hk =>
    exact h.setPhase (fun t ht => h.readings k t (by rw [hk]; exact ht)) trivial
  | @locked k r now candidates role hk =>
    refine Metered.setPhase ?_ (fun t ht => h.readings k t (by rw [hk]; exact ht)) trivial
    exact { h with }
  | @admitted k r now policies costUnits existing hk hne hdecision =>
    refine h.setPhase (fun t ht => h.readings k t (by rw [hk]; exact ht)) ?_
    cases existing with
    | some _ => trivial
    | none =>
      refine room_of_decision hd hr ha (fun p hp => hl.mem (k := k) ?_) hdecision
      rw [hk]
      exact hp
  | refused => exact h.setPhase (fun _ hnow => by cases hnow) trivial
  | rejected => exact h.finish _ (fun _ hnow => by cases hnow) trivial
  | renewed =>
    refine Metered.finish ?_ _ (fun _ hnow => by cases hnow) trivial
    exact { h with }
  | retried => exact h.finish _ (fun now hnow p _ => by rw [← Option.some.inj hnow]) trivial
  | charged _ hk => exact { h.charge hl hr hk with }
  | fetched => exact h.setPhase (fun _ hnow => by cases hnow) trivial
  | cleared =>
    refine Metered.finish ?_ _ (fun _ hnow => by cases hnow) trivial
    exact { h with }
  | left => exact h.finish _ (fun _ hnow => by cases hnow) trivial
  | @created p hid hnormal =>
    have hnone : chargesOf w.db.charges p.id = [] := by
      rw [chargesOf, List.filter_eq_nil_iff]
      intro c hc heq
      obtain ⟨q, hq, hqid⟩ := List.mem_map.mp (hd.known c hc)
      exact hid q hq (hqid.trans (of_decide_eq_true heq))
    refine { h with
      positive := List.forall_mem_cons.mpr ⟨fun n hn => ?_, h.positive⟩
      within := List.forall_mem_cons.mpr ⟨.nil _ hnone, h.within⟩
      readings := fun k now hnow => List.forall_mem_cons.mpr ⟨rfl, h.readings k now hnow⟩ }
    have hn : p.limits.dailyCostLimit = some n := hn
    simp only [normalized, hn, Bool.and_eq_true, Option.all_some, decide_eq_true_eq] at hnormal
    exact hnormal.1.1.1.2
  | updated => exact absurd he id

end Metered

/-! ## The limits -/

variable [DecidableEq ω] {s : Settings}

/-- No event yet, no client at work, and no reset to come. -/
structure Fresh (w : World ω) : Prop where
  events : w.db.events = []
  charges : w.db.charges = []
  phase : ∀ k, w.phase k = .idle
  ids : (w.db.policies.map MCPQuotaPolicy.id).Nodup
  normal : ∀ p ∈ w.db.policies, normalized (p.effectiveLimits w.clock) p.callCostUnits = true
  resets : ∀ p ∈ w.db.policies, ∀ reset, p.resetAt = some reset → reset ≤ w.clock

/-- Clients at work on the quota tables. -/
def quota (s : Settings) : System (World ω) (Event ω) := .ofStep Fresh (step s)

omit [DecidableEq ω] in
theorem Fresh.locked {w : World ω} (h : Fresh w) : Locked w where
  ids := h.ids
  rows k := by rw [h.phase k]; exact List.nil_sublist _
  locks k p hp := by rw [h.phase k] at hp; cases hp

omit [DecidableEq ω] in
theorem Fresh.rows {w : World ω} (h : Fresh w) : Rows w := by
  have hcharges : ∀ c, c ∉ w.db.charges := by rw [h.charges]; exact fun c => List.not_mem_nil
  refine ⟨by rw [h.events]; exact .nil, by rw [h.events]; exact .nil, fun c hc => absurd hc (hcharges c),
    fun c hc => absurd hc (hcharges c), fun c hc => absurd hc (hcharges c), by rw [h.charges]; exact .nil,
    by rw [h.charges]; exact .nil, fun c hc => absurd hc (hcharges c), fun p hp => ?_,
    fun k => by rw [h.phase k]; trivial⟩
  have hnormal := h.normal p hp
  simp only [normalized, Bool.and_eq_true, decide_eq_true_eq] at hnormal
  exact hnormal.1.1.1.1.1.1

omit [DecidableEq ω] in
theorem Fresh.dated {w : World ω} (h : Fresh w) : Dated w.clock w := by
  have hcharges : ∀ c, c ∉ w.db.charges := by rw [h.charges]; exact fun c => List.not_mem_nil
  exact ⟨le_rfl, fun c hc => absurd hc (hcharges c), fun c hc => absurd hc (hcharges c), h.resets⟩

omit [DecidableEq ω] in
theorem Fresh.metered {w : World ω} (h : Fresh w) : Metered w := by
  have hof : ∀ id, chargesOf w.db.charges id = [] := by intro id; rw [chargesOf, h.charges]; rfl
  refine ⟨fun p hp n hn => ?_, fun p hp => .nil _ (hof p.id), fun k now hnow => ?_,
    fun k => by rw [h.phase k]; trivial⟩
  · have hnormal := h.normal p hp
    simp only [normalized, hn, Bool.and_eq_true, Option.all_some, decide_eq_true_eq] at hnormal
    exact hnormal.1.1.1.2
  · rw [h.phase k] at hnow
    cases hnow

/-- What holds in every state of a run without changes to the limits. -/
theorem run_metered (ha : s.arithmetic.Exact) {w₀ w : World ω} {es : List (Event ω)} (h₀ : Fresh w₀)
    (hr : ((quota s).only Unchanged).Run w₀ es w) :
    Locked w ∧ Rows w ∧ Dated w₀.clock w ∧ Metered w := by
  refine hr.inv (I := fun w => Locked w ∧ Rows w ∧ Dated w₀.clock w ∧ Metered w) ?_
    ⟨h₀.locked, h₀.rows, h₀.dated, h₀.metered⟩
  rintro w e t ⟨hl, hrows, hd, hm⟩ ⟨he, hs⟩
  have hmoves := step_moves hs
  exact ⟨hl.step hmoves, hrows.step hl hmoves, hd.step hl hmoves, hm.step hl hrows hd ha hmoves he⟩

omit [DecidableEq ω] in
/-- Charges of one policy with one idempotency key are one charge. -/
theorem Rows.key_once {w : World ω} (h : Rows w) (pid key : String) :
    ((chargesOf w.db.charges pid).filter fun c =>
      (w.db.event c.eventId).any fun e => e.idempotencyKey == key).length ≤ 1 := by
  generalize hl : ((chargesOf w.db.charges pid).filter fun c =>
    (w.db.event c.eventId).any fun e => e.idempotencyKey == key) = l
  have hkey : ∀ c ∈ l, c.policyId = pid ∧ ∃ e ∈ w.db.events, e.id = c.eventId ∧ e.idempotencyKey = key := by
    intro c hc
    rw [← hl] at hc
    obtain ⟨hc, hany⟩ := List.mem_filter.mp hc
    cases he : w.db.event c.eventId with
    | none => rw [he] at hany; cases hany
    | some e =>
      rw [he] at hany
      obtain ⟨hmem, hid⟩ := Tables.event_some he
      exact ⟨of_decide_eq_true (List.mem_filter.mp hc).2, e, hmem, hid, beq_iff_eq.mp hany⟩
  have hpair : l.Pairwise fun c c' => c.policyId = c'.policyId → c.eventId ≠ c'.eventId := by
    rw [← hl]
    exact (h.once.filter _).filter _
  match l, hkey, hpair with
  | [], _, _ => exact Nat.zero_le _
  | [_], _, _ => exact le_rfl
  | c :: c' :: l, hkey, hpair =>
    obtain ⟨hp, e, he, hid, hk⟩ := hkey c List.mem_cons_self
    obtain ⟨hp', e', he', hid', hk'⟩ := hkey c' (List.mem_cons_of_mem _ List.mem_cons_self)
    obtain rfl := List.inj_on_of_nodup_map h.keys he he' (hk.trans hk'.symm)
    exact absurd (hid.symm.trans hid')
      ((List.pairwise_cons.mp hpair).1 c' List.mem_cons_self (hp.trans hp'.symm))

/-- However reservations and releases come, no policy is charged more often in
a trailing minute or on a UTC day than its limits say, nor more on a day, and
no idempotency key twice. -/
theorem quota_limits (s : Settings) (ha : s.arithmetic.Exact) {w : World ω}
    (h : ((quota s).only Unchanged).Reachable w) {p : MCPQuotaPolicy}
    (hp : p ∈ w.db.policies) :
    (∀ n, (p.effectiveLimits w.clock).rateLimitPerMinute = some n → ∀ t, ((chargesOf w.db.charges p.id).filter fun c =>
      t - minute ≤ c.createdAt ∧ c.createdAt ≤ t).length ≤ n) ∧
    (∀ n, (p.effectiveLimits w.clock).dailyCallLimit = some n → ∀ d, ((chargesOf w.db.charges p.id).filter fun c =>
      c.createdAt / day = d).length ≤ n) ∧
    (∀ n, (p.effectiveLimits w.clock).dailyCostLimit = some n → ∀ d, (((chargesOf w.db.charges p.id).filter fun c =>
      c.createdAt / day = d).map MCPQuotaCharge.costUnits).sum ≤ n) ∧
    ∀ key, ((chargesOf w.db.charges p.id).filter fun c =>
      (w.db.event c.eventId).any fun e => e.idempotencyKey == key).length ≤ 1 := by
  obtain ⟨w₀, es, h₀, hr⟩ := h
  obtain ⟨-, hrows, -, hm⟩ := run_metered ha h₀ hr
  obtain ⟨hrate, hcalls, hcost⟩ := hm.within p hp
  have hday : ∀ d t u : Int, decide (t / day = d) = true → decide (u / day = d) = true → u ≤ t → midnight t ≤ u :=
    fun d t u ht hu _ => midnight_le ((of_decide_eq_true ht).trans (of_decide_eq_true hu).symm)
  refine ⟨fun n hn t => ?_, fun n hn d => ?_, fun n hn d => ?_, hrows.key_once p.id⟩
  · rw [← total_one]
    refine (hrate n hn).total_le (fun _ _ => Nat.zero_le _) (Nat.zero_le _)
      (p := fun u => decide (t - minute ≤ u ∧ u ≤ t)) fun t' u ht hu _ => ?_
    have ht := of_decide_eq_true ht
    have hu := of_decide_eq_true hu
    omega
  · rw [← total_one]
    exact (hcalls n hn).total_le (fun _ _ => Nat.zero_le _) (Nat.zero_le _) (hday d)
  · exact (hcost n hn).total_le (fun c hc => (hrows.cost c (List.mem_of_mem_filter hc)).le)
      (hm.positive p hp n hn).le (hday d)

end

namespace Sample

def settings : Settings := ⟨true, 180, 1, .decimal⟩

def policy : MCPQuotaPolicy where
  id := "p"
  tenantId := "t"
  repoId := none
  principalType := "*"
  principalId := "*"
  serverName := "*"
  toolName := "*"
  limits := ⟨some 1, some 5, some 2, some 2, none, none⟩
  callCostUnits := 1
  enabled := true
  frozen := false
  temporaryOverride := none
  temporaryOverrideExpiresAt := none
  resetAt := none

def start : World Bool :=
  ⟨0, ⟨[policy], [], []⟩, fun _ => none, fun _ => .idle, fun _ => []⟩

def request (key : String) : Request := ⟨⟨"t", none, some "r", "agent", "a", none⟩, "ops", "status", key⟩

/-- Two calls at one time, of which one comes through, and one after a minute. -/
def events : List (Event Bool) :=
  [.begin true (request "1"), .begin false (request "2"), .query true, .query false, .lock true none, .decide true,
    .write true "e" "a", .tick 1000000, .lock false none, .decide false, .tick 61000000, .begin false (request "2"),
    .query false, .lock false none, .decide false, .write false "f" "b"]

/-- Where the run ends. -/
def final : Option (World Bool) :=
  events.foldlM (fun w e => if Unchanged w e then step settings w e else none) start

end Sample

theorem quota_limits_sample : ∃ w, Sample.final = some w ∧
    w.db.charges = [⟨"f", "p", 1, 1, 61000000⟩, ⟨"e", "p", 1, 1, 0⟩] ∧
    ∀ t, ((chargesOf w.db.charges "p").filter fun c => t - minute ≤ c.createdAt ∧ c.createdAt ≤ t).length ≤ 1 := by
  have hfinal : Sample.final.map (fun w => (w.db.policies, w.db.charges)) =
      some ([Sample.policy], [⟨"f", "p", 1, 1, 61000000⟩, ⟨"e", "p", 1, 1, 0⟩]) := by
    decide +kernel
  obtain ⟨w, hw, heq⟩ := Option.map_eq_some_iff.mp hfinal
  obtain ⟨hpolicies, hcharges⟩ := Prod.mk.inj heq
  have hstart : Fresh Sample.start :=
    ⟨rfl, rfl, fun _ => rfl, List.nodup_singleton _, by decide +kernel, fun p hp _ hreset => by
      obtain rfl := List.mem_singleton.mp hp
      cases hreset⟩
  have hrun : ((quota Sample.settings).only Unchanged).Run Sample.start Sample.events w :=
    System.Run.only_of_foldlM hw
  refine ⟨w, hw, hcharges, ?_⟩
  exact (quota_limits Sample.settings Arithmetic.decimal_exact ⟨_, _, hstart, hrun⟩
    (by rw [hpolicies]; exact List.mem_singleton_self Sample.policy)).1 1 rfl

end CodeMate.Quota
