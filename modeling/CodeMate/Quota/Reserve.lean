import CodeMate.Framework.Run
import CodeMate.Quota.Policy
import Mathlib.Data.List.Nodup

/-!
# Reservations over the committed tables

Any number of clients reserve and release. `reserve` reads the clock, asks for
the rows of the policies that match and waits for their locks, decides, and
writes; `World` has the committed tables, the locks on policy rows and where
each client stands. A client can be cut off at any point (`leave`), which rolls
back and frees its locks; policies are created and updated in between.

`Locked` holds in every state that is reached: a client that decides or writes
has the locks of its policies and sees them as they are.
-/

namespace CodeMate.Quota

open Framework

structure Settings where
  enabled : Bool
  leaseSeconds : Nat
  defaultCallCostUnits : ℚ
  arithmetic : Arithmetic

/-- How long a lease runs. -/
def Settings.lease (s : Settings) : Int := (max 1 s.leaseSeconds : Nat) * second

/-- Where a client stands. -/
inductive Phase
  | idle
  | started (r : Request) (now : Int)
  /-- The statement for the policies runs; it saw these rows when it began. -/
  | waiting (r : Request) (now : Int) (candidates : List String)
  | locked (r : Request) (now : Int) (policies : List MCPQuotaPolicy)
  | admitted (r : Request) (now : Int) (policies : List MCPQuotaPolicy) (costUnits : ℚ)
      (existing : Option String)
  /-- `release` has found its token in the event. -/
  | releasing (eventId outcome : String)

/-- The policies that a client reserves under. -/
def Phase.policies : Phase → List MCPQuotaPolicy
  | .locked _ _ policies => policies
  | .admitted _ _ policies _ _ => policies
  | _ => []

structure World (ω : Type*) where
  clock : Int
  db : Tables
  /-- Who has locked the row of a policy. -/
  locks : String → Option ω
  phase : ω → Phase
  /-- The policies that the latest successful reservation of an event was checked against. -/
  checked : String → List String

section Locked

variable {ω : Type*} {w t : World ω}

/-- The ids of policies are unique, and a client that decides or writes has
locked its policies and sees them as they are. -/
structure Locked (w : World ω) : Prop where
  ids : (w.db.policies.map MCPQuotaPolicy.id).Nodup
  rows : ∀ k, (w.phase k).policies.Sublist w.db.policies
  locks : ∀ k, ∀ p ∈ (w.phase k).policies, w.locks p.id = some k

namespace Locked

theorem mem (h : Locked w) {k : ω} {p : MCPQuotaPolicy} (hp : p ∈ (w.phase k).policies) : p ∈ w.db.policies :=
  (h.rows k).subset hp

/-- Two policies with one id are one. -/
theorem eq_of_id (h : Locked w) {p q : MCPQuotaPolicy} (hp : p ∈ w.db.policies) (hq : q ∈ w.db.policies)
    (hid : p.id = q.id) : p = q := List.inj_on_of_nodup_map h.ids hp hq hid

/-- The policies of a client have different ids. -/
theorem nodup (h : Locked w) (k : ω) : ((w.phase k).policies.map MCPQuotaPolicy.id).Nodup :=
  h.ids.sublist ((h.rows k).map _)

/-- Two clients have no policy in common. -/
theorem apart (h : Locked w) {k j : ω} {p q : MCPQuotaPolicy} (hp : p ∈ (w.phase k).policies)
    (hq : q ∈ (w.phase j).policies) (hid : p.id = q.id) : k = j := by
  have hk := h.locks k p hp
  rw [hid, h.locks j q hq] at hk
  exact (Option.some.inj hk).symm

theorem congr (h : Locked w) (hpolicies : t.db.policies = w.db.policies) (hphase : t.phase = w.phase)
    (hlocks : t.locks = w.locks) : Locked t where
  ids := by rw [hpolicies]; exact h.ids
  rows := by rw [hpolicies, hphase]; exact h.rows
  locks := by rw [hphase, hlocks]; exact h.locks

end Locked

end Locked

inductive Event (ω : Type*)
  | tick (now : Int)
  | begin (k : ω) (r : Request)
  | query (k : ω)
  | lock (k : ω) (role : Option String)
  | decide (k : ω)
  | write (k : ω) (id token : String)
  | fetch (k : ω) (eventId token outcome : String)
  | clear (k : ω)
  | leave (k : ω)
  | create (p : MCPQuotaPolicy)
  | update (id : String) (limits : Limits) (callCostUnits : ℚ) (enabled frozen : Bool)

section Step

variable {ω : Type*} [DecidableEq ω] (s : Settings)

namespace World

variable (w : World ω)

def set (k : ω) (phase : Phase) : World ω := { w with phase := Function.update w.phase k phase }

/-- The end of a transaction of `k`. -/
def unlock (k : ω) : World ω := { w with locks := fun id => if w.locks id = some k then none else w.locks id }

/-- The rows that the statement of `k` locks. -/
def rows (r : Request) (candidates : List String) : List MCPQuotaPolicy :=
  w.db.policies.filter fun p => p.matches r && candidates.contains p.id

/-- An update of the row of an event. -/
def setEvent (id : String) (f : MCPQuotaEvent → MCPQuotaEvent) : World ω :=
  { w with db := { w.db with events := w.db.events.map fun e => if e.id = id then f e else e } }

end World

/-- `SELECT … FOR UPDATE` comes back when no row is locked by another client. -/
def lockRows (w : World ω) (k : ω) (r : Request) (now : Int) (candidates : List String)
    (role : Option String) : Option (World ω) :=
  let rows := w.rows r candidates
  if ∀ p ∈ rows, w.locks p.id = none ∨ w.locks p.id = some k then
    let w := { w with locks := fun id => if id ∈ rows.map MCPQuotaPolicy.id then some k else w.locks id }
    some (w.set k (.locked r now (matchingPolicies rows r role)))
  else none

/-- The decision; a rejection is committed. -/
def decideReservation (w : World ω) (k : ω) (r : Request) (now : Int) (policies : List MCPQuotaPolicy) : World ω :=
  if policies = [] then w.set k .idle
  else match w.db.decision s.arithmetic s.defaultCallCostUnits policies r now with
    | .ok (costUnits, existing) => w.set k (.admitted r now policies costUnits (existing.map (·.id)))
    | .error (.exceeded _) => (w.set k .idle).unlock k
    | .error .conflict => w.set k .idle

/-- The new event of a reservation. -/
def newEvent (w : World ω) (r : Request) (now : Int) (costUnits : ℚ) (id token : String) : MCPQuotaEvent where
  id := id
  idempotencyKey := r.idempotencyKey
  tenantId := r.context.tenantId
  runId := r.context.runId
  serverName := r.serverName
  toolName := r.toolName
  costUnits := costUnits
  status := "reserved"
  leaseToken := some token
  leaseExpiresAt := some (now + s.lease)
  createdAt := w.clock

/-- The charges of a new event. -/
def newCharges (w : World ω) (policies : List MCPQuotaPolicy) (costUnits : ℚ) (id : String) :
    List MCPQuotaCharge :=
  policies.map fun p => ⟨id, p.id, 1, costUnits, w.clock⟩

/-- The event of a reservation, with its charges if it is new, and the commit;
where the key has meanwhile got an event, `reserve` starts again. -/
def writeReservation (w : World ω) (k : ω) (r : Request) (now : Int) (policies : List MCPQuotaPolicy)
    (costUnits : ℚ) (existing : Option String) (id token : String) : Option (World ω) :=
  match existing with
  | some eventId =>
    let w := w.setEvent eventId fun e =>
      { e with status := "reserved", leaseToken := some token, leaseExpiresAt := some (now + s.lease) }
    some ((({ w with checked := Function.update w.checked eventId (policies.map MCPQuotaPolicy.id) }).set k .idle).unlock k)
  | none =>
    if w.db.events.any fun e => e.idempotencyKey == r.idempotencyKey then
      some ((w.set k (.started r w.clock)).unlock k)
    else if w.db.events.any fun e => e.id == id then none
    else
      let w := { w with
        db := { w.db with
          events := newEvent s w r now costUnits id token :: w.db.events
          charges := newCharges w policies costUnits id ++ w.db.charges }
        checked := Function.update w.checked id (policies.map MCPQuotaPolicy.id) }
      some ((w.set k .idle).unlock k)

/-- The policy as `create_policy` stores it. -/
def created (p : MCPQuotaPolicy) : MCPQuotaPolicy :=
  { p with temporaryOverride := none, temporaryOverrideExpiresAt := none, resetAt := none }

def step (w : World ω) : Event ω → Option (World ω)
  | .tick now => if w.clock ≤ now then some { w with clock := now } else none
  | .begin k r =>
    match w.phase k with
    | .idle => if s.enabled ∧ r.context.tenantId ≠ "" then some (w.set k (.started r w.clock)) else some w
    | _ => none
  | .query k =>
    match w.phase k with
    | .started r now => some (w.set k (.waiting r now ((w.db.policies.filter (·.matches r)).map (·.id))))
    | _ => none
  | .lock k role =>
    match w.phase k with
    | .waiting r now candidates => lockRows w k r now candidates role
    | _ => none
  | .decide k =>
    match w.phase k with
    | .locked r now policies => some (decideReservation s w k r now policies)
    | _ => none
  | .write k id token =>
    match w.phase k with
    | .admitted r now policies costUnits existing =>
      writeReservation s w k r now policies costUnits existing id token
    | _ => none
  | .fetch k eventId token outcome =>
    match w.phase k with
    | .idle =>
      if (w.db.event eventId).any fun e => e.leaseToken == some token then some (w.set k (.releasing eventId outcome))
      else some w
    | _ => none
  | .clear k =>
    match w.phase k with
    | .releasing eventId outcome =>
      some (((w.setEvent eventId fun e =>
        { e with status := outcome, leaseToken := none, leaseExpiresAt := none }).set k .idle).unlock k)
    | _ => none
  | .leave k => some ((w.set k .idle).unlock k)
  | .create p =>
    if (w.db.policies.any fun q => q.id == p.id) || !normalized p.limits p.callCostUnits then none
    else some { w with db := { w.db with policies := created p :: w.db.policies } }
  | .update id limits callCostUnits enabled frozen =>
    if w.locks id = none ∧ normalized limits callCostUnits then
      some { w with db := { w.db with
        policies := w.db.policies.map fun p => if p.id = id then
          { p with limits := limits, callCostUnits := callCostUnits, enabled := enabled, frozen := frozen } else p } }
    else none

/-- What a step can do. -/
inductive Moves (w : World ω) : Event ω → World ω → Prop
  | tick {now : Int} : w.clock ≤ now → Moves w (.tick now) { w with clock := now }
  | stay (e : Event ω) : Moves w e w
  | begun {k : ω} {r : Request} : w.phase k = .idle → Moves w (.begin k r) (w.set k (.started r w.clock))
  | queried {k : ω} {r : Request} {now : Int} {candidates : List String} : w.phase k = .started r now →
      Moves w (.query k) (w.set k (.waiting r now candidates))
  | locked {k : ω} {r : Request} {now : Int} {candidates : List String} (role : Option String) :
      w.phase k = .waiting r now candidates →
      (∀ p ∈ w.rows r candidates, w.locks p.id = none ∨ w.locks p.id = some k) →
      Moves w (.lock k role) (World.set
        { w with locks := fun id => if id ∈ (w.rows r candidates).map MCPQuotaPolicy.id then some k else w.locks id }
        k (.locked r now (matchingPolicies (w.rows r candidates) r role)))
  | admitted {k : ω} {r : Request} {now : Int} {policies : List MCPQuotaPolicy} {costUnits : ℚ}
      {existing : Option MCPQuotaEvent} : w.phase k = .locked r now policies → policies ≠ [] →
      w.db.decision s.arithmetic s.defaultCallCostUnits policies r now = .ok (costUnits, existing) →
      Moves w (.decide k) (w.set k (.admitted r now policies costUnits (existing.map (·.id))))
  | refused {k : ω} {r : Request} {now : Int} {policies : List MCPQuotaPolicy} :
      w.phase k = .locked r now policies → Moves w (.decide k) (w.set k .idle)
  | rejected {k : ω} {r : Request} {now : Int} {policies : List MCPQuotaPolicy} :
      w.phase k = .locked r now policies → Moves w (.decide k) ((w.set k .idle).unlock k)
  | renewed {k : ω} {r : Request} {now : Int} {policies : List MCPQuotaPolicy} {costUnits : ℚ}
      {eventId : String} (id token : String) :
      w.phase k = .admitted r now policies costUnits (some eventId) →
      Moves w (.write k id token) (((World.set
        { (w.setEvent eventId fun e =>
            { e with status := "reserved", leaseToken := some token, leaseExpiresAt := some (now + s.lease) }) with
          checked := Function.update w.checked eventId (policies.map MCPQuotaPolicy.id) } k .idle)).unlock k)
  | retried {k : ω} {r : Request} {now : Int} {policies : List MCPQuotaPolicy} {costUnits : ℚ}
      (id token : String) : w.phase k = .admitted r now policies costUnits none →
      Moves w (.write k id token) ((w.set k (.started r w.clock)).unlock k)
  | charged {k : ω} {r : Request} {now : Int} {policies : List MCPQuotaPolicy} {costUnits : ℚ}
      {id : String} (token : String) : w.phase k = .admitted r now policies costUnits none →
      (∀ e ∈ w.db.events, e.idempotencyKey ≠ r.idempotencyKey) → (∀ e ∈ w.db.events, e.id ≠ id) →
      Moves w (.write k id token) (((World.set
        { w with
          db := { w.db with
            events := newEvent s w r now costUnits id token :: w.db.events
            charges := newCharges w policies costUnits id ++ w.db.charges }
          checked := Function.update w.checked id (policies.map MCPQuotaPolicy.id) } k .idle)).unlock k)
  | fetched {k : ω} {eventId token outcome : String} : w.phase k = .idle →
      Moves w (.fetch k eventId token outcome) (w.set k (.releasing eventId outcome))
  | cleared {k : ω} {eventId outcome : String} : w.phase k = .releasing eventId outcome →
      Moves w (.clear k) (((w.setEvent eventId fun e =>
        { e with status := outcome, leaseToken := none, leaseExpiresAt := none }).set k .idle).unlock k)
  | left (k : ω) : Moves w (.leave k) ((w.set k .idle).unlock k)
  | created {p : MCPQuotaPolicy} : (∀ q ∈ w.db.policies, q.id ≠ p.id) → normalized p.limits p.callCostUnits = true →
      Moves w (.create p) { w with db := { w.db with policies := created p :: w.db.policies } }
  | updated {id : String} {limits : Limits} {callCostUnits : ℚ} (enabled frozen : Bool) :
      w.locks id = none → normalized limits callCostUnits = true →
      Moves w (.update id limits callCostUnits enabled frozen) { w with db := { w.db with
        policies := w.db.policies.map fun p => if p.id = id then
          { p with limits := limits, callCostUnits := callCostUnits, enabled := enabled, frozen := frozen } else p } }

variable {s} {w t : World ω}

theorem decide_moves {k : ω} {r : Request} {now : Int} {policies : List MCPQuotaPolicy}
    (hk : w.phase k = .locked r now policies) : Moves s w (.decide k) (decideReservation s w k r now policies) := by
  unfold decideReservation
  split
  · exact .refused hk
  · next hne =>
    split
    · next hdecision => exact .admitted hk hne hdecision
    · exact .rejected hk
    · exact .refused hk

theorem write_moves {k : ω} {r : Request} {now : Int} {policies : List MCPQuotaPolicy} {costUnits : ℚ}
    {existing : Option String} {id token : String} (hk : w.phase k = .admitted r now policies costUnits existing)
    (h : writeReservation s w k r now policies costUnits existing id token = some t) :
    Moves s w (.write k id token) t := by
  unfold writeReservation at h
  cases existing with
  | some eventId =>
    obtain rfl := Option.some.inj h
    exact .renewed id token hk
  | none =>
    dsimp only at h
    split at h
    · obtain rfl := Option.some.inj h
      exact .retried id token hk
    · next hkey =>
      split at h
      · cases h
      · next hid =>
        obtain rfl := Option.some.inj h
        exact .charged token hk (fun e he heq => hkey (List.any_eq_true.mpr ⟨e, he, beq_iff_eq.mpr heq⟩))
          fun e he heq => hid (List.any_eq_true.mpr ⟨e, he, beq_iff_eq.mpr heq⟩)

theorem step_moves {e : Event ω} (h : step s w e = some t) : Moves s w e t := by
  cases e with
  | tick now =>
    have h : (if w.clock ≤ now then some { w with clock := now } else none) = some t := h
    split at h
    · next hle => obtain rfl := Option.some.inj h; exact .tick hle
    · cases h
  | begin k r =>
    cases hk : w.phase k with
    | idle =>
      simp only [step, hk] at h
      split at h
      · obtain rfl := Option.some.inj h; exact .begun hk
      · obtain rfl := Option.some.inj h; exact .stay _
    | _ => simp only [step, hk] at h; cases h
  | query k =>
    cases hk : w.phase k with
    | started r now =>
      simp only [step, hk] at h
      obtain rfl := Option.some.inj h
      exact .queried hk
    | _ => simp only [step, hk] at h; cases h
  | lock k role =>
    cases hk : w.phase k with
    | waiting r now candidates =>
      simp only [step, hk, lockRows] at h
      split at h
      · next hfree => obtain rfl := Option.some.inj h; exact .locked role hk hfree
      · cases h
    | _ => simp only [step, hk] at h; cases h
  | decide k =>
    cases hk : w.phase k with
    | locked r now policies =>
      simp only [step, hk] at h
      obtain rfl := Option.some.inj h
      exact decide_moves hk
    | _ => simp only [step, hk] at h; cases h
  | write k id token =>
    cases hk : w.phase k with
    | admitted r now policies costUnits existing =>
      simp only [step, hk] at h
      exact write_moves hk h
    | _ => simp only [step, hk] at h; cases h
  | fetch k eventId token outcome =>
    cases hk : w.phase k with
    | idle =>
      simp only [step, hk] at h
      split at h
      · obtain rfl := Option.some.inj h; exact .fetched hk
      · obtain rfl := Option.some.inj h; exact .stay _
    | _ => simp only [step, hk] at h; cases h
  | clear k =>
    cases hk : w.phase k with
    | releasing eventId outcome =>
      simp only [step, hk] at h
      obtain rfl := Option.some.inj h
      exact .cleared hk
    | _ => simp only [step, hk] at h; cases h
  | leave k => obtain rfl := Option.some.inj h; exact .left k
  | create p =>
    simp only [step] at h
    split at h
    · cases h
    · next hok =>
      obtain rfl := Option.some.inj h
      simp only [Bool.or_eq_true, not_or, List.any_eq_true, not_exists, Bool.not_eq_true', Bool.not_eq_false] at hok
      exact .created (fun q hq heq => hok.1 q ⟨hq, beq_iff_eq.mpr heq⟩) hok.2
  | update id limits callCostUnits enabled frozen =>
    simp only [step] at h
    split at h
    · next hok => obtain rfl := Option.some.inj h; exact .updated enabled frozen hok.1 hok.2
    · cases h

section Fields

variable (w) (k : ω) (phase : Phase)

@[simp] theorem set_clock : (w.set k phase).clock = w.clock := rfl
@[simp] theorem set_db : (w.set k phase).db = w.db := rfl
@[simp] theorem set_locks : (w.set k phase).locks = w.locks := rfl
@[simp] theorem set_checked : (w.set k phase).checked = w.checked := rfl
@[simp] theorem unlock_clock : (w.unlock k).clock = w.clock := rfl
@[simp] theorem unlock_db : (w.unlock k).db = w.db := rfl
@[simp] theorem unlock_phase : (w.unlock k).phase = w.phase := rfl
@[simp] theorem unlock_checked : (w.unlock k).checked = w.checked := rfl

/-- What holds of the new phase of `k` and of the phases of the others holds of all. -/
theorem World.set_all {P : ω → Phase → Prop} (hk : P k phase) (h : ∀ j, P j (w.phase j)) (j : ω) :
    P j ((w.set k phase).phase j) := by
  by_cases hj : j = k
  · obtain rfl := hj
    show P j (Function.update w.phase j phase j)
    rw [Function.update_self]
    exact hk
  · show P j (Function.update w.phase k phase j)
    rw [Function.update_of_ne hj]
    exact h j

end Fields

namespace Locked

/-- A client that takes over no policies. -/
theorem set (h : Locked w) {k : ω} {phase : Phase} (hrows : phase.policies.Sublist (w.phase k).policies) :
    Locked (w.set k phase) where
  ids := h.ids
  rows := w.set_all k phase (P := fun _ phase => phase.policies.Sublist w.db.policies)
    (hrows.trans (h.rows k)) h.rows
  locks := w.set_all k phase (P := fun j phase => ∀ p ∈ phase.policies, w.locks p.id = some j)
    (fun p hp => h.locks k p (hrows.subset hp)) h.locks

theorem unlock (h : Locked w) {k : ω} (hk : (w.phase k).policies = []) : Locked (w.unlock k) where
  ids := h.ids
  rows := h.rows
  locks j p hp := by
    have hj := h.locks j p hp
    have hne : k ≠ j := by
      rintro rfl
      rw [unlock_phase, hk] at hp
      cases hp
    show (if w.locks p.id = some k then none else w.locks p.id) = some j
    rw [hj, if_neg fun heq => hne (Option.some.inj heq).symm]

/-- The end of a transaction. -/
theorem finish (h : Locked w) (k : ω) {phase : Phase} (hphase : phase.policies = []) :
    Locked ((w.set k phase).unlock k) := by
  refine (h.set (by rw [hphase]; exact List.nil_sublist _)).unlock ?_
  show (Function.update w.phase k phase k).policies = []
  rw [Function.update_self]
  exact hphase

theorem step (h : Locked w) {e : Event ω} (hm : Moves s w e t) : Locked t := by
  cases hm with
  | tick => exact h.congr rfl rfl rfl
  | stay => exact h
  | begun => exact h.set (List.nil_sublist _)
  | queried => exact h.set (List.nil_sublist _)
  | @locked k r now candidates role hk hfree =>
    have hrows : (w.rows r candidates).Sublist w.db.policies := List.filter_sublist
    have hsub := (List.filter_sublist (l := w.rows r candidates)
      (p := fun p => (p.principalType, p.principalId) ∈ r.principals role)).trans hrows
    refine ⟨h.ids, World.set_all _ k _ (P := fun _ phase => phase.policies.Sublist w.db.policies) hsub h.rows,
      World.set_all _ k _ (P := fun j phase => ∀ p ∈ phase.policies,
        (if p.id ∈ (w.rows r candidates).map MCPQuotaPolicy.id then some k else w.locks p.id) = some j)
        (fun p hp => ?_) fun j p hp => ?_⟩
    · rw [if_pos (List.mem_map_of_mem (List.mem_of_mem_filter hp))]
    · have hj := h.locks j p hp
      split
      · next hmem =>
        -- the row was free or already locked by `k`
        obtain ⟨q, hq, hid⟩ := List.mem_map.mp hmem
        have hfree := hfree q hq
        rw [hid, hj] at hfree
        rcases hfree with hfree | hfree
        · cases hfree
        · rw [← hfree]
      · exact hj
  | admitted hk => exact h.set (by rw [hk]; exact List.Sublist.refl _)
  | refused => exact h.set (List.nil_sublist _)
  | rejected => exact h.finish _ rfl
  | renewed => refine Locked.finish ?_ _ rfl; exact h.congr rfl rfl rfl
  | retried => exact h.finish _ rfl
  | charged => refine Locked.finish ?_ _ rfl; exact h.congr rfl rfl rfl
  | fetched => exact h.set (List.nil_sublist _)
  | cleared => refine Locked.finish ?_ _ rfl; exact h.congr rfl rfl rfl
  | left => exact h.finish _ rfl
  | created hid =>
    refine ⟨List.nodup_cons.mpr ⟨fun hmem => ?_, h.ids⟩, fun k => (h.rows k).cons _, h.locks⟩
    obtain ⟨q, hq, heq⟩ := List.mem_map.mp hmem
    exact hid q hq heq
  | @updated id limits callCostUnits enabled frozen hfree =>
    -- the row is not locked, so no client has it
    have hne : ∀ k, ∀ p ∈ (w.phase k).policies, p.id ≠ id := by
      intro k p hp heq
      have hk := h.locks k p hp
      rw [heq, hfree] at hk
      cases hk
    refine ⟨?_, fun k => ?_, h.locks⟩
    · have hids : (w.db.policies.map fun p => if p.id = id then
          { p with limits := limits, callCostUnits := callCostUnits, enabled := enabled, frozen := frozen } else p).map
          MCPQuotaPolicy.id = w.db.policies.map MCPQuotaPolicy.id := by
        rw [List.map_map]
        refine List.map_congr_left fun p _ => ?_
        show MCPQuotaPolicy.id (if p.id = id then _ else p) = p.id
        split <;> rfl
      rw [hids]
      exact h.ids
    · have hsub := (h.rows k).map fun p => if p.id = id then
        { p with limits := limits, callCostUnits := callCostUnits, enabled := enabled, frozen := frozen } else p
      rwa [List.map_congr_left (g := fun p => p) fun p hp => if_neg (hne k p hp), List.map_id'] at hsub

end Locked

end Step

end CodeMate.Quota
