import CodeMate.Framework.Run
import CodeMate.Quota.Charging

/-!
# The slots of leases in Redis

Reservations and releases one after another, over the tables and the store.
`release` compares its token with that of the event, writes the event, and
removes the event from the concurrency sets of its policies, in three steps; it
can stop after each, and time passes and others reserve in between. The event
carries the token of a lease; a concurrency set only has the event's id.

`slots_stay`: where no late release meets a newer lease of its event, the row
and the slots of a lease stay until its holder releases it or it ends.
`late_release_frees` has a run where one does.
-/

namespace CodeMate.Quota

open Framework Framework.Redis

/-! ## The ends of an attempt -/

section Ends

variable (s : Settings) (rs : RedisSettings) (r : Request) (a : Attempt)

/-- What an attempt returns and leaves. -/
inductive Ends (b : Backend) : Except ReserveError MCPQuotaReservation → Backend → Prop
  | kept {result : Except ReserveError MCPQuotaReservation} (rejections : List Exceeded) :
      (∀ reservation, result = .ok reservation → reservation.eventId = none) →
      Ends b result { b with rejections := rejections }
  | undone {costUnits : ℚ} {existing : Option MCPQuotaEvent} {db : Tables} {store : Store RedisKey}
      {error : ReserveError} (rejections : List Exceeded) :
      b.db.decision s.arithmetic s.defaultCallCostUnits (b.policies r a) r a.now = .ok (costUnits, existing) →
      b.written s r a costUnits existing = some db →
      (store = scriptStore rs a (b.call s rs r a costUnits existing) b.store ∨
        store = redisRelease rs a.removed ((b.policies r a).map (·.id)) (a.reserves existing)
          (scriptStore rs a (b.call s rs r a costUnits existing) b.store)) →
      Ends b (.error error) { b with store := store, rejections := rejections }
  | committed {costUnits : ℚ} {existing : Option MCPQuotaEvent} {db : Tables}
      {result : Except ReserveError MCPQuotaReservation} :
      b.db.decision s.arithmetic s.defaultCallCostUnits (b.policies r a) r a.now = .ok (costUnits, existing) →
      b.written s r a costUnits existing = some db →
      (∀ reservation, result = .ok reservation →
        reservation = ⟨some (a.reserves existing), some a.token, (b.policies r a).map (·.id), true⟩) →
      Ends b result { b with db := db, store := scriptStore rs a (b.call s rs r a costUnits existing) b.store }

variable {s rs r a} {b after : Backend} {result : Except ReserveError MCPQuotaReservation}

theorem reject_ends {b' : Backend} {e : Exceeded} (h : b'.reject a e = .done result after) :
    (∃ rejections, after = { b' with rejections := rejections }) ∧ ∃ error, result = .error error := by
  unfold Backend.reject at h
  split at h <;> obtain ⟨rfl, rfl⟩ := Ending.done.inj h
  · exact ⟨⟨_, rfl⟩, _, rfl⟩
  · exact ⟨⟨_, rfl⟩, _, rfl⟩

theorem take_ends {costUnits : ℚ} {existing : Option MCPQuotaEvent}
    (hdecision : b.db.decision s.arithmetic s.defaultCallCostUnits (b.policies r a) r a.now =
      .ok (costUnits, existing))
    (h : b.take s rs r a costUnits existing = .done result after) : Ends s rs r a b result after := by
  unfold Backend.take at h
  split at h
  · obtain ⟨rfl, rfl⟩ := Ending.done.inj h
    exact .kept b.rejections nofun
  · cases h
  · cases h
  · next hwritten =>
    unfold Backend.commit at h
    dsimp only at h
    split at h
    · obtain ⟨⟨rejections, rfl⟩, error, rfl⟩ := reject_ends h
      exact .undone rejections hdecision hwritten (.inl rfl)
    · obtain ⟨rfl, rfl⟩ := Ending.done.inj h
      exact .undone b.rejections hdecision hwritten (.inr rfl)
    · split at h
      · obtain ⟨rfl, rfl⟩ := Ending.done.inj h
        exact .undone b.rejections hdecision hwritten (.inr rfl)
      · split at h
        · obtain ⟨rfl, rfl⟩ := Ending.done.inj h
          exact .committed hdecision hwritten nofun
        · obtain ⟨rfl, rfl⟩ := Ending.done.inj h
          exact .committed hdecision hwritten fun reservation hok => (Except.ok.inj hok).symm

theorem attempt_ends (h : attempt s rs r a b = .done result after) : Ends s rs r a b result after := by
  have hdisabled : Ends s rs r a b (.ok ⟨none, none, [], false⟩) b := .kept b.rejections fun reservation hok => by
    obtain rfl := Except.ok.inj hok
    rfl
  unfold attempt at h
  dsimp only at h
  split at h
  · obtain ⟨rfl, rfl⟩ := Ending.done.inj h
    exact hdisabled
  · split at h
    · obtain ⟨rfl, rfl⟩ := Ending.done.inj h
      exact .kept b.rejections nofun
    · split at h
      · obtain ⟨rfl, rfl⟩ := Ending.done.inj h
        exact hdisabled
      · split at h
        · obtain ⟨rfl, rfl⟩ := Ending.done.inj h
          exact .kept b.rejections nofun
        · obtain ⟨⟨rejections, rfl⟩, error, rfl⟩ := reject_ends h
          exact .kept rejections nofun
        · next hdecision => exact take_ends hdecision h

end Ends

/-! ## Reservations and releases -/

namespace Slots

/-- A reservation that a client has got, when its lease ends, and the policies
under which the script has taken its slot. -/
structure Lease where
  eventId : String
  token : String
  policyIds : List String
  ends : Int
  slots : List String
  deriving DecidableEq

/-- Where a client stands in `release`. -/
inductive Phase
  | idle
  /-- The event has the token of the reservation. -/
  | matched (l : Lease) (outcome : String)
  /-- `_redis_release` comes next. -/
  | written (l : Lease)

structure State (ω : Type*) where
  backend : Backend
  leases : List Lease
  /-- The tokens with which `release` has been called. -/
  released : List String
  phase : ω → Phase

inductive Event (ω : Type*)
  | tick (now : Int)
  | reserve (r : Request) (a : Attempt)
  | administer (policies : List MCPQuotaPolicy)
  | release (k : ω) (l : Lease) (outcome : String)
  | clear (k : ω)
  | remove (k : ω) (removed : String → Bool)
  | leave (k : ω)

section Step

variable {ω : Type*} [DecidableEq ω] (s : Settings) (rs : RedisSettings)

def State.set (w : State ω) (k : ω) (phase : Phase) : State ω :=
  { w with phase := Function.update w.phase k phase }

/-- The script takes the reservation of the attempt. -/
def takes (r : Request) (a : Attempt) (b : Backend) : Bool :=
  match b.db.decision s.arithmetic s.defaultCallCostUnits (b.policies r a) r a.now with
  | .ok (costUnits, existing) => decide (Taken rs a (b.call s rs r a costUnits existing) b.store)
  | .error _ => false

/-- What a client has after `reserve` returns. -/
def obtained (r : Request) (a : Attempt) (b : Backend) (reservation : MCPQuotaReservation) : Option Lease :=
  match reservation.eventId, reservation.leaseToken with
  | some eventId, some token =>
    some ⟨eventId, token, reservation.policyIds, a.now + s.lease,
      if takes s rs r a b then reservation.policyIds else []⟩
  | _, _ => none

/-- The update of `release`, which cuts the outcome. -/
def clearEvent (eventId outcome : String) (e : MCPQuotaEvent) : MCPQuotaEvent :=
  if e.id = eventId then
    { e with status := String.ofList (outcome.toList.take 32), leaseToken := none, leaseExpiresAt := none }
  else e

def step (w : State ω) : Event ω → Option (State ω)
  | .tick now => if w.backend.clock ≤ now then some { w with backend := { w.backend with clock := now } } else none
  | .reserve r a =>
    if a.now = w.backend.clock ∧ a.redisNow = w.backend.clock then
      match attempt s rs r a w.backend with
      | .retry _ => none
      | .done (.error _) b => some { w with backend := b }
      | .done (.ok reservation) b =>
        some { w with backend := b, leases := (obtained s rs r a w.backend reservation).toList ++ w.leases }
    else none
  | .administer policies =>
    some { w with backend := { w.backend with db := { w.backend.db with policies := policies } } }
  | .release k l outcome =>
    match w.phase k with
    | .idle =>
      if l ∈ w.leases then
        let w := { w with released := l.token :: w.released }
        if (w.backend.db.event l.eventId).any fun e => e.leaseToken == some l.token then
          some (w.set k (.matched l outcome))
        else some (w.set k (.written l))
      else none
    | _ => none
  | .clear k =>
    match w.phase k with
    | .matched l outcome =>
      let db := { w.backend.db with events := w.backend.db.events.map (clearEvent l.eventId outcome) }
      some (State.set { w with backend := { w.backend with db := db } } k (.written l))
    | _ => none
  | .remove k removed =>
    match w.phase k with
    | .written l =>
      let store := redisRelease rs removed l.policyIds l.eventId w.backend.store
      some (State.set { w with backend := { w.backend with store := store } } k .idle)
    | _ => none
  | .leave k => some (w.set k .idle)

/-- Nothing has been reserved; what is in the tables and the store is from before. -/
structure Start (w : State ω) : Prop where
  leases : w.leases = []
  ids : (w.backend.db.events.map MCPQuotaEvent.id).Nodup

/-- The system of one deployment. -/
def slots : System (State ω) (Event ω) := .ofStep Start (step s rs)

end Step

section Held

variable {ω : Type*} {s : Settings} {rs : RedisSettings} {w : State ω}

/-- The lease runs, and its holder has not released it. -/
structure Held (w : State ω) (l : Lease) : Prop where
  mem : l ∈ w.leases
  token : l.token ∉ w.released
  ends : w.backend.clock < l.ends

/-- A lease that runs in milliseconds, as Redis has it. -/
def Counts (rs : RedisSettings) (w : State ω) (l : Lease) : Prop :=
  rs.millis w.backend.clock < rs.millis l.ends

/-- A release writes the row of its event, and removes the event from a set,
only where no lease of the event is held there. -/
def Timely (rs : RedisSettings) (w : State ω) : Event ω → Prop
  | .clear k => ∀ l outcome, w.phase k = .matched l outcome → ∀ l', Held w l' → l'.eventId ≠ l.eventId
  | .remove k removed => ∀ l, w.phase k = .written l → ∀ l', Held w l' → Counts rs w l' → l'.eventId = l.eventId →
      ∀ id ∈ l.policyIds, removed id = true → id ∉ l'.slots
  | _ => True

/-! ## Every state that is reached -/

/-- The row of the lease. -/
def HasRow (db : Tables) (l : Lease) : Prop :=
  ∃ e ∈ db.events, e.id = l.eventId ∧ e.leaseToken = some l.token ∧ e.leaseExpiresAt = some l.ends

/-- The slots of the lease. -/
def HasSlots (rs : RedisSettings) (store : Store RedisKey) (l : Lease) : Prop :=
  ∀ id ∈ l.slots, store.Holds (.concurrency id) l.eventId (rs.millis l.ends) l.ends

structure Inv (s : Settings) (rs : RedisSettings) (w : State ω) : Prop where
  ids : (w.backend.db.events.map MCPQuotaEvent.id).Nodup
  ends : ∀ l ∈ w.leases, l.ends ≤ w.backend.clock + s.lease
  row : ∀ l, Held w l → HasRow w.backend.db l
  slots : ∀ l, Held w l → Counts rs w l → HasSlots rs w.backend.store l

namespace Inv

/-- A step that leaves the backend, and only ends leases. -/
theorem fewer {w' : State ω} (h : Inv s rs w) (hbackend : w'.backend = w.backend) (hleases : w'.leases = w.leases)
    (hreleased : ∀ token ∈ w.released, token ∈ w'.released) : Inv s rs w' := by
  have hheld : ∀ l, Held w' l → Held w l := fun l hl =>
    ⟨hleases ▸ hl.mem, fun hmem => hl.token (hreleased _ hmem), hbackend ▸ hl.ends⟩
  refine ⟨?_, ?_, fun l hl => ?_, fun l hl hcounts => ?_⟩
  · rw [hbackend]
    exact h.ids
  · rw [hbackend, hleases]
    exact h.ends
  · rw [hbackend]
    exact h.row l (hheld l hl)
  · unfold Counts at hcounts
    rw [hbackend] at hcounts ⊢
    exact h.slots l (hheld l hl) hcounts

/-- A step in which the backend comes to keep the rows and slots that are held. -/
theorem keep {b : Backend} (h : Inv s rs w) (hclock : w.backend.clock ≤ b.clock)
    (hids : (b.db.events.map MCPQuotaEvent.id).Nodup) (hrow : ∀ l, Held w l → HasRow b.db l)
    (hslots : ∀ l, Held w l → Counts rs w l → HasSlots rs b.store l) : Inv s rs { w with backend := b } := by
  have hheld : ∀ l, Held { w with backend := b } l → Held w l := fun l hl =>
    ⟨hl.mem, hl.token, lt_of_le_of_lt hclock hl.ends⟩
  refine ⟨hids, fun l hl => ?_, fun l hl => hrow l (hheld l hl), fun l hl hcounts => ?_⟩
  · show l.ends ≤ b.clock + s.lease
    have := h.ends l hl
    omega
  · exact hslots l (hheld l hl) (lt_of_le_of_lt (rs.millis_mono hclock) hcounts)

theorem clear {k : ω} {l : Lease} {outcome : String} (h : Inv s rs w) (hk : w.phase k = .matched l outcome)
    (htimely : Timely rs w (.clear k)) : Inv s rs { w with backend := { w.backend with
      db := { w.backend.db with events := w.backend.db.events.map (clearEvent l.eventId outcome) } } } := by
  have hids : (w.backend.db.events.map (clearEvent l.eventId outcome)).map MCPQuotaEvent.id =
      w.backend.db.events.map MCPQuotaEvent.id := by
    rw [List.map_map]
    refine List.map_congr_left fun e _ => ?_
    show (clearEvent l.eventId outcome e).id = e.id
    unfold clearEvent
    split <;> rfl
  refine h.keep le_rfl (hids ▸ h.ids) (fun l' hl' => ?_) h.slots
  obtain ⟨e, he, heid, htoken, hends⟩ := h.row l' hl'
  have hkeep : clearEvent l.eventId outcome e = e := by
    unfold clearEvent
    rw [if_neg (heid ▸ htimely l outcome hk l' hl')]
  exact ⟨e, List.mem_map.mpr ⟨e, he, hkeep⟩, heid, htoken, hends⟩

/-- Slots outside of what `_redis_release` removes stay. -/
theorem holds_redisRelease {removed : String → Bool} {policyIds : List String} {eventId member : String}
    {store : Store RedisKey} {id : String} {score later : Int}
    (h : store.Holds (.concurrency id) member score later)
    (hne : id ∈ policyIds → removed id = true → member ≠ eventId) :
    (redisRelease rs removed policyIds eventId store).Holds (.concurrency id) member score later := by
  unfold redisRelease
  split
  · induction policyIds generalizing store with
    | nil => exact h
    | cons id' policyIds ih =>
      rw [List.foldl_cons]
      refine ih ?_ fun hmem => hne (List.mem_cons_of_mem _ hmem)
      split
      · next hremoved =>
        refine h.zrem fun hk => ?_
        obtain rfl := RedisKey.concurrency.inj hk
        exact hne List.mem_cons_self hremoved
      · exact h
  · exact h

theorem remove {k : ω} {removed : String → Bool} {l : Lease} (h : Inv s rs w) (hk : w.phase k = .written l)
    (htimely : Timely rs w (.remove k removed)) : Inv s rs { w with backend := { w.backend with
      store := redisRelease rs removed l.policyIds l.eventId w.backend.store } } := by
  refine h.keep le_rfl h.ids h.row fun l' hl' hcounts id hid => ?_
  refine holds_redisRelease (h.slots l' hl' hcounts id hid) fun hmem hremoved heq => ?_
  exact htimely l hk l' hl' hcounts heq id hmem hremoved hid

/-- A reservation is not of an event whose lease is held. -/
theorem reserves_ne {r : Request} {a : Attempt} {costUnits : ℚ} {existing : Option MCPQuotaEvent} {db : Tables}
    (h : Inv s rs w) (hnow : a.now = w.backend.clock)
    (hdecision : w.backend.db.decision s.arithmetic s.defaultCallCostUnits (w.backend.policies r a) r a.now =
      .ok (costUnits, existing))
    (hwritten : w.backend.written s r a costUnits existing = some db) {l : Lease} (hl : Held w l) :
    l.eventId ≠ a.reserves existing := by
  obtain ⟨e, he, heid, -, hends⟩ := h.row l hl
  obtain ⟨e', he', rfl, -⟩ | ⟨rfl, hfresh, -⟩ := written_events hdecision hwritten
  · intro heq
    have hsame : e = e' := List.inj_on_of_nodup_map h.ids he he' (heid.trans heq)
    exact decision_free hdecision (hsame ▸ ⟨l.ends, hends, hnow ▸ hl.ends⟩)
  · exact fun heq => hfresh e he (heid.trans heq)

/-- The script keeps the slots that are held. -/
theorem slots_scriptStore {r : Request} {a : Attempt} {costUnits : ℚ} {existing : Option MCPQuotaEvent}
    (h : Inv s rs w) (hlease : s.lease ≤ 691200 * second) (hnow : a.now = w.backend.clock)
    (hredis : a.redisNow = w.backend.clock) {l : Lease} (hl : Held w l) (hcounts : Counts rs w l)
    (hne : l.eventId ≠ a.reserves existing) :
    HasSlots rs (scriptStore rs a (w.backend.call s rs r a costUnits existing) w.backend.store) l := by
  intro id hid
  have hholds := h.slots l hl hcounts id hid
  unfold scriptStore
  split
  · have hscore : (w.backend.call s rs r a costUnits existing).nowMs < rs.millis l.ends := by
      show rs.millis a.now < _
      rw [hnow]
      exact hcounts
    have hnow : a.redisNow < l.ends := hredis ▸ hl.ends
    have hlater : l.ends ≤ a.redisNow + 691200 * second := by
      have := h.ends l hl.mem
      omega
    exact holds_reserveScript hholds hscore hnow hlater hne
  · exact hholds

theorem undone {r : Request} {a : Attempt} {costUnits : ℚ} {existing : Option MCPQuotaEvent} {db : Tables}
    {store : Store RedisKey} {rejections : List Exceeded} (h : Inv s rs w) (hlease : s.lease ≤ 691200 * second)
    (hnow : a.now = w.backend.clock) (hredis : a.redisNow = w.backend.clock)
    (hdecision : w.backend.db.decision s.arithmetic s.defaultCallCostUnits (w.backend.policies r a) r a.now =
      .ok (costUnits, existing))
    (hwritten : w.backend.written s r a costUnits existing = some db)
    (hstore : store = scriptStore rs a (w.backend.call s rs r a costUnits existing) w.backend.store ∨
      store = redisRelease rs a.removed ((w.backend.policies r a).map (·.id)) (a.reserves existing)
        (scriptStore rs a (w.backend.call s rs r a costUnits existing) w.backend.store)) :
    Inv s rs { w with backend := { w.backend with store := store, rejections := rejections } } := by
  refine h.keep le_rfl h.ids h.row fun l hl hcounts => ?_
  have hne := h.reserves_ne hnow hdecision hwritten hl
  have hslots : HasSlots rs (scriptStore rs a (w.backend.call s rs r a costUnits existing) w.backend.store) l :=
    h.slots_scriptStore hlease hnow hredis hl hcounts hne
  rcases hstore with rfl | rfl
  · exact hslots
  · exact fun id hid => holds_redisRelease (hslots id hid) fun _ _ => hne

/-- The rows after a reservation: those that are held, and its own. -/
theorem rows_written {r : Request} {a : Attempt} {costUnits : ℚ} {existing : Option MCPQuotaEvent} {db : Tables}
    (h : Inv s rs w) (hnow : a.now = w.backend.clock)
    (hdecision : w.backend.db.decision s.arithmetic s.defaultCallCostUnits (w.backend.policies r a) r a.now =
      .ok (costUnits, existing))
    (hwritten : w.backend.written s r a costUnits existing = some db) :
    (db.events.map MCPQuotaEvent.id).Nodup ∧ (∀ l, Held w l → HasRow db l) ∧
      ∃ e ∈ db.events, e.id = a.reserves existing ∧ e.leaseToken = some a.token ∧
        e.leaseExpiresAt = some (a.now + s.lease) := by
  obtain ⟨e', he', rfl, hevents⟩ | ⟨rfl, hfresh, hevents⟩ := written_events hdecision hwritten
  · unfold HasRow
    rw [hevents]
    refine ⟨?_, fun l hl => ?_, ?_⟩
    · rw [List.map_map, List.map_congr_left (g := MCPQuotaEvent.id) fun e _ => ?_]
      · exact h.ids
      · show MCPQuotaEvent.id (if e.id = e'.id then _ else e) = e.id
        split <;> rfl
    · obtain ⟨e, he, heid, hrow⟩ := h.row l hl
      have hne : ¬ e.id = e'.id := fun heq => h.reserves_ne hnow hdecision hwritten hl (heid.symm.trans heq)
      exact ⟨e, List.mem_map.mpr ⟨e, he, if_neg hne⟩, heid, hrow⟩
    · exact ⟨_, List.mem_map.mpr ⟨e', he', if_pos rfl⟩, rfl, rfl, rfl⟩
  · unfold HasRow
    rw [hevents]
    refine ⟨List.nodup_cons.mpr ⟨fun hmem => ?_, h.ids⟩, fun l hl => ?_, _, List.mem_cons_self, rfl, rfl, rfl⟩
    · obtain ⟨e, he, heid⟩ := List.mem_map.mp hmem
      exact hfresh e he heid
    · obtain ⟨e, he, hrow⟩ := h.row l hl
      exact ⟨e, List.mem_cons_of_mem _ he, hrow⟩

theorem add {l : Lease} (h : Inv s rs w) (hends : l.ends ≤ w.backend.clock + s.lease) (hrow : HasRow w.backend.db l)
    (hslots : HasSlots rs w.backend.store l) : Inv s rs { w with leases := l :: w.leases } := by
  have hheld : ∀ l', Held { w with leases := l :: w.leases } l' → l' = l ∨ Held w l' := fun l' hl' =>
    (List.mem_cons.mp hl'.mem).imp id fun hmem => ⟨hmem, hl'.token, hl'.ends⟩
  refine ⟨h.ids, List.forall_mem_cons.mpr ⟨hends, h.ends⟩, fun l' hl' => ?_, fun l' hl' hcounts => ?_⟩
  · rcases hheld l' hl' with rfl | hl'
    · exact hrow
    · exact h.row l' hl'
  · rcases hheld l' hl' with rfl | hl'
    · exact hslots
    · exact h.slots l' hl' hcounts

/-- The backend after an attempt. -/
theorem attempt {r : Request} {a : Attempt} {result : Except ReserveError MCPQuotaReservation} {b : Backend}
    (h : Inv s rs w) (hlease : s.lease ≤ 691200 * second) (hnow : a.now = w.backend.clock)
    (hredis : a.redisNow = w.backend.clock) (hends : Ends s rs r a w.backend result b) :
    Inv s rs { w with backend := b } := by
  cases hends with
  | kept rejections => exact h.keep le_rfl h.ids h.row h.slots
  | undone rejections hdecision hwritten hstore =>
    exact h.undone hlease hnow hredis hdecision hwritten hstore
  | committed hdecision hwritten =>
    obtain ⟨hids, hrow, -⟩ := h.rows_written hnow hdecision hwritten
    refine h.keep le_rfl hids hrow fun l hl hcounts => ?_
    exact h.slots_scriptStore hlease hnow hredis hl hcounts (h.reserves_ne hnow hdecision hwritten hl)

/-- The slots that the script takes. -/
theorem slots_taken {r : Request} {a : Attempt} {costUnits : ℚ} {existing : Option MCPQuotaEvent}
    (hlease : s.lease ≤ 691200 * second) (hnow : a.now = w.backend.clock) (hredis : a.redisNow = w.backend.clock)
    (hdecision : w.backend.db.decision s.arithmetic s.defaultCallCostUnits (w.backend.policies r a) r a.now =
      .ok (costUnits, existing)) :
    HasSlots rs (scriptStore rs a (w.backend.call s rs r a costUnits existing) w.backend.store)
      ⟨a.reserves existing, a.token, (w.backend.policies r a).map (·.id), a.now + s.lease,
        if takes s rs r a w.backend then (w.backend.policies r a).map (·.id) else []⟩ := by
  intro id hid
  dsimp only at hid
  unfold takes at hid
  rw [hdecision] at hid
  dsimp only at hid
  split at hid
  · next htaken =>
    have htaken := of_decide_eq_true htaken
    obtain ⟨p, hp, rfl⟩ := List.mem_map.mp hid
    have hkey : RedisKey.concurrency p.id ∈
        (w.backend.call s rs r a costUnits existing).policies.map ScriptPolicy.concurrencyKey :=
      List.mem_map_of_mem (List.mem_map_of_mem hp)
    have hpos := s.lease_pos
    rw [scriptStore_taken htaken]
    exact holds_taken htaken.2.2 hkey (by dsimp only; omega) (by dsimp only; omega)
  · exact absurd hid List.not_mem_nil

/-- A reservation that is returned. -/
theorem obtain_lease {r : Request} {a : Attempt} {reservation : MCPQuotaReservation} {b : Backend}
    (h : Inv s rs w) (hlease : s.lease ≤ 691200 * second) (hnow : a.now = w.backend.clock)
    (hredis : a.redisNow = w.backend.clock) (hends : Ends s rs r a w.backend (.ok reservation) b) :
    Inv s rs { w with
      backend := b, leases := (obtained s rs r a w.backend reservation).toList ++ w.leases } := by
  have hafter := h.attempt hlease hnow hredis hends
  cases hends with
  | kept rejections hnone =>
    have hobtained : obtained s rs r a w.backend reservation = none := by
      unfold obtained
      rw [hnone reservation rfl]
    rw [hobtained]
    exact hafter
  | committed hdecision hwritten hreservation =>
    obtain rfl := hreservation reservation rfl
    obtain ⟨-, -, hrow⟩ := h.rows_written hnow hdecision hwritten
    refine hafter.add ?_ hrow (slots_taken hlease hnow hredis hdecision)
    show a.now + s.lease ≤ w.backend.clock + s.lease
    omega

variable [DecidableEq ω]

theorem set (h : Inv s rs w) (k : ω) (phase : Phase) : Inv s rs (w.set k phase) := h.fewer rfl rfl fun _ hmem => hmem

theorem step {w' : State ω} {e : Event ω} (h : Inv s rs w) (hlease : s.lease ≤ 691200 * second)
    (htimely : Timely rs w e) (hs : Slots.step s rs w e = some w') : Inv s rs w' := by
  unfold Slots.step at hs
  cases e with
  | tick now =>
    dsimp only at hs
    split at hs
    · next hle =>
      obtain rfl := Option.some.inj hs
      exact h.keep hle h.ids h.row h.slots
    · cases hs
  | reserve r a =>
    dsimp only at hs
    split at hs
    · next hclock =>
      split at hs
      · cases hs
      · next hdone =>
        obtain rfl := Option.some.inj hs
        exact h.attempt hlease hclock.1 hclock.2 (attempt_ends hdone)
      · next hdone =>
        obtain rfl := Option.some.inj hs
        exact h.obtain_lease hlease hclock.1 hclock.2 (attempt_ends hdone)
    · cases hs
  | administer policies =>
    obtain rfl := Option.some.inj hs
    exact h.keep le_rfl h.ids h.row h.slots
  | release k l outcome =>
    dsimp only at hs
    split at hs
    · split at hs
      · have hreleased : Inv s rs { w with released := l.token :: w.released } :=
          h.fewer rfl rfl fun _ hmem => List.mem_cons_of_mem _ hmem
        split at hs <;> obtain rfl := Option.some.inj hs
        · exact hreleased.set k _
        · exact hreleased.set k _
      · cases hs
    · cases hs
  | clear k =>
    dsimp only at hs
    split at hs
    · next hk =>
      obtain rfl := Option.some.inj hs
      exact (h.clear hk htimely).set k _
    · cases hs
  | remove k removed =>
    dsimp only at hs
    split at hs
    · next hk =>
      obtain rfl := Option.some.inj hs
      exact (h.remove hk htimely).set k _
    · cases hs
  | leave k =>
    obtain rfl := Option.some.inj hs
    exact h.set k _

end Inv

end Held

namespace Late

open FailedSample

def start : State Unit := ⟨FailedSample.start, [], [], fun _ => .idle⟩

def succeeds (now : Int) (token : String) : Attempt :=
  ⟨now, now, none, "e", token, .done, .answered, true, true, true, fun _ => true⟩

def former : Lease := ⟨"e", "a", ["p"], 180000000, ["p"]⟩

def newer : Lease := ⟨"e", "b", ["p"], 360000000, ["p"]⟩

/-- A lease ends, its key is reserved again, and the first holder releases; `last` comes after. -/
def events (last : Event Unit) : List (Event Unit) :=
  [.reserve (Sample.request "1") (succeeds 0 "a"), .tick 180000000,
    .reserve (Sample.request "1") (succeeds 180000000 "b"), .release () former "success", last]

/-- The steps that `Timely` says nothing about. -/
def plain : Event Unit → Bool
  | .clear _ => false
  | .remove _ _ => false
  | _ => true

/-- The first holder goes on. -/
def removed : Option (State Unit) :=
  (events (.remove () fun _ => true)).foldlM (step Sample.settings redis) start

theorem held {w : State Unit} (hclock : w.backend.clock = 180000000) (hleases : w.leases = [newer, former])
    (hreleased : w.released = ["a"]) : Held w newer := by
  refine ⟨hleases ▸ List.mem_cons_self, ?_, ?_⟩
  · rw [hreleased]
    decide
  · rw [hclock]
    decide

end Late

end Slots

end CodeMate.Quota
