import CodeMate.Audit.Leases
import Mathlib.Data.List.Perm.Subperm

/-!
# What an enqueued event leaves in the outbox

`enqueue` learns from an integrity error that an event is stored already, and
then only counts its rows. `Faithful` is what is expected of a call: the rows
that it leaves, that it can be repeated, and that another payload under the
same id is reported. `enqueue_faithful_iff` says for which contents of the
outbox that is so: `enqueue` has no row of the event before it, or just those
that it would have written itself, or it raises.
-/

namespace CodeMate.Audit

open Framework

section

variable (digest : Json → String) (s : Settings)

/-- The rows of an event. -/
def rowsOf (eventId : String) (db : List SecurityAuditDelivery) : List SecurityAuditDelivery :=
  db.filter fun row => row.eventId = eventId

/-- The unique constraint of the table. -/
def UniqueSinks (db : List SecurityAuditDelivery) : Prop := (db.map fun row => (row.eventId, row.sink)).Nodup

/-- A call that returns leaves a row with the digest of its record for each
sink, and nothing to do for the same call; with a row of another digest there
it raises. -/
structure Faithful (eventId : String) (record : Json) (ids : List String) (now : Nat)
    (db : List SecurityAuditDelivery) : Prop where
  stored : ∀ n, (enqueue digest s eventId record ids now db).1 = .ok n → ∀ sink ∈ s.sinks,
    ∃ row ∈ (enqueue digest s eventId record ids now db).2,
      row.eventId = eventId ∧ row.sink = sink ∧ row.payloadSha256 = digest record
  repeated : ∀ n, (enqueue digest s eventId record ids now db).1 = .ok n → ∀ ids' now',
    enqueue digest s eventId record ids' now' (enqueue digest s eventId record ids now db).2 =
      (.ok n, (enqueue digest s eventId record ids now db).2)
  reported : (∃ row ∈ db, row.eventId = eventId ∧ row.payloadSha256 ≠ digest record) →
    ∃ error, (enqueue digest s eventId record ids now db).1 = .error error

/-- The settings name a sink that there is not, or the record has no id. -/
def Invalid (eventId : String) : Prop :=
  (∃ sink ∈ s.sinks, sink ∉ ["http", "s3"]) ∨ s.sinks ≠ [] ∧ eventId = ""

/-- One of the sinks has a row of the event, and there are not as many rows of it as sinks. -/
def Clash (eventId : String) (db : List SecurityAuditDelivery) : Prop :=
  (∃ row ∈ rowsOf eventId db, row.sink ∈ s.sinks) ∧ (rowsOf eventId db).length ≠ s.sinks.length

/-- The rows of the event are of this record, and there are none, or one for each sink; without
sinks any number. -/
def Matching (eventId : String) (record : Json) (db : List SecurityAuditDelivery) : Prop :=
  (∀ row ∈ rowsOf eventId db, row.payloadSha256 = digest record) ∧
    (rowsOf eventId db = [] ∨ s.sinks = [] ∨ ((rowsOf eventId db).map (·.sink)).Perm s.sinks)

end

variable {digest : Json → String} {s : Settings} {eventId : String} {record : Json} {ids : List String} {now : Nat}
  {db : List SecurityAuditDelivery}

theorem mem_rowsOf {row : SecurityAuditDelivery} : row ∈ rowsOf eventId db ↔ row ∈ db ∧ row.eventId = eventId := by
  simp [rowsOf]

/-! ## The outcomes of a call -/

theorem supported_of_not_invalid (h : ¬ Invalid s eventId) :
    s.sinks.filter (fun sink => sink ∉ ["http", "s3"]) = [] :=
  List.filter_eq_nil_iff.mpr fun sink hsink hunknown => h (.inl ⟨sink, hsink, of_decide_eq_true hunknown⟩)

theorem enqueue_invalid (h : Invalid s eventId) :
    ∃ error, enqueue digest s eventId record ids now db = (.error error, db) := by
  unfold enqueue
  by_cases hsupported : s.sinks.filter (fun sink => sink ∉ ["http", "s3"]) = []
  · rcases h with ⟨sink, hsink, hunknown⟩ | ⟨hsinks, rfl⟩
    · exact absurd (decide_eq_true hunknown) (List.filter_eq_nil_iff.mp hsupported sink hsink)
    · exact ⟨_, by rw [if_neg (not_not.mpr hsupported), if_neg hsinks, if_pos rfl]⟩
  · exact ⟨_, if_pos hsupported⟩

theorem enqueue_without (h : s.sinks = []) : enqueue digest s eventId record ids now db = (.ok 0, db) := by
  simp [enqueue, h]

theorem any_rowsOf : (db.any fun row => row.eventId = eventId ∧ row.sink ∈ s.sinks) = true ↔
    ∃ row ∈ rowsOf eventId db, row.sink ∈ s.sinks := by
  simp [mem_rowsOf, and_assoc]

theorem enqueue_stored (hinvalid : ¬ Invalid s eventId) (h : ∃ row ∈ rowsOf eventId db, row.sink ∈ s.sinks) :
    enqueue digest s eventId record ids now db =
      if (rowsOf eventId db).length = s.sinks.length then (.ok s.sinks.length, db)
      else (.error "IntegrityError", db) := by
  have hsinks : s.sinks ≠ [] := fun heq => by simp [heq] at h
  unfold enqueue
  rw [if_neg (not_not.mpr (supported_of_not_invalid hinvalid)), if_neg hsinks,
    if_neg fun heq => hinvalid (.inr ⟨hsinks, heq⟩), if_pos (any_rowsOf.mpr h)]
  rfl

theorem enqueue_new (hinvalid : ¬ Invalid s eventId) (hsinks : s.sinks ≠ [])
    (h : ¬ ∃ row ∈ rowsOf eventId db, row.sink ∈ s.sinks) :
    enqueue digest s eventId record ids now db =
      (.ok s.sinks.length, db ++ newRows digest s eventId record ids now) := by
  unfold enqueue
  rw [if_neg (not_not.mpr (supported_of_not_invalid hinvalid)), if_neg hsinks,
    if_neg fun heq => hinvalid (.inr ⟨hsinks, heq⟩), if_neg (any_rowsOf.not.mpr h)]

/-- A call adds a row with the digest of its record for each sink. -/
theorem newRows_stored (hids : s.sinks.length ≤ ids.length) {sink : String} (h : sink ∈ s.sinks) :
    ∃ row ∈ newRows digest s eventId record ids now,
      row.eventId = eventId ∧ row.sink = sink ∧ row.payloadSha256 = digest record := by
  rw [← List.map_fst_zip hids] at h
  obtain ⟨pair, hmem, rfl⟩ := List.mem_map.mp h
  exact ⟨_, List.mem_map.mpr ⟨pair, hmem, rfl⟩, rfl, rfl, rfl⟩

theorem length_newRows (hids : s.sinks.length ≤ ids.length) :
    (newRows digest s eventId record ids now).length = s.sinks.length := by
  rw [newRows, List.length_map, List.length_zip]
  omega

theorem rowsOf_newRows : rowsOf eventId (newRows digest s eventId record ids now) =
    newRows digest s eventId record ids now :=
  List.filter_eq_self.mpr fun row hrow => by
    obtain ⟨pair, -, rfl⟩ := List.mem_map.mp hrow
    exact decide_eq_true rfl

theorem rowsOf_append (db db' : List SecurityAuditDelivery) :
    rowsOf eventId (db ++ db') = rowsOf eventId db ++ rowsOf eventId db' := List.filter_append ..

/-- The rows of one event have different sinks. -/
theorem sinks_nodup (h : UniqueSinks db) : ((rowsOf eventId db).map (·.sink)).Nodup := by
  have hrows : ((rowsOf eventId db).map fun row => (row.eventId, row.sink)).Nodup :=
    h.sublist (List.filter_sublist.map _)
  refine List.Nodup.of_map (fun sink => (eventId, sink)) ?_
  rw [List.map_map]
  refine (List.map_congr_left fun row hrow => ?_) ▸ hrows
  rw [(mem_rowsOf.mp hrow).2]
  rfl

/-! ## Which calls are faithful -/

theorem faithful_of_error (h : ∃ error, enqueue digest s eventId record ids now db = (.error error, db)) :
    Faithful digest s eventId record ids now db := by
  obtain ⟨error, h⟩ := h
  refine ⟨fun n hn => ?_, fun n hn => ?_, fun _ => ⟨error, by rw [h]⟩⟩ <;>
  · rw [h] at hn
    cases hn

/-- Without sinks a call does nothing, also where the event is stored with another payload. -/
theorem faithful_without (h : s.sinks = []) : Faithful digest s eventId record ids now db ↔
    ∀ row ∈ rowsOf eventId db, row.payloadSha256 = digest record := by
  have hcall (ids : List String) (now : Nat) : enqueue digest s eventId record ids now db = (.ok 0, db) :=
    enqueue_without h
  refine ⟨fun hf row hrow => ?_, fun hrows => ⟨fun _ _ sink hsink => ?_, fun n hn ids' now' => ?_, ?_⟩⟩
  · by_contra hdigest
    obtain ⟨hmem, heq⟩ := mem_rowsOf.mp hrow
    obtain ⟨error, herror⟩ := hf.reported ⟨row, hmem, heq, hdigest⟩
    rw [hcall] at herror
    cases herror
  · rw [h] at hsink
    cases hsink
  · rw [hcall] at hn ⊢
    rw [hcall, ← Except.ok.inj hn]
  · exact fun ⟨row, hmem, heq, hdigest⟩ => absurd (hrows row (mem_rowsOf.mpr ⟨hmem, heq⟩)) hdigest

/-- Rows for the sinks alone, that were counted and are as many: the call is faithful if they are its own. -/
theorem faithful_stored (hinvalid : ¬ Invalid s eventId) (hsinks : s.sinks.Nodup) (hunique : UniqueSinks db)
    (h : ∃ row ∈ rowsOf eventId db, row.sink ∈ s.sinks) (hlength : (rowsOf eventId db).length = s.sinks.length) :
    Faithful digest s eventId record ids now db ↔ Matching digest s eventId record db := by
  have hcall (ids : List String) (now : Nat) :
      enqueue digest s eventId record ids now db = (.ok s.sinks.length, db) := by
    rw [enqueue_stored hinvalid h, if_pos hlength]
  constructor
  · intro hf
    have hstored := hf.stored s.sinks.length (by rw [hcall])
    rw [hcall] at hstored
    have hsubset : s.sinks ⊆ (rowsOf eventId db).map (·.sink) := fun sink hsink => by
      obtain ⟨row, hrow, hevent, rfl, -⟩ := hstored sink hsink
      exact List.mem_map.mpr ⟨row, mem_rowsOf.mpr ⟨hrow, hevent⟩, rfl⟩
    have hperm := (hsinks.subperm hsubset).perm_of_length_le (by rw [List.length_map, hlength])
    refine ⟨fun row hrow => ?_, .inr (.inr hperm.symm)⟩
    -- the unique constraint leaves the row of a sink no other choice
    obtain ⟨row', hrow', hevent, hsink, hdigest⟩ :=
      hstored row.sink (hperm.mem_iff.mpr (List.mem_map.mpr ⟨row, hrow, rfl⟩))
    rw [List.inj_on_of_nodup_map (sinks_nodup hunique) hrow (mem_rowsOf.mpr ⟨hrow', hevent⟩) hsink.symm]
    exact hdigest
  · intro hm
    obtain ⟨row, hrow, hsink⟩ := h
    have hperm : ((rowsOf eventId db).map (·.sink)).Perm s.sinks :=
      (hm.2.resolve_left (List.ne_nil_of_mem hrow)).resolve_left (List.ne_nil_of_mem hsink)
    refine ⟨fun n hn sink hsink => ?_, fun n hn ids' now' => ?_, ?_⟩
    · obtain ⟨row, hrow, rfl⟩ := List.mem_map.mp (hperm.mem_iff.mpr hsink)
      rw [hcall]
      exact ⟨row, (mem_rowsOf.mp hrow).1, (mem_rowsOf.mp hrow).2, rfl, hm.1 row hrow⟩
    · rw [hcall] at hn ⊢
      rw [hcall, ← Except.ok.inj hn]
    · exact fun ⟨row, hmem, heq, hdigest⟩ => absurd (hm.1 row (mem_rowsOf.mpr ⟨hmem, heq⟩)) hdigest

/-- Where none of the sinks has a row, those that the event has for others stand in the way of a repetition. -/
theorem faithful_new (hinvalid : ¬ Invalid s eventId) (hids : s.sinks.length ≤ ids.length) (hsinks : s.sinks ≠ [])
    (h : ¬ ∃ row ∈ rowsOf eventId db, row.sink ∈ s.sinks) :
    Faithful digest s eventId record ids now db ↔ rowsOf eventId db = [] := by
  have hcall : enqueue digest s eventId record ids now db =
      (.ok s.sinks.length, db ++ newRows digest s eventId record ids now) := enqueue_new hinvalid hsinks h
  have hstored : ∃ row ∈ rowsOf eventId (db ++ newRows digest s eventId record ids now), row.sink ∈ s.sinks := by
    obtain ⟨sink, hsink⟩ := List.exists_mem_of_ne_nil _ hsinks
    obtain ⟨row, hrow, hevent, rfl, -⟩ := newRows_stored hids hsink
    exact ⟨row, mem_rowsOf.mpr ⟨List.mem_append_right _ hrow, hevent⟩, hsink⟩
  have hagain (ids' : List String) (now' : Nat) :
      enqueue digest s eventId record ids' now' (db ++ newRows digest s eventId record ids now) = _ :=
    enqueue_stored hinvalid hstored
  rw [rowsOf_append, rowsOf_newRows, List.length_append, length_newRows hids] at hagain
  constructor
  · intro hf
    have hrepeated := hf.repeated s.sinks.length (by rw [hcall]) [] 0
    rw [hcall, hagain] at hrepeated
    split at hrepeated
    · next hlength => exact List.eq_nil_of_length_eq_zero (by omega)
    · cases hrepeated
  · intro hrows
    refine ⟨fun n hn sink hsink => ?_, fun n hn ids' now' => ?_, ?_⟩
    · rw [hcall]
      obtain ⟨row, hrow, hstored⟩ := newRows_stored hids hsink
      exact ⟨row, List.mem_append_right _ hrow, hstored⟩
    · rw [hcall] at hn ⊢
      rw [hagain, hrows, List.length_nil, if_pos (Nat.zero_add _), ← Except.ok.inj hn]
    · rintro ⟨row, hmem, heq, -⟩
      have := mem_rowsOf.mpr ⟨hmem, heq⟩
      rw [hrows] at this
      cases this

/-- A call is faithful exactly if it is invalid, raises because the stored rows of the event do not
add up, or finds no row of the event but its own ones. -/
theorem enqueue_faithful_iff (digest : Json → String) (s : Settings) (eventId : String) (record : Json)
    (ids : List String) (now : Nat) (db : List SecurityAuditDelivery) (hsinks : s.sinks.Nodup)
    (hids : s.sinks.length ≤ ids.length) (hunique : UniqueSinks db) :
    Faithful digest s eventId record ids now db ↔
      Invalid s eventId ∨ Clash s eventId db ∨ Matching digest s eventId record db := by
  by_cases hinvalid : Invalid s eventId
  · exact iff_of_true (faithful_of_error (enqueue_invalid hinvalid)) (.inl hinvalid)
  rw [or_iff_right hinvalid]
  by_cases hnone : s.sinks = []
  · have hclash : ¬ Clash s eventId db := fun ⟨⟨row, _, hsink⟩, _⟩ => by
      rw [hnone] at hsink
      cases hsink
    rw [faithful_without hnone, or_iff_right hclash]
    exact ⟨fun h => ⟨h, .inr (.inl hnone)⟩, And.left⟩
  by_cases hstored : ∃ row ∈ rowsOf eventId db, row.sink ∈ s.sinks
  · by_cases hlength : (rowsOf eventId db).length = s.sinks.length
    · rw [faithful_stored hinvalid hsinks hunique hstored hlength, or_iff_right fun h => h.2 hlength]
    · refine iff_of_true (faithful_of_error ⟨"IntegrityError", ?_⟩) (.inl ⟨hstored, hlength⟩)
      rw [enqueue_stored hinvalid hstored, if_neg hlength]
  · rw [faithful_new hinvalid hids hnone hstored, or_iff_right fun h => hstored h.1]
    refine ⟨fun hrows => ⟨by simp [hrows], .inl hrows⟩, fun hm => ?_⟩
    refine hm.2.resolve_right fun h => hstored ?_
    obtain ⟨sink, hsink⟩ := List.exists_mem_of_ne_nil _ hnone
    obtain ⟨row, hrow, rfl⟩ := List.mem_map.mp ((h.resolve_left hnone).mem_iff.mpr hsink)
    exact ⟨row, hrow, hsink⟩

/-- The row that an earlier payload of the event left for the sink. -/
def Sample.earlier : SecurityAuditDelivery :=
  { id := "row-1", eventId := "event-1", sink := "http", payloadJson := .obj [], payloadSha256 := "earlier",
    createdAt := 0 }

theorem enqueue_faithful_sample :
    Faithful Sample.sha256 Sample.settings "event-2" (.obj []) ["row-2"] 1 [Sample.earlier] ↔
      Invalid Sample.settings "event-2" ∨ Clash Sample.settings "event-2" [Sample.earlier] ∨
        Matching Sample.sha256 Sample.settings "event-2" (.obj []) [Sample.earlier] :=
  enqueue_faithful_iff Sample.sha256 Sample.settings "event-2" (.obj []) ["row-2"] 1 [Sample.earlier] (by decide)
    (by decide) (by unfold UniqueSinks; decide)

/-- Another payload under the same id is taken for the one that is stored. -/
theorem enqueue_faithful_changed :
    ¬ ∀ (digest : Json → String) (s : Settings) (eventId : String) (record : Json) (ids : List String) (now : Nat)
        (db : List SecurityAuditDelivery), s.sinks.Nodup → s.sinks.length ≤ ids.length → UniqueSinks db →
      Faithful digest s eventId record ids now db := by
  intro h
  have := h Sample.sha256 Sample.settings "event-1" (.obj []) ["row-2"] 1 [Sample.earlier] (by decide) (by decide)
    (by unfold UniqueSinks; decide)
  obtain ⟨row, hrow, -, -, hdigest⟩ := this.stored 1 (by decide) "http" (by decide)
  have hdb : (enqueue Sample.sha256 Sample.settings "event-1" (.obj []) ["row-2"] 1 [Sample.earlier]).2 =
      [Sample.earlier] := by decide
  rw [hdb] at hrow
  rw [List.mem_singleton.mp hrow] at hdigest
  revert hdigest
  decide

end CodeMate.Audit
