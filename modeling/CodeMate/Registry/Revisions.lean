import CodeMate.Registry.Server

/-!
# Versions, revisions and validations

`Agrees` relates the row of a server to its revisions and to the probe that gave
it its status. An update keeps it, as it holds the lock of the row from its read
to its commit; a validation holds none, and in `validation_overtaken` the
configuration is changed while it probes. `revisions_agree` says what holds where
the row is the one that the validation has read when it writes (`Undisturbed`).
-/

namespace CodeMate.Registry

open Framework

variable {ω : Type} [DecidableEq ω] {s : Settings} {lib : Library} {w w' : World ω} {e : Event ω}
  {old new : MCPServerRegistration}

/-- A configuration that the validation of the model has given. -/
def Known (lib : Library) (config : Config) : Prop := ∃ data, lib.modelValidate data = .ok config

theorem validateConfigPayload_ok {payload : Json} {config : Config} (h : validateConfigPayload s lib payload = .ok config) :
    lib.modelValidate (configData payload) = .ok config := by
  obtain ⟨_, _, h⟩ := bind_ok h
  split at h
  · next c hm => obtain rfl := Except.ok.inj h; exact hm
  · cases h

/-- What a successful update makes of the row. -/
theorem update_ok {payload : Json} {expectedVersion : Nat} {actor : String} {others : List String}
    (h : update s lib old payload expectedVersion actor others = .ok new) :
    lib.modelValidate (configData (old.config.snapshot.update payload)) = .ok new.config ∧
      new.version = old.version + 1 ∧ new.validationStatus = .unvalidated := by
  unfold update at h
  split at h
  · cases h
  · obtain ⟨config, hconfig, h⟩ := bind_ok h
    split at h
    · cases h
    · split at h
      · cases h
      · obtain rfl := Except.ok.inj h
        exact ⟨validateConfigPayload_ok hconfig, rfl, rfl⟩

theorem create_ok {payload : Json} {others : List String} {id actor : String}
    (h : create s lib payload others id actor = .ok new) :
    Known lib new.config ∧ new.version = 1 ∧ new.validationStatus = .unvalidated := by
  unfold create at h
  split at h
  · cases h
  · split at h
    · cases h
    · obtain ⟨config, hconfig, h⟩ := bind_ok h
      split at h
      · cases h
      · split at h
        · cases h
        · obtain rfl := Except.ok.inj h
          exact ⟨⟨_, validateConfigPayload_ok hconfig⟩, rfl, rfl⟩

/-- A snapshot laid over another one replaces it. -/
theorem update_snapshot (a b : Config) : a.snapshot.update b.snapshot = b.snapshot := by
  simp [Config.snapshot, Json.update, Json.members, Json.setMember]

/-- An update with the snapshot of a configuration makes the row have it. -/
theorem update_restores {config : Config} {expectedVersion : Nat} {actor : String} {others : List String}
    (hknown : Known lib config) (h : update s lib old config.snapshot expectedVersion actor others = .ok new) :
    new.config = config := by
  obtain ⟨data, hdata⟩ := hknown
  have hnew := (update_ok h).1
  rw [update_snapshot, lib.revalidate data config hdata] at hnew
  exact (Except.ok.inj hnew).symm

/-! ## What a step commits -/

/-- A row committed after `old`, with its revision. -/
structure Commit (lib : Library) (w w' : World ω) (old new : MCPServerRegistration) (rev : MCPServerRevision) : Prop where
  before : w.row = some old
  after : w'.row = some new
  revisions : w'.revisions = rev :: w.revisions
  history : w'.history = (new.version, new.config) :: w.history
  version : new.version = old.version + 1
  revVersion : rev.version = new.version
  snapshot : rev.snapshotJson = new.config.snapshot
  known : Known lib old.config → Known lib new.config

omit [DecidableEq ω] in
theorem World.update_ok {payload : Json} {expectedVersion : Nat} {actor action revisionId : String} {others : List String}
    (h : w.update s lib payload expectedVersion actor action revisionId others = .ok w') :
    ∃ old new rev, Commit lib w w' old new rev ∧ new.validationStatus = .unvalidated ∧ w'.probed = w.probed ∧
      Registry.update s lib old payload expectedVersion actor others = .ok new := by
  unfold World.update at h
  split at h
  · cases h
  · next old hold =>
    obtain ⟨new, hnew, h⟩ := bind_ok h
    obtain rfl := Except.ok.inj h
    obtain ⟨hknown, hversion, hstatus⟩ := Registry.update_ok hnew
    exact ⟨old, new, _, ⟨hold, rfl, rfl, rfl, hversion, rfl, rfl, fun _ => ⟨_, hknown⟩⟩, hstatus, rfl, hnew⟩

omit [DecidableEq ω] in
theorem World.restore_ok {restored : String} {expectedVersion : Nat} {actor revisionId : String} {others : List String}
    (h : w.restore s lib restored expectedVersion actor revisionId others = .ok w') :
    ∃ rev ∈ w.revisions, rev.id = restored ∧
      w.update s lib rev.snapshotJson expectedVersion actor "restore" revisionId others = .ok w' := by
  unfold World.restore at h
  split at h
  · cases h
  · next rev hrev => exact ⟨rev, List.mem_of_find?_eq_some hrev, by simpa using List.find?_some hrev, h⟩

/-- A step leaves the row and its revisions, commits an update, writes a
validation, or deletes the server. -/
theorem step_cases (h : step s lib w e = some w') :
    (w'.row = w.row ∧ w'.revisions = w.revisions ∧ w'.history = w.history ∧ w'.probed = w.probed) ∨
      (∃ old new rev, Commit lib w w' old new rev ∧ new.validationStatus = .unvalidated ∧ w'.probed = w.probed) ∨
      (∃ k result actor revisionId now c d, e = .write k result actor revisionId now ∧ w.reading k = some c ∧
        w.row = some d ∧ w' = w.write k c result actor revisionId now) ∨
      w'.row = none ∧ w'.revisions = [] := by
  cases e with
  | update payload expectedVersion actor revisionId others =>
    simp only [step] at h
    split at h
    · cases h
    · split at h
      · next hok =>
        obtain rfl := Option.some.inj h
        obtain ⟨old, new, rev, hc, hstatus, hprobed, _⟩ := World.update_ok hok
        exact .inr (.inl ⟨old, new, rev, hc, hstatus, hprobed⟩)
      · obtain rfl := Option.some.inj h; exact .inl ⟨rfl, rfl, rfl, rfl⟩
  | restore restored expectedVersion actor revisionId others =>
    simp only [step] at h
    split at h
    · cases h
    · split at h
      · next hok =>
        obtain rfl := Option.some.inj h
        obtain ⟨_, _, _, hok⟩ := World.restore_ok hok
        obtain ⟨old, new, rev, hc, hstatus, hprobed, _⟩ := World.update_ok hok
        exact .inr (.inl ⟨old, new, rev, hc, hstatus, hprobed⟩)
      · obtain rfl := Option.some.inj h; exact .inl ⟨rfl, rfl, rfl, rfl⟩
  | read k =>
    simp only [step] at h
    split at h
    · obtain rfl := Option.some.inj h; exact .inl ⟨rfl, rfl, rfl, rfl⟩
    · cases h
  | write k result actor revisionId now =>
    simp only [step] at h
    split at h
    · cases h
    · obtain ⟨c, hc, rfl⟩ := Option.map_eq_some_iff.mp h
      cases hd : w.row with
      | none =>
        refine .inl ?_
        rw [World.write, hd]
        exact ⟨hd, rfl, rfl, rfl⟩
      | some d => exact .inr (.inr (.inl ⟨k, result, actor, revisionId, now, c, d, rfl, hc, rfl, rfl⟩))
  | abandon k => obtain rfl := Option.some.inj h; exact .inl ⟨rfl, rfl, rfl, rfl⟩
  | delete expectedVersion =>
    obtain rfl := Option.some.inj h
    split
    · split
      · exact .inr (.inr (.inr ⟨rfl, rfl⟩))
      · exact .inl ⟨rfl, rfl, rfl, rfl⟩
    · exact .inl ⟨rfl, rfl, rfl, rfl⟩

/-! ## Where a validation is not overtaken -/

/-- When a validation writes, the row is the one that it has read. -/
def Undisturbed (w : World ω) : Event ω → Prop
  | .write k .. => ∀ c ∈ w.reading k, w.row = some c
  | _ => True

/-- The row, its revisions and its status agree. -/
structure Agrees (lib : Library) (w : World ω) : Prop where
  known : ∀ server, w.row = some server → Known lib server.config
  versions : (w.revisions.map (·.version)).Nodup
  below : ∀ server, w.row = some server → (∀ rev ∈ w.revisions, rev.version ≤ server.version) ∧
    ∀ p ∈ w.history, p.1 ≤ server.version
  recorded : ∀ rev ∈ w.revisions, ∃ config, Known lib config ∧ rev.snapshotJson = config.snapshot
  history : ∀ rev ∈ w.revisions, ∀ config, (rev.version, config) ∈ w.history → rev.snapshotJson = config.snapshot
  current : ∀ server, w.row = some server → (server.version, server.config) ∈ w.history ∧
    ∃ rev ∈ w.revisions, rev.version = server.version
  valid : ∀ server, w.row = some server → server.validationStatus = .valid → w.probed = some server.config

omit [DecidableEq ω] in
theorem Agrees.same (hw : Agrees lib w) (h₁ : w'.row = w.row) (h₂ : w'.revisions = w.revisions)
    (h₃ : w'.history = w.history) (h₄ : w'.probed = w.probed) : Agrees lib w' := by
  obtain ⟨k, v, b, r, h, c, p⟩ := hw
  rw [← h₁] at k b c p
  rw [← h₂] at v b r h c
  rw [← h₃] at b h c
  rw [← h₄] at p
  exact ⟨k, v, b, r, h, c, p⟩

omit [DecidableEq ω] in
/-- A commit keeps what agrees, when the status of the new row does. -/
theorem Agrees.commit (hw : Agrees lib w) {rev : MCPServerRevision} (h : Commit lib w w' old new rev)
    (hvalid : new.validationStatus = .valid → w'.probed = some new.config) : Agrees lib w' := by
  have hrow {server : MCPServerRegistration} (hs : w'.row = some server) : new = server :=
    Option.some.inj (h.after.symm.trans hs)
  obtain ⟨hbelow, hbelow'⟩ := hw.below old h.before
  have hversion := h.version
  refine ⟨fun server hs => ?_, ?_, fun server hs => ⟨fun rev' hr => ?_, fun p hp => ?_⟩, fun rev' hr => ?_,
    fun rev' hr config hmem => ?_, fun server hs => ?_, fun server hs hst => ?_⟩
  · exact hrow hs ▸ h.known (hw.known old h.before)
  · rw [h.revisions, List.map_cons, List.nodup_cons]
    refine ⟨fun hmem => ?_, hw.versions⟩
    obtain ⟨rev', hr, heq⟩ := List.mem_map.mp hmem
    have hle := hbelow rev' hr
    rw [heq, h.revVersion] at hle
    omega
  · obtain rfl := hrow hs
    rw [h.revisions] at hr
    rcases List.mem_cons.mp hr with rfl | hr
    · exact Nat.le_of_eq h.revVersion
    · have hle := hbelow rev' hr
      omega
  · obtain rfl := hrow hs
    rw [h.history] at hp
    rcases List.mem_cons.mp hp with rfl | hp
    · exact Nat.le_refl _
    · have hle := hbelow' p hp
      omega
  · rw [h.revisions] at hr
    rcases List.mem_cons.mp hr with rfl | hr
    · exact ⟨new.config, h.known (hw.known old h.before), h.snapshot⟩
    · exact hw.recorded rev' hr
  · rw [h.revisions] at hr
    rw [h.history] at hmem
    rcases List.mem_cons.mp hr with rfl | hr <;> rcases List.mem_cons.mp hmem with heq | hmem
    · rw [h.snapshot, (Prod.mk.inj heq).2]
    · have hle := hbelow' _ hmem
      rw [h.revVersion] at hle
      omega
    · have hle := hbelow rev' hr
      rw [(Prod.mk.inj heq).1] at hle
      omega
    · exact hw.history rev' hr config hmem
  · obtain rfl := hrow hs
    rw [h.history, h.revisions]
    exact ⟨List.mem_cons_self, rev, List.mem_cons_self, h.revVersion⟩
  · obtain rfl := hrow hs
    exact hvalid hst

omit [DecidableEq ω] in
theorem Agrees.deleted (hrow : w'.row = none) (hrevs : w'.revisions = []) : Agrees lib w' := by
  have hnone {server : MCPServerRegistration} (hs : w'.row = some server) : False := by rw [hrow] at hs; cases hs
  have hmem {rev : MCPServerRevision} (hr : rev ∈ w'.revisions) : False := by rw [hrevs] at hr; cases hr
  exact ⟨fun _ hs => (hnone hs).elim, by rw [hrevs]; exact List.nodup_nil, fun _ hs => (hnone hs).elim,
    fun _ hr => (hmem hr).elim, fun _ hr => (hmem hr).elim, fun _ hs => (hnone hs).elim, fun _ hs => (hnone hs).elim⟩

theorem validated_eq (c : MCPServerRegistration) (result : Except String Probe) (actor : String) (now : Nat) :
    (validated c result actor now).config = c.config ∧ (validated c result actor now).version = c.version + 1 := by
  cases result <;> exact ⟨rfl, rfl⟩

/-- A validation that is not overtaken commits the next version of what it has read. -/
theorem write_commit (lib : Library) (k : ω) {c : MCPServerRegistration} (result : Except String Probe)
    (actor revisionId : String) (now : Nat) (hrow : w.row = some c) :
    Commit lib w (w.write k c result actor revisionId now) c (validated c result actor now)
        (revision (validated c result actor now) revisionId "validate" actor) ∧
      (w.write k c result actor revisionId now).probed =
        if (validated c result actor now).validationStatus = c.validationStatus then w.probed else some c.config := by
  obtain ⟨hconfig, hversion⟩ := validated_eq c result actor now
  rw [World.write, hrow]
  dsimp only
  rw [overlay_current]
  exact ⟨⟨hrow, rfl, rfl, rfl, hversion, rfl, rfl, fun hknown => hconfig ▸ hknown⟩, rfl⟩

variable (s lib) in
theorem agrees : ((registry (ω := ω) s lib).only Undisturbed).Inductive (Agrees lib) where
  start {w} h := by
    obtain ⟨payload, others, id, actor, revisionId, server, hcreate, hrow, hrevs, _, hhistory, _⟩ := h
    obtain ⟨hknown, _, hstatus⟩ := create_ok hcreate
    have hserver {server' : MCPServerRegistration} (hs : w.row = some server') : server = server' :=
      Option.some.inj (hrow.symm.trans hs)
    refine ⟨fun _ hs => hserver hs ▸ hknown, by rw [hrevs]; exact List.nodup_singleton _, fun _ hs => ?_, fun rev hr => ?_,
      fun rev hr config hmem => ?_, fun _ hs => ?_, fun _ hs hst => ?_⟩
    · obtain rfl := hserver hs
      rw [hrevs, hhistory]
      simp [revision]
    · rw [hrevs, List.mem_singleton] at hr
      subst hr
      exact ⟨server.config, hknown, rfl⟩
    · rw [hrevs, List.mem_singleton] at hr
      rw [hhistory, List.mem_singleton] at hmem
      rw [hr, (Prod.mk.inj hmem).2]
      rfl
    · obtain rfl := hserver hs
      rw [hrevs, hhistory]
      exact ⟨List.mem_cons_self, _, List.mem_cons_self, rfl⟩
    · obtain rfl := hserver hs
      rw [hstatus] at hst
      cases hst
  step {w w' e} hw he := by
    obtain ⟨hok, he⟩ := he
    rcases step_cases he with ⟨h₁, h₂, h₃, h₄⟩ | ⟨old, new, rev, hc, hstatus, _⟩ |
      ⟨k, result, actor, revisionId, now, c, d, rfl, hc, hd, rfl⟩ | ⟨hrow, hrevs⟩
    · exact hw.same h₁ h₂ h₃ h₄
    · exact hw.commit hc fun hvalid => by rw [hstatus] at hvalid; cases hvalid
    · have hrow := hok c hc
      obtain ⟨hcommit, hprobed⟩ := write_commit lib k result actor revisionId now hrow
      refine hw.commit hcommit fun hvalid => ?_
      rw [hprobed, (validated_eq c result actor now).1]
      split
      · next heq => exact hw.valid c hrow (heq ▸ hvalid)
      · rfl
    · exact .deleted hrow hrevs

/-- A commit gives the row the next version. -/
theorem step_version (hok : Undisturbed w e) (he : step s lib w e = some w') (hold : w.row = some old)
    (hnew : w'.row = some new) : new = old ∨ new.version = old.version + 1 := by
  rcases step_cases he with ⟨h₁, _⟩ | ⟨old', new', rev, hc, _⟩ |
    ⟨k, result, actor, revisionId, now, c, d, rfl, hc, hd, rfl⟩ | ⟨hrow, _⟩
  · exact .inl (Option.some.inj (hnew.symm.trans (h₁.trans hold)))
  · obtain rfl := Option.some.inj (hold.symm.trans hc.before)
    obtain rfl := Option.some.inj (hnew.symm.trans hc.after)
    exact .inr hc.version
  · have hrow := hok c hc
    have hcommit := (write_commit lib k result actor revisionId now hrow).1
    obtain rfl := Option.some.inj (hold.symm.trans hrow)
    obtain rfl := Option.some.inj (hnew.symm.trans hcommit.after)
    exact .inr hcommit.version
  · rw [hrow] at hnew; cases hnew

/-- Where no validation is overtaken, no two revisions have one version, the
snapshot of each is the configuration that the row had at its version, the row
has a revision, a valid status is that of a probe with the configuration of the
row, every commit increases the version, and a restore makes the configuration
that of the snapshot. -/
theorem revisions_agree (hr : ((registry s lib).only Undisturbed).Reachable w) :
    (w.revisions.map (·.version)).Nodup ∧
    (∀ rev ∈ w.revisions, ∀ config, (rev.version, config) ∈ w.history → rev.snapshotJson = config.snapshot) ∧
    (∀ server, w.row = some server → (server.version, server.config) ∈ w.history ∧
      (∃ rev ∈ w.revisions, rev.version = server.version ∧ rev.snapshotJson = server.config.snapshot) ∧
      (server.validationStatus = .valid → w.probed = some server.config)) ∧
    (∀ e w' old new, ((registry s lib).only Undisturbed).step w e w' → w.row = some old → w'.row = some new →
      new ≠ old → old.version < new.version) ∧
    ∀ restored expectedVersion actor revisionId others w',
      w.restore s lib restored expectedVersion actor revisionId others = .ok w' →
        ∃ rev ∈ w.revisions, rev.id = restored ∧ ∃ new, w'.row = some new ∧ new.config.snapshot = rev.snapshotJson := by
  have hw : Agrees lib w := (agrees s lib).reachable hr
  refine ⟨hw.versions, hw.history, fun server hs => ?_, fun e w' old new he hold hnew hne => ?_,
    fun restored expectedVersion actor revisionId others w' hok => ?_⟩
  · obtain ⟨hcurrent, rev, hrev, hversion⟩ := hw.current server hs
    exact ⟨hcurrent, ⟨rev, hrev, hversion, hw.history rev hrev server.config (hversion ▸ hcurrent)⟩, hw.valid server hs⟩
  · rcases step_version he.1 he.2 hold hnew with heq | hversion
    · exact absurd heq hne
    · omega
  · obtain ⟨rev, hrev, hid, hok⟩ := World.restore_ok hok
    obtain ⟨old, new, _, hc, _, _, hupdate⟩ := World.update_ok hok
    obtain ⟨config, hknown, hsnapshot⟩ := hw.recorded rev hrev
    rw [hsnapshot] at hupdate
    refine ⟨rev, hrev, hid, new, hc.after, ?_⟩
    rw [update_restores hknown hupdate, hsnapshot]

namespace Sample

/-- A configuration without tools. -/
def plain (name url : String) : Config := ⟨name, url, true, [], [], [], "none"⟩

def modelValidate (data : Json) : Except String Config :=
  match data.get "name", data.get "url" with
  | some (.str name), some (.str url) => .ok (plain name url)
  | _, _ => .error "Input should be a valid string"

theorem revalidate (data : Json) (config : Config) (h : modelValidate data = .ok config) :
    modelValidate (configData config.snapshot) = .ok config := by
  unfold modelValidate at h
  split at h
  · obtain rfl := Except.ok.inj h; rfl
  · cases h

def library : Library where
  urlsplit _ := ⟨"https", some "mcp.example", none, none, ""⟩
  nonGlobal _ := false
  str _ := ""
  modelValidate := modelValidate
  revalidate := revalidate

def settings : Settings := { allowPrivateNetworks := true }

def created : MCPServerRegistration :=
  { id := "server-1", config := plain "docs" "https://mcp.example/a", createdBy := "admin", updatedBy := "admin" }

def start : World Unit := ⟨some created, [revision created "revision-1" "create" "admin"], [], fun _ => none,
  [(1, created.config)], none⟩

theorem started : (registry settings library).start start :=
  ⟨created.config.snapshot, [], "server-1", "admin", "revision-1", created, rfl, rfl, rfl, fun _ => rfl, rfl, rfl⟩

def move : Event Unit := .update (.obj [("url", .str "https://mcp.example/b")]) 1 "admin" "revision-2" []

def probed (id : String) : Event Unit := .write () (.ok ⟨none, .null, .null, .null⟩) "admin" id 10

/-- The version, the status and the URL of the row. -/
def row (w : World Unit) : Option (Nat × ValidationStatus × String) :=
  w.row.map fun server => (server.version, server.validationStatus, server.config.url)

instance (w : World Unit) : (e : Event Unit) → Decidable (Undisturbed w e)
  | .write k _ _ _ _ => inferInstanceAs (Decidable (∀ c ∈ w.reading k, w.row = some c))
  | .update .. | .restore .. | .read _ | .abandon _ | .delete _ => isTrue trivial

end Sample

/-- The server is moved while it is probed: the validation gives it a valid
status for the URL that was not probed, keeps the version, and adds a second
revision of that version with the configuration of before. -/
theorem validation_overtaken : ∃ w w' : World Unit,
    (registry Sample.settings Sample.library).Reachable w ∧
    (registry Sample.settings Sample.library).step w (Sample.probed "revision-3") w' ∧
    Sample.row w = some (2, .unvalidated, "https://mcp.example/b") ∧
    Sample.row w' = some (2, .valid, "https://mcp.example/b") ∧
    w'.revisions.map (fun rev => (rev.version, rev.snapshotJson.get "url")) =
      [(2, some (.str "https://mcp.example/a")), (2, some (.str "https://mcp.example/b")),
        (1, some (.str "https://mcp.example/a"))] ∧
    w'.probed = some Sample.created.config := by
  have hrun : ([.read (), Sample.move].foldlM (step Sample.settings Sample.library) Sample.start).bind (fun w =>
      (step Sample.settings Sample.library w (Sample.probed "revision-3")).map fun w' =>
        ([Sample.row w, Sample.row w'], w'.revisions.map fun rev => (rev.version, rev.snapshotJson.get "url"), w'.probed)) =
      some ([some (2, .unvalidated, "https://mcp.example/b"), some (2, .valid, "https://mcp.example/b")],
        [(2, some (.str "https://mcp.example/a")), (2, some (.str "https://mcp.example/b")),
          (1, some (.str "https://mcp.example/a"))], some Sample.created.config) := by
    rfl
  obtain ⟨w, hw, hrest⟩ := Option.bind_eq_some_iff.mp hrun
  obtain ⟨w', hw', hends⟩ := Option.map_eq_some_iff.mp hrest
  obtain ⟨hrows, hends⟩ := Prod.mk.inj hends
  obtain ⟨hrevs, hprobed⟩ := Prod.mk.inj hends
  obtain ⟨hrow, hrows⟩ := List.cons.inj hrows
  exact ⟨w, w', ⟨_, _, Sample.started, .of_foldlM hw⟩, hw', hrow, (List.cons.inj hrows).1, hrevs, hprobed⟩

/-- A server that is moved and then probed is valid at its URL. -/
theorem revisions_agree_sample : ∃ w : World Unit, Sample.row w = some (3, .valid, "https://mcp.example/b") ∧
    (w.revisions.map (·.version)).Nodup ∧ ∀ server, w.row = some server →
      (server.validationStatus = .valid → w.probed = some server.config) := by
  have hrun : ([Sample.move, .read (), Sample.probed "revision-3"].foldlM (fun w e =>
      if Undisturbed w e then step Sample.settings Sample.library w e else none) Sample.start).map Sample.row =
        some (some (3, .valid, "https://mcp.example/b")) := by
    decide +kernel
  obtain ⟨w, hw, hrow⟩ := Option.map_eq_some_iff.mp hrun
  have hreach : ((registry Sample.settings Sample.library).only Undisturbed).Reachable w :=
    ⟨_, _, Sample.started, .only_of_foldlM hw⟩
  obtain ⟨hnodup, _, hagree, _⟩ := revisions_agree hreach
  exact ⟨w, hrow, hnodup, fun server hs => (hagree server hs).2.2⟩

end CodeMate.Registry
