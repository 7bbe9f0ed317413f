import CodeMate.Framework.Run
import CodeMate.Mcp.Approval

/-!
# The approval gate

The life of one approval: it is requested, decided or expired, claimed by
workers for a resume and resolved, in any order and any number of times, while
the configuration of the servers and the stored arguments change (`gate`). A
transaction is decided on any version of the row that was committed, since a
session may hold an object that it read before; only the columns it changed are
written over the row.

`approval_gate`: a call is made for an approval only if it was approved in
time, the resume checked the time itself, the catalog it discovered still asks
for approval, and the arguments are those that were hashed for the request; and
a call that needs no approval is one of a tool that the catalog marks `auto`.
-/

namespace CodeMate.Mcp

open Framework

/-- What `_resolve_approval` meets: the client it gets, what the servers list,
and how the ledger ends the call. -/
structure Resolving where
  router : Bool
  listTools : String → Option (List ListedTool)
  maxCatalogTools : Nat
  authorize : String → String → Bool
  reply : CallReply

/-- How `_resolve_approval` ends. -/
inductive Resolution
  | result (value : Json) (failed : Bool)
  | reconciliation (executionId : String)

section Resolve

variable (codec : Codec) (check : Json → Json → Option String)

/-- A result without a call. -/
def notCalled (approval : MCPToolApproval) (members : List (String × Json)) : Json :=
  .obj ([("ok", .bool false), ("qualified_name", .str approval.qualifiedName)] ++ members)

/-- Whether a note says that the approval expired. -/
def noteExpired (note : Option String) : Bool :=
  (note.getD "").toLower.toList.tails.any fun tail => "expired".toList.isPrefixOf tail

/-- What `execute_approved` comes to for an approval, with a catalog that is discovered now. -/
def approvedAttempt (approval : MCPToolApproval) (client : Servers) (r : Resolving) : Attempt :=
  executeApproved codec check (discoverCatalog codec client r.listTools r.maxCatalogTools) r.authorize
    approval.qualifiedName approval.argumentsJson approval.argumentsHash

/-- `_resolve_approval`, with what `execute_approved` came to if the ledger ran it. -/
def resolveApproval (approval : MCPToolApproval) (now : Nat) (client : Servers) (r : Resolving) :
    Resolution × Option Attempt :=
  if approval.decision ≠ some .approved then
    (.result (notCalled approval
      [("arguments", approval.argumentsJson), ("policy_rejection", .obj
        [("reason", .str (if noteExpired approval.decisionNote then "approval_expired" else "human_rejected")),
          ("note", .ofOption approval.decisionNote)])]) false, none)
  else if approval.expiresAt ≤ now then
    (.result (notCalled approval
      [("arguments", approval.argumentsJson), ("error", .str "approval_expired_before_execution")]) true, none)
  else if !r.router then
    (.result (notCalled approval [("error", .str "mcp_tool_router_unavailable")]) true, none)
  else
    let attempt := approvedAttempt codec check approval client r
    let answered arguments result :=
      Json.obj (answeredResult approval.qualifiedName arguments result ++ [("approved", .bool true)])
    let resolution := match (executeOnce client attempt answered r.reply).1 with
      | .reconciliation executionId => Resolution.reconciliation executionId
      | .inProgress _ error | .error error => .result (callError approval.qualifiedName error) true
      | .result value => .result value !(value.flag "ok")
    (resolution, match r.reply with
      | .ran .. => some attempt
      | _ => none)

variable {codec check}

/-- What a resume has checked when it makes the call. -/
theorem resolveApproval_call {approval : MCPToolApproval} {now : Nat} {client : Servers} {r : Resolving}
    {attempt : Attempt} (h : (resolveApproval codec check approval now client r).2 = some attempt) :
    approval.decision = some .approved ∧ now < approval.expiresAt ∧
      attempt = approvedAttempt codec check approval client r := by
  unfold resolveApproval at h
  split at h
  · cases h
  next hdecision =>
    split at h
    · cases h
    next hlive =>
      split at h
      · cases h
      dsimp only at h
      split at h
      · exact ⟨Decidable.not_not.mp hdecision, Nat.lt_of_not_le hlive, (Option.some.inj h).symm⟩
      · cases h

end Resolve

/-! ## The life of an approval -/

inductive GateEvent
  | requested (argumentsHash : String) (expiresAt : Nat)
  | decided (decision : Decision) (now : Nat)
  | called (server tool : String) (arguments : Json) (checkedAt : Nat)
deriving DecidableEq

/-- The configuration, the committed versions of the row (the last one first),
the objects of the workers that claimed it, and the events, the last one first. -/
structure Gate (ω : Type*) where
  servers : Servers
  versions : List MCPToolApproval
  claimed : ω → Option MCPToolApproval
  log : List GateEvent

/-- A step; `seen` is the version that the session holds. -/
inductive GateStep (ω : Type*)
  | request (id runId : String) (call : Call) (checkpoint : Json) (now : Nat)
  | transact (seen : Nat) (t : Transaction) (now : Nat)
  | claim (k : ω) (seen : Nat) (now : Nat)
  | resolve (k : ω) (now : Nat) (r : Resolving)
  | leave (k : ω)
  | configure (servers : Servers)
  | tamper (arguments : Json)

section Step

variable {ω : Type*} [DecidableEq ω] (s : ApprovalSettings) (codec : Codec) (check : Json → Json → Option String)

/-- The event of a transaction that took a decision. -/
def decided (now : Nat) (before after : MCPToolApproval) : List GateEvent :=
  if after.decision = before.decision then []
  else (after.decision.map fun decision => GateEvent.decided decision now).toList

/-- The row after a transaction on the object `seen`, and the events. -/
def commit (w : Gate ω) (seen : Nat) (t : Transaction) (now : Nat) : Option (MCPToolApproval × List GateEvent) := do
  let c ← w.versions[seen]?
  let d ← w.versions.head?
  return (flush.overlay c (transact s codec now t c) d, decided now c (transact s codec now t c))

def Gate.step (w : Gate ω) : GateStep ω → Option (Gate ω)
  | .request id runId call checkpoint now =>
    match w.versions, newApproval s codec id runId call checkpoint now with
    | [], .ok a => some { w with versions := [a], log := .requested a.argumentsHash a.expiresAt :: w.log }
    | _, _ => none
  | .transact seen t now =>
    (commit s codec w seen t now).map fun (row, events) =>
      { w with versions := row :: w.versions, log := events ++ w.log }
  | .claim k seen now =>
    match w.versions[seen]? with
    | none => none
    | some c =>
      if (claimForResume s now c).2 then
        (commit s codec w seen .claimForResume now).map fun (row, events) =>
          { w with
            versions := row :: w.versions
            claimed := fun k' => if k' = k then some row else w.claimed k'
            log := events ++ w.log }
      else none
  | .resolve k now r =>
    (w.claimed k).map fun approval =>
      match (resolveApproval codec check approval now w.servers r).2 with
      | some (.call server tool arguments) => { w with log := .called server tool arguments now :: w.log }
      | _ => w
  | .leave k => some { w with claimed := fun k' => if k' = k then none else w.claimed k' }
  | .configure servers => some { w with servers := servers }
  | .tamper arguments =>
    match w.versions with
    | [] => none
    | d :: rest => some { w with versions := { d with argumentsJson := arguments } :: d :: rest }

/-- The lives of an approval. -/
def gate : System (Gate ω) (GateStep ω) :=
  .ofStep (fun w => w.versions = [] ∧ w.log = [] ∧ ∀ k, w.claimed k = none) (Gate.step s codec check)

end Step

/-! ## What every copy of the row says -/

/-- The copy has the request that was logged, and its approval was logged in time. -/
structure Faithful (log : List GateEvent) (a : MCPToolApproval) : Prop where
  requested : .requested a.argumentsHash a.expiresAt ∈ log
  approved : a.decision = some .approved → ∃ now, .decided .approved now ∈ log ∧ now < a.expiresAt

theorem Faithful.append {log : List GateEvent} {a : MCPToolApproval} (h : Faithful log a)
    (events : List GateEvent) : Faithful (events ++ log) a := by
  refine ⟨List.mem_append_right _ h.requested, fun ha => ?_⟩
  obtain ⟨now, hm, hlt⟩ := h.approved ha
  exact ⟨now, List.mem_append_right _ hm, hlt⟩

/-- What holds between the steps. -/
structure GateInv {ω : Type*} (w : Gate ω) : Prop where
  versions : ∀ a ∈ w.versions, Faithful w.log a
  claimed : ∀ k a, w.claimed k = some a → Faithful w.log a
  once : ∀ {hash expiresAt hash' expiresAt'}, .requested hash expiresAt ∈ w.log →
    .requested hash' expiresAt' ∈ w.log → hash = hash' ∧ expiresAt = expiresAt'
  fresh : w.versions = [] → w.log = [] ∧ ∀ k, w.claimed k = none

variable {ω : Type*} {s : ApprovalSettings} {codec : Codec} {check : Json → Json → Option String}
  {w w' : Gate ω}

/-- Events other than a request keep what the copies say. -/
theorem GateInv.note (h : GateInv w) (events : List GateEvent) (hlog : w'.log = events ++ w.log)
    (hevents : ∀ hash expiresAt, .requested hash expiresAt ∉ events)
    (hversions : ∀ a ∈ w'.versions, Faithful (events ++ w.log) a)
    (hclaimed : ∀ k a, w'.claimed k = some a → Faithful (events ++ w.log) a) (hne : w'.versions ≠ []) :
    GateInv w' where
  versions := by rw [hlog]; exact hversions
  claimed := by rw [hlog]; exact hclaimed
  once hr hr' := by
    rw [hlog] at hr hr'
    rcases List.mem_append.mp hr with hr | hr
    · exact absurd hr (hevents _ _)
    rcases List.mem_append.mp hr' with hr' | hr'
    · exact absurd hr' (hevents _ _)
    exact h.once hr hr'
  fresh hnil := absurd hnil hne

theorem decided_requested {now : Nat} {before after : MCPToolApproval} (hash : String) (expiresAt : Nat) :
    .requested hash expiresAt ∉ decided now before after := by
  unfold decided
  split
  · exact List.not_mem_nil
  · intro hm
    obtain ⟨_, _, he⟩ := Option.map_eq_some_iff.mp (Option.mem_toList.mp hm)
    cases he

/-- A transaction on any copy leaves a faithful row. -/
theorem commit_faithful (h : GateInv w) {seen : Nat} {t : Transaction} {now : Nat} {row : MCPToolApproval}
    {events : List GateEvent} (hc : commit s codec w seen t now = some (row, events)) :
    Faithful (events ++ w.log) row ∧ ∀ hash expiresAt, .requested hash expiresAt ∉ events := by
  unfold commit at hc
  obtain ⟨c, hseen, hc⟩ := Option.bind_eq_some_iff.mp hc
  obtain ⟨d, hhead, hc⟩ := Option.bind_eq_some_iff.mp hc
  obtain ⟨rfl, rfl⟩ := Prod.mk.inj (Option.some.inj hc)
  have hcf := h.versions c (List.mem_of_getElem? hseen)
  have hdf := h.versions d (List.mem_of_mem_head? hhead)
  obtain ⟨hhash, hexpires⟩ := h.once hcf.requested hdf.requested
  have hreq : SameRequest d (overlay c (transact s codec now t c) d) := overlay_request now t c d
  refine ⟨⟨?_, fun ha => ?_⟩, decided_requested⟩
  · refine List.mem_append_right _ ?_
    show GateEvent.requested (overlay c _ d).argumentsHash (overlay c _ d).expiresAt ∈ w.log
    rw [hreq.argumentsHash, hreq.expiresAt]
    exact hdf.requested
  · have ha' : column c.decision (transact s codec now t c).decision d.decision = some .approved := ha
    show ∃ at', _ ∧ at' < (overlay c _ d).expiresAt
    rw [hreq.expiresAt]
    unfold column at ha'
    split at ha'
    · obtain ⟨at', hm, hlt⟩ := hdf.approved ha'
      exact ⟨at', List.mem_append_right _ hm, hlt⟩
    · next hne =>
      rcases (transact_spec s codec now t c).2 with hsame | htaken
      · exact absurd hsame hne
      · refine ⟨now, List.mem_append_left _ ?_, hexpires ▸ htaken ha'⟩
        unfold decided
        rw [if_neg hne, ha']
        exact List.mem_singleton_self _

variable [DecidableEq ω]

theorem gate_inv_step {e : GateStep ω} (h : GateInv w) (hs : w.step s codec check e = some w') : GateInv w' := by
  cases e with
  | request id runId call checkpoint now =>
    unfold Gate.step at hs
    dsimp only at hs
    split at hs
    · next a hnil hnew =>
      obtain rfl := Option.some.inj hs
      obtain ⟨hlog, hclaimed⟩ := h.fresh hnil
      have hpending : a.decision = none := by
        unfold newApproval at hnew
        dsimp only at hnew
        split at hnew
        · cases hnew
        split at hnew
        · cases hnew
        · rw [← Except.ok.inj hnew]
      refine ⟨fun b hb => ?_, fun k b hb => ?_, fun hr hr' => ?_, fun hnil => by cases hnil⟩
      · obtain rfl := List.mem_singleton.mp hb
        exact ⟨List.mem_cons_self, fun ha => by rw [hpending] at ha; cases ha⟩
      · rw [hclaimed k] at hb
        cases hb
      · rw [hlog] at hr hr'
        cases List.mem_singleton.mp hr
        cases List.mem_singleton.mp hr'
        exact ⟨rfl, rfl⟩
    · cases hs
  | transact seen t now =>
    obtain ⟨⟨row, events⟩, hc, rfl⟩ := Option.map_eq_some_iff.mp hs
    obtain ⟨hrow, hevents⟩ := commit_faithful h hc
    refine h.note events rfl hevents (fun a ha => ?_) (fun k a ha => (h.claimed k a ha).append _) (List.cons_ne_nil _ _)
    rcases List.mem_cons.mp ha with rfl | ha
    · exact hrow
    · exact (h.versions a ha).append _
  | claim k seen now =>
    unfold Gate.step at hs
    dsimp only at hs
    split at hs
    · cases hs
    split at hs
    · obtain ⟨⟨row, events⟩, hc, rfl⟩ := Option.map_eq_some_iff.mp hs
      obtain ⟨hrow, hevents⟩ := commit_faithful h hc
      refine h.note events rfl hevents (fun a ha => ?_) (fun k' a ha => ?_) (List.cons_ne_nil _ _)
      · rcases List.mem_cons.mp ha with rfl | ha
        · exact hrow
        · exact (h.versions a ha).append _
      · dsimp only at ha
        split at ha
        · obtain rfl := Option.some.inj ha
          exact hrow
        · exact (h.claimed k' a ha).append _
    · cases hs
  | resolve k now r =>
    obtain ⟨approval, hclaimed, rfl⟩ := Option.map_eq_some_iff.mp hs
    have hne : w.versions ≠ [] := fun hnil => by rw [(h.fresh hnil).2 k] at hclaimed; cases hclaimed
    split
    · next server tool arguments _ =>
      refine h.note [.called server tool arguments now] rfl (fun _ _ hm => ?_)
        (fun a ha => (h.versions a ha).append _) (fun k a ha => (h.claimed k a ha).append _) hne
      cases List.mem_singleton.mp hm
    · exact h
  | leave k =>
    obtain rfl := Option.some.inj hs
    refine ⟨h.versions, fun k' a ha => ?_, h.once, fun hnil => ⟨(h.fresh hnil).1, fun k' => ?_⟩⟩
    · dsimp only at ha
      split at ha
      · cases ha
      · exact h.claimed k' a ha
    · dsimp only
      split
      · rfl
      · exact (h.fresh hnil).2 k'
  | configure servers =>
    obtain rfl := Option.some.inj hs
    exact ⟨h.versions, h.claimed, h.once, h.fresh⟩
  | tamper arguments =>
    unfold Gate.step at hs
    dsimp only at hs
    split at hs
    · cases hs
    next d rest hversions =>
      obtain rfl := Option.some.inj hs
      have hd := h.versions d (hversions ▸ List.mem_cons_self)
      refine ⟨fun a ha => ?_, h.claimed, h.once, fun hnil => by cases hnil⟩
      rcases List.mem_cons.mp ha with rfl | ha
      · exact ⟨hd.requested, hd.approved⟩
      · exact h.versions a (hversions ▸ ha)

theorem inductive_gateInv (s : ApprovalSettings) (codec : Codec) (check : Json → Json → Option String) :
    (gate (ω := ω) s codec check).Inductive GateInv where
  start hs := by
    obtain ⟨hversions, hlog, hclaimed⟩ := hs
    refine ⟨fun a ha => ?_, fun k a ha => ?_, fun hr => ?_, fun _ => ⟨hlog, hclaimed⟩⟩
    · rw [hversions] at ha
      cases ha
    · rw [hclaimed k] at ha
      cases ha
    · rw [hlog] at hr
      cases hr
  step h hs := gate_inv_step h hs

/-- Only a resume makes a call. -/
theorem step_called {e : GateStep ω} {server tool : String} {arguments : Json} {now : Nat}
    (hs : w.step s codec check e = some w') (hlog : w'.log = .called server tool arguments now :: w.log) :
    ∃ k r approval, e = .resolve k now r ∧ w.claimed k = some approval ∧
      (resolveApproval codec check approval now w.servers r).2 = some (.call server tool arguments) := by
  have hsame {log : List GateEvent} (h : log = .called server tool arguments now :: log) : False :=
    List.cons_ne_self _ _ h.symm
  have hdecided {t before after} (h : decided t before after ++ w.log = .called server tool arguments now :: w.log) :
      False := by
    unfold decided at h
    split at h
    · exact hsame h
    · cases hd : after.decision <;> rw [hd] at h
      · exact hsame h
      · cases (List.cons.inj h).1
  cases e with
  | request id runId call checkpoint t =>
    unfold Gate.step at hs
    dsimp only at hs
    split at hs
    · obtain rfl := Option.some.inj hs
      cases (List.cons.inj hlog).1
    · cases hs
  | transact seen t at' =>
    obtain ⟨⟨row, events⟩, hc, rfl⟩ := Option.map_eq_some_iff.mp hs
    unfold commit at hc
    obtain ⟨c, _, hc⟩ := Option.bind_eq_some_iff.mp hc
    obtain ⟨d, _, hc⟩ := Option.bind_eq_some_iff.mp hc
    obtain ⟨rfl, rfl⟩ := Prod.mk.inj (Option.some.inj hc)
    exact (hdecided hlog).elim
  | claim k seen at' =>
    unfold Gate.step at hs
    dsimp only at hs
    split at hs
    · cases hs
    split at hs
    · obtain ⟨⟨row, events⟩, hc, rfl⟩ := Option.map_eq_some_iff.mp hs
      unfold commit at hc
      obtain ⟨c, _, hc⟩ := Option.bind_eq_some_iff.mp hc
      obtain ⟨d, _, hc⟩ := Option.bind_eq_some_iff.mp hc
      obtain ⟨rfl, rfl⟩ := Prod.mk.inj (Option.some.inj hc)
      exact (hdecided hlog).elim
    · cases hs
  | resolve k at' r =>
    obtain ⟨approval, hclaimed, rfl⟩ := Option.map_eq_some_iff.mp hs
    split at hlog
    · next hcall =>
      obtain ⟨rfl, rfl, rfl, rfl⟩ := GateEvent.called.inj (List.cons.inj hlog).1
      exact ⟨k, r, approval, rfl, hclaimed, hcall⟩
    · exact (hsame hlog).elim
  | leave k =>
    obtain rfl := Option.some.inj hs
    exact (hsame hlog).elim
  | configure servers =>
    obtain rfl := Option.some.inj hs
    exact (hsame hlog).elim
  | tamper arguments =>
    unfold Gate.step at hs
    dsimp only at hs
    split at hs
    · cases hs
    · obtain rfl := Option.some.inj hs
      exact (hsame hlog).elim

/-- In a discovered catalog, the entries of one server's tool have one policy. -/
theorem discover_policy {client : Servers} {listTools : String → Option (List ListedTool)} {maxCatalogTools : Nat}
    {entry found : CatalogTool} (hfound : found ∈ discoverCatalog codec client listTools maxCatalogTools)
    (hentry : entry ∈ discoverCatalog codec client listTools maxCatalogTools)
    (hserver : entry.server = found.server) (hname : entry.name = found.name) : entry.policy = found.policy := by
  obtain ⟨server, _, _, hs, _, hq, _⟩ := discover_entry hfound
  obtain ⟨server', _, _, hs', _, hq', _⟩ := discover_entry hentry
  have hqualified : entry.qualifiedName = found.qualifiedName := by
    rw [hq, hq', ← hs, ← hs', hserver, hname]
  exact (discover_consistent codec client listTools maxCatalogTools _ hentry _ hfound hqualified).2.2

/-- Calls that need an approval have one, and calls that have none need none. -/
theorem approval_gate (s : ApprovalSettings) (codec : Codec) (check : Json → Json → Option String) :
    (∀ {w w' : Gate ω} {e : GateStep ω} {server tool : String} {arguments : Json} {now : Nat},
      (gate s codec check).Reachable w → w.step s codec check e = some w' →
      w'.log = .called server tool arguments now :: w.log →
      ∃ k r hash expiresAt decidedAt, e = .resolve k now r ∧
        .requested hash expiresAt ∈ w.log ∧
        (∀ hash' expiresAt', .requested hash' expiresAt' ∈ w.log → hash' = hash ∧ expiresAt' = expiresAt) ∧
        .decided .approved decidedAt ∈ w.log ∧ decidedAt < expiresAt ∧ now < expiresAt ∧
        codec.sha256Json arguments = hash ∧
        (∃ entry ∈ discoverCatalog codec w.servers r.listTools r.maxCatalogTools,
          entry.server = server ∧ entry.name = tool) ∧
        ∀ entry ∈ discoverCatalog codec w.servers r.listTools r.maxCatalogTools,
          entry.server = server → entry.name = tool → entry.policy = .approvalRequired) ∧
    ∀ {catalog : List CatalogTool} {call : Call} {authorize : String → String → Bool} {server tool : String}
      {arguments : Json}, execute codec check catalog authorize call = .call server tool arguments →
      (∃ entry, byName catalog call.qualifiedName = some entry ∧ entry.policy = .auto ∧
        entry.server = server ∧ entry.name = tool) ∧
      (Consistent catalog → ∀ entry ∈ catalog, entry.qualifiedName = call.qualifiedName → entry.policy = .auto) ∧
      ∀ client listTools maxCatalogTools, catalog = discoverCatalog codec client listTools maxCatalogTools →
        ∀ entry ∈ catalog, entry.server = server → entry.name = tool → entry.policy = .auto := by
  refine ⟨fun {w w' e server tool arguments now} hw hs hlog => ?_, fun {catalog call _ server tool _} h => ?_⟩
  · have hinv := (inductive_gateInv s codec check).reachable hw
    obtain ⟨k, r, approval, rfl, hclaimed, hcall⟩ := step_called hs hlog
    have hfaithful := hinv.claimed k approval hclaimed
    obtain ⟨happroved, hlive, hattempt⟩ := resolveApproval_call hcall
    obtain ⟨decidedAt, hdecided, hlt⟩ := hfaithful.approved happroved
    obtain ⟨_, rfl, hhash, found, hfound, hpolicy, rfl, rfl⟩ := executeApproved_call hattempt.symm
    have hmem := (find_mem hfound).1
    exact ⟨k, r, _, _, decidedAt, rfl, hfaithful.requested,
      fun _ _ hr => hinv.once hr hfaithful.requested, hdecided, hlt, hlive, hhash, ⟨found, hmem, rfl, rfl⟩,
      fun entry hentry hserver hname => (discover_policy hmem hentry hserver hname).trans hpolicy⟩
  · obtain ⟨_, _, found, hfound, hpolicy, rfl, rfl⟩ := execute_auto h
    obtain ⟨hmem, hname⟩ := byName_mem hfound
    refine ⟨⟨found, hfound, hpolicy, rfl, rfl⟩, fun hconsistent entry hentry hq => ?_, ?_⟩
    · exact (hconsistent _ hentry _ hmem (hq.trans hname.symm)).2.2.trans hpolicy
    · rintro client listTools maxCatalogTools rfl entry hentry hserver htool
      exact (discover_policy hmem hentry hserver htool).trans hpolicy

def sampleServers : Servers where
  servers :=
    [{ name := "ops", allowedTools := ["deploy", "status"]
       toolPolicies := [("deploy", .approvalRequired), ("status", .auto)]
       idempotencyMode := "none", enabled := true
       name_valid := by decide, tools_unique := by decide, policies_allowed := by decide }]
  names_unique := by decide

def sampleCodec : Codec := ⟨fun _ => "", fun _ => "", id, fun _ => ""⟩

def sampleListTools (_ : String) : Option (List ListedTool) :=
  some [⟨"deploy", .obj []⟩, ⟨"status", .obj []⟩]

/-- An approval that is requested at 0 and approved at 5, with a claim at 6. -/
def approvedSteps : List (GateStep Unit) :=
  [.configure sampleServers, .request "a" "run" ⟨"ops.deploy", "ops", "deploy", .obj []⟩ (.obj []) 0,
    .transact 0 (.decide ⟨true, none, "admin", "github", 1⟩) 5, .claim () 0 6]

def sampleApprovals : ApprovalSettings := ⟨true, 3600, 300, 1000⟩

def sampleResolving : Resolving where
  router := true
  listTools := sampleListTools
  maxCatalogTools := 10
  authorize _ _ := true
  reply := .ran "e" "key" .unknown none

theorem approval_gate_sample :
    (∃ (w w' : Gate Unit) (decidedAt expiresAt : Nat),
      w.step sampleApprovals sampleCodec (fun _ _ => none) (.resolve () 7 sampleResolving) = some w' ∧
      w'.log = .called "ops" "deploy" (.obj []) 7 :: w.log ∧
      .decided .approved decidedAt ∈ w.log ∧ decidedAt < expiresAt) ∧
    ∀ entry ∈ discoverCatalog sampleCodec sampleServers sampleListTools 10,
      entry.server = "ops" → entry.name = "status" → entry.policy = .auto := by
  have hempty : (gate sampleApprovals sampleCodec fun _ _ => none).start
      (⟨⟨[], by decide⟩, [], fun _ : Unit => none, []⟩ : Gate Unit) := ⟨rfl, rfl, fun _ => rfl⟩
  obtain ⟨hgate, hauto⟩ := approval_gate (ω := Unit) sampleApprovals sampleCodec fun _ _ => none
  constructor
  · obtain ⟨_, _, _, expiresAt, decidedAt, -, -, -, hdecided, hlt, -⟩ :=
      @hgate _ _ (.resolve () 7 sampleResolving) "ops" "deploy" (.obj []) 7
        ⟨_, approvedSteps, hempty, .of_foldlM rfl⟩ rfl rfl
    exact ⟨_, _, decidedAt, expiresAt, rfl, rfl, hdecided, hlt⟩
  · exact (@hauto _ ⟨"ops.status", "ops", "status", .obj []⟩ (fun _ _ => true) _ _ (.obj []) rfl).2.2 _ _ _ rfl

end CodeMate.Mcp
