import Mathlib.Data.List.Nodup
import CodeMate.Codec

/-!
# The MCP tool router

The client's server configurations, the catalog that `discover_catalog` builds
from them, and the router's decisions over a catalog: `validatePlan` sorts the
planner's proposals into accepted calls, calls that need approval and rejected
ones; `execute` and `executeApproved` decide whether `client.call_tool` is
reached, and with what (`Attempt.call`).

`execute_auto` and `executeApproved_call` say what a call that is reached has
passed; `discover_consistent` says that a discovered catalog gives every entry
of one qualified name the same policy, so that it does not matter which of them
a lookup finds.
-/

namespace CodeMate

open Framework

/-- A tool call as the router accepted it. -/
structure Call where
  qualifiedName : String
  server : String
  tool : String
  arguments : Json
deriving DecidableEq

namespace Mcp

/-- A tool's policy; `other` is a value that is none of the three. -/
inductive Policy
  | auto
  | approvalRequired
  | deny
  | other
deriving DecidableEq, Repr

/-- Whether a character may stand in a server name, after the first one. -/
def nameChar (c : Char) : Bool := c.isAlphanum || c = '_' || c = '-'

/-- `SERVER_NAME_PATTERN`. -/
def validName (name : String) : Bool :=
  match name.toList with
  | [] => false
  | c :: cs => c.isAlphanum && cs.all nameChar && cs.length ≤ 63

/-- `MCPRemoteServerConfig`, with what its validators check of these fields. -/
structure MCPRemoteServerConfig where
  name : String
  allowedTools : List String
  toolPolicies : List (String × Policy)
  idempotencyMode : String
  enabled : Bool
  name_valid : validName name = true
  tools_unique : allowedTools.Nodup
  policies_allowed : ∀ p ∈ toolPolicies, p.1 ∈ allowedTools

/-- `tool_policies.get(tool, "deny")`. -/
def MCPRemoteServerConfig.policy (server : MCPRemoteServerConfig) (tool : String) : Policy :=
  (server.toolPolicies.lookup tool).getD .deny

/-- The servers of a client; their names are unique. -/
structure Servers where
  servers : List MCPRemoteServerConfig
  names_unique : (servers.map (·.name)).Nodup

/-- `_server`: only an enabled server is found. -/
def Servers.find (client : Servers) (name : String) : Option MCPRemoteServerConfig :=
  client.servers.find? fun server => server.enabled && server.name == name

/-- The policy of a server's tool in force; a server that is not found allows nothing. -/
def Servers.policy (client : Servers) (server tool : String) : Policy :=
  match client.find server with
  | none => .deny
  | some config => config.policy tool

inductive ClientError
  | serverNotFound
  | toolNotAllowed
deriving DecidableEq, Repr

/-- The check of `call_tool` before it reserves quota and opens a session. -/
def Servers.callTool (client : Servers) (server tool : String) : Except ClientError Unit :=
  match client.find server with
  | none => .error .serverNotFound
  | some config => if tool ∈ config.allowedTools then .ok () else .error .toolNotAllowed

structure CatalogTool where
  qualifiedName : String
  server : String
  name : String
  inputSchema : Json
  policy : Policy
deriving DecidableEq

/-- A tool as a server lists it. -/
structure ListedTool where
  name : String
  inputSchema : Json

/-- `_catalog_entry`. -/
def catalogEntry (server : MCPRemoteServerConfig) (tool : ListedTool) (inputSchema : Json) : CatalogTool where
  qualifiedName := server.name ++ "." ++ tool.name
  server := server.name
  name := tool.name
  inputSchema := inputSchema
  policy := server.policy tool.name

section Router

variable (codec : Codec)

/-- `tool.get("input_schema") or {"type": "object"}`. -/
def ListedTool.schema (tool : ListedTool) : Json :=
  if tool.inputSchema.truthy then tool.inputSchema else .obj [("type", .str "object")]

/-- The entries of one server, of the tools it is allowed and whose schema is small enough. -/
def serverEntries (server : MCPRemoteServerConfig) (tools : List ListedTool) : List CatalogTool :=
  tools.filterMap fun tool =>
    if tool.name ∉ server.allowedTools then none
    else if (codec.dumps tool.schema).length > 20000 then none
    else some (catalogEntry server tool tool.schema)

/-- `discover_catalog`: `listTools` is what each server lists, or `none` where it fails. -/
def discoverCatalog (client : Servers) (listTools : String → Option (List ListedTool))
    (maxCatalogTools : Nat) : List CatalogTool :=
  ((client.servers.filter fun server => server.enabled && !server.allowedTools.isEmpty).flatMap
    fun server => serverEntries codec server ((listTools server.name).getD [])).take (max 1 maxCatalogTools)

/-- A string that is found and true. -/
def nonempty (found : Option String) : Option String := found.filter (· ≠ "")

mutual

/-- `find_external_ref`. -/
def findExternalRef : Json → Option String
  | .obj ms =>
    match ms.lookup "$ref" with
    | some (.str ref) => if ref.startsWith "#" then findExternalRefMembers ms else some ref
    | _ => findExternalRefMembers ms
  | .arr xs => findExternalRefList xs
  | _ => none

def findExternalRefList : List Json → Option String
  | [] => none
  | x :: xs => (nonempty (findExternalRef x)).or (findExternalRefList xs)

def findExternalRefMembers : List (String × Json) → Option String
  | [] => none
  | (_, x) :: ms => (nonempty (findExternalRef x)).or (findExternalRefMembers ms)

end

/-- `validate_tool_arguments`; `check` is the JSON Schema validator. -/
def validateToolArguments (check : Json → Json → Option String) (schema arguments : Json) : Option String :=
  match nonempty (findExternalRef schema) with
  | some ref => some ("external schema references are not allowed: " ++ ref)
  | none => check schema arguments

/-- `call_fingerprint`. -/
def callFingerprint (qualifiedName : String) (arguments : Json) : String :=
  codec.dumps (.arr [.str qualifiedName, arguments])

structure Rejection where
  tool : String
  reason : String
  detail : Option String
deriving DecidableEq

structure Plan where
  calls : List Call
  approvalRequests : List Call
  rejected : List Rejection
deriving DecidableEq

def Plan.empty : Plan := ⟨[], [], []⟩

/-- The text of a member, or of the value given for a false one. -/
def textOr (value : Option Json) (default : String) : String :=
  match value with
  | some (.str s) => if s = "" then default else s
  | some v => if v.truthy then codec.str v else default
  | none => default

/-- The fingerprints of the observations that name a tool. -/
def seenCalls (observations : List Json) : List String :=
  observations.filterMap fun observation =>
    if observation.flag "qualified_name" then
      some (callFingerprint codec (textOr codec (observation.get "qualified_name") "")
        (if observation.flag "arguments" then (observation.get "arguments").getD .null else .obj []))
    else none

/-- The entry of a name in the router's index, where a later entry replaces an earlier one. -/
def byName (catalog : List CatalogTool) (qualifiedName : String) : Option CatalogTool :=
  catalog.reverse.find? (·.qualifiedName == qualifiedName)

/-- A proposal with a tool name and an argument object. -/
def proposal (proposed : Json) : Option (String × Json) :=
  match proposed.get "tool", proposed.get "arguments" with
  | some (.str qualifiedName), some (.obj ms) => some (qualifiedName, .obj ms)
  | _, _ => none

def Plan.reject (plan : Plan) (tool reason : String) (detail : Option String) : Plan :=
  { plan with rejected := plan.rejected ++ [⟨tool, reason, detail⟩] }

variable (check : Json → Json → Option String) (catalog : List CatalogTool)

/-- One turn of the loop of `validate_plan`, on the fingerprints seen and the plan so far. -/
def consider (remainingCalls : Nat) (acc : List String × Plan) (proposed : Json) : List String × Plan :=
  let (seen, plan) := acc
  match proposal proposed with
  | none => (seen, plan.reject (textOr codec (proposed.get "tool") "unknown") "invalid_plan_shape" none)
  | some (qualifiedName, arguments) =>
    match byName catalog qualifiedName with
    | none => (seen, plan.reject qualifiedName "tool_not_in_catalog" none)
    | some tool =>
      if tool.policy = .deny then (seen, plan.reject qualifiedName "deny" none)
      else
        let fingerprint := callFingerprint codec qualifiedName arguments
        if fingerprint ∈ seen then (seen, plan.reject qualifiedName "duplicate_call" none)
        else match validateToolArguments check tool.inputSchema arguments with
          | some error => (seen, plan.reject qualifiedName "schema_validation_failed" (some error))
          | none =>
            if plan.calls.length + plan.approvalRequests.length ≥ remainingCalls then
              (seen, plan.reject qualifiedName "call_budget_exhausted" none)
            else
              let call : Call := ⟨qualifiedName, tool.server, tool.name, arguments⟩
              (fingerprint :: seen, match tool.policy with
                | .approvalRequired => { plan with approvalRequests := plan.approvalRequests ++ [call] }
                | .auto => { plan with calls := plan.calls ++ [call] }
                | _ => plan.reject qualifiedName "invalid_policy" none)

/-- `validate_plan`. -/
def validatePlan (proposed : List Json) (remainingCalls : Nat) (observations : List Json) : Plan :=
  ((proposed.take 20).foldl (consider codec check catalog remainingCalls) (seenCalls codec observations, .empty)).2

/-- `plan`, with the planner's answer; it is not asked where nothing could be called. -/
def plan (proposed : List Json) (remainingCalls : Nat) (observations : List Json) : Plan :=
  if remainingCalls = 0 ∨ ¬ catalog.any fun tool => tool.policy = .auto ∨ tool.policy = .approvalRequired then
    .empty
  else validatePlan codec check catalog proposed remainingCalls observations

/-- How a request to execute ends: with a result and no call, with the
authorizer's exception, or at `client.call_tool`. -/
inductive Attempt
  | refused (result : Json)
  | unauthorized
  | call (server tool : String) (arguments : Json)
deriving DecidableEq

variable (authorize : String → String → Bool)

/-- `execute`, up to the client. -/
def execute (call : Call) : Attempt :=
  let plan := validatePlan codec check catalog
    [.obj [("tool", .str call.qualifiedName), ("arguments", call.arguments)]] 1 []
  match plan.calls with
  | [] => .refused (.obj [("ok", .bool false), ("qualified_name", .str call.qualifiedName),
      ("policy_rejection",
        if plan.approvalRequests.isEmpty then
          match plan.rejected with
          | r :: _ => .obj ([("tool", .str r.tool), ("reason", .str r.reason)] ++
              (r.detail.map fun d => ("detail", Json.str d)).toList)
          | [] => .null
        else .obj [("tool", .str call.qualifiedName), ("reason", .str "approval_required")])])
  | validated :: _ =>
    if authorize validated.server validated.tool then
      .call validated.server validated.tool validated.arguments
    else .unauthorized

/-- A refusal of `execute_approved`. -/
def approvedError (qualifiedName error : String) : Attempt :=
  .refused (.obj [("ok", .bool false), ("qualified_name", .str qualifiedName), ("error", .str error)])

/-- `execute_approved`, up to the client; the first entry of the name counts. -/
def executeApproved (qualifiedName : String) (arguments : Json) (expectedArgumentsHash : String) : Attempt :=
  match catalog.find? (·.qualifiedName == qualifiedName) with
  | none => approvedError qualifiedName "approved_tool_not_in_current_catalog"
  | some tool =>
    if tool.policy ≠ .approvalRequired then approvedError qualifiedName "approval_policy_changed"
    else if codec.sha256Json arguments ≠ expectedArgumentsHash then
      approvedError qualifiedName "approved_arguments_hash_mismatch"
    else match validateToolArguments check tool.inputSchema arguments with
      | some detail => .refused (.obj [("ok", .bool false), ("qualified_name", .str qualifiedName),
          ("error", .str "approved_arguments_no_longer_valid"), ("detail", .str detail)])
      | none => if authorize tool.server tool.name then .call tool.server tool.name arguments else .unauthorized

/-! ## What a plan contains -/

/-- A call of the plan was proposed, is in the catalog under the policy, and
its arguments fit the schema. -/
structure Listed (policy : Policy) (proposed : List Json) (call : Call) : Prop where
  proposed : ∃ p ∈ proposed, proposal p = some (call.qualifiedName, call.arguments)
  listed : ∃ tool, byName catalog call.qualifiedName = some tool ∧ tool.policy = policy ∧
    call.server = tool.server ∧ call.tool = tool.name ∧
    validateToolArguments check tool.inputSchema call.arguments = none

/-- What the loop of `validate_plan` keeps. -/
structure PlanOk (remainingCalls : Nat) (proposed : List Json) (plan : Plan) : Prop where
  calls : ∀ call ∈ plan.calls, Listed check catalog .auto proposed call
  approvals : ∀ call ∈ plan.approvalRequests, Listed check catalog .approvalRequired proposed call
  budget : plan.calls.length + plan.approvalRequests.length ≤ remainingCalls

variable {codec check catalog} {remainingCalls : Nat} {proposed : List Json}

theorem PlanOk.reject {plan : Plan} (h : PlanOk check catalog remainingCalls proposed plan)
    (tool reason : String) (detail : Option String) :
    PlanOk check catalog remainingCalls proposed (plan.reject tool reason detail) :=
  ⟨h.calls, h.approvals, h.budget⟩

theorem consider_ok {acc : List String × Plan} {p : Json} (hp : p ∈ proposed)
    (h : PlanOk check catalog remainingCalls proposed acc.2) :
    PlanOk check catalog remainingCalls proposed (consider codec check catalog remainingCalls acc p).2 := by
  obtain ⟨seen, plan⟩ := acc
  unfold consider
  dsimp only
  split
  · exact h.reject _ _ _
  next qualifiedName arguments hprop =>
    split
    · exact h.reject _ _ _
    next tool htool =>
      split
      · exact h.reject _ _ _
      split
      · exact h.reject _ _ _
      split
      · exact h.reject _ _ _
      next hschema =>
        split
        · exact h.reject _ _ _
        next hroom =>
          have hnew (policy : Policy) (hpol : tool.policy = policy) :
              Listed check catalog policy proposed ⟨qualifiedName, tool.server, tool.name, arguments⟩ :=
            ⟨⟨p, hp, hprop⟩, tool, htool, hpol, rfl, rfl, hschema⟩
          dsimp only at hroom ⊢
          have hbudget := h.budget
          dsimp only at hbudget
          split
          · next hpol =>
            refine ⟨h.calls, fun call hc => ?_, by simp; omega⟩
            rcases List.mem_append.mp hc with hc | hc
            · exact h.approvals call hc
            · rw [List.mem_singleton.mp hc]; exact hnew _ hpol
          · next hpol =>
            refine ⟨fun call hc => ?_, h.approvals, by simp; omega⟩
            rcases List.mem_append.mp hc with hc | hc
            · exact h.calls call hc
            · rw [List.mem_singleton.mp hc]; exact hnew _ hpol
          · exact h.reject _ _ _

theorem validatePlan_ok (observations : List Json) : PlanOk check catalog remainingCalls proposed
    (validatePlan codec check catalog proposed remainingCalls observations) := by
  have hfold : ∀ (ps : List Json) (acc : List String × Plan), (∀ p ∈ ps, p ∈ proposed) →
      PlanOk check catalog remainingCalls proposed acc.2 → PlanOk check catalog remainingCalls proposed
        (ps.foldl (consider codec check catalog remainingCalls) acc).2 := by
    intro ps
    induction ps with
    | nil => exact fun _ _ h => h
    | cons p ps ih =>
      intro acc hps h
      exact ih _ (fun q hq => hps q (List.mem_cons_of_mem p hq))
        (consider_ok (hps p List.mem_cons_self) h)
  exact hfold _ _ (fun p hp => List.mem_of_mem_take hp) ⟨nofun, nofun, Nat.zero_le _⟩

theorem plan_ok (observations : List Json) : PlanOk check catalog remainingCalls proposed
    (plan codec check catalog proposed remainingCalls observations) := by
  unfold plan
  split
  · exact ⟨nofun, nofun, Nat.zero_le _⟩
  · exact validatePlan_ok observations

theorem proposal_call {call : Call} {qualifiedName : String} {arguments : Json}
    (h : proposal (.obj [("tool", .str call.qualifiedName), ("arguments", call.arguments)]) =
      some (qualifiedName, arguments)) : qualifiedName = call.qualifiedName ∧ arguments = call.arguments := by
  have htool : (Json.obj [("tool", .str call.qualifiedName), ("arguments", call.arguments)]).get "tool" =
    some (.str call.qualifiedName) := rfl
  have hargs : (Json.obj [("tool", .str call.qualifiedName), ("arguments", call.arguments)]).get
    "arguments" = some call.arguments := rfl
  unfold proposal at h
  rw [htool, hargs] at h
  cases ha : call.arguments <;> rw [ha] at h <;> cases h
  exact ⟨rfl, rfl⟩

variable {authorize : String → String → Bool}

/-- What `execute` has checked when it reaches the client. -/
theorem execute_auto {call : Call} {server tool : String} {arguments : Json}
    (h : execute codec check catalog authorize call = .call server tool arguments) :
    authorize server tool = true ∧ arguments = call.arguments ∧
    ∃ entry, byName catalog call.qualifiedName = some entry ∧ entry.policy = .auto ∧
      entry.server = server ∧ entry.name = tool := by
  unfold execute at h
  dsimp only at h
  split at h
  · cases h
  next validated rest hcalls =>
    split at h
    · next hauth =>
      obtain ⟨rfl, rfl, rfl⟩ := Attempt.call.inj h
      have hplan : PlanOk check catalog 1 _ (validatePlan codec check catalog
        [.obj [("tool", .str call.qualifiedName), ("arguments", call.arguments)]] 1 []) := validatePlan_ok []
      have hok := hplan.calls validated (by rw [hcalls]; exact List.mem_cons_self)
      obtain ⟨p, hp, hprop⟩ := hok.proposed
      rw [List.mem_singleton.mp hp] at hprop
      obtain ⟨hname, hargs⟩ := proposal_call hprop
      obtain ⟨entry, hentry, hpol, hs, ht, _⟩ := hok.listed
      exact ⟨hauth, hargs, entry, hname ▸ hentry, hpol, hs.symm, ht.symm⟩
    · cases h

/-- What `execute_approved` has checked when it reaches the client. -/
theorem executeApproved_call {qualifiedName expectedArgumentsHash server tool : String}
    {arguments sent : Json}
    (h : executeApproved codec check catalog authorize qualifiedName arguments expectedArgumentsHash =
      .call server tool sent) :
    authorize server tool = true ∧ sent = arguments ∧ codec.sha256Json sent = expectedArgumentsHash ∧
    ∃ entry, catalog.find? (·.qualifiedName == qualifiedName) = some entry ∧
      entry.policy = .approvalRequired ∧ entry.server = server ∧ entry.name = tool := by
  unfold executeApproved at h
  split at h
  · cases h
  next entry hentry =>
    split at h
    · cases h
    next hpol =>
      split at h
      · cases h
      next hhash =>
        split at h
        · cases h
        split at h
        · next hauth =>
          obtain ⟨rfl, rfl, rfl⟩ := Attempt.call.inj h
          exact ⟨hauth, rfl, not_not.mp hhash, entry, hentry, not_not.mp hpol, rfl, rfl⟩
        · cases h

end Router

/-! ## Discovered catalogs -/

/-- Entries of one qualified name are of one tool of one server, under one policy. -/
def Consistent (catalog : List CatalogTool) : Prop :=
  ∀ a ∈ catalog, ∀ b ∈ catalog, a.qualifiedName = b.qualifiedName →
    a.server = b.server ∧ a.name = b.name ∧ a.policy = b.policy

theorem byName_mem {catalog : List CatalogTool} {qualifiedName : String} {entry : CatalogTool}
    (h : byName catalog qualifiedName = some entry) : entry ∈ catalog ∧ entry.qualifiedName = qualifiedName :=
  ⟨List.mem_reverse.mp (List.mem_of_find?_eq_some h), by simpa using List.find?_some h⟩

theorem find_mem {catalog : List CatalogTool} {qualifiedName : String} {entry : CatalogTool}
    (h : catalog.find? (·.qualifiedName == qualifiedName) = some entry) :
    entry ∈ catalog ∧ entry.qualifiedName = qualifiedName :=
  ⟨List.mem_of_find?_eq_some h, by simpa using List.find?_some h⟩

/-- A valid server name has no dot, so a qualified name has one server and one tool. -/
theorem validName_dot {name : String} (h : validName name = true) : '.' ∉ name.toList := by
  unfold validName at h
  have hdot : nameChar '.' = false := by decide
  split at h
  · cases h
  next c cs hc =>
    simp only [Bool.and_eq_true, List.all_eq_true] at h
    rw [hc]
    intro hm
    rcases List.mem_cons.mp hm with rfl | hm
    · exact absurd h.1.1 (by decide)
    · exact absurd (h.1.2 _ hm) (by rw [hdot]; nofun)

theorem append_dot_inj : ∀ {a b c d : List Char}, '.' ∉ a → '.' ∉ c → a ++ '.' :: b = c ++ '.' :: d →
    a = c ∧ b = d
  | [], _, [], _, _, _, h => ⟨rfl, (List.cons.inj h).2⟩
  | [], _, x :: _, _, _, hc, h => absurd ((List.cons.inj h).1 ▸ List.mem_cons_self) hc
  | x :: _, _, [], _, ha, _, h => absurd ((List.cons.inj h).1 ▸ List.mem_cons_self) ha
  | x :: a, _, y :: c, _, ha, hc, h => by
    obtain ⟨rfl, ht⟩ := List.cons.inj h
    obtain ⟨rfl, rfl⟩ := append_dot_inj (fun hm => ha (List.mem_cons_of_mem _ hm))
      (fun hm => hc (List.mem_cons_of_mem _ hm)) ht
    exact ⟨rfl, rfl⟩

theorem qualifiedName_inj {s s' t t' : String} (hs : validName s = true) (hs' : validName s' = true)
    (h : s ++ "." ++ t = s' ++ "." ++ t') : s = s' ∧ t = t' := by
  have hl : s.toList ++ '.' :: t.toList = s'.toList ++ '.' :: t'.toList := by
    simpa using congrArg String.toList h
  obtain ⟨h₁, h₂⟩ := append_dot_inj (validName_dot hs) (validName_dot hs') hl
  exact ⟨String.toList_inj.mp h₁, String.toList_inj.mp h₂⟩

/-- Where an entry of a discovered catalog comes from. -/
theorem discover_entry {codec : Codec} {client : Servers} {listTools : String → Option (List ListedTool)}
    {maxCatalogTools : Nat} {entry : CatalogTool}
    (h : entry ∈ discoverCatalog codec client listTools maxCatalogTools) :
    ∃ server ∈ client.servers, server.enabled = true ∧ entry.server = server.name ∧
      entry.name ∈ server.allowedTools ∧ entry.qualifiedName = server.name ++ "." ++ entry.name ∧
      entry.policy = server.policy entry.name := by
  obtain ⟨server, hs, he⟩ := List.mem_flatMap.mp (List.mem_of_mem_take h)
  obtain ⟨hs, hen⟩ := List.mem_filter.mp hs
  obtain ⟨tool, _, ht⟩ := List.mem_filterMap.mp he
  split at ht
  · cases ht
  next hallowed =>
    split at ht
    · cases ht
    obtain rfl := Option.some.inj ht
    rw [Bool.and_eq_true] at hen
    exact ⟨server, hs, hen.1, rfl, not_not.mp hallowed, rfl, rfl⟩

theorem discover_consistent (codec : Codec) (client : Servers)
    (listTools : String → Option (List ListedTool)) (maxCatalogTools : Nat) :
    Consistent (discoverCatalog codec client listTools maxCatalogTools) := by
  intro a ha b hb hq
  obtain ⟨s, hs, _, has, _, haq, hap⟩ := discover_entry ha
  obtain ⟨s', hs', _, hbs, _, hbq, hbp⟩ := discover_entry hb
  obtain ⟨hname, htool⟩ := qualifiedName_inj s.name_valid s'.name_valid (haq.symm.trans (hq.trans hbq))
  obtain rfl : s = s' := List.inj_on_of_nodup_map client.names_unique hs hs' hname
  exact ⟨has.trans hbs.symm, htool, hap.trans (htool ▸ hbp.symm)⟩

end Mcp

end CodeMate
