import CodeMate.Tenancy.Authorization

/-!
# Tools of a tenant

`filterConfigs` asks for every tool of every server whether it may be discovered
and executed, and keeps the configurations that have a tool left, cut down to
these tools (`restricted`). `ruled_iff` is the exact case in which all the
answers, and with them the tools that are left, are those of the rule: whenever
the role that is read does not matter. `role_read` is a user with two roles of
whom one is denied.
-/

namespace CodeMate.Tenancy

open Framework Framework.DenyOverrides

/-! ## Configurations -/

structure MCPAgentContextTool where
  tool : String
  arguments : Json

/-- A configuration with the tools that an agent's context comes from, each under an automatic policy. -/
structure ServerConfig extends Mcp.MCPRemoteServerConfig where
  agentContextTools : List MCPAgentContextTool
  context_auto : ∀ item ∈ agentContextTools, toolPolicies.lookup item.tool = some .auto

theorem lookup_filter {α : Type*} {p : String → Bool} {tool : String} (h : p tool = true) :
    ∀ l : List (String × α), (l.filter fun entry => p entry.1).lookup tool = l.lookup tool
  | [] => rfl
  | (name, value) :: l => by
    have ih := lookup_filter h l
    by_cases hp : p name = true
    · simp only [List.filter_cons, hp, ↓reduceIte, List.lookup_cons, ih]
    · have hne : (tool == name) = false := by simpa using fun e : tool = name => hp (e ▸ h)
      simp only [List.filter_cons, hp, Bool.false_eq_true, ↓reduceIte, List.lookup_cons, hne]
      exact ih

variable (p : String → Bool) (config : ServerConfig)

/-- `config.model_copy(update=…)` with the allowed tools that meet `p`; nothing without one. -/
def ServerConfig.restricted : Option ServerConfig :=
  if config.allowedTools.filter p = [] then none
  else some
    { config with
      allowedTools := config.allowedTools.filter p
      toolPolicies := config.toolPolicies.filter fun policy => policy.1 ∈ config.allowedTools.filter p
      agentContextTools := config.agentContextTools.filter fun item => item.tool ∈ config.allowedTools.filter p
      tools_unique := config.tools_unique.filter p
      policies_allowed := fun policy h => by simpa using (List.mem_filter.mp h).2
      context_auto := fun item h => by
        obtain ⟨hitem, hallowed⟩ := List.mem_filter.mp h
        rw [lookup_filter (p := fun tool => tool ∈ config.allowedTools.filter p) hallowed]
        exact config.context_auto item hitem }

variable {p config}

theorem ServerConfig.restricted_none : config.restricted p = none ↔ ∀ tool ∈ config.allowedTools, p tool = false := by
  rw [restricted]
  split
  · next h => exact iff_of_true rfl fun tool ht => by simpa using List.filter_eq_nil_iff.mp h tool ht
  · next h => exact iff_of_false nofun fun hno => h (List.filter_eq_nil_iff.mpr fun tool ht => by simp [hno tool ht])

theorem ServerConfig.restricted_some {left : ServerConfig} (h : config.restricted p = some left) :
    left.name = config.name ∧ left.allowedTools = config.allowedTools.filter p := by
  rw [restricted] at h
  split at h
  · exact absurd h nofun
  · rw [← Option.some.inj h]
    exact ⟨rfl, rfl⟩

theorem ServerConfig.restricted_congr {q : String → Bool} (h : ∀ tool ∈ config.allowedTools, p tool = q tool) :
    config.restricted p = config.restricted q := by
  have hfilter : config.allowedTools.filter p = config.allowedTools.filter q := List.filter_congr h
  simp only [restricted, hfilter]

/-- What one call of `is_allowed` reads: the rows, in the order in which they are returned, and the clock. -/
structure Reading where
  rows : Rows
  now : Nat

/-- `filter_configs`; `reading` is what is read for a tool and a permission of the server at a position. -/
def filterConfigs (mcpTenantAuthorizationEnabled : Bool) (context : MCPAuthorizationContext)
    (reading : Nat → String → String → Reading) (configs : List ServerConfig) : List ServerConfig :=
  if !mcpTenantAuthorizationEnabled then configs
  else
    let allows (position : Nat) (name tool permission : String) : Bool :=
      isAllowed (reading position tool permission).now context name tool permission
        mcpTenantAuthorizationEnabled (reading position tool permission).rows
    configs.zipIdx.filterMap fun entry => entry.1.restricted fun tool =>
      allows entry.2 entry.1.name tool "discover" && allows entry.2 entry.1.name tool "execute"

/-! ## The rule, decided -/

section

variable {now : Nat} {context : MCPAuthorizationContext} {serverName toolName permission : String} {db : Tables}

instance (g : MCPAccessGrant) : Decidable (Concerns now context serverName toolName permission g) :=
  decidable_of_iff _ concerns_iff.symm

instance (role : String) : Decidable (Holds context db role) :=
  inferInstanceAs (Decidable (_ ∧ ∃ m ∈ db.memberships, _))

instance (g : MCPAccessGrant) : Decidable (Applies now context serverName toolName permission db g) :=
  inferInstanceAs (Decidable (_ ∧ _))

instance : Decidable (Bound context serverName db) :=
  inferInstanceAs (Decidable (∃ b ∈ db.bindings, _))

instance : Decidable (Allowed now context serverName toolName permission db) :=
  inferInstanceAs (Decidable (_ ∧ (∀ g ∈ db.grants, _ → _) ∧ ∃ g ∈ db.grants, _))

end

/-- The answers for a context are those of the rule whatever the order of the
rows, and the tools that are left are those it lets discover and execute. -/
structure Ruled (db : Tables) (context : MCPAuthorizationContext) : Prop where
  answers : ∀ (rows : Rows) now serverName toolName permission, rows.Perm db.toRows →
    (isAllowed now context serverName toolName permission true rows = true ↔
      Allowed now context serverName toolName permission db)
  order_free : ∀ (rows rows' : Rows) now serverName toolName permission,
    rows.Perm db.toRows → rows'.Perm db.toRows →
      isAllowed now context serverName toolName permission true rows =
        isAllowed now context serverName toolName permission true rows'
  tools_left : ∀ (reading : Nat → String → String → Reading) (configs : List ServerConfig),
    (∀ position tool permission, (reading position tool permission).rows.Perm db.toRows) →
      filterConfigs true context reading configs = configs.zipIdx.filterMap fun entry =>
        entry.1.restricted fun tool => decide
          (Allowed (reading entry.2 tool "discover").now context entry.1.name tool "discover" db ∧
            Allowed (reading entry.2 tool "execute").now context entry.1.name tool "execute" db)

/-- Authorization follows the rule for a context exactly when for every request
the server is not bound, a grant of the principal itself or of everyone denies,
or the roles that the user holds agree: each is denied or has no allowing grant,
or each is allowed and not denied. -/
theorem ruled_iff (db : Tables) (context : MCPAuthorizationContext) : Ruled db context ↔
    ∀ now serverName toolName permission, Settled now context serverName toolName permission db := by
  constructor
  · intro h now serverName toolName permission
    exact answers_iff.mp fun rows hperm => h.answers rows now serverName toolName permission hperm
  · intro h
    have hanswers : ∀ (rows : Rows) now serverName toolName permission, rows.Perm db.toRows →
        (isAllowed now context serverName toolName permission true rows = true ↔
          Allowed now context serverName toolName permission db) :=
      fun rows now serverName toolName permission => answers_iff.mpr (h now serverName toolName permission) rows
    refine ⟨hanswers, fun rows rows' now serverName toolName permission hperm hperm' => ?_,
      fun reading configs hread => ?_⟩
    · rw [Bool.eq_iff_iff, hanswers rows _ _ _ _ hperm, hanswers rows' _ _ _ _ hperm']
    · rw [filterConfigs, if_neg (by decide)]
      refine List.filterMap_congr fun entry _ => ServerConfig.restricted_congr fun tool _ => ?_
      rw [Bool.eq_iff_iff, Bool.and_eq_true, decide_eq_true_eq,
        hanswers _ _ _ _ _ (hread entry.2 tool "discover"), hanswers _ _ _ _ _ (hread entry.2 tool "execute")]

namespace Sample

/-- A run whose delegated identity is gone. -/
def run : AgentRun := ⟨some "acme", some "repo-1", "user", "ada", none⟩

def context : MCPAuthorizationContext := (contextForRun "default" "tenant-1" [] [] run).1

def grant (role effect : String) : MCPAccessGrant :=
  ⟨"acme", none, "role", role, "docs", "*", some ["discover", "execute"], effect, none⟩

/-- A user who is a member under one provider and an approver under another; approvers are denied. -/
def rows : Rows where
  bindings := [⟨"acme", "docs", true⟩]
  grants := [grant "member" "allow", grant "approver" "deny"]
  memberships := [⟨"acme", "github", "ada", "member"⟩, ⟨"acme", "gitlab", "ada", "approver"⟩]

theorem bindings_keyed : Table.Keyed (fun b : MCPTenantServerBinding => (b.tenantId, b.serverName)) rows.bindings := by
  rw [Table.Keyed]
  decide

theorem memberships_keyed :
    Table.Keyed (fun m : MCPTenantMembership => (m.tenantId, m.provider, m.subject)) rows.memberships := by
  rw [Table.Keyed]
  decide

def db : Tables := ⟨rows, bindings_keyed, memberships_keyed⟩

/-- The user is let in where a grant of a role that it holds denies, and only for one order of the memberships. -/
theorem role_read : ¬ Ruled db context ∧
    isAllowed 0 context "docs" "search" "execute" true db.toRows = true ∧
    isAllowed 0 context "docs" "search" "execute" true { db.toRows with memberships := db.memberships.reverse } = false ∧
    ¬ Allowed 0 context "docs" "search" "execute" db := by
  have hopen : isAllowed 0 context "docs" "search" "execute" true db.toRows = true := by decide +kernel
  have hdenied : ¬ Allowed 0 context "docs" "search" "execute" db := by decide +kernel
  exact ⟨fun h => hdenied ((h.answers db.toRows 0 "docs" "search" "execute" (.refl _)).mp hopen),
    hopen, by decide +kernel, hdenied⟩

end Sample

end CodeMate.Tenancy
