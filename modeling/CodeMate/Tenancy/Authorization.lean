import CodeMate.Framework.DenyOverrides
import CodeMate.Framework.Table
import CodeMate.Mcp.Router

/-!
# Authorization of tenants

`isAllowed` answers from a binding of the server, the grants that apply and the
membership of a user, each read by a query of its own whose rows come in any
order (`Rows.Perm`). `Allowed` is the rule: a grant applies through any role
that the user holds in the tenant. The query of the memberships takes the first
row only, so the answer is that of the rule for every order of the rows exactly
when the roles agree (`answers_iff`), as they do for a context with a provider
(`settled_of_provider`). `filterConfigs` leaves the tools that may be both
discovered and executed (`restricted_some`).
-/

namespace CodeMate.Tenancy

open Framework Framework.DenyOverrides

/-! ## Rows -/

structure MCPTenant where
  id : String
  slug : String
  name : String
  deriving DecidableEq

structure MCPTenantMembership where
  tenantId : String
  provider : String
  subject : String
  role : String
  deriving DecidableEq

structure MCPTenantServerBinding where
  tenantId : String
  serverName : String
  enabled : Bool
  deriving DecidableEq

/-- A grant; `permissionsJson` is `none` for a null. -/
structure MCPAccessGrant where
  tenantId : String
  repoId : Option String
  principalType : String
  principalId : String
  serverName : String
  toolName : String
  permissionsJson : Option (List String)
  effect : String
  expiresAt : Option Nat
  deriving DecidableEq

structure MCPDelegatedIdentity where
  id : String
  subjectProvider : String
  deriving DecidableEq

/-- The columns of a run that its context is made of. -/
structure AgentRun where
  tenantId : Option String
  repoId : Option String
  principalType : String
  principalId : String
  delegatedIdentityId : Option String
  deriving DecidableEq

structure MCPAuthorizationContext where
  tenantId : String
  repoId : Option String
  principalType : String
  principalId : String
  principalProvider : Option String
  delegatedIdentityId : Option String
  deriving DecidableEq

/-- The rows that the queries of the authorization read. -/
structure Rows where
  bindings : List MCPTenantServerBinding
  grants : List MCPAccessGrant
  memberships : List MCPTenantMembership

/-- The same rows in another order. -/
structure Rows.Perm (rows rows' : Rows) : Prop where
  bindings : rows.bindings.Perm rows'.bindings
  grants : rows.grants.Perm rows'.grants
  memberships : rows.memberships.Perm rows'.memberships

/-- The tables with their unique constraints. -/
structure Tables extends Rows where
  tenant_server : Table.Keyed (fun b : MCPTenantServerBinding => (b.tenantId, b.serverName)) bindings
  tenant_member : Table.Keyed (fun m : MCPTenantMembership => (m.tenantId, m.provider, m.subject)) memberships

/-! ## Contexts -/

def defaultTenant (slug newId : String) (tenants : List MCPTenant) : MCPTenant × List MCPTenant :=
  match tenants.find? fun tenant => tenant.slug = slug with
  | some tenant => (tenant, tenants)
  | none =>
    let tenant := ⟨newId, slug, "Default"⟩
    (tenant, tenants ++ [tenant])

/-- `context_for_run`, with the tenants after it. -/
def contextForRun (slug newId : String) (identities : List MCPDelegatedIdentity) (tenants : List MCPTenant)
    (run : AgentRun) : MCPAuthorizationContext × List MCPTenant :=
  let (tenantId, tenants) :=
    match run.tenantId.filter (· ≠ "") with
    | some id => (id, tenants)
    | none =>
      let (tenant, tenants) := defaultTenant slug newId tenants
      (tenant.id, tenants)
  let principalProvider :=
    (run.delegatedIdentityId.filter (· ≠ "")).bind fun id =>
      (identities.find? fun identity => identity.id = id).map (·.subjectProvider)
  (⟨tenantId, run.repoId, run.principalType, run.principalId, principalProvider, run.delegatedIdentityId⟩, tenants)

/-! ## The answer -/

section

variable (now : Nat) (context : MCPAuthorizationContext) (serverName toolName permission : String)

/-- What the query of the bindings asks for. -/
def isBinding (b : MCPTenantServerBinding) : Bool :=
  b.tenantId = context.tenantId && b.serverName = serverName && b.enabled

/-- What the query of the grants asks for. -/
def inScope (g : MCPAccessGrant) : Bool :=
  g.tenantId = context.tenantId && (g.repoId = none || g.repoId = context.repoId) &&
    g.serverName ∈ [serverName, "*"] && g.toolName ∈ [toolName, "*"] &&
    (g.expiresAt = none || g.expiresAt.any (now < ·))

/-- What the query of the memberships asks for. -/
def isMember (m : MCPTenantMembership) : Bool :=
  m.tenantId = context.tenantId && m.subject = context.principalId &&
    (context.principalProvider = none || some m.provider = context.principalProvider)

/-- `permission in (grant.permissions_json or [])`. -/
def lists (g : MCPAccessGrant) : Bool := permission ∈ g.permissionsJson.getD []

/-- The principals that grants are looked up for; only the first membership gives a role. -/
def principals (memberships : List MCPTenantMembership) : List (String × String) :=
  let principals := [(context.principalType, context.principalId), ("*", "*")]
  if context.principalType = "user" then
    match memberships.find? (isMember context) with
    | some membership => principals ++ [("role", membership.role)]
    | none => principals
  else principals

/-- `(grant.principal_type, grant.principal_id) in principals`. -/
def isPrincipal (principals : List (String × String)) (g : MCPAccessGrant) : Bool :=
  principals.any fun principal => (g.principalType, g.principalId) = principal

def isAllowed (mcpTenantAuthorizationEnabled : Bool) (rows : Rows) : Bool :=
  if !mcpTenantAuthorizationEnabled then true
  else
    match rows.bindings.find? (isBinding context serverName) with
    | none => false
    | some _ =>
      let grants := rows.grants.filter (inScope now context serverName toolName)
      let principals := principals context rows.memberships
      let found := grants.filter fun g => isPrincipal principals g && lists permission g
      if found.any fun g => g.effect = "deny" then false
      else found.any fun g => g.effect = "allow"

/-! ## The rule -/

/-- The memberships of the user in the tenant, with the provider of the context when it has one. -/
def Holds (db : Tables) (role : String) : Prop :=
  context.principalType = "user" ∧ ∃ m ∈ db.memberships, m.tenantId = context.tenantId ∧
    m.subject = context.principalId ∧
    (context.principalProvider = none ∨ context.principalProvider = some m.provider) ∧ m.role = role

/-- A grant of the tenant, the repository, the server, the tool and the permission that has not expired. -/
def Concerns (g : MCPAccessGrant) : Prop :=
  g.tenantId = context.tenantId ∧ (g.repoId = none ∨ g.repoId = context.repoId) ∧
    (g.serverName = serverName ∨ g.serverName = "*") ∧ (g.toolName = toolName ∨ g.toolName = "*") ∧
    (∀ expiry, g.expiresAt = some expiry → now < expiry) ∧
    ∃ permissions, g.permissionsJson = some permissions ∧ permission ∈ permissions

/-- A grant that applies: to the principal itself, to everyone or to a role that the user holds. -/
def Applies (db : Tables) (g : MCPAccessGrant) : Prop :=
  Concerns now context serverName toolName permission g ∧
    ((g.principalType = context.principalType ∧ g.principalId = context.principalId) ∨
      (g.principalType = "*" ∧ g.principalId = "*") ∨
      (g.principalType = "role" ∧ Holds context db g.principalId))

/-- The server is bound to the tenant. -/
def Bound (db : Tables) : Prop :=
  ∃ b ∈ db.bindings, b.tenantId = context.tenantId ∧ b.serverName = serverName ∧ b.enabled = true

/-- The server is bound, no grant that applies denies and one allows. -/
def Allowed (db : Tables) : Prop :=
  Bound context serverName db ∧
    (∀ g ∈ db.grants, Applies now context serverName toolName permission db g → g.effect ≠ "deny") ∧
    ∃ g ∈ db.grants, Applies now context serverName toolName permission db g ∧ g.effect = "allow"

/-- The grants of the principal itself and of everyone. -/
def own (db : Tables) : Set MCPAccessGrant :=
  {g | g ∈ db.grants ∧ Concerns now context serverName toolName permission g ∧
    ((g.principalType = context.principalType ∧ g.principalId = context.principalId) ∨
      (g.principalType = "*" ∧ g.principalId = "*"))}

/-- The grants of a role. -/
def ofRole (db : Tables) (role : String) : Set MCPAccessGrant :=
  {g | g ∈ db.grants ∧ Concerns now context serverName toolName permission g ∧
    g.principalType = "role" ∧ g.principalId = role}

def Denies (g : MCPAccessGrant) : Prop := g.effect = "deny"

def Allows (g : MCPAccessGrant) : Prop := g.effect = "allow"

/-- It does not matter which of the user's roles is read: the server is not
bound, a grant of the principal itself denies, or the roles agree. -/
def Settled (db : Tables) : Prop :=
  ¬ Bound context serverName db ∨
    (∃ g ∈ own now context serverName toolName permission db, Denies g) ∨
    Agree Denies Allows (own now context serverName toolName permission db)
      (ofRole now context serverName toolName permission db) {role | Holds context db role}

end

/-! ## What is read -/

theorem Rows.Perm.refl (rows : Rows) : rows.Perm rows := ⟨.refl _, .refl _, .refl _⟩

theorem Rows.Perm.symm {rows rows' : Rows} (h : rows.Perm rows') : rows'.Perm rows :=
  ⟨h.bindings.symm, h.grants.symm, h.memberships.symm⟩

section

variable {now : Nat} {context : MCPAuthorizationContext} {serverName toolName permission : String} {db : Tables}
  {rows : Rows} {role : String}

theorem concerns_iff {g : MCPAccessGrant} : Concerns now context serverName toolName permission g ↔
    inScope now context serverName toolName g = true ∧ lists permission g = true := by
  have hexpiry : (∀ expiry, g.expiresAt = some expiry → now < expiry) ↔
      g.expiresAt = none ∨ g.expiresAt.any (now < ·) = true := by
    cases g.expiresAt <;> simp
  have hlists : (∃ permissions, g.permissionsJson = some permissions ∧ permission ∈ permissions) ↔
      lists permission g = true := by
    rw [lists]
    cases g.permissionsJson <;> simp
  rw [Concerns, hexpiry, hlists]
  simp [inScope, and_assoc]

theorem isMember_iff {m : MCPTenantMembership} : isMember context m = true ↔
    m.tenantId = context.tenantId ∧ m.subject = context.principalId ∧
      (context.principalProvider = none ∨ context.principalProvider = some m.provider) := by
  simp only [isMember, Bool.and_eq_true, Bool.or_eq_true, decide_eq_true_eq, and_assoc,
    eq_comm (a := some m.provider)]

/-- The role that the query of the memberships gives. -/
def firstRole (context : MCPAuthorizationContext) (memberships : List MCPTenantMembership) : Option String :=
  if context.principalType = "user" then (memberships.find? (isMember context)).map (·.role) else none

theorem isPrincipal_iff {memberships : List MCPTenantMembership} {g : MCPAccessGrant} :
    isPrincipal (principals context memberships) g = true ↔
      (g.principalType = context.principalType ∧ g.principalId = context.principalId) ∨
        (g.principalType = "*" ∧ g.principalId = "*") ∨
        (g.principalType = "role" ∧ firstRole context memberships = some g.principalId) := by
  rw [isPrincipal, principals, firstRole]
  split
  · cases memberships.find? (isMember context) with
    | none => simp
    | some m => simp [eq_comm (a := m.role)]
  · simp

theorem holds_of_firstRole (h : rows.Perm db.toRows) (hr : firstRole context rows.memberships = some role) :
    Holds context db role := by
  rw [firstRole] at hr
  split at hr
  · next huser =>
    obtain ⟨m, hm, rfl⟩ := Option.map_eq_some_iff.mp hr
    obtain ⟨ht, hs, hp⟩ := isMember_iff.mp (List.find?_some hm)
    exact ⟨huser, m, h.memberships.mem_iff.mp (List.mem_of_find?_eq_some hm), ht, hs, hp, rfl⟩
  · exact absurd hr nofun

theorem not_holds_of_firstRole (h : rows.Perm db.toRows) (hr : firstRole context rows.memberships = none) :
    ¬ Holds context db role := by
  intro ⟨huser, m, hm, ht, hs, hp, _⟩
  rw [firstRole, if_pos huser, Option.map_eq_none_iff] at hr
  exact List.find?_eq_none.mp hr m (h.memberships.mem_iff.mpr hm) (isMember_iff.mpr ⟨ht, hs, hp⟩)

/-- Any role that a user holds is the one that is read, for some order of the rows. -/
theorem exists_firstRole (h : Holds context db role) :
    ∃ rows : Rows, rows.Perm db.toRows ∧ firstRole context rows.memberships = some role := by
  obtain ⟨huser, m, hm, ht, hs, hp, hr⟩ := h
  refine ⟨⟨db.bindings, db.grants, m :: db.memberships.erase m⟩,
    ⟨.refl _, .refl _, (List.perm_cons_erase hm).symm⟩, ?_⟩
  have hfound : isMember context m = true := isMember_iff.mpr ⟨ht, hs, hp⟩
  rw [firstRole, if_pos huser, List.find?_cons_of_pos hfound, Option.map_some, hr]

/-! ## The answer against the rule -/

/-- The grants of the role that is read. -/
def ofFirst (now : Nat) (context : MCPAuthorizationContext) (serverName toolName permission : String)
    (db : Tables) : Option String → Set MCPAccessGrant
  | none => ∅
  | some role => ofRole now context serverName toolName permission db role

theorem isAllowed_iff (h : rows.Perm db.toRows) :
    isAllowed now context serverName toolName permission true rows = true ↔ Bound context serverName db ∧
      Permits Denies Allows (own now context serverName toolName permission db ∪
        ofFirst now context serverName toolName permission db (firstRole context rows.memberships)) := by
  have hbound : (rows.bindings.find? (isBinding context serverName)).isSome ↔ Bound context serverName db := by
    rw [List.find?_isSome]
    simp only [Bound, isBinding, h.bindings.mem_iff, Bool.and_eq_true, decide_eq_true_eq, and_assoc]
  rw [← hbound, isAllowed]
  cases rows.bindings.find? (isBinding context serverName) with
  | none => simp
  | some b =>
    have hset : {g | g ∈ (rows.grants.filter (inScope now context serverName toolName)).filter fun g =>
        isPrincipal (principals context rows.memberships) g && lists permission g} =
        own now context serverName toolName permission db ∪
          ofFirst now context serverName toolName permission db (firstRole context rows.memberships) := by
      ext g
      simp only [Set.mem_ofPred_eq, List.mem_filter, h.grants.mem_iff, Bool.and_eq_true, isPrincipal_iff,
        Set.mem_union, own, concerns_iff]
      cases firstRole context rows.memberships with
      | none =>
        simp only [ofFirst, Set.mem_empty_iff_false]
        grind
      | some role =>
        simp only [ofFirst, ofRole, Set.mem_ofPred_eq, concerns_iff, Option.some.injEq]
        grind
    have hrules : decideRules (fun g : MCPAccessGrant => decide (g.effect = "deny"))
        (fun g => decide (g.effect = "allow")) ((rows.grants.filter (inScope now context serverName toolName)).filter
          fun g => isPrincipal (principals context rows.memberships) g && lists permission g) = true ↔ _ :=
      decideRules_iff
    rw [hset] at hrules
    simp only [decide_eq_true_eq] at hrules
    exact hrules.trans ⟨fun h => ⟨rfl, h⟩, fun h => h.2⟩

theorem allowed_iff : Allowed now context serverName toolName permission db ↔ Bound context serverName db ∧
    Permits Denies Allows (own now context serverName toolName permission db ∪
      ⋃ role ∈ {role | Holds context db role}, ofRole now context serverName toolName permission db role) := by
  have hset : (own now context serverName toolName permission db ∪
      ⋃ role ∈ {role | Holds context db role}, ofRole now context serverName toolName permission db role) =
      {g | g ∈ db.grants ∧ Applies now context serverName toolName permission db g} := by
    ext g
    simp only [own, ofRole, Applies, Set.mem_union, Set.mem_ofPred_eq, Set.mem_iUnion, exists_prop]
    grind
  rw [hset, Allowed, Permits]
  simp only [Set.mem_ofPred_eq, Denies, Allows, and_imp, and_assoc, ne_eq]

/-- The answer is that of the rule for every order of the rows exactly when the
role that is read does not matter. -/
theorem answers_iff : (∀ rows : Rows, rows.Perm db.toRows →
    (isAllowed now context serverName toolName permission true rows = true ↔
      Allowed now context serverName toolName permission db)) ↔
        Settled now context serverName toolName permission db := by
  by_cases hb : Bound context serverName db
  · rw [Settled, ← alone_iff]
    simp only [hb, not_true_eq_false, false_or]
    constructor
    · intro h role hrole
      obtain ⟨rows, hperm, hfirst⟩ := exists_firstRole hrole
      have hone := h rows hperm
      rw [isAllowed_iff hperm, allowed_iff, hfirst] at hone
      simpa only [hb, true_and, ofFirst] using hone
    · intro h rows hperm
      rw [isAllowed_iff hperm, allowed_iff]
      simp only [hb, true_and]
      cases hfirst : firstRole context rows.memberships with
      | none =>
        have hnone : {role | Holds context db role} = ∅ :=
          Set.eq_empty_iff_forall_notMem.mpr fun role hrole => not_holds_of_firstRole hperm hfirst hrole
        rw [hnone]
        simp [ofFirst]
      | some role => exact h role (holds_of_firstRole hperm hfirst)
  · refine iff_of_true (fun rows hperm => iff_of_false (fun h => ?_) fun h => hb h.1) (.inl hb)
    exact hb ((isAllowed_iff hperm).mp h).1

/-- With a provider in the context a user has one role at most. -/
theorem settled_of_provider (hp : context.principalProvider.isSome) :
    Settled now context serverName toolName permission db := by
  refine .inr (agree_of_same fun role hrole role' hrole' => ?_)
  obtain ⟨-, m, hm, ht, hs, hprov, rfl⟩ := hrole
  obtain ⟨-, m', hm', ht', hs', hprov', rfl⟩ := hrole'
  obtain ⟨provider, hprovider⟩ := Option.isSome_iff_exists.mp hp
  have hkey : (m.tenantId, m.provider, m.subject) = (m'.tenantId, m'.provider, m'.subject) := by
    rw [ht, hs, ht', hs']
    simp only [hprovider, reduceCtorEq, false_or, Option.some.injEq] at hprov hprov'
    rw [← hprov, ← hprov']
  rw [db.tenant_member.eq hm hm' hkey]

end

end CodeMate.Tenancy
