import CodeMate.Framework.Json
import CodeMate.Sandbox.ExecutionStore

/-!
# The handlers of the execution plane

`execute` in steps: the assertion is verified (`verifyAssertion`), the
execution is claimed, and an attempt that was acquired removes, extracts, runs,
completes and removes its workspace. `Handlers` is a store with the handlers of
all instances, each at its `Stage`, and the directories that they share; any
handler may make the next step, and any delay may pass before it.
-/

namespace CodeMate.Sandbox

open Framework

inductive RequestedRuntime
  | docker
  | gvisor
  | firecracker
  deriving DecidableEq

structure ExecutionRequest where
  executionId : String
  archiveBase64 : String
  archiveSha256 : String
  command : String
  shellCommand : String
  image : String
  requestedRuntime : RequestedRuntime
  timeoutSeconds : Int
  executionId_length : executionId.length = 36
  timeoutSeconds_pos : 1 ≤ timeoutSeconds
  timeoutSeconds_le : timeoutSeconds ≤ 3600

/-! ## The assertion -/

/-- The claims of an assertion that are read; each can be missing. -/
structure AssertionClaims where
  iss : Option String := none
  sub : Option String := none
  aud : Option String := none
  iat : Option Int := none
  exp : Option Int := none
  jti : Option String := none
  requestHash : Option String := none
  deriving DecidableEq

structure BackendResult where
  passed : Bool
  exitCode : Int
  stdout : String
  stderr : String
  timedOut : Bool := false
  executionNode : Option String := none
  deriving DecidableEq

/-- The settings of the plane, `decode` the check of the signature and the
parts of a token, and `bindingHash` the hash that binds a request. -/
structure ExecutionPlane where
  decode : String → Option (List (String × Json) × AssertionClaims)
  bindingHash : ExecutionRequest → String
  issuer : String
  subject : String
  audience : String
  nodeImage : String
  pythonImage : String
  allowedTestCommands : List String
  leaseGraceSeconds : Int
  backend : PlaneBackend
  outputMaxChars : Nat

namespace ExecutionPlane

variable (plane : ExecutionPlane)

def verifyAssertion (token requestHash : String) (now : Int) (clockSkewSeconds : Int := 5) :
    Except String AssertionClaims :=
  match plane.decode token with
  | none => .error "Invalid workload identity assertion"
  | some (header, claims) =>
    if ¬ header.Perm [("alg", .str "EdDSA"), ("typ", .str "JWT")] then
      .error "Unsupported workload identity algorithm"
    else if claims.iss.getD "" ≠ plane.issuer ∨ claims.sub.getD "" ≠ plane.subject ∨
        claims.aud.getD "" ≠ plane.audience then
      .error "Workload identity scope mismatch"
    else if claims.iat.getD 0 > now + clockSkewSeconds then .error "Workload identity is not active"
    else if claims.exp.getD 0 < now - clockSkewSeconds then .error "Workload identity expired"
    else if claims.requestHash.getD "" ≠ requestHash then .error "Workload identity request binding mismatch"
    else if claims.jti.getD "" = "" then .error "Workload identity has no replay identifier"
    else .ok claims

/-- `execute` up to its claim: a status and its detail, or the claims. -/
def admission (token : String) (request : ExecutionRequest) (now : Int) : Except (Nat × String) AssertionClaims :=
  match plane.verifyAssertion token (plane.bindingHash request) now with
  | .error detail => .error (401, detail)
  | .ok claims =>
    if (request.image ≠ plane.nodeImage ∧ request.image ≠ plane.pythonImage) ∨
        request.command ∉ plane.allowedTestCommands then
      .error (403, "Execution request is not allowlisted")
    else .ok claims

/-- The arguments of the claim that `execute` makes. -/
def claimRequest (request : ExecutionRequest) (claims : AssertionClaims) (owner : String) (assertionTtl : Int) :
    ClaimRequest where
  executionId := request.executionId
  requestHash := plane.bindingHash request
  assertionJti := claims.jti.getD ""
  assertionTtl := assertionTtl
  owner := owner
  leaseSeconds := request.timeoutSeconds + max 10 plane.leaseGraceSeconds

/-- The arguments of the completion that `execute` makes. -/
def completeRequest (request : ExecutionRequest) (owner : String) (attempt : Nat) (response : ExecutionResponse) :
    CompleteRequest where
  executionId := request.executionId
  requestHash := plane.bindingHash request
  owner := owner
  attempt := attempt
  response := response

/-- The response for a result; `evidence` is what the checks of the images and nodes gave, and `host` the name
of the host. -/
def response (request : ExecutionRequest) (claims : AssertionClaims) (owner host : String) (attempt : Nat)
    (result : BackendResult) (evidence : List (String × String)) : ExecutionResponse where
  executionId := request.executionId
  backend := plane.backend
  passed := result.passed
  exitCode := result.exitCode
  stdout := (result.stdout.take plane.outputMaxChars).toString
  stderr := (result.stderr.take plane.outputMaxChars).toString
  timedOut := result.timedOut
  archiveSha256 := request.archiveSha256
  workloadSubject := claims.sub.getD ""
  attestation := evidence ++ [("execution_plane_instance", owner),
    ("execution_node", (result.executionNode.filter (· ≠ "")).getD host), ("execution_attempt", toString attempt)]

end ExecutionPlane

/-! ## The handlers -/

/-- Where a handler is in `execute`. -/
inductive Stage
  /-- The assertion is verified. -/
  | admitted
  | timed (assertionTtl : Int)
  /-- The claim is made, with the clock as it was read. -/
  | asking (assertionTtl : Int) (read : ℚ)
  | removing (attempt : Nat)
  | extracting (attempt : Nat)
  /-- The directory is made, and not all of the archive is in it. -/
  | unpacking (attempt : Nat)
  | extracted (attempt : Nat)
  /-- The backend has run; `intact` when all it ran on was the archive of the handler. -/
  | ran (attempt : Nat) (response : ExecutionResponse) (intact : Bool)
  | reporting (attempt : Nat) (response : ExecutionResponse) (intact : Bool) (read : ℚ)
  /-- In the `finally` block. -/
  | finishing (attempt : Nat)
  | ended

/-- The handler has acquired its execution, and its last removal is not made. -/
def Stage.underWay : Stage → Bool
  | .admitted | .timed _ | .asking _ _ | .ended => false
  | _ => true

/-- The handler is using the workspace that it has extracted. -/
def Stage.holds : Stage → Bool
  | .extracted _ | .ran _ _ _ | .reporting _ _ _ _ => true
  | _ => false

structure Handler where
  request : ExecutionRequest
  claims : AssertionClaims
  owner : String
  stage : Stage

/-- What is in a directory: nothing, a part or all of the archive of a handler,
or anything else. -/
inductive Contents
  | absent
  | part (h : Nat)
  | all (h : Nat)
  | other
  deriving DecidableEq

/-- A completion that was carried out: by which handler, and from what. -/
structure Committed where
  handler : Nat
  request : CompleteRequest
  intact : Bool

/-- The store, the handlers, the workspaces by execution id, the assertions
that started a command and the completions, the last first. -/
structure Handlers (B : ExecutionStateStore) where
  clock : ℚ
  store : B.State
  handlers : Nat → Option Handler
  workspaces : String → Contents
  started : List AssertionClaims
  committed : List Committed

inductive Action
  /-- `current = int(time.time())`. -/
  | prepare
  | ask
  /-- The claim is carried out; the client sends it `again` when the answer does not arrive. -/
  | claim (again : Bool)
  /-- A part of a removal or of the extraction. -/
  | disturb
  | remove
  | makeDirectory
  | extract
  /-- The move of the workspace under the root of the cluster. -/
  | relocate
  | run (result : BackendResult) (evidence : List (String × String)) (host : String)
  | report
  | complete (again : Bool)
  /-- An error after the claim. -/
  | fail
  | cleanUp
  /-- The handler makes no further step: it answers, or its process ends. -/
  | stop

inductive HandlerEvent
  | tick (now : ℚ)
  | present (h : Nat) (owner token : String) (request : ExecutionRequest)
  | act (h : Nat) (action : Action)

namespace Handlers

variable {B : ExecutionStateStore} (plane : ExecutionPlane) (meets : String → String → Bool)

def enter (s : Handlers B) (h : Nat) (handler : Handler) (stage : Stage) : Handlers B :=
  { s with handlers := Function.update s.handlers h (some { handler with stage := stage }) }

/-- The directory of an execution is given new contents, at the cost of each one that it meets. -/
def touch (s : Handlers B) (id : String) (contents : Contents) : Handlers B :=
  { s with workspaces := fun id' =>
      if id' = id then contents else if meets id id' then .other else s.workspaces id' }

/-- `rmtree`, on a directory that exists. -/
def removeTree (s : Handlers B) (id : String) : Handlers B :=
  if s.workspaces id = .absent then s else s.touch meets id .absent

/-- The claim is carried out. -/
def claim (s : Handlers B) (h : Nat) (handler : Handler) (assertionTtl : Int) (read : ℚ) (again : Bool) : Handlers B :=
  let (answer, store) := B.claim s.store
    (plane.claimRequest handler.request handler.claims handler.owner assertionTtl) read s.clock
  let s := { s with store := store }
  match answer with
  | some ⟨.acquired, _, attempt⟩ =>
    let s := { s with started := handler.claims :: s.started }
    if again then s else s.enter h handler (.removing attempt)
  | _ => if again then s else s.enter h handler .ended

/-- The completion is carried out. -/
def complete (s : Handlers B) (h : Nat) (handler : Handler) (attempt : Nat) (response : ExecutionResponse)
    (intact : Bool) (read : ℚ) (again : Bool) : Handlers B :=
  let request := plane.completeRequest handler.request handler.owner attempt response
  let (committed, store) := B.complete s.store request read s.clock
  let s := { s with store := store }
  let s := if committed then { s with committed := ⟨h, request, intact⟩ :: s.committed } else s
  if again then s else s.enter h handler (.finishing attempt)

/-- A step of the handler `h`. -/
def act (s : Handlers B) (h : Nat) (handler : Handler) : Stage → Action → Option (Handlers B)
  | .admitted, .prepare => some (s.enter h handler
      (handler.claims.exp.elim .ended fun exp => .timed (max 1 (exp - ⌊s.clock⌋))))
  | .timed ttl, .ask => some (s.enter h handler (.asking ttl s.clock))
  | .asking ttl read, .claim again => some (s.claim plane h handler ttl read again)
  | .removing attempt, .remove =>
    some ((s.removeTree meets handler.request.executionId).enter h handler (.extracting attempt))
  | .extracting attempt, .makeDirectory =>
    -- `mkdir` fails on a directory that exists
    if s.workspaces handler.request.executionId = .absent then
      some ((s.touch meets handler.request.executionId (.part h)).enter h handler (.unpacking attempt))
    else some (s.enter h handler (.finishing attempt))
  | .unpacking attempt, .extract =>
    let contents := if s.workspaces handler.request.executionId = .part h then .all h else .other
    some ((s.touch meets handler.request.executionId contents).enter h handler (.extracted attempt))
  | .extracted attempt, .relocate =>
    let contents := if s.workspaces handler.request.executionId = .all h then .all h else .other
    some ((s.touch meets handler.request.executionId contents).enter h handler (.extracted attempt))
  | .extracted attempt, .run result evidence host =>
    let response := plane.response handler.request handler.claims handler.owner host attempt result evidence
    some (s.enter h handler (.ran attempt response (s.workspaces handler.request.executionId = .all h)))
  | .ran attempt response intact, .report => some (s.enter h handler (.reporting attempt response intact s.clock))
  | .reporting attempt response intact read, .complete again =>
    some (s.complete plane h handler attempt response intact read again)
  | .finishing _, .cleanUp =>
    some ((s.removeTree meets handler.request.executionId).enter h handler .ended)
  | .removing _, .disturb | .finishing _, .disturb => some (s.touch meets handler.request.executionId .other)
  | .unpacking _, .disturb => some (s.touch meets handler.request.executionId (s.workspaces handler.request.executionId))
  | .removing attempt, .fail | .extracting attempt, .fail | .unpacking attempt, .fail | .extracted attempt, .fail
  | .ran attempt _ _, .fail | .reporting attempt _ _ _, .fail => some (s.enter h handler (.finishing attempt))
  | _, .stop => some (s.enter h handler .ended)
  | _, _ => none

def step (s : Handlers B) : HandlerEvent → Option (Handlers B)
  | .tick now => if s.clock ≤ now then some { s with clock := now } else none
  | .present h owner token request =>
    match s.handlers h, plane.admission token request ⌊s.clock⌋ with
    | none, .ok claims => some (s.enter h ⟨request, claims, owner, .admitted⟩ .admitted)
    | none, .error _ => some s
    | some _, _ => none
  | .act h action => (s.handlers h).bind fun handler => s.act plane meets h handler handler.stage action

/-- The next stage of the handler `h`, with what it makes of the workspaces. -/
inductive Next (s : Handlers B) (h : Nat) (handler : Handler) : Stage → Stage → (String → Contents) → Prop
  | timed (exp : Int) (hexp : handler.claims.exp = some exp) :
    Next s h handler .admitted (.timed (max 1 (exp - ⌊s.clock⌋))) s.workspaces
  | asking (ttl : Int) : Next s h handler (.timed ttl) (.asking ttl s.clock) s.workspaces
  | ended (stage : Stage) : Next s h handler stage .ended s.workspaces
  | failed {stage : Stage} (attempt : Nat) (hway : stage.underWay) : Next s h handler stage (.finishing attempt) s.workspaces
  | disturbed {stage : Stage} (contents : Contents) (hway : stage.underWay) (hholds : ¬ stage.holds)
    (hsame : ∀ attempt, stage = .unpacking attempt → contents = s.workspaces handler.request.executionId) :
    Next s h handler stage stage (s.touch meets handler.request.executionId contents).workspaces
  | removed (attempt : Nat) : Next s h handler (.removing attempt) (.extracting attempt)
    (s.removeTree meets handler.request.executionId).workspaces
  | made (attempt : Nat) : Next s h handler (.extracting attempt) (.unpacking attempt)
    (s.touch meets handler.request.executionId (.part h)).workspaces
  | extracted (attempt : Nat) : Next s h handler (.unpacking attempt) (.extracted attempt)
    (s.touch meets handler.request.executionId
      (if s.workspaces handler.request.executionId = .part h then .all h else .other)).workspaces
  | relocated (attempt : Nat) : Next s h handler (.extracted attempt) (.extracted attempt)
    (s.touch meets handler.request.executionId
      (if s.workspaces handler.request.executionId = .all h then .all h else .other)).workspaces
  | ran (attempt : Nat) (response : ExecutionResponse) : Next s h handler (.extracted attempt)
    (.ran attempt response (s.workspaces handler.request.executionId = .all h)) s.workspaces
  | reporting (attempt : Nat) (response : ExecutionResponse) (intact : Bool) :
    Next s h handler (.ran attempt response intact) (.reporting attempt response intact s.clock) s.workspaces
  | cleaned (attempt : Nat) : Next s h handler (.finishing attempt) .ended
    (s.removeTree meets handler.request.executionId).workspaces

/-- All that a step can do. -/
inductive Move (s : Handlers B) : HandlerEvent → Handlers B → Prop
  | tick (now : ℚ) (hnow : s.clock ≤ now) : Move s (.tick now) { s with clock := now }
  | rejected (e : HandlerEvent) : Move s e s
  | present {h : Nat} {handler : Handler} (owner token : String) (request : ExecutionRequest)
    (hnone : s.handlers h = none) : Move s (.present h owner token request) (s.enter h handler .admitted)
  | next {h : Nat} {handler : Handler} {stage : Stage} {workspaces : String → Contents} (e : HandlerEvent)
    (hhandler : s.handlers h = some handler) (hnext : Next meets s h handler handler.stage stage workspaces) :
    Move s e { s.enter h handler stage with workspaces := workspaces }
  | claim {h : Nat} {handler : Handler} {ttl : Int} {read : ℚ} (again : Bool) (hhandler : s.handlers h = some handler)
    (hstage : handler.stage = .asking ttl read) :
    Move s (.act h (.claim again)) (s.claim plane h handler ttl read again)
  | complete {h : Nat} {handler : Handler} {attempt : Nat} {response : ExecutionResponse} {intact : Bool} {read : ℚ}
    (again : Bool) (hhandler : s.handlers h = some handler)
    (hstage : handler.stage = .reporting attempt response intact read) :
    Move s (.act h (.complete again)) (s.complete plane h handler attempt response intact read again)

variable {plane meets} {s t : Handlers B}

theorem removeTree_handlers {id : String} : (s.removeTree meets id) = { s with
    workspaces := (s.removeTree meets id).workspaces } := by
  unfold removeTree
  split
  · rfl
  · rfl

/-- The handler that enters a stage is at it, and the others stay where they are. -/
theorem enter_handlers {g h : Nat} {handler handler' : Handler} {stage : Stage}
    (hhandler : (s.enter h handler stage).handlers g = some handler') :
    (g = h ∧ handler' = { handler with stage := stage }) ∨ (g ≠ h ∧ s.handlers g = some handler') := by
  simp only [enter] at hhandler
  by_cases heq : g = h
  · rw [heq, Function.update_self] at hhandler
    exact .inl ⟨heq, (Option.some.inj hhandler).symm⟩
  · rw [Function.update_of_ne heq] at hhandler
    exact .inr ⟨heq, hhandler⟩

theorem enter_self {h : Nat} {handler : Handler} (hhandler : s.handlers h = some handler) :
    s.enter h handler handler.stage = s := by
  have hself : Function.update s.handlers h (some handler) = s.handlers := by
    rw [← hhandler]
    exact Function.update_eq_self h s.handlers
  show { s with handlers := Function.update s.handlers h (some handler) } = s
  rw [hself]

/-- A step that changes the stage of the handler and the workspaces. -/
theorem Move.of_next {e : HandlerEvent} {h : Nat} {handler : Handler} {stage stage' : Stage}
    {workspaces : String → Contents} (hhandler : s.handlers h = some handler) (hstage : handler.stage = stage)
    (hnext : Next meets s h handler stage stage' workspaces)
    (ht : { s.enter h handler stage' with workspaces := workspaces } = t) : s.Move plane meets e t := by
  subst ht hstage
  exact .next e hhandler hnext

theorem Move.of_disturb {e : HandlerEvent} {h : Nat} {handler : Handler} {stage : Stage} {contents : Contents}
    (hhandler : s.handlers h = some handler) (hstage : handler.stage = stage) (hway : stage.underWay)
    (hholds : ¬ stage.holds)
    (hsame : ∀ attempt, stage = .unpacking attempt → contents = s.workspaces handler.request.executionId)
    (ht : s.touch meets handler.request.executionId contents = t) : s.Move plane meets e t := by
  refine .of_next hhandler hstage (.disturbed contents hway hholds hsame) ?_
  rw [← hstage, enter_self hhandler]
  exact ht

theorem act_move {h : Nat} {handler : Handler} {action : Action} (hhandler : s.handlers h = some handler)
    (hact : s.act plane meets h handler handler.stage action = some t) : s.Move plane meets (.act h action) t := by
  generalize hstage : handler.stage = stage at hact
  unfold act at hact
  split at hact
  · cases hexp : handler.claims.exp with
    | none =>
      rw [hexp] at hact
      exact .of_next hhandler hstage (.ended _) (Option.some.inj hact)
    | some exp =>
      rw [hexp] at hact
      exact .of_next hhandler hstage (.timed exp hexp) (Option.some.inj hact)
  · exact .of_next hhandler hstage (.asking _) (Option.some.inj hact)
  · obtain rfl := Option.some.inj hact
    exact .claim _ hhandler hstage
  · rw [removeTree_handlers] at hact
    exact .of_next hhandler hstage (.removed _) (Option.some.inj hact)
  · split at hact
    · exact .of_next hhandler hstage (.made _) (Option.some.inj hact)
    · exact .of_next hhandler hstage (.failed _ rfl) (Option.some.inj hact)
  · exact .of_next hhandler hstage (.extracted _) (Option.some.inj hact)
  · exact .of_next hhandler hstage (.relocated _) (Option.some.inj hact)
  · exact .of_next hhandler hstage (.ran _ _) (Option.some.inj hact)
  · exact .of_next hhandler hstage (.reporting _ _ _) (Option.some.inj hact)
  · obtain rfl := Option.some.inj hact
    exact .complete _ hhandler hstage
  · rw [removeTree_handlers] at hact
    exact .of_next hhandler hstage (.cleaned _) (Option.some.inj hact)
  · exact .of_disturb hhandler hstage rfl nofun nofun (Option.some.inj hact)
  · exact .of_disturb hhandler hstage rfl nofun nofun (Option.some.inj hact)
  · exact .of_disturb hhandler hstage rfl nofun (fun _ _ => rfl) (Option.some.inj hact)
  · exact .of_next hhandler hstage (.failed _ rfl) (Option.some.inj hact)
  · exact .of_next hhandler hstage (.failed _ rfl) (Option.some.inj hact)
  · exact .of_next hhandler hstage (.failed _ rfl) (Option.some.inj hact)
  · exact .of_next hhandler hstage (.failed _ rfl) (Option.some.inj hact)
  · exact .of_next hhandler hstage (.failed _ rfl) (Option.some.inj hact)
  · exact .of_next hhandler hstage (.failed _ rfl) (Option.some.inj hact)
  · exact .of_next hhandler hstage (.ended _) (Option.some.inj hact)
  · cases hact

/-- Every step is one of the moves. -/
theorem step_move {e : HandlerEvent} (hstep : s.step plane meets e = some t) : s.Move plane meets e t := by
  cases e with
  | tick now =>
    simp only [step] at hstep
    split at hstep
    · next hnow =>
      obtain rfl := Option.some.inj hstep
      exact .tick now hnow
    · cases hstep
  | present h owner token request =>
    simp only [step] at hstep
    split at hstep
    · next hnone _ =>
      obtain rfl := Option.some.inj hstep
      exact .present _ _ _ hnone
    · obtain rfl := Option.some.inj hstep
      exact .rejected _
    · cases hstep
  | act h action =>
    obtain ⟨handler, hhandler, hact⟩ := Option.bind_eq_some_iff.mp hstep
    exact act_move hhandler hact

end Handlers

/-- The handlers at work; at first there are none, and no workspace is in use. -/
def handling (plane : ExecutionPlane) (meets : String → String → Bool) (B : ExecutionStateStore) :
    System (Handlers B) HandlerEvent :=
  .ofStep (fun s => (∀ h, s.handlers h = none) ∧ s.started = [] ∧ s.committed = []) (Handlers.step plane meets)

namespace Sample

def executionRequest : ExecutionRequest where
  executionId := "00000000-0000-4000-8000-000000000001"
  archiveBase64 := "YQ=="
  archiveSha256 := "a"
  command := "pytest"
  shellCommand := "pytest"
  image := "python"
  requestedRuntime := .firecracker
  timeoutSeconds := 1
  executionId_length := by decide
  timeoutSeconds_pos := by decide
  timeoutSeconds_le := by decide

/-- An assertion of the broker that is valid from 1000 to 1060. -/
def assertionClaims (jti : String) : AssertionClaims where
  iss := some "codemate"
  sub := some "spiffe://broker"
  aud := some "plane"
  iat := some 1000
  exp := some 1060
  jti := some jti
  requestHash := some "h"

/-- A plane for which each token is an assertion with that identifier. -/
def plane : ExecutionPlane where
  decode token := some ([("typ", .str "JWT"), ("alg", .str "EdDSA")], assertionClaims token)
  bindingHash _ := "h"
  issuer := "codemate"
  subject := "spiffe://broker"
  audience := "plane"
  nodeImage := "node"
  pythonImage := "python"
  allowedTestCommands := ["pytest"]
  leaseGraceSeconds := 10
  backend := .firecracker
  outputMaxChars := 1000

/-- Only the directories of one execution meet. -/
def meets (id id' : String) : Bool := id = id'

def handlersStart : Handlers (buildExecutionStateStore .memory) :=
  ⟨1040, ⟨fun _ => none, fun _ => none⟩, fun _ => none, fun _ => .absent, [], []⟩

/-- A request of the handler `h` up to its claim. -/
def presented (h : Nat) (token : String) : List HandlerEvent :=
  [.present h "a" token executionRequest, .act h .prepare, .act h .ask, .act h (.claim false)]

end Sample

end CodeMate.Sandbox
