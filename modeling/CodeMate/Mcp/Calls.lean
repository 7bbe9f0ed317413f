import CodeMate.Mcp.Router

/-!
# One call under the ledger

`executeOnce` is the ledger's `execute_once` around an operation of the router,
as the caller sees it: the outcome, and what was sent to a server. What the
ledger finds is a parameter (`CallReply`).

`executeOnce_sent`: what is sent is what the operation decided on, to an enabled
server and a tool that the client's configuration allows.
-/

namespace CodeMate.Mcp

open Framework

/-- A request that `client.call_tool` sends. -/
structure Sent where
  server : String
  tool : String
  arguments : Json
deriving DecidableEq

/-- How a session ends that the client opened for a call: it was not opened for
want of quota, it ended without an answer, or it was answered. -/
inductive SessionReply
  | quota (result : Json)
  | unknown
  | answered (result : Json)

/-- What `execute_once` meets for a call: a settled execution, one with an
unknown outcome or in progress, an error, or one that it runs, which fails at
the end if the lease is lost meanwhile. -/
inductive CallReply
  | stored (result : Json)
  | reconciliation (executionId : String)
  | inProgress (executionId error : String)
  | raised (error : String)
  | ran (executionId idempotencyKey : String) (session : SessionReply) (leaseLost : Option String)

/-- How `execute_once` ends: with a result or with one of its exceptions. -/
inductive CallOutcome
  | result (value : Json)
  | reconciliation (executionId : String)
  | inProgress (executionId error : String)
  | error (message : String)

/-- A result with the ids of its execution. -/
def withIds (result : Json) (executionId idempotencyKey : String) : Json :=
  (result.set "execution_id" (.str executionId)).set "idempotency_key" (.str idempotencyKey)

/-- The result of an exception that the caller catches. -/
def callError (qualifiedName error : String) : Json :=
  .obj [("ok", .bool false), ("qualified_name", .str qualifiedName), ("error", .str error)]

/-- The members of the result of a call that was answered. -/
def answeredResult (qualifiedName : String) (arguments result : Json) : List (String × Json) :=
  [("ok", .bool !(result.flag "isError")), ("qualified_name", .str qualifiedName),
    ("arguments", arguments), ("result", result)]

/-- The operation under a lease; `answered` makes the result of an answer. -/
def runOperation (client : Servers) (attempt : Attempt) (answered : Json → Json → Json)
    (executionId idempotencyKey : String) (session : SessionReply) : CallOutcome × Option Sent :=
  match attempt with
  | .refused result => (.result (withIds result executionId idempotencyKey), none)
  | .unauthorized => (.reconciliation executionId, none)
  | .call server tool arguments =>
    match client.callTool server tool, session with
    | .error _, _ => (.reconciliation executionId, none)
    | .ok _, .quota result => (.result result, none)
    | .ok _, .unknown => (.reconciliation executionId, some ⟨server, tool, arguments⟩)
    | .ok _, .answered result =>
      (.result (withIds (answered arguments result) executionId idempotencyKey), some ⟨server, tool, arguments⟩)

/-- `execute_once`. -/
def executeOnce (client : Servers) (attempt : Attempt) (answered : Json → Json → Json) (reply : CallReply) :
    CallOutcome × Option Sent :=
  match reply with
  | .stored result => (.result result, none)
  | .reconciliation executionId => (.reconciliation executionId, none)
  | .inProgress executionId error => (.inProgress executionId error, none)
  | .raised error => (.error error, none)
  | .ran executionId idempotencyKey session leaseLost =>
    let (outcome, sent) := runOperation client attempt answered executionId idempotencyKey session
    ((leaseLost.map CallOutcome.error).getD outcome, sent)

theorem executeOnce_sent {client : Servers} {attempt : Attempt} {answered : Json → Json → Json}
    {reply : CallReply} {sent : Sent} (h : (executeOnce client attempt answered reply).2 = some sent) :
    attempt = .call sent.server sent.tool sent.arguments ∧ client.callTool sent.server sent.tool = .ok () := by
  unfold executeOnce at h
  split at h
  case h_5 executionId idempotencyKey session leaseLost =>
    dsimp only at h
    unfold runOperation at h
    split at h
    case h_3 server tool arguments =>
      split at h
      case h_3 _ _ hclient =>
        obtain rfl := Option.some.inj h
        exact ⟨rfl, hclient⟩
      case h_4 _ _ _ hclient =>
        obtain rfl := Option.some.inj h
        exact ⟨rfl, hclient⟩
      all_goals cases h
    all_goals cases h
  all_goals cases h

/-- What a client's check lets through. -/
theorem callTool_ok {client : Servers} {server tool : String} (h : client.callTool server tool = .ok ()) :
    ∃ config ∈ client.servers, config.enabled = true ∧ config.name = server ∧ tool ∈ config.allowedTools := by
  unfold Servers.callTool at h
  split at h
  · cases h
  next config hfind =>
    split at h
    · next hallowed =>
      have hprop := List.find?_some hfind
      simp only [Bool.and_eq_true, beq_iff_eq] at hprop
      exact ⟨config, List.mem_of_find?_eq_some hfind, hprop.1, hprop.2, hallowed⟩
    · cases h

end CodeMate.Mcp
