import CodeMate.Agent.Budgets
import CodeMate.Ledger.Consume
import CodeMate.Mcp.Plans

/-!
# Calls that are not made twice

`validate_plan` knows the earlier calls of a run by their observations only, and
takes a result without arguments for one of a call without arguments. An answer
of the server names the arguments; a refusal, an exception, a call without quota
or with an open circuit and a reconciled result do not (`heard`). So
`call_repeated` is a run that makes a call again whose outcome was reconciled,
and rejects another one as a duplicate that was never made.

`dedup_exact`: in a run whose calls are all observed under their arguments, whose
resumes lose no observation and whose rounds are not taken over by a job without
a router (`reports`), no call is accepted that was executed before, and what is
rejected as a duplicate was executed, decided by an approver or proposed before
in the same plan. Calls are the same if the texts of their tools and arguments
with sorted keys are.
-/

namespace CodeMate.Agent

open Framework Mcp Verification Ledger

/-! ## What is observed of a call -/

/-- The text that tells a call from others. -/
def callPrint (codec : Codec) (call : Call) : String := callFingerprint codec call.qualifiedName call.arguments

variable (env : Env)

/-- The fingerprints under which the result of a call is observed, from what
`execute_once` meets; `none` where the run waits for a reconciliation. -/
def heard (client : Servers) (attempt : Attempt) (call : Call) : CallReply → Option (List String)
  | .stored result => some (seenCalls env.codec [result])
  | .reconciliation _ | .inProgress _ _ => none
  | .raised _ | .ran _ _ _ (some _) => some [callFingerprint env.codec call.qualifiedName (.obj [])]
  | .ran _ _ session none =>
    match attempt with
    | .refused _ => some [callFingerprint env.codec call.qualifiedName (.obj [])]
    | .unauthorized => none
    | .call server tool _ =>
      match client.callTool server tool, session with
      | .error _, _ => none
      | .ok _, .quota result => some (seenCalls env.codec [result])
      | .ok _, .unknown => none
      | .ok _, .answered _ => some [callPrint env.codec call]

/-- What is observed of the calls of a round from an index on, up to the first one that is waited for. -/
def hears (calling : Calling) (catalog : List CatalogTool) : List Call → Nat → List (Call × List String)
  | [], _ => []
  | call :: calls, index =>
    match heard env calling.client (execute env.codec env.check catalog calling.authorize call) call
      (calling.reply index) with
    | some prints => (call, prints) :: hears calling catalog calls (index + 1)
    | none => []

/-- The calls of a round from an index on that are sent to a server. -/
def sends (calling : Calling) (catalog : List CatalogTool) : List Call → Nat → List Call
  | [], _ => []
  | call :: calls, index =>
    let (outcome, sent) := callMCPTool env calling catalog call (calling.reply index)
    (sent.map fun _ => call).toList ++
      match consume .callMCPTools call.qualifiedName outcome with
      | some _ => sends calling catalog calls (index + 1)
      | none => []

/-- An execution has an id. -/
def hasId : CallReply → Bool
  | .reconciliation executionId | .inProgress executionId _ | .ran executionId _ _ _ => executionId != ""
  | _ => true

section Loop

variable {env} {calling : Calling} {catalog : List CatalogTool} {call : Call}

theorem seenCalls_append (codec : Codec) (as bs : List Json) :
    seenCalls codec (as ++ bs) = seenCalls codec as ++ seenCalls codec bs := List.filterMap_append

/-- A result that names the tool, and no arguments. -/
theorem seenCalls_bare (codec : Codec) {qualifiedName : String} (hname : qualifiedName ≠ "") {result : Json}
    (htool : result.get "qualified_name" = some (.str qualifiedName)) (harguments : result.get "arguments" = none) :
    seenCalls codec [result] = [callFingerprint codec qualifiedName (.obj [])] := by
  have hflag : result.flag "qualified_name" = true := by
    unfold Json.flag
    rw [htool]
    simpa [Json.truthy] using hname
  have hbare : result.flag "arguments" = false := by
    unfold Json.flag
    rw [harguments]
    rfl
  unfold seenCalls
  simp [hflag, hbare, htool, textOr, hname]

/-- A result that names the tool and its arguments. -/
theorem seenCalls_named (codec : Codec) {qualifiedName : String} (hname : qualifiedName ≠ "") {result : Json}
    {members : List (String × Json)} (htool : result.get "qualified_name" = some (.str qualifiedName))
    (harguments : result.get "arguments" = some (.obj members)) :
    seenCalls codec [result] = [callFingerprint codec qualifiedName (.obj members)] := by
  have hflag : result.flag "qualified_name" = true := by
    unfold Json.flag
    rw [htool]
    simpa [Json.truthy] using hname
  have hnamed : result.flag "arguments" = !members.isEmpty := by
    unfold Json.flag
    rw [harguments]
    rfl
  unfold seenCalls
  cases members with
  | nil => simp [hflag, hnamed, htool, textOr, hname]
  | cons => simp [hflag, hnamed, htool, harguments, textOr, hname]

theorem withIds_get (result : Json) (executionId idempotencyKey : String) {key : String}
    (hid : key ≠ "execution_id") (hkey : key ≠ "idempotency_key") :
    (withIds result executionId idempotencyKey).get key = result.get key := by
  unfold withIds
  rw [Json.get_set_ne _ hkey, Json.get_set_ne _ hid]

/-- A call that `execute` refuses is named without its arguments. -/
theorem execute_refused {authorize : String → String → Bool} {result : Json}
    (h : execute env.codec env.check catalog authorize call = .refused result) :
    result.get "qualified_name" = some (.str call.qualifiedName) ∧ result.get "arguments" = none := by
  unfold execute at h
  dsimp only at h
  split at h
  · obtain rfl := Attempt.refused.inj h
    exact ⟨rfl, rfl⟩
  · split at h
    · cases h
    · cases h

theorem proposal_members {proposed arguments : Json} {qualifiedName : String}
    (h : proposal proposed = some (qualifiedName, arguments)) : ∃ members, arguments = .obj members := by
  unfold proposal at h
  split at h
  · next members _ _ => exact ⟨members, (Prod.mk.inj (Option.some.inj h)).2.symm⟩
  · cases h

/-- A call that reaches the client has an object of arguments. -/
theorem execute_members {authorize : String → String → Bool} {server tool : String} {arguments : Json}
    (h : execute env.codec env.check catalog authorize call = .call server tool arguments) :
    arguments = call.arguments ∧ ∃ members, arguments = .obj members := by
  obtain ⟨_, harguments, _⟩ := execute_auto h
  refine ⟨harguments, ?_⟩
  unfold execute at h
  dsimp only at h
  split at h
  · cases h
  next validated rest hcalls =>
    have hplan : PlanOk env.check catalog 1 _ (validatePlan env.codec env.check catalog
      [.obj [("tool", .str call.qualifiedName), ("arguments", call.arguments)]] 1 []) := validatePlan_ok []
    have hok := hplan.calls validated (by rw [hcalls]; exact List.mem_cons_self)
    obtain ⟨p, hp, hproposal⟩ := hok.proposed
    rw [List.mem_singleton.mp hp] at hproposal
    rw [harguments, ← (proposal_call hproposal).2]
    exact proposal_members hproposal

/-- `heard` is what the observation of the result names. -/
theorem heard_eq (hname : call.qualifiedName ≠ "") (reply : CallReply) :
    (consume .callMCPTools call.qualifiedName (callMCPTool env calling catalog call reply).1).map
        (fun result => seenCalls env.codec [result]) =
      heard env calling.client (execute env.codec env.check catalog calling.authorize call) call reply := by
  have herror (error : String) : seenCalls env.codec [callError call.qualifiedName error] =
      [callFingerprint env.codec call.qualifiedName (.obj [])] := seenCalls_bare env.codec hname rfl rfl
  unfold callMCPTool executeOnce heard
  cases reply with
  | stored result => rfl
  | reconciliation executionId => rfl
  | inProgress executionId error => rfl
  | raised error => exact congrArg some (herror error)
  | ran executionId idempotencyKey session leaseLost =>
    cases leaseLost with
    | some error => exact congrArg some (herror error)
    | none =>
      show Option.map _ (consume _ _ (runOperation _ _ _ _ _ _).1) = _
      unfold runOperation
      cases hattempt : execute env.codec env.check catalog calling.authorize call with
      | refused result =>
        obtain ⟨htool, harguments⟩ := execute_refused hattempt
        refine congrArg some (seenCalls_bare env.codec hname ?_ ?_)
        · rw [withIds_get _ _ _ (by decide) (by decide), htool]
        · rw [withIds_get _ _ _ (by decide) (by decide), harguments]
      | unauthorized => rfl
      | call server tool arguments =>
        obtain ⟨heq, members, hmembers⟩ := execute_members hattempt
        dsimp only
        cases calling.client.callTool server tool with
        | error => rfl
        | ok =>
          cases session with
          | quota result => rfl
          | unknown => rfl
          | answered result =>
            refine congrArg some ?_
            unfold callPrint
            rw [← heq, hmembers]
            refine seenCalls_named env.codec hname ?_ ?_
            · rw [withIds_get _ _ _ (by decide) (by decide)]
              rfl
            · rw [withIds_get _ _ _ (by decide) (by decide)]
              rfl

/-- Something is heard of a call unless the run waits for it. -/
theorem heard_isSome (reply : CallReply) :
    (heard env calling.client (execute env.codec env.check catalog calling.authorize call) call reply).isSome =
      (consume .callMCPTools call.qualifiedName (callMCPTool env calling catalog call reply).1).isSome := by
  unfold callMCPTool executeOnce heard
  cases reply with
  | ran executionId idempotencyKey session leaseLost =>
    cases leaseLost with
    | some error => rfl
    | none =>
      show _ = (consume _ _ (runOperation _ _ _ _ _ _).1).isSome
      unfold runOperation
      cases execute env.codec env.check catalog calling.authorize call with
      | refused result => rfl
      | unauthorized => rfl
      | call server tool arguments =>
        dsimp only
        cases calling.client.callTool server tool with
        | error => rfl
        | ok => cases session <;> rfl
  | _ => rfl

/-- A run waits for an execution under its id. -/
theorem waits_id {reply : CallReply} (hid : hasId reply = true)
    (h : consume .callMCPTools call.qualifiedName (callMCPTool env calling catalog call reply).1 = none) :
    ∃ executionId, executionId ≠ "" ∧
      ((callMCPTool env calling catalog call reply).1 = .reconciliation executionId ∨
        ∃ error, (callMCPTool env calling catalog call reply).1 = .inProgress executionId error) := by
  unfold callMCPTool executeOnce at h ⊢
  cases reply with
  | stored result => cases h
  | reconciliation executionId => exact ⟨executionId, by simpa [hasId] using hid, .inl rfl⟩
  | inProgress executionId error => exact ⟨executionId, by simpa [hasId] using hid, .inr ⟨error, rfl⟩⟩
  | raised error => cases h
  | ran executionId idempotencyKey session leaseLost =>
    refine ⟨executionId, by simpa [hasId] using hid, .inl ?_⟩
    cases leaseLost with
    | some error => cases h
    | none =>
      change consume _ _ (runOperation _ _ _ _ _ _).1 = none at h
      show (runOperation _ _ _ _ _ _).1 = _
      unfold runOperation at h ⊢
      cases hattempt : execute env.codec env.check catalog calling.authorize call with
      | refused result =>
        rw [hattempt] at h
        cases h
      | unauthorized => rfl
      | call server tool arguments =>
        rw [hattempt] at h
        dsimp only at h ⊢
        cases hclient : calling.client.callTool server tool with
        | error => rfl
        | ok =>
          rw [hclient] at h
          cases session with
          | unknown => rfl
          | _ => cases h

/-! ## The loop over the calls of a round -/

variable {state : FixAgentState}

theorem sends_subset (calls : List Call) (index : Nat) : sends env calling catalog calls index ⊆ calls := by
  induction calls generalizing index with
  | nil => exact List.Subset.refl _
  | cons call calls ih =>
    intro c hc
    unfold sends at hc
    dsimp only at hc
    rcases List.mem_append.mp hc with hc | hc
    · obtain ⟨_, _, rfl⟩ := Option.map_eq_some_iff.mp (Option.mem_toList.mp hc)
      exact List.mem_cons_self
    · split at hc
      · exact List.mem_cons_of_mem _ (ih _ hc)
      · cases hc

/-- The calls that are sent are those of the requests in the log. -/
theorem sends_events (calls : List Call) (index : Nat) (results : List Json) :
    List.Forall₂ (fun event call => ∃ request, event = Event.sent request ∧
        execute env.codec env.check state.mcpToolCatalog calling.authorize call =
          .call request.server request.tool request.arguments)
      (callMCPToolsFrom env calling state calls index results).events
      (sends env calling state.mcpToolCatalog calls index) := by
  induction calls generalizing index results with
  | nil => exact .nil
  | cons call calls ih =>
    have hone : List.Forall₂ (fun event call => ∃ request, event = Event.sent request ∧
          execute env.codec env.check state.mcpToolCatalog calling.authorize call =
            .call request.server request.tool request.arguments)
        ((callMCPTool env calling state.mcpToolCatalog call (calling.reply index)).2.map Event.sent).toList
        ((callMCPTool env calling state.mcpToolCatalog call (calling.reply index)).2.map fun _ => call).toList := by
      cases hsent : (callMCPTool env calling state.mcpToolCatalog call (calling.reply index)).2 with
      | none => exact .nil
      | some sent => exact .cons ⟨sent, rfl, (executeOnce_sent hsent).1⟩ .nil
    unfold callMCPToolsFrom sends
    dsimp only
    generalize callMCPTool env calling state.mcpToolCatalog call (calling.reply index) = out at hone ⊢
    obtain ⟨outcome, sent⟩ := out
    cases outcome with
    | reconciliation executionId => simpa [consume] using hone
    | inProgress executionId error => simpa [consume] using hone
    | error error => exact List.rel_append hone (ih _ _)
    | result value => exact List.rel_append hone (ih _ _)

/-- The round is made, or it waits for a call; what the results of the calls before name is what is heard. -/
theorem hears_loop (calls : List Call) (index : Nat) (results : List Json)
    (hids : ∀ i, index ≤ i → i < index + calls.length → hasId (calling.reply i) = true)
    (hnames : ∀ h ∈ hears env calling state.mcpToolCatalog calls index, h.1.qualifiedName ≠ "") :
    ∃ made k, (hears env calling state.mcpToolCatalog calls index).map (·.1) = calls.take k ∧
      seenCalls env.codec made = (hears env calling state.mcpToolCatalog calls index).flatMap (·.2) ∧
      (k = calls.length ∧
          (callMCPToolsFrom env calling state calls index results).state = roundMade state (results ++ made) ∨
        ∃ executionId, executionId ≠ "" ∧ (callMCPToolsFrom env calling state calls index results).state =
          roundPaused state (index + k) executionId (results ++ made)) := by
  induction calls generalizing index results with
  | nil => exact ⟨[], 0, rfl, rfl, .inl ⟨rfl, by rw [List.append_nil]; rfl⟩⟩
  | cons call calls ih =>
    have hid := hids index (Nat.le_refl _) (by simp)
    have hconsume := callMCPToolsFrom_consume env calling state call calls index results
    have hsome := @heard_isSome env calling state.mcpToolCatalog call (calling.reply index)
    unfold hears at hnames ⊢
    cases hheard : heard env calling.client (execute env.codec env.check state.mcpToolCatalog calling.authorize call)
      call (calling.reply index) with
    | none =>
      rw [hheard] at hsome
      have hnone : consume .callMCPTools call.qualifiedName
          (callMCPTool env calling state.mcpToolCatalog call (calling.reply index)).1 = none :=
        Option.not_isSome_iff_eq_none.mp (by rw [← hsome]; exact Bool.false_ne_true)
      obtain ⟨executionId, hne, hout⟩ := waits_id hid hnone
      refine ⟨[], 0, rfl, rfl, .inr ⟨executionId, hne, ?_⟩⟩
      rw [List.append_nil, Nat.add_zero]
      unfold callMCPToolsFrom
      dsimp only
      rcases hout with hout | ⟨error, hout⟩ <;> rw [hout] <;> rfl
    | some prints =>
      rw [hheard] at hsome hnames
      have hname : call.qualifiedName ≠ "" := hnames _ List.mem_cons_self
      obtain ⟨result, hresult⟩ := Option.isSome_iff_exists.mp hsome.symm
      have hprints : seenCalls env.codec [result] = prints := by
        have heq := @heard_eq env calling state.mcpToolCatalog call hname (calling.reply index)
        rw [hresult, hheard] at heq
        exact Option.some.inj heq
      obtain ⟨made, k, htake, hseen, hstate⟩ := ih (index + 1) (results ++ [result])
        (fun i hle hlt => hids i (by omega) (by rw [List.length_cons]; omega))
        fun h hm => hnames h (List.mem_cons_of_mem _ hm)
      refine ⟨result :: made, k + 1, ?_, ?_, ?_⟩
      · rw [List.map_cons, htake, List.take_succ_cons]
      · rw [List.flatMap_cons, ← hseen, ← hprints, ← seenCalls_append]
        rfl
      · rw [hconsume.1 result hresult]
        rw [List.append_assoc, List.singleton_append] at hstate
        rcases hstate with ⟨hk, hstate⟩ | ⟨executionId, hne, hstate⟩
        · exact .inl ⟨by rw [hk, List.length_cons], hstate⟩
        · refine .inr ⟨executionId, hne, ?_⟩
          rw [hstate, Nat.add_assoc, Nat.add_comm 1 k]

/-- Each call is stored before it is made, until one is waited for. -/
theorem callMCPToolsFrom_saved (env : Env) (calling : Calling) (state : FixAgentState) (call : Call)
    (calls : List Call) (index : Nat) (results : List Json) :
    (callMCPToolsFrom env calling state (call :: calls) index results).saved =
      callCheckpoint state index results ::
        match consume .callMCPTools call.qualifiedName
          (callMCPTool env calling state.mcpToolCatalog call (calling.reply index)).1 with
        | some result => (callMCPToolsFrom env calling state calls (index + 1) (results ++ [result])).saved
        | none => [] := by
  cases hout : (callMCPTool env calling state.mcpToolCatalog call (calling.reply index)).1 <;>
    simp [callMCPToolsFrom, hout, consume, callCheckpoint]

/-- What is stored before a call has the results of the calls before it. -/
theorem hears_saved (calls : List Call) (index : Nat) (results : List Json) {j : Nat} {stored : FixAgentState}
    (hnames : ∀ h ∈ (hears env calling state.mcpToolCatalog calls index).take j, h.1.qualifiedName ≠ "")
    (hstored : (callMCPToolsFrom env calling state calls index results).saved[j]? = some stored) :
    ∃ made, stored = callCheckpoint state (index + j) (results ++ made) ∧
      seenCalls env.codec made = ((hears env calling state.mcpToolCatalog calls index).take j).flatMap (·.2) := by
  induction calls generalizing index results j with
  | nil => cases hstored
  | cons call calls ih =>
    rw [callMCPToolsFrom_saved] at hstored
    cases j with
    | zero =>
      obtain rfl := Option.some.inj hstored
      exact ⟨[], by rw [List.append_nil, Nat.add_zero], rfl⟩
    | succ j =>
      rw [List.getElem?_cons_succ] at hstored
      have hsome := @heard_isSome env calling state.mcpToolCatalog call (calling.reply index)
      split at hstored
      · next result hresult =>
        rw [hresult] at hsome
        obtain ⟨prints, hheard⟩ := Option.isSome_iff_exists.mp hsome
        unfold hears at hnames ⊢
        rw [hheard] at hnames ⊢
        have hname : call.qualifiedName ≠ "" := hnames _ List.mem_cons_self
        have hprints : seenCalls env.codec [result] = prints := by
          have heq := @heard_eq env calling state.mcpToolCatalog call hname (calling.reply index)
          rw [hresult, hheard] at heq
          exact Option.some.inj heq
        obtain ⟨made, rfl, hseen⟩ := ih (index + 1) (results ++ [result])
          (fun h hm => hnames h (List.mem_cons_of_mem _ hm)) hstored
        refine ⟨result :: made, ?_, ?_⟩
        · rw [List.append_assoc, List.singleton_append, Nat.add_assoc, Nat.add_comm 1 j]
        · rw [List.take_succ_cons, List.flatMap_cons, ← hseen, ← hprints, ← seenCalls_append]
          rfl
      · cases hstored

end Loop

/-! ## Runs with their calls -/

/-- How the approval of a resume was closed: its call was sent, it was decided
and not sent, or no approver decided it in time. -/
inductive Closing
  | sent
  | decided
  | expired
deriving DecidableEq, Repr

/-- A run with the calls that were sent to a server and those that an approver decided. -/
structure Called where
  repair : Repair
  /-- For each stored state, the call whose approval was asked for with it. -/
  asked : List (Option Call)
  executed : List Call
  decided : List Call

def Called.empty : Called := ⟨Repair.empty, [], [], []⟩

variable (input : FixAgentState)

/-- The calls whose approvals a node asks for, one for each state that it stores. -/
def asks (state : FixAgentState) (node : Node) (reply : node.Reply) : List (Option Call) :=
  (node.run env state reply).saved.map fun _ =>
    if node = .planMCPTools then (node.run env state reply).state.mcpToolPlan.approvalRequests.head? else none

/-- The calls that a node sends. -/
def executes (state : FixAgentState) : (node : Node) → node.Reply → List Call
  | .callMCPTools, (calling : Calling) =>
    if calling.router then
      sends env calling state.mcpToolCatalog (state.mcpToolPlan.calls.drop state.mcpCallCursor) state.mcpCallCursor
    else []
  | _, _ => []

def askedBy (w : Repair) : Step → List (Option Call)
  | .node node reply => (w.thread.map fun thread => asks env thread.1 node reply).getD []
  | .crash node reply _ saved => ((w.thread.map fun thread => asks env thread.1 node reply).getD []).take saved
  | _ => []

/-- The calls that a step sends. -/
def executedBy (w : Called) : Step × Closing → List Call
  | (.node node reply, _) => (w.repair.thread.map fun thread => executes env thread.1 node reply).getD []
  | (.crash node reply events _, _) =>
    ((w.repair.thread.map fun thread => executes env thread.1 node reply).getD []).take events
  | (.resumeApproval index _ _, .sent) => w.asked[index]?.join.toList
  | _ => []

/-- The call that the approver of a resume decided. -/
def decidedBy (w : Called) : Step × Closing → List Call
  | (.resumeApproval index _ _, .sent) | (.resumeApproval index _ _, .decided) => w.asked[index]?.join.toList
  | _ => []

/-- The ledger names each execution that is waited for. -/
def identified (w : Repair) : Step → Bool
  | .node .callMCPTools (calling : Calling) => w.thread.all fun thread =>
    (List.range thread.1.mcpToolPlan.calls.length).all fun i => hasId (calling.reply i)
  | _ => true

def Called.step (w : Called) (e : Step × Closing) : Option Called :=
  if identified w.repair e.1 then
    (Agent.step env input w.repair e.1).map fun repair =>
      { repair
        asked := w.asked ++ askedBy env w.repair e.1
        executed := executedBy env w e ++ w.executed
        decided := decidedBy w e ++ w.decided }
  else none

/-- The runs of one agent run, with its calls. -/
def called : System Called (Step × Closing) := .ofStep (· = Called.empty) (Called.step env input)

/-! ## The condition -/

/-- What is observed of the calls is theirs where they were executed, and only names calls that are done. -/
def reported (codec : Codec) (executed done : List String) (hears : List (Call × List String)) : Bool :=
  hears.all fun h => h.1.qualifiedName != "" &&
    (!executed.contains (callPrint codec h.1) || h.2.contains (callPrint codec h.1)) && h.2.all done.contains

/-- Every call of the step is observed under its arguments, and no observation is lost. -/
def reports (w : Called) (e : Step × Closing) : Bool :=
  let executed := (executedBy env w e ++ w.executed).map (callPrint env.codec)
  let done := executed ++ (decidedBy w e ++ w.decided).map (callPrint env.codec)
  match e.1 with
  | .node .callMCPTools (calling : Calling) => w.repair.thread.all fun thread =>
    if calling.router then
      reported env.codec executed done (hears env calling thread.1.mcpToolCatalog
        (thread.1.mcpToolPlan.calls.drop thread.1.mcpCallCursor) thread.1.mcpCallCursor)
    else executed.all (seenCalls env.codec thread.1.mcpObservations).contains
  | .crash .callMCPTools (calling : Calling) _ saved => w.repair.thread.all fun thread =>
    -- the last state that was stored has the results of the calls before it
    !calling.router || reported env.codec executed done ((hears env calling thread.1.mcpToolCatalog
      (thread.1.mcpToolPlan.calls.drop thread.1.mcpCallCursor) thread.1.mcpCallCursor).take (saved - 1))
  | .resumeApproval index result _ => w.repair.saved[index]?.all fun stored =>
    executed.all (seenCalls env.codec (stored.mcpObservations ++ [result])).contains &&
      (seenCalls env.codec [result]).all done.contains
  | .resumeExecution index => w.repair.saved[index]?.all fun stored => executed.all fun print =>
    (seenCalls env.codec (stored.mcpObservations ++ stored.mcpRoundResults)).contains print ||
      ((stored.mcpToolPlan.calls.drop stored.mcpCallCursor).map (callPrint env.codec)).contains print
  | _ => true

/-! ## Exact plans -/

/-- The catalog of a round. -/
def roundCatalog (state : FixAgentState) (planning : Planning) : List CatalogTool :=
  if state.mcpToolCatalog.isEmpty then planning.discovered else state.mcpToolCatalog

/-- A plan accepts no call that was executed, and rejects as a duplicate only what was
executed, decided or proposed before. -/
structure Exact (w : Called) (state : FixAgentState) (planning : Planning) : Prop where
  accepted : ∀ call ∈ (plan env.codec env.check (roundCatalog state planning) planning.proposed
      (state.mcpMaxCalls - state.mcpCallCount) state.mcpObservations).calls ++
      (plan env.codec env.check (roundCatalog state planning) planning.proposed
        (state.mcpMaxCalls - state.mcpCallCount) state.mcpObservations).approvalRequests,
    ∀ before ∈ w.executed, callPrint env.codec before ≠ callPrint env.codec call
  duplicates : ∀ done proposed rest, planning.proposed.take 20 = done ++ proposed :: rest →
    DuplicateAfter env.codec env.check (roundCatalog state planning) (state.mcpMaxCalls - state.mcpCallCount)
      state.mcpObservations done proposed →
    ∃ qualifiedName arguments, proposal proposed = some (qualifiedName, arguments) ∧
      ((∃ call ∈ w.executed ++ w.decided,
          callPrint env.codec call = callFingerprint env.codec qualifiedName arguments) ∨
        ∃ earlier ∈ done, ∃ qualifiedName' arguments', proposal earlier = some (qualifiedName', arguments') ∧
          callFingerprint env.codec qualifiedName' arguments' = callFingerprint env.codec qualifiedName arguments)

/-! ## What a run keeps -/

/-- Every call that was executed is observed or still to be made in the round,
and what is observed was executed or decided. -/
structure Heard (w : Called) (state : FixAgentState) (next : Option Node) : Prop where
  complete : next = none → checkpointIsComplete state = true
  executed : ∀ call ∈ w.executed,
    callPrint env.codec call ∈ seenCalls env.codec (state.mcpObservations ++ state.mcpRoundResults) ∨
      calling state next = true ∧ callPrint env.codec call ∈
        (state.mcpToolPlan.calls.drop state.mcpCallCursor).map (callPrint env.codec)
  done : ∀ print ∈ seenCalls env.codec (state.mcpObservations ++ state.mcpRoundResults),
    print ∈ (w.executed ++ w.decided).map (callPrint env.codec)
  settled : calling state next = false → next ≠ some .observeMCP → state.mcpRoundResults = []

/-- What a run keeps. -/
structure Attended (w : Called) : Prop where
  saved : ∀ stored ∈ w.repair.saved,
    ∀ print ∈ seenCalls env.codec (stored.mcpObservations ++ stored.mcpRoundResults),
      print ∈ (w.executed ++ w.decided).map (callPrint env.codec)
  fresh : w.repair.thread = none → w.executed = []
  thread : ∀ state next, w.repair.thread = some (state, next) → Heard env w state next

variable {env} {w w' : Called} {state state' : FixAgentState} {node : Node}

theorem reported_iff {codec : Codec} {executed done : List String} {hears : List (Call × List String)} :
    reported codec executed done hears = true ↔ ∀ h ∈ hears, h.1.qualifiedName ≠ "" ∧
      (callPrint codec h.1 ∈ executed → callPrint codec h.1 ∈ h.2) ∧ ∀ print ∈ h.2, print ∈ done := by
  simp [reported, List.all_eq_true, imp_iff_not_or, and_assoc]

/-- More calls are executed and decided as the run goes on. -/
theorem done_mono (hexecuted : w.executed ⊆ w'.executed) (hdecided : w.decided ⊆ w'.decided) {print : String}
    (h : print ∈ (w.executed ++ w.decided).map (callPrint env.codec)) :
    print ∈ (w'.executed ++ w'.decided).map (callPrint env.codec) := by
  obtain ⟨call, hm, rfl⟩ := List.mem_map.mp h
  refine List.mem_map_of_mem ?_
  rcases List.mem_append.mp hm with hm | hm
  · exact List.mem_append_left _ (hexecuted hm)
  · exact List.mem_append_right _ (hdecided hm)

/-- A step with nothing to observe, outside a round. -/
theorem Heard.quiet {next' : Option Node} (h : Heard env w state (some node))
    (hcalling : calling state (some node) = false) (hnode : node ≠ .observeMCP)
    (hobservations : state'.mcpObservations = state.mcpObservations)
    (hround : state'.mcpRoundResults = state.mcpRoundResults)
    (hcomplete : next' = none → checkpointIsComplete state' = true)
    (hexecuted : w'.executed = w.executed) (hdecided : w.decided ⊆ w'.decided) : Heard env w' state' next' := by
  refine ⟨hcomplete, fun call hm => .inl ?_, fun print hm => ?_, fun _ _ => ?_⟩
  · rw [hexecuted] at hm
    rw [hobservations, hround]
    rcases h.executed call hm with hseen | ⟨hc, _⟩
    · exact hseen
    · rw [hcalling] at hc
      cases hc
  · rw [hobservations, hround] at hm
    exact done_mono (hexecuted ▸ List.Subset.refl _) hdecided (h.done print hm)
  · rw [hround]
    exact h.settled hcalling fun hn => hnode (Option.some.inj hn)

/-- The nodes outside the rounds leave the observations alone. -/
theorem run_observations (env : Env) (state : FixAgentState) (hcall : node ≠ .callMCPTools)
    (hobserve : node ≠ .observeMCP) (reply : node.Reply) :
    (node.run env state reply).state.mcpObservations = state.mcpObservations ∧
      (node.run env state reply).state.mcpRoundResults = state.mcpRoundResults := by
  cases node
  case callMCPTools => exact absurd rfl hcall
  case observeMCP => exact absurd rfl hobserve
  case planMCPTools =>
    show (planMCPTools env state reply).state.mcpObservations = _ ∧
      (planMCPTools env state reply).state.mcpRoundResults = _
    rcases planMCPTools_cases env state reply with h | ⟨_, _, _, _, ⟨_, h⟩ | ⟨_, _, h⟩⟩ <;> rw [h] <;>
      exact ⟨rfl, rfl⟩
  case executeLocalAction =>
    obtain ⟨result, hrun⟩ := executeLocalAction_run env state reply
    rw [hrun]
    unfold LocalAgentExecutor.execute
    split
    · exact ⟨rfl, rfl⟩
    · exact ⟨rfl, rfl⟩
    · exact ⟨rfl, rfl⟩
    split
    · exact ⟨rfl, rfl⟩
    split <;> exact ⟨rfl, rfl⟩
  all_goals exact ⟨rfl, rfl⟩

/-- What a round sends are calls that are still to be made. -/
theorem executes_subset (env : Env) (state : FixAgentState) (reply : Calling) :
    executes env state .callMCPTools reply ⊆ state.mcpToolPlan.calls.drop state.mcpCallCursor := by
  show (if reply.router then sends env reply state.mcpToolCatalog _ _ else []) ⊆ _
  split
  · exact sends_subset _ _
  · exact List.nil_subset _

/-- A round that is made or waits: its results are observed, and the calls that are left are still to be made. -/
theorem heard_call {reply : Calling} (h : Heard env w state (some .callMCPTools)) (hrouter : reply.router = true)
    (hids : ∀ i < state.mcpToolPlan.calls.length, hasId (reply.reply i) = true)
    (hexecuted : w'.executed = executes env state .callMCPTools reply ++ w.executed)
    (hdecided : w'.decided = w.decided)
    (hreported : reported env.codec (w'.executed.map (callPrint env.codec))
      ((w'.executed ++ w'.decided).map (callPrint env.codec)) (hears env reply state.mcpToolCatalog
        (state.mcpToolPlan.calls.drop state.mcpCallCursor) state.mcpCallCursor) = true) :
    Heard env w' (callMCPTools env state reply).state (some (afterMcpCall (callMCPTools env state reply).state)) := by
  have hreported := reported_iff.mp hreported
  have hsub : w.executed ⊆ w'.executed := hexecuted ▸ List.subset_append_right _ _
  have hsent := executes_subset env state reply
  obtain ⟨made, k, htake, hseen, hstate⟩ := @hears_loop env reply state
    (state.mcpToolPlan.calls.drop state.mcpCallCursor) state.mcpCallCursor state.mcpRoundResults
    (fun i hle hi => hids i (by rw [List.length_drop] at hi; omega)) fun heard hm => (hreported heard hm).1
  have hrun : callMCPTools env state reply = callMCPToolsFrom env reply state
      (state.mcpToolPlan.calls.drop state.mcpCallCursor) state.mcpCallCursor state.mcpRoundResults := if_pos hrouter
  -- A call that was executed is observed now unless it comes after the ones that were made.
  have hmade : ∀ call ∈ w'.executed, callPrint env.codec call ∈
      seenCalls env.codec (state.mcpObservations ++ (state.mcpRoundResults ++ made)) ∨
      callPrint env.codec call ∈
        ((state.mcpToolPlan.calls.drop state.mcpCallCursor).drop k).map (callPrint env.codec) := by
    intro call hm
    rw [← List.append_assoc, seenCalls_append]
    have hplanned : callPrint env.codec call ∈ seenCalls env.codec (state.mcpObservations ++ state.mcpRoundResults) ∨
        ∃ c ∈ state.mcpToolPlan.calls.drop state.mcpCallCursor, callPrint env.codec c = callPrint env.codec call := by
      rw [hexecuted] at hm
      rcases List.mem_append.mp hm with hm | hm
      · exact .inr ⟨call, hsent hm, rfl⟩
      · rcases h.executed call hm with hs | ⟨_, hs⟩
        · exact .inl hs
        · exact .inr (List.mem_map.mp hs)
    rcases hplanned with hs | ⟨c, hc, heq⟩
    · exact .inl (List.mem_append_left _ hs)
    rw [← List.take_append_drop k (state.mcpToolPlan.calls.drop state.mcpCallCursor)] at hc
    rcases List.mem_append.mp hc with hc | hc
    · rw [← htake] at hc
      obtain ⟨heard, hh, rfl⟩ := List.mem_map.mp hc
      refine .inl (List.mem_append_right _ ?_)
      rw [hseen]
      have hprint := (hreported heard hh).2.1 (by rw [heq]; exact List.mem_map_of_mem hm)
      exact List.mem_flatMap.mpr ⟨heard, hh, heq ▸ hprint⟩
    · exact .inr (heq ▸ List.mem_map_of_mem hc)
  have hdone : ∀ print ∈ seenCalls env.codec (state.mcpObservations ++ (state.mcpRoundResults ++ made)),
      print ∈ (w'.executed ++ w'.decided).map (callPrint env.codec) := by
    intro print hm
    rw [← List.append_assoc, seenCalls_append] at hm
    rcases List.mem_append.mp hm with hm | hm
    · exact done_mono hsub (hdecided ▸ List.Subset.refl _) (h.done print hm)
    · rw [hseen] at hm
      obtain ⟨heard, hh, hm⟩ := List.mem_flatMap.mp hm
      exact (hreported heard hh).2.2 print hm
  rw [hrun]
  rcases hstate with ⟨hk, hstate⟩ | ⟨executionId, hid, hstate⟩
  · rw [hstate]
    refine ⟨(fun hn => by cases hn), fun call hm => .inl ?_, hdone, fun _ hn => absurd rfl hn⟩
    rcases hmade call hm with hs | hs
    · exact hs
    · rw [hk, List.drop_length] at hs
      cases hs
  · rw [hstate, afterMcpCall_paused fun hempty => hid (Option.some.inj hempty)]
    refine ⟨(fun hn => by cases hn), fun call hm => ?_, hdone, fun hc => by cases hc⟩
    rcases hmade call hm with hs | hs
    · exact .inl hs
    · refine .inr ⟨rfl, ?_⟩
      rw [List.drop_drop] at hs
      exact hs

/-- A round that a job without a router takes over loses its results. -/
theorem heard_dropped {reply : Calling} (h : Heard env w state (some .callMCPTools)) (hrouter : reply.router = false)
    (hexecuted : w'.executed = executes env state .callMCPTools reply ++ w.executed)
    (hdecided : w'.decided = w.decided)
    (hobserved : ∀ call ∈ w'.executed, callPrint env.codec call ∈ seenCalls env.codec state.mcpObservations) :
    Heard env w' (callMCPTools env state reply).state (some (afterMcpCall (callMCPTools env state reply).state)) := by
  have hrun : callMCPTools env state reply = { state := { state with mcpRoundResults := [] } } :=
    if_neg (by rw [hrouter]; exact Bool.false_ne_true)
  have hsub : w.executed ⊆ w'.executed := hexecuted ▸ List.subset_append_right _ _
  rw [hrun]
  refine ⟨(fun hn => by cases hn), fun call hm => .inl ?_, fun print hm => ?_, fun _ _ => rfl⟩
  · show _ ∈ seenCalls env.codec (state.mcpObservations ++ [])
    rw [List.append_nil]
    exact hobserved call hm
  · change print ∈ seenCalls env.codec (state.mcpObservations ++ []) at hm
    rw [List.append_nil] at hm
    refine done_mono hsub (hdecided ▸ List.Subset.refl _) (h.done print ?_)
    rw [seenCalls_append]
    exact List.mem_append_left _ hm

/-- The results that are stored with a call name calls that are done. -/
theorem saved_heard {reply : Calling} (h : Heard env w state (some .callMCPTools)) (hrouter : reply.router = true)
    (hexecuted : w.executed ⊆ w'.executed) (hdecided : w.decided ⊆ w'.decided) {j : Nat} {stored : FixAgentState}
    (hreported : reported env.codec (w'.executed.map (callPrint env.codec))
      ((w'.executed ++ w'.decided).map (callPrint env.codec)) ((hears env reply state.mcpToolCatalog
        (state.mcpToolPlan.calls.drop state.mcpCallCursor) state.mcpCallCursor).take j) = true)
    (hstored : (callMCPTools env state reply).saved[j]? = some stored) :
    ∀ print ∈ seenCalls env.codec (stored.mcpObservations ++ stored.mcpRoundResults),
      print ∈ (w'.executed ++ w'.decided).map (callPrint env.codec) := by
  have hreported := reported_iff.mp hreported
  have hrun : callMCPTools env state reply = callMCPToolsFrom env reply state
      (state.mcpToolPlan.calls.drop state.mcpCallCursor) state.mcpCallCursor state.mcpRoundResults := if_pos hrouter
  rw [hrun] at hstored
  obtain ⟨made, rfl, hseen⟩ := hears_saved _ _ _ (fun heard hm => (hreported heard hm).1) hstored
  intro print hm
  change print ∈ seenCalls env.codec (state.mcpObservations ++ (state.mcpRoundResults ++ made)) at hm
  rw [← List.append_assoc, seenCalls_append] at hm
  rcases List.mem_append.mp hm with hm | hm
  · exact done_mono hexecuted hdecided (h.done print hm)
  · rw [hseen] at hm
    obtain ⟨heard, hh, hm⟩ := List.mem_flatMap.mp hm
    exact (hreported heard hh).2.2 print hm

/-- A node outside the calls of a round, and what it stores. -/
theorem heard_node (h : Heard env w state (some node)) (hcall : node ≠ .callMCPTools) (reply : node.Reply)
    (hexecuted : w'.executed = executes env state node reply ++ w.executed) (hdecided : w'.decided = w.decided) :
    Heard env w' (node.run env state reply).state (after node (node.run env state reply).state) ∧
      ∀ stored ∈ (node.run env state reply).saved,
        ∀ print ∈ seenCalls env.codec (stored.mcpObservations ++ stored.mcpRoundResults),
          print ∈ (w'.executed ++ w'.decided).map (callPrint env.codec) := by
  have hnone : executes env state node reply = [] := by
    cases node <;> first | rfl | exact absurd rfl hcall
  rw [hnone, List.nil_append] at hexecuted
  have hmono {print : String} (hm : print ∈ (w.executed ++ w.decided).map (callPrint env.codec)) :
      print ∈ (w'.executed ++ w'.decided).map (callPrint env.codec) := by
    rw [hexecuted, hdecided]
    exact hm
  refine ⟨?_, fun stored hm print hprint => hmono ?_⟩
  · by_cases hquiet : node ≠ .observeMCP ∧ node ≠ .pauseForReconciliation
    · obtain ⟨hobservations, hround⟩ := run_observations env state hcall hquiet.1 reply
      refine h.quiet ?_ hquiet.1 hobservations hround (run_complete env state reply) hexecuted
        (hdecided ▸ List.Subset.refl _)
      cases node <;> first | rfl | exact absurd rfl hcall | exact absurd rfl hquiet.2
    · cases node <;> first | (exact absurd ⟨by decide, by decide⟩ hquiet) | skip
      case observeMCP =>
        have hsame : (observeMCP state).mcpObservations ++ (observeMCP state).mcpRoundResults =
            state.mcpObservations ++ state.mcpRoundResults := List.append_nil _
        refine ⟨(fun hn => by cases hn), fun call hm => .inl ?_, fun print hm => ?_, fun _ _ => rfl⟩
        · show _ ∈ seenCalls env.codec ((observeMCP state).mcpObservations ++ (observeMCP state).mcpRoundResults)
          rw [hexecuted] at hm
          rw [hsame]
          rcases h.executed call hm with hs | ⟨hc, _⟩
          · exact hs
          · cases hc
        · change print ∈ seenCalls env.codec
            ((observeMCP state).mcpObservations ++ (observeMCP state).mcpRoundResults) at hm
          rw [hsame] at hm
          exact hmono (h.done print hm)
      case pauseForReconciliation =>
        refine ⟨fun _ => rfl, fun call hm => ?_, fun print hm => hmono (h.done print hm), fun hc => by cases hc⟩
        rw [hexecuted] at hm
        rcases h.executed call hm with hs | ⟨_, hs⟩
        · exact .inl hs
        · exact .inr ⟨rfl, hs⟩
  · cases node <;> first | exact absurd rfl hcall | cases hm | skip
    case planMCPTools =>
      change stored ∈ (planMCPTools env state reply).saved at hm
      refine h.done print ?_
      rw [seenCalls_append]
      rcases planMCPTools_cases env state reply with heq | ⟨_, _, _, _, ⟨_, heq⟩ | ⟨_, _, heq⟩⟩ <;> rw [heq] at hm
      · cases hm
      · cases hm
      · obtain rfl := List.mem_singleton.mp hm
        change print ∈ seenCalls env.codec (state.mcpObservations ++ []) at hprint
        rw [List.append_nil] at hprint
        exact List.mem_append_left _ hprint

theorem Attended.next (h : Attended env w) (hexecuted : w.executed ⊆ w'.executed) (hdecided : w.decided ⊆ w'.decided)
    {more : List FixAgentState} (hsaved : w'.repair.saved = w.repair.saved ++ more)
    (hmore : ∀ stored ∈ more, ∀ print ∈ seenCalls env.codec (stored.mcpObservations ++ stored.mcpRoundResults),
      print ∈ (w'.executed ++ w'.decided).map (callPrint env.codec)) {next : Option Node}
    (hthread : w'.repair.thread = some (state, next)) (hheard : Heard env w' state next) : Attended env w' := by
  refine ⟨fun stored hm print hprint => ?_, fun hn => ?_, fun state' next' ht => ?_⟩
  · rw [hsaved] at hm
    rcases List.mem_append.mp hm with hm | hm
    · exact done_mono hexecuted hdecided (h.saved stored hm print hprint)
    · exact hmore stored hm print hprint
  · rw [hthread] at hn
    cases hn
  · rw [hthread] at ht
    obtain ⟨rfl, rfl⟩ := Prod.mk.inj (Option.some.inj ht)
    exact hheard

/-- A step that leaves the thread where it is. -/
theorem Attended.stay (h : Attended env w) (hexecuted : w'.executed = w.executed) (hdecided : w'.decided = w.decided)
    (hsaved : w'.repair.saved = w.repair.saved) (hthread : w'.repair.thread = w.repair.thread) : Attended env w' := by
  refine ⟨?_, ?_, fun state next ht => ?_⟩
  · rw [hsaved, hexecuted, hdecided]
    exact h.saved
  · rw [hthread, hexecuted]
    exact h.fresh
  · rw [hthread] at ht
    obtain ⟨hcomplete, hex, hdone, hsettled⟩ := h.thread state next ht
    refine ⟨hcomplete, ?_, ?_, hsettled⟩
    · rw [hexecuted]
      exact hex
    · rw [hexecuted, hdecided]
      exact hdone

theorem attended_invoke {runId repoId : String} (h : Attended env w)
    (hrepair : w'.repair = invoke (initialState env.settings runId repoId) w.repair)
    (hexecuted : w'.executed = w.executed) (hdecided : w'.decided = w.decided) : Attended env w' := by
  cases ht : w.repair.thread with
  | none =>
    have hfresh := h.fresh ht
    unfold invoke at hrepair
    rw [ht] at hrepair
    refine h.next (hexecuted ▸ List.Subset.refl _) (hdecided ▸ List.Subset.refl _)
      (by rw [hrepair]; exact (List.append_nil _).symm) (List.forall_mem_nil _) (by rw [hrepair])
      ⟨(fun hn => by cases hn), fun call hm => ?_, List.forall_mem_nil _, fun _ _ => rfl⟩
    rw [hexecuted, hfresh] at hm
    cases hm
  | some thread =>
    obtain ⟨state, next⟩ := thread
    cases next with
    | none =>
      unfold invoke at hrepair
      simp only [ht, (h.thread state none ht).complete rfl, if_true] at hrepair
      exact h.stay hexecuted hdecided (by rw [hrepair]) (by rw [hrepair])
    | some next =>
      unfold invoke at hrepair
      simp only [ht] at hrepair
      exact h.stay hexecuted hdecided (by rw [hrepair]; exact List.append_nil _) (by rw [hrepair]; rfl)

theorem attended_resumeApproval (h : Attended env w) {stored : FixAgentState} {result : Json} {approved : Bool}
    (hm : stored ∈ w.repair.saved)
    (hrepair : w'.repair = resume w.repair (resumedFromApproval stored result approved))
    (hexecuted : w.executed ⊆ w'.executed) (hdecided : w.decided ⊆ w'.decided)
    (hobserved : ∀ call ∈ w'.executed,
      callPrint env.codec call ∈ seenCalls env.codec (stored.mcpObservations ++ [result]))
    (hdone : ∀ print ∈ seenCalls env.codec [result],
      print ∈ (w'.executed ++ w'.decided).map (callPrint env.codec)) : Attended env w' := by
  unfold resume at hrepair
  rw [enter_approval] at hrepair
  have hmerged : (FixAgentState.merge (w.repair.thread.map (·.1)) (resumedFromApproval stored result approved)
      ).mcpObservations ++ (FixAgentState.merge (w.repair.thread.map (·.1))
        (resumedFromApproval stored result approved)).mcpRoundResults = stored.mcpObservations ++ [result] := by
    cases w.repair.thread <;> rfl
  refine h.next hexecuted hdecided (by rw [hrepair]; exact (List.append_nil _).symm) (List.forall_mem_nil _)
    (by rw [hrepair]) ⟨(fun hn => by cases hn), fun call hc => .inl ?_, fun print hp => ?_, fun _ hn => absurd rfl hn⟩
  · rw [hmerged]
    exact hobserved call hc
  · rw [hmerged, seenCalls_append] at hp
    rcases List.mem_append.mp hp with hp | hp
    · refine done_mono hexecuted hdecided (h.saved stored hm print ?_)
      rw [seenCalls_append]
      exact List.mem_append_left _ hp
    · exact hdone print hp

theorem attended_resumeExecution (h : Attended env w) {stored : FixAgentState} (hm : stored ∈ w.repair.saved)
    (hrepair : w'.repair = resume w.repair (resumedFromExecution stored))
    (hexecuted : w'.executed = w.executed) (hdecided : w'.decided = w.decided)
    (hobserved : ∀ call ∈ w.executed,
      callPrint env.codec call ∈ seenCalls env.codec (stored.mcpObservations ++ stored.mcpRoundResults) ∨
        callPrint env.codec call ∈
          (stored.mcpToolPlan.calls.drop stored.mcpCallCursor).map (callPrint env.codec)) : Attended env w' := by
  unfold resume at hrepair
  rw [enter_execution] at hrepair
  refine h.next (hexecuted ▸ List.Subset.refl _) (hdecided ▸ List.Subset.refl _)
    (by rw [hrepair]; exact (List.append_nil _).symm) (List.forall_mem_nil _) (by rw [hrepair])
    ⟨(fun hn => by cases hn), fun call hc => ?_, fun print hp => ?_, fun hc => by cases hc⟩
  · rw [hexecuted] at hc
    rcases hobserved call hc with hs | hs
    · left
      cases w.repair.thread <;> exact hs
    · refine .inr ⟨rfl, ?_⟩
      cases w.repair.thread <;> exact hs
  · rw [hexecuted, hdecided]
    refine h.saved stored hm print ?_
    revert hp
    cases w.repair.thread <;> exact id

theorem attended_node {e : Closing} {reply : node.Reply} (h : Attended env w)
    (ht : w.repair.thread = some (state, some node)) (hids : identified w.repair (.node node reply) = true)
    (hreports : reports env w (.node node reply, e) = true) (hrepair : w'.repair =
      { w.repair.note (node.run env state reply).events (node.run env state reply).saved with
        thread := some ((node.run env state reply).state, after node (node.run env state reply).state) })
    (hexecuted : w'.executed = executedBy env w (.node node reply, e) ++ w.executed)
    (hdecided : w'.decided = w.decided) : Attended env w' := by
  have hby : executedBy env w (.node node reply, e) = executes env state node reply := by
    unfold executedBy
    rw [ht]
    rfl
  have hheard := h.thread state _ ht
  have hsub : w.executed ⊆ w'.executed := hexecuted ▸ List.subset_append_right _ _
  have hboth : Heard env w' (node.run env state reply).state (after node (node.run env state reply).state) ∧
      ∀ stored ∈ (node.run env state reply).saved,
        ∀ print ∈ seenCalls env.codec (stored.mcpObservations ++ stored.mcpRoundResults),
          print ∈ (w'.executed ++ w'.decided).map (callPrint env.codec) := by
    by_cases hcall : node = .callMCPTools
    · subst hcall
      simp only [reports, ht, Option.all_some] at hreports
      rw [← hexecuted, show decidedBy w (.node .callMCPTools reply, e) = [] from rfl, List.nil_append, ← hdecided,
        ← List.map_append] at hreports
      rw [hby] at hexecuted
      split at hreports
      · next hrouter =>
        simp only [identified, ht, Option.all_some, List.all_eq_true, List.mem_range] at hids
        refine ⟨heard_call hheard hrouter hids hexecuted hdecided hreports, fun stored hm => ?_⟩
        obtain ⟨j, hj⟩ := List.getElem?_of_mem hm
        refine saved_heard hheard hrouter hsub (hdecided ▸ List.Subset.refl _) ?_ hj
        exact reported_iff.mpr fun heard hh => reported_iff.mp hreports heard (List.mem_of_mem_take hh)
      · next hrouter =>
        have hrouter : Calling.router reply = false := Bool.eq_false_iff.mpr hrouter
        refine ⟨heard_dropped hheard hrouter hexecuted hdecided fun call hc => ?_, ?_⟩
        · have hall := List.all_eq_true.mp hreports _ (List.mem_map_of_mem hc)
          exact List.contains_iff_mem.mp hall
        · show ∀ stored ∈ (callMCPTools env state reply).saved, _
          unfold callMCPTools
          rw [hrouter]
          exact List.forall_mem_nil _
    · rw [hby] at hexecuted
      exact heard_node hheard hcall reply hexecuted hdecided
  exact h.next hsub (hdecided ▸ List.Subset.refl _) (by rw [hrepair]; rfl) hboth.2 (by rw [hrepair]) hboth.1

theorem attended_crash {e : Closing} {reply : node.Reply} {events saved : Nat} (h : Attended env w)
    (ht : w.repair.thread = some (state, some node))
    (hreports : reports env w (.crash node reply events saved, e) = true) (hrepair : w'.repair =
      w.repair.note ((node.run env state reply).events.take events) ((node.run env state reply).saved.take saved))
    (hexecuted : w'.executed = executedBy env w (.crash node reply events saved, e) ++ w.executed)
    (hdecided : w'.decided = w.decided) : Attended env w' := by
  have hby : executedBy env w (.crash node reply events saved, e) = (executes env state node reply).take events := by
    unfold executedBy
    rw [ht]
    rfl
  have hheard := h.thread state _ ht
  have hsub : w.executed ⊆ w'.executed := hexecuted ▸ List.subset_append_right _ _
  have hthread : w'.repair.thread = some (state, some node) := by
    rw [hrepair]
    exact ht
  have hboth : Heard env w' state (some node) ∧
      ∀ stored ∈ (node.run env state reply).saved.take saved,
        ∀ print ∈ seenCalls env.codec (stored.mcpObservations ++ stored.mcpRoundResults),
          print ∈ (w'.executed ++ w'.decided).map (callPrint env.codec) := by
    by_cases hcall : node = .callMCPTools
    · subst hcall
      refine ⟨⟨(fun hn => by cases hn), fun call hc => ?_, fun print hp => ?_, fun hc => by cases hc⟩, ?_⟩
      · rw [hexecuted, hby] at hc
        rcases List.mem_append.mp hc with hc | hc
        · exact .inr ⟨rfl, List.mem_map_of_mem (executes_subset env state reply (List.mem_of_mem_take hc))⟩
        · exact hheard.executed call hc
      · exact done_mono hsub (hdecided ▸ List.Subset.refl _) (hheard.done print hp)
      · intro stored hm
        obtain ⟨j, hj⟩ := List.getElem?_of_mem hm
        rw [List.getElem?_take] at hj
        split at hj
        · next hlt =>
          simp only [reports, ht, Option.all_some] at hreports
          rw [← hexecuted, show decidedBy w (.crash .callMCPTools reply events saved, e) = [] from rfl,
            List.nil_append, ← hdecided, ← List.map_append] at hreports
          cases hrouter : Calling.router reply with
          | false =>
            change (callMCPTools env state reply).saved[j]? = _ at hj
            unfold callMCPTools at hj
            rw [hrouter] at hj
            cases hj
          | true =>
            rw [hrouter] at hreports
            refine saved_heard hheard hrouter hsub (hdecided ▸ List.Subset.refl _) ?_ hj
            exact reported_iff.mpr fun heard hh => reported_iff.mp hreports heard
              (List.take_subset_take_left _ (by omega) hh)
        · cases hj
    · have hnone : executes env state node reply = [] := by
        cases node <;> first | rfl | exact absurd rfl hcall
      rw [hby, hnone, List.take_nil] at hexecuted
      have hsaved := (heard_node hheard hcall reply (by rw [hnone]; exact hexecuted) hdecided).2
      refine ⟨⟨(fun hn => by cases hn), fun call hc => ?_, fun print hp => ?_, hheard.settled⟩,
        fun stored hm => hsaved stored (List.mem_of_mem_take hm)⟩
      · rw [hexecuted] at hc
        exact hheard.executed call hc
      · exact done_mono hsub (hdecided ▸ List.Subset.refl _) (hheard.done print hp)
  exact h.next hsub (hdecided ▸ List.Subset.refl _) (by rw [hrepair]; rfl) hboth.2 hthread hboth.1

theorem attended_step {runId repoId : String} {e : Step × Closing} (h : Attended env w)
    (hreports : reports env w e = true)
    (hs : Called.step env (initialState env.settings runId repoId) w e = some w') : Attended env w' := by
  unfold Called.step at hs
  split at hs
  · next hids =>
    obtain ⟨repair, hstep, rfl⟩ := Option.map_eq_some_iff.mp hs
    obtain ⟨e, closing⟩ := e
    cases e with
    | invoke =>
      obtain rfl := Option.some.inj hstep
      exact attended_invoke h rfl rfl rfl
    | node node reply =>
      cases step_move _ _ hstep with
      | node ht => exact attended_node h ht hids hreports rfl rfl rfl
    | crash node reply events saved =>
      cases step_move _ _ hstep with
      | crash ht => exact attended_crash h ht hreports rfl rfl rfl
    | resumeApproval index result approved =>
      obtain ⟨stored, hm, rfl⟩ := Option.map_eq_some_iff.mp hstep
      simp only [reports, hm, Option.all_some, Bool.and_eq_true, List.all_eq_true, List.mem_map,
        List.contains_iff_mem] at hreports
      refine attended_resumeApproval h (List.mem_of_getElem? hm) rfl (List.subset_append_right _ _)
        (List.subset_append_right _ _) (fun call hc => hreports.1 _ ⟨call, hc, rfl⟩) fun print hp => ?_
      rw [List.map_append]
      exact hreports.2 print hp
    | resumeExecution index =>
      obtain ⟨stored, hm, rfl⟩ := Option.map_eq_some_iff.mp hstep
      simp only [reports, hm, Option.all_some, Bool.or_eq_true, List.all_eq_true, List.contains_iff_mem] at hreports
      exact attended_resumeExecution h (List.mem_of_getElem? hm) rfl rfl rfl
        fun call hc => hreports _ (List.mem_map_of_mem hc)
  · cases hs

theorem inductive_attended (env : Env) (runId repoId : String) :
    ((called env (initialState env.settings runId repoId)).only fun w e => reports env w e = true).Inductive
      (Attended env) where
  start hs := by
    obtain rfl := hs
    exact ⟨List.forall_mem_nil _, fun _ => rfl, fun _ _ ht => by cases ht⟩
  step h hs := attended_step h hs.1 hs.2

/-- Where every call is observed under its arguments, the plans of a run are exact. -/
theorem dedup_exact (env : Env) (runId repoId : String) {w : Called}
    (hw : ((called env (initialState env.settings runId repoId)).only fun w e => reports env w e = true).Reachable w)
    {state : FixAgentState} (ht : w.repair.thread = some (state, some .planMCPTools)) (planning : Planning) :
    Exact env w state planning := by
  have hheard := ((inductive_attended env runId repoId).reachable hw).thread state _ ht
  have hround : state.mcpRoundResults = [] := hheard.settled rfl (by decide)
  have hexecuted : ∀ call ∈ w.executed, callPrint env.codec call ∈ seenCalls env.codec state.mcpObservations := by
    intro call hm
    rcases hheard.executed call hm with hs | ⟨hc, _⟩
    · rw [hround, List.append_nil] at hs
      exact hs
    · cases hc
  have hdone := hheard.done
  rw [hround, List.append_nil] at hdone
  refine ⟨fun call hcall before hm heq => ?_, fun done proposed rest _ hduplicate => ?_⟩
  · refine plan_unseen hcall ?_
    show callPrint env.codec call ∈ _
    rw [← heq]
    exact hexecuted before hm
  · obtain ⟨qualifiedName, arguments, hproposal, hseen⟩ := hduplicate.seen
    refine ⟨qualifiedName, arguments, hproposal, ?_⟩
    rcases hseen with hseen | hearlier
    · exact .inl (List.mem_map.mp (hdone _ hseen))
    · exact .inr hearlier

/-! ## A call that is repeated -/

/-- The text of the first argument, which tells the calls of a sample apart. -/
def argumentText : Json → String
  | .arr [_, .obj ((_, .str value) :: _)] => value
  | _ => ""

def statusEnv : Env where
  settings := sampleSettings
  codec := ⟨argumentText, argumentText, id, fun _ => ""⟩
  check _ _ := none

/-- A proposal to ask for the status of a service. -/
def statusProposal (service : String) : Json :=
  .obj [("tool", .str "ops.status"), ("arguments", .obj [("service", .str service)])]

def statusCall (service : String) : Call := ⟨"ops.status", "ops", "status", .obj [("service", .str service)]⟩

/-- A round whose only call meets the reply. -/
def statusRound (reply : CallReply) : Calling := ⟨true, opsServers .auto, fun _ _ => true, fun _ => reply⟩

/-- A run up to the first round, whose call asks for the status of a service. -/
def statusPlanned : List Step :=
  reproducedSteps ++
    [.node .planNextAction ⟨1, .ok (.generatePatch, 10)⟩, .node .executeLocalAction ⟨2, .null⟩,
      .node .planMCPTools ⟨true, [statusTool], [statusProposal "api"], ""⟩]

/-- The server answers the call. -/
def answeredSteps : List Step :=
  statusPlanned ++
    [.node .callMCPTools (statusRound (.ran "e" "key" (.answered (.obj [("isError", .bool false)])) none)),
      .node .observeMCP ()]

/-- The outcome of the call is unknown, and confirmed by an operator. -/
def reconciledSteps : List Step :=
  statusPlanned ++
    [.node .callMCPTools (statusRound (.ran "e" "key" .unknown none)), .node .pauseForReconciliation (),
      .resumeExecution 0,
      .node .callMCPTools (statusRound (.stored (.obj
        [("ok", .bool true), ("qualified_name", .str "ops.status"), ("execution_id", .str "e"),
          ("idempotency_key", .str "key"), ("reconciled", .bool true)]))),
      .node .observeMCP ()]

/-- A round that proposes the call again, and one of the tool without arguments. -/
def statusAgain : Planning :=
  ⟨true, [statusTool], [statusProposal "api", .obj [("tool", .str "ops.status"), ("arguments", .obj [])]], ""⟩

theorem dedup_exact_sample : ∃ w state,
    ((called statusEnv (initialState sampleSettings "run" "repo")).only fun w e =>
      reports statusEnv w e = true).Reachable w ∧
    w.repair.thread = some (state, some .planMCPTools) ∧ w.executed = [statusCall "api"] ∧
    Exact statusEnv w state statusAgain := by
  obtain ⟨w, hw⟩ : ∃ w, (answeredSteps.map fun e => (e, Closing.expired)).foldlM (fun w e =>
      if reports statusEnv w e = true then Called.step statusEnv (initialState sampleSettings "run" "repo") w e
      else none) Called.empty = some w := ⟨_, rfl⟩
  have hreach : ((called statusEnv (initialState sampleSettings "run" "repo")).only fun w e =>
      reports statusEnv w e = true).Reachable w := ⟨_, _, rfl, .only_of_foldlM hw⟩
  obtain ⟨state, ht⟩ : ∃ state, w.repair.thread = some (state, some .planMCPTools) := by
    obtain rfl := Option.some.inj hw
    exact ⟨_, rfl⟩
  have hexact := dedup_exact statusEnv "run" "repo" hreach ht statusAgain
  obtain rfl := Option.some.inj hw
  exact ⟨_, state, hreach, ht, rfl, hexact⟩

/-- The call that was reconciled is accepted again, and one of the tool without
arguments, which was never made, is a duplicate. -/
theorem call_repeated : ∃ w state,
    (called statusEnv (initialState sampleSettings "run" "repo")).Reachable w ∧
    w.repair.thread = some (state, some .planMCPTools) ∧ w.executed = [statusCall "api"] ∧ w.decided = [] ∧
    (planMCPTools statusEnv state statusAgain).state.mcpToolPlan =
      ⟨[statusCall "api"], [], [⟨"ops.status", "duplicate_call", none⟩]⟩ ∧
    ¬ Exact statusEnv w state statusAgain := by
  obtain ⟨w, hw⟩ : ∃ w, (reconciledSteps.map fun e => (e, Closing.expired)).foldlM
      (Called.step statusEnv (initialState sampleSettings "run" "repo")) Called.empty = some w := ⟨_, rfl⟩
  have hreach : (called statusEnv (initialState sampleSettings "run" "repo")).Reachable w :=
    ⟨_, _, rfl, .of_foldlM hw⟩
  obtain rfl := Option.some.inj hw
  refine ⟨_, _, hreach, rfl, rfl, rfl, rfl, fun h => ?_⟩
  exact h.accepted (statusCall "api") List.mem_cons_self _ List.mem_cons_self rfl

end CodeMate.Agent
