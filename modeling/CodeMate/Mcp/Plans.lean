import Mathlib.Data.List.Induction
import CodeMate.Mcp.Router

/-!
# What `validate_plan` decides

Every proposal gets one verdict, and the lists of a plan are those of the
verdicts in their order (`consider_turn`, `considered`): the calls stay within
the budget, and no two of them, and none of the earlier observations, have one
fingerprint. Their arguments fit schemas without an external `$ref`, unless one
is hidden from `find_external_ref` in an object whose own `$ref` is empty
(`find_external`, `plan_sorted`). A duplicate was observed before the plan or
proposed earlier in it (`DuplicateAfter.seen`).
-/

namespace CodeMate.Mcp

open Framework

/-- What becomes of a proposal. -/
inductive ProposalVerdict
  | accepted (call : Call)
  | needsApproval (call : Call)
  | rejected (rejection : Rejection)

namespace ProposalVerdict

def call? : ProposalVerdict → Option Call
  | accepted call => some call
  | _ => none

def approval? : ProposalVerdict → Option Call
  | needsApproval call => some call
  | _ => none

def rejection? : ProposalVerdict → Option Rejection
  | rejected rejection => some rejection
  | _ => none

end ProposalVerdict

/-- The plan of some verdicts. -/
def Plan.ofVerdicts (verdicts : List ProposalVerdict) : Plan where
  calls := verdicts.filterMap ProposalVerdict.call?
  approvalRequests := verdicts.filterMap ProposalVerdict.approval?
  rejected := verdicts.filterMap ProposalVerdict.rejection?

mutual

/-- Whether a schema has an external `$ref`, if `through` also in objects whose own `$ref` is empty. -/
def hasExternalRef (through : Bool) : Json → Bool
  | .obj ms =>
    match ms.lookup "$ref" with
    | some (.str ref) =>
      if ref = "" then through && hasExternalRefMembers through ms
      else !ref.startsWith "#" || hasExternalRefMembers through ms
    | _ => hasExternalRefMembers through ms
  | .arr xs => hasExternalRefList through xs
  | _ => false

def hasExternalRefList (through : Bool) : List Json → Bool
  | [] => false
  | x :: xs => hasExternalRef through x || hasExternalRefList through xs

def hasExternalRefMembers (through : Bool) : List (String × Json) → Bool
  | [] => false
  | (_, x) :: ms => hasExternalRef through x || hasExternalRefMembers through ms

end

section

variable (codec : Codec) (check : Json → Json → Option String) (catalog : List CatalogTool)

/-- The name that a verdict on the proposal is given. -/
def proposedTool (proposed : Json) : String :=
  match proposal proposed with
  | some (qualifiedName, _) => qualifiedName
  | none => textOr codec (proposed.get "tool") "unknown"

/-- The verdict is about the proposal. -/
def About (proposed : Json) : ProposalVerdict → Prop
  | .accepted call | .needsApproval call => proposal proposed = some (call.qualifiedName, call.arguments)
  | .rejected rejection => rejection.tool = proposedTool codec proposed

/-- The call names a tool of the catalog under the policy, and its arguments fit its schema, which has
no external `$ref` at any depth. -/
def Allowed (policy : Policy) (call : Call) : Prop :=
  ∃ tool, byName catalog call.qualifiedName = some tool ∧ tool.policy = policy ∧
    call.server = tool.server ∧ call.tool = tool.name ∧
    check tool.inputSchema call.arguments = none ∧ hasExternalRef true tool.inputSchema = false

/-- What a plan has to be. -/
structure Sorted (proposed : List Json) (remainingCalls : Nat) (observations : List Json) (plan : Plan) : Prop where
  classified : ∃ verdicts, List.Forall₂ (About codec) (proposed.take 20) verdicts ∧ plan = .ofVerdicts verdicts
  budget : plan.calls.length + plan.approvalRequests.length ≤ remainingCalls
  distinct : ((plan.calls ++ plan.approvalRequests).map fun call =>
    callFingerprint codec call.qualifiedName call.arguments).Nodup
  unseen : ∀ call ∈ plan.calls ++ plan.approvalRequests,
    callFingerprint codec call.qualifiedName call.arguments ∉ seenCalls codec observations
  calls : ∀ call ∈ plan.calls, Allowed check catalog .auto call
  approvals : ∀ call ∈ plan.approvalRequests, Allowed check catalog .approvalRequired call

/-- No tool that could be called hides an external `$ref` from `find_external_ref`. -/
def NoneHidden : Prop :=
  ∀ tool, byName catalog tool.qualifiedName = some tool → tool.policy = .auto ∨ tool.policy = .approvalRequired →
    (∃ ms, check tool.inputSchema (.obj ms) = none) → hasExternalRef true tool.inputSchema = true →
    hasExternalRef false tool.inputSchema = true

end

/-! ## External references -/

theorem nonempty_or (a b : Option String) : nonempty ((nonempty a).or b) = (nonempty a).or (nonempty b) := by
  cases a with
  | none => rfl
  | some s =>
    by_cases hs : s = ""
    · simp [nonempty, Option.filter_some, hs]
    · simp [nonempty, Option.filter_some, hs]

mutual

/-- `find_external_ref` does not look into objects whose own `$ref` is empty. -/
theorem find_external : ∀ j, (nonempty (findExternalRef j)).isSome = hasExternalRef false j
  | .obj ms => by
    have hmembers := find_external_members ms
    unfold findExternalRef hasExternalRef
    cases ms.lookup "$ref" with
    | none => exact hmembers
    | some value =>
      cases value with
      | str ref =>
        by_cases hempty : ref = ""
        · have hstart : "".startsWith "#" = false := by decide +kernel
          simp [hempty, hstart, nonempty, Option.filter_some]
        · cases hstart : ref.startsWith "#" with
          | true => simpa [hempty, hstart] using hmembers
          | false => simp [hempty, hstart, nonempty, Option.filter_some]
      | _ => exact hmembers
  | .arr xs => find_external_list xs
  | .null | .bool _ | .num _ | .str _ => rfl

theorem find_external_list : ∀ xs, (nonempty (findExternalRefList xs)).isSome = hasExternalRefList false xs
  | [] => rfl
  | x :: xs => by
    unfold findExternalRefList hasExternalRefList
    rw [nonempty_or, Option.isSome_or, find_external x, find_external_list xs]

theorem find_external_members :
    ∀ ms, (nonempty (findExternalRefMembers ms)).isSome = hasExternalRefMembers false ms
  | [] => rfl
  | (_, x) :: ms => by
    unfold findExternalRefMembers hasExternalRefMembers
    rw [nonempty_or, Option.isSome_or, find_external x, find_external_members ms]

end

variable {codec : Codec} {check : Json → Json → Option String} {catalog : List CatalogTool}

/-- Arguments are checked against a schema in which no external reference was found. -/
theorem validate_none {schema arguments : Json} :
    validateToolArguments check schema arguments = none ↔
      hasExternalRef false schema = false ∧ check schema arguments = none := by
  rw [← find_external]
  unfold validateToolArguments
  cases nonempty (findExternalRef schema) with
  | none => simp
  | some ref => simp

/-! ## The loop -/

/-- What one turn of the loop does to the fingerprints seen and to the plan. -/
inductive Turn (codec : Codec) (seen : List String) (plan : Plan) (proposed : Json) : List String × Plan → Prop
  | reject {seen' : List String} {rejection : Rejection} : seen ⊆ seen' →
      rejection.tool = proposedTool codec proposed →
      Turn codec seen plan proposed (seen', { plan with rejected := plan.rejected ++ [rejection] })
  | accept {call : Call} : proposal proposed = some (call.qualifiedName, call.arguments) →
      callFingerprint codec call.qualifiedName call.arguments ∉ seen →
      Turn codec seen plan proposed
        (callFingerprint codec call.qualifiedName call.arguments :: seen, { plan with calls := plan.calls ++ [call] })
  | approve {call : Call} : proposal proposed = some (call.qualifiedName, call.arguments) →
      callFingerprint codec call.qualifiedName call.arguments ∉ seen →
      Turn codec seen plan proposed
        (callFingerprint codec call.qualifiedName call.arguments :: seen,
          { plan with approvalRequests := plan.approvalRequests ++ [call] })

theorem consider_turn {remainingCalls : Nat} (seen : List String) (plan : Plan) (proposed : Json) :
    Turn codec seen plan proposed (consider codec check catalog remainingCalls (seen, plan) proposed) := by
  have hrejects (seen' : List String) (hseen : seen ⊆ seen') {tool : String} (reason : String)
      (detail : Option String) (htool : tool = proposedTool codec proposed) :
      Turn codec seen plan proposed (seen', plan.reject tool reason detail) :=
    @Turn.reject _ _ _ _ seen' ⟨tool, reason, detail⟩ hseen htool
  unfold consider
  dsimp only
  split
  · next hshape => exact hrejects _ (List.Subset.refl _) _ _ (by rw [proposedTool, hshape])
  next qualifiedName arguments hproposal =>
    have hname : qualifiedName = proposedTool codec proposed := by rw [proposedTool, hproposal]
    split
    · exact hrejects _ (List.Subset.refl _) _ _ hname
    next tool _ =>
      split
      · exact hrejects _ (List.Subset.refl _) _ _ hname
      split
      · exact hrejects _ (List.Subset.refl _) _ _ hname
      next hfresh =>
        split
        · exact hrejects _ (List.Subset.refl _) _ _ hname
        split
        · exact hrejects _ (List.Subset.refl _) _ _ hname
        split
        · exact @Turn.approve _ _ _ _ ⟨qualifiedName, tool.server, tool.name, arguments⟩ hproposal hfresh
        · exact @Turn.accept _ _ _ _ ⟨qualifiedName, tool.server, tool.name, arguments⟩ hproposal hfresh
        · exact hrejects _ (List.subset_cons_self _ _) _ _ hname

/-- What the loop keeps, after the proposals that it considered. -/
structure Considered (codec : Codec) (before : List String) (proposed : List Json) (seen : List String)
    (plan : Plan) : Prop where
  classified : ∃ verdicts, List.Forall₂ (About codec) proposed verdicts ∧ plan = .ofVerdicts verdicts
  seen : before ⊆ seen ∧ ∀ call ∈ plan.calls ++ plan.approvalRequests,
    callFingerprint codec call.qualifiedName call.arguments ∈ seen
  distinct : ((plan.calls ++ plan.approvalRequests).map fun call =>
    callFingerprint codec call.qualifiedName call.arguments).Nodup
  unseen : ∀ call ∈ plan.calls ++ plan.approvalRequests,
    callFingerprint codec call.qualifiedName call.arguments ∉ before

theorem Considered.turn {before seen : List String} {done : List Json} {plan : Plan} {proposed : Json}
    {next : List String × Plan} (h : Considered codec before done seen plan)
    (ht : Turn codec seen plan proposed next) : Considered codec before (done ++ [proposed]) next.1 next.2 := by
  obtain ⟨verdicts, hforall, hplan⟩ := h.classified
  have hclassified (verdict : ProposalVerdict) (hv : About codec proposed verdict) :
      List.Forall₂ (About codec) (done ++ [proposed]) (verdicts ++ [verdict]) :=
    List.rel_append hforall (.cons hv .nil)
  -- A call that is added has a new fingerprint, wherever it is put.
  have hadded {call : Call} {calls approvals : List Call}
      (hperm : (calls ++ approvals).Perm (call :: (plan.calls ++ plan.approvalRequests)))
      (hfresh : callFingerprint codec call.qualifiedName call.arguments ∉ seen) :
      (∀ c ∈ calls ++ approvals, callFingerprint codec c.qualifiedName c.arguments ∈
          callFingerprint codec call.qualifiedName call.arguments :: seen) ∧
        ((calls ++ approvals).map fun c => callFingerprint codec c.qualifiedName c.arguments).Nodup ∧
        ∀ c ∈ calls ++ approvals, callFingerprint codec c.qualifiedName c.arguments ∉ before := by
    refine ⟨fun c hc => ?_, ?_, fun c hc => ?_⟩
    · rcases List.mem_cons.mp (hperm.mem_iff.mp hc) with rfl | hc
      · exact List.mem_cons_self
      · exact List.mem_cons_of_mem _ (h.seen.2 c hc)
    · rw [(hperm.map _).nodup_iff, List.map_cons, List.nodup_cons]
      refine ⟨fun hmem => ?_, h.distinct⟩
      obtain ⟨c, hc, heq⟩ := List.mem_map.mp hmem
      exact hfresh (heq ▸ h.seen.2 c hc)
    · rcases List.mem_cons.mp (hperm.mem_iff.mp hc) with rfl | hc
      · exact fun hbefore => hfresh (h.seen.1 hbefore)
      · exact h.unseen c hc
  cases ht with
  | @reject seen' rejection hseen htool =>
    refine ⟨⟨_, hclassified (.rejected rejection) htool, ?_⟩,
      ⟨List.Subset.trans h.seen.1 hseen, fun c hc => hseen (h.seen.2 c hc)⟩, h.distinct, h.unseen⟩
    rw [hplan]
    simp [Plan.ofVerdicts, ProposalVerdict.call?, ProposalVerdict.approval?, ProposalVerdict.rejection?]
  | @accept call hproposal hfresh =>
    have hperm : (plan.calls ++ [call] ++ plan.approvalRequests).Perm
        (call :: (plan.calls ++ plan.approvalRequests)) := by
      rw [List.append_assoc]
      exact List.perm_middle
    obtain ⟨hseen, hdistinct, hunseen⟩ := hadded hperm hfresh
    refine ⟨⟨_, hclassified (.accepted call) hproposal, ?_⟩,
      ⟨fun f hf => List.mem_cons_of_mem _ (h.seen.1 hf), hseen⟩, hdistinct, hunseen⟩
    rw [hplan]
    simp [Plan.ofVerdicts, ProposalVerdict.call?, ProposalVerdict.approval?, ProposalVerdict.rejection?]
  | @approve call hproposal hfresh =>
    have hperm : (plan.calls ++ (plan.approvalRequests ++ [call])).Perm
        (call :: (plan.calls ++ plan.approvalRequests)) := by
      rw [← List.append_assoc]
      exact List.perm_append_singleton call _
    obtain ⟨hseen, hdistinct, hunseen⟩ := hadded hperm hfresh
    refine ⟨⟨_, hclassified (.needsApproval call) hproposal, ?_⟩,
      ⟨fun f hf => List.mem_cons_of_mem _ (h.seen.1 hf), hseen⟩, hdistinct, hunseen⟩
    rw [hplan]
    simp [Plan.ofVerdicts, ProposalVerdict.call?, ProposalVerdict.approval?, ProposalVerdict.rejection?]

theorem considered (codec : Codec) (check : Json → Json → Option String) (catalog : List CatalogTool)
    (remainingCalls : Nat) (before : List String) (proposed : List Json) :
    Considered codec before proposed (proposed.foldl (consider codec check catalog remainingCalls) (before, .empty)).1
      (proposed.foldl (consider codec check catalog remainingCalls) (before, .empty)).2 := by
  induction proposed using List.reverseRecOn with
  | nil => exact ⟨⟨[], .nil, rfl⟩, ⟨List.Subset.refl _, nofun⟩, List.nodup_nil, nofun⟩
  | append_singleton done p ih =>
    rw [List.foldl_append]
    exact ih.turn (consider_turn _ _ p)

/-- A call that a plan accepts was not observed before. -/
theorem plan_unseen {remainingCalls : Nat} {proposed observations : List Json} {call : Call}
    (h : call ∈ (plan codec check catalog proposed remainingCalls observations).calls ++
      (plan codec check catalog proposed remainingCalls observations).approvalRequests) :
    callFingerprint codec call.qualifiedName call.arguments ∉ seenCalls codec observations := by
  unfold plan at h
  split at h
  · cases h
  · exact (considered codec check catalog remainingCalls (seenCalls codec observations)
      (proposed.take 20)).unseen call h

/-! ## Duplicates -/

section

variable (codec : Codec) (check : Json → Json → Option String) (catalog : List CatalogTool)

/-- The fingerprints seen and the plan when the loop has considered some proposals. -/
def turns (remainingCalls : Nat) (observations : List Json) (done : List Json) : List String × Plan :=
  done.foldl (consider codec check catalog remainingCalls) (seenCalls codec observations, .empty)

/-- The loop rejects the proposal that it comes to next as a `duplicate_call`. -/
def DuplicateAfter (remainingCalls : Nat) (observations : List Json) (done : List Json) (proposed : Json) : Prop :=
  ∃ tool detail,
    (consider codec check catalog remainingCalls (turns codec check catalog remainingCalls observations done)
      proposed).2.rejected =
    (turns codec check catalog remainingCalls observations done).2.rejected ++ [⟨tool, "duplicate_call", detail⟩]

end

/-- A proposal is rejected as a duplicate only for its fingerprint. -/
theorem consider_duplicate {remainingCalls : Nat} {seen : List String} {plan : Plan} {proposed : Json}
    {tool : String} {detail : Option String}
    (h : (consider codec check catalog remainingCalls (seen, plan) proposed).2.rejected =
      plan.rejected ++ [⟨tool, "duplicate_call", detail⟩]) :
    ∃ qualifiedName arguments, proposal proposed = some (qualifiedName, arguments) ∧
      callFingerprint codec qualifiedName arguments ∈ seen := by
  have hother {tool' reason : String} {detail' : Option String} (hreason : reason ≠ "duplicate_call")
      (heq : (plan.reject tool' reason detail').rejected = plan.rejected ++ [⟨tool, "duplicate_call", detail⟩]) :
      False := by
    have hlast := List.append_cancel_left heq
    exact hreason (Rejection.mk.inj (List.cons.inj hlast).1).2.1
  have hkept (heq : plan.rejected = plan.rejected ++ [⟨tool, "duplicate_call", detail⟩]) : False := by
    have hlength := congrArg List.length heq
    simp at hlength
  unfold consider at h
  dsimp only at h
  split at h
  · exact (hother (by decide) h).elim
  next qualifiedName arguments hproposal =>
    split at h
    · exact (hother (by decide) h).elim
    split at h
    · exact (hother (by decide) h).elim
    split at h
    · next hseen => exact ⟨qualifiedName, arguments, hproposal, hseen⟩
    split at h
    · exact (hother (by decide) h).elim
    split at h
    · exact (hother (by decide) h).elim
    split at h
    · exact (hkept h).elim
    · exact (hkept h).elim
    · exact (hother (by decide) h).elim

/-- What the loop has seen was observed before it, or proposed in it. -/
theorem turns_seen {remainingCalls : Nat} {observations done : List Json} {fingerprint : String}
    (h : fingerprint ∈ (turns codec check catalog remainingCalls observations done).1) :
    fingerprint ∈ seenCalls codec observations ∨ ∃ p ∈ done, ∃ qualifiedName arguments,
      proposal p = some (qualifiedName, arguments) ∧ callFingerprint codec qualifiedName arguments = fingerprint := by
  induction done using List.reverseRecOn with
  | nil => exact .inl h
  | append_singleton done p ih =>
    have hold (hm : fingerprint ∈ (turns codec check catalog remainingCalls observations done).1) :
        fingerprint ∈ seenCalls codec observations ∨ ∃ p' ∈ done ++ [p], ∃ qualifiedName arguments,
          proposal p' = some (qualifiedName, arguments) ∧
            callFingerprint codec qualifiedName arguments = fingerprint := by
      rcases ih hm with hm | ⟨q, hq, hprint⟩
      · exact .inl hm
      · exact .inr ⟨q, List.mem_append_left _ hq, hprint⟩
    unfold turns at h
    rw [List.foldl_append] at h
    change fingerprint ∈ (consider codec check catalog remainingCalls
      (turns codec check catalog remainingCalls observations done) p).1 at h
    generalize turns codec check catalog remainingCalls observations done = acc at h hold
    obtain ⟨seen, plan⟩ := acc
    unfold consider at h
    dsimp only at h
    split at h
    · exact hold h
    next qualifiedName arguments hproposal =>
      split at h
      · exact hold h
      split at h
      · exact hold h
      split at h
      · exact hold h
      split at h
      · exact hold h
      split at h
      · exact hold h
      · rcases List.mem_cons.mp h with rfl | h
        · exact .inr ⟨p, List.mem_append_right _ (List.mem_singleton_self p), qualifiedName, arguments, hproposal,
            rfl⟩
        · exact hold h

/-- A duplicate was observed before the plan or proposed earlier in it. -/
theorem DuplicateAfter.seen {remainingCalls : Nat} {observations done : List Json} {proposed : Json}
    (h : DuplicateAfter codec check catalog remainingCalls observations done proposed) :
    ∃ qualifiedName arguments, proposal proposed = some (qualifiedName, arguments) ∧
      (callFingerprint codec qualifiedName arguments ∈ seenCalls codec observations ∨
        ∃ p ∈ done, ∃ qualifiedName' arguments', proposal p = some (qualifiedName', arguments') ∧
          callFingerprint codec qualifiedName' arguments' = callFingerprint codec qualifiedName arguments) := by
  obtain ⟨tool, detail, h⟩ := h
  obtain ⟨qualifiedName, arguments, hproposal, hseen⟩ := consider_duplicate h
  exact ⟨qualifiedName, arguments, hproposal, turns_seen hseen⟩

/-- A call that passed the loop's checks is allowed, where nothing is hidden from them. -/
theorem Listed.allowed {policy : Policy} {proposed : List Json} {call : Call}
    (hpolicy : policy = .auto ∨ policy = .approvalRequired) (hnone : NoneHidden check catalog)
    (h : Listed check catalog policy proposed call) : Allowed check catalog policy call := by
  obtain ⟨tool, htool, hpol, hserver, hname, hvalid⟩ := h.listed
  obtain ⟨p, -, hproposal⟩ := h.proposed
  obtain ⟨hvisible, hcheck⟩ := validate_none.mp hvalid
  obtain ⟨ms, hms⟩ : ∃ ms, call.arguments = .obj ms := by
    unfold proposal at hproposal
    split at hproposal
    · next ms _ _ => exact ⟨ms, (Prod.mk.inj (Option.some.inj hproposal)).2.symm⟩
    · exact absurd hproposal.symm (Option.some_ne_none _)
  refine ⟨tool, htool, hpol, hserver, hname, hcheck, ?_⟩
  by_contra hexternal
  have hfound := hnone tool ((byName_mem htool).2 ▸ htool) (hpol ▸ hpolicy) ⟨ms, hms ▸ hcheck⟩
    (Bool.not_eq_false _ ▸ hexternal)
  rw [hvisible] at hfound
  exact absurd hfound (by decide)

/-- A proposal of a tool that could be called, with arguments that are checked, is not rejected. -/
theorem validatePlan_single (codec : Codec) {tool : CatalogTool} {ms : List (String × Json)}
    (htool : byName catalog tool.qualifiedName = some tool)
    (hpolicy : tool.policy = .auto ∨ tool.policy = .approvalRequired)
    (hvalid : validateToolArguments check tool.inputSchema (.obj ms) = none) :
    ∃ call, call.qualifiedName = tool.qualifiedName ∧
      call ∈
        (validatePlan codec check catalog
          [.obj [("tool", .str tool.qualifiedName), ("arguments", .obj ms)]] 1 []).calls ++
        (validatePlan codec check catalog
          [.obj [("tool", .str tool.qualifiedName), ("arguments", .obj ms)]] 1 []).approvalRequests := by
  have hproposal : proposal (.obj [("tool", .str tool.qualifiedName), ("arguments", .obj ms)]) =
      some (tool.qualifiedName, .obj ms) := rfl
  refine ⟨⟨tool.qualifiedName, tool.server, tool.name, .obj ms⟩, rfl, ?_⟩
  rcases hpolicy with hpol | hpol
  · simp [validatePlan, consider, hproposal, htool, hpol, hvalid, seenCalls, Plan.empty]
  · simp [validatePlan, consider, hproposal, htool, hpol, hvalid, seenCalls, Plan.empty]

/-- Plans are sorted, whatever is proposed, where nothing is hidden from `find_external_ref`. -/
theorem plan_sorted (codec : Codec) (check : Json → Json → Option String) (catalog : List CatalogTool) :
    (∀ proposed remainingCalls observations, Sorted codec check catalog proposed remainingCalls observations
      (validatePlan codec check catalog proposed remainingCalls observations)) ↔ NoneHidden check catalog := by
  refine ⟨fun h tool htool hpolicy hargs hexternal => ?_, fun h proposed remainingCalls observations => ?_⟩
  · obtain ⟨ms, hcheck⟩ := hargs
    by_contra hhidden
    have hvalid : validateToolArguments check tool.inputSchema (.obj ms) = none :=
      validate_none.mpr ⟨Bool.eq_false_iff.mpr hhidden, hcheck⟩
    obtain ⟨call, hname, hcall⟩ := validatePlan_single codec htool hpolicy hvalid
    have hsorted := h [.obj [("tool", .str tool.qualifiedName), ("arguments", .obj ms)]] 1 []
    have hallowed : ∃ policy, Allowed check catalog policy call := by
      rcases List.mem_append.mp hcall with hcall | hcall
      · exact ⟨_, hsorted.calls call hcall⟩
      · exact ⟨_, hsorted.approvals call hcall⟩
    obtain ⟨_, found, hfound, _, _, _, _, hnone⟩ := hallowed
    rw [hname, htool] at hfound
    obtain rfl := Option.some.inj hfound
    rw [hexternal] at hnone
    exact absurd hnone (by decide)
  · have hloop := considered codec check catalog remainingCalls (seenCalls codec observations) (proposed.take 20)
    have hplan : PlanOk check catalog remainingCalls proposed
      (validatePlan codec check catalog proposed remainingCalls observations) := validatePlan_ok observations
    exact ⟨hloop.classified, hplan.budget, hloop.distinct, hloop.unseen,
      fun call hcall => (hplan.calls call hcall).allowed (.inl rfl) h,
      fun call hcall => (hplan.approvals call hcall).allowed (.inr rfl) h⟩

/-- A schema with an external `$ref` in an object whose own `$ref` is empty. -/
def hidingSchema : Json :=
  .obj [("type", .str "object"), ("properties", .obj [("a", .obj [("$ref", .str ""),
    ("properties", .obj [("b", .obj [("$ref", .str "https://schemas.example/b.json")])])])])]

def hidingTool : CatalogTool := ⟨"docs.read", "docs", "read", hidingSchema, .auto⟩

/-- The empty object fits such a schema, so a call of the tool is accepted. -/
theorem hidden_ref_accepted :
    ∃ call ∈ (validatePlan ⟨fun _ => "", fun _ => "", id, fun _ => ""⟩ (fun _ _ => none) [hidingTool]
        [.obj [("tool", .str "docs.read"), ("arguments", .obj [])]] 1 []).calls,
      hasExternalRef true hidingSchema = true ∧
      ¬ Sorted ⟨fun _ => "", fun _ => "", id, fun _ => ""⟩ (fun _ _ => none) [hidingTool]
        [.obj [("tool", .str "docs.read"), ("arguments", .obj [])]] 1 []
        (validatePlan ⟨fun _ => "", fun _ => "", id, fun _ => ""⟩ (fun _ _ => none) [hidingTool]
          [.obj [("tool", .str "docs.read"), ("arguments", .obj [])]] 1 []) := by
  have hfind : byName [hidingTool] "docs.read" = some hidingTool := rfl
  have hexternal : hasExternalRef true hidingSchema = true := by decide +kernel
  have hcall : (⟨"docs.read", "docs", "read", .obj []⟩ : Call) ∈
      (validatePlan ⟨fun _ => "", fun _ => "", id, fun _ => ""⟩ (fun _ _ => none) [hidingTool]
        [.obj [("tool", .str "docs.read"), ("arguments", .obj [])]] 1 []).calls := by
    decide +kernel
  refine ⟨_, hcall, hexternal, fun hsorted => ?_⟩
  obtain ⟨tool, htool, _, _, _, _, hnone⟩ := hsorted.calls _ hcall
  obtain rfl := Option.some.inj (hfind.symm.trans htool)
  exact absurd (hexternal.symm.trans hnone) (by decide)

end CodeMate.Mcp
