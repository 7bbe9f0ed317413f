import CodeMate.Agent.RunRow
import CodeMate.Framework.Session

/-!
# Repairs of failed workflow runs

The row of a repair and what each service call makes of it: the result of its
agent run (`syncAgentResult`), the decision of a reviewer (`decided`), and the
end of the draft pull request (`draftCreated`, `draftFailed`). A session writes
the columns that it changed over the committed row (`GitHubAppRepair.overlay`),
whatever this row is by then.
-/

namespace CodeMate.GitHub

open Framework Agent

inductive RepairStatus
  | fixing
  | waitingApproval
  | fixFailed
  | rejected
  | creatingDraft
  | draftPrCreated
  | failed
deriving DecidableEq

structure GitHubAppRepair where
  id : String
  repoId : String
  runId : String
  installationId : String
  workflowRunId : String
  workflowUrl : Option String
  headSha : String
  baseBranch : String
  status : RepairStatus
  approvalNote : Option String
  approvedBy : Option String
  approvedAt : Option Nat
  branchName : Option String
  pullRequestNumber : Option Int
  pullRequestUrl : Option String
  errorMessage : Option String
deriving DecidableEq

/-- A flush of the object `n`, which was read as `c`, over the committed row `d`. -/
def GitHubAppRepair.overlay (c n d : GitHubAppRepair) : GitHubAppRepair :=
  { d with
    status := column c.status n.status d.status
    approvalNote := column c.approvalNote n.approvalNote d.approvalNote
    approvedBy := column c.approvedBy n.approvedBy d.approvedBy
    approvedAt := column c.approvedAt n.approvedAt d.approvedAt
    branchName := column c.branchName n.branchName d.branchName
    pullRequestNumber := column c.pullRequestNumber n.pullRequestNumber d.pullRequestNumber
    pullRequestUrl := column c.pullRequestUrl n.pullRequestUrl d.pullRequestUrl
    errorMessage := column c.errorMessage n.errorMessage d.errorMessage }

/-- `a or b` of texts. -/
def orText (a b : Option String) : Option String :=
  match a with
  | some text => if text = "" then b else some text
  | none => b

def truthyText (text : Option String) : Bool := text.any (· ≠ "")

/-! ## The result of the run -/

/-- `sync_agent_result`; nothing where it changes nothing. -/
def syncAgentResult (repair : GitHubAppRepair) (run : Option AgentRun) : Option GitHubAppRepair :=
  if repair.status ≠ .fixing then none
  else
    match run with
    | none => some { repair with status := .failed, errorMessage := some "Associated Agent Run was not found" }
    | some run =>
      if run.status = .verifiedSuccess ∧ truthyText run.finalDiff then
        some { repair with status := .waitingApproval, errorMessage := none }
      else if run.status.terminal then
        some
          { repair with
            status := .fixFailed
            errorMessage := orText (orText run.failureReason run.finalSummary) (some "Agent could not verify a fix") }
      else none

/-! ## Decisions -/

structure Decision where
  approver : String
  approved : Bool
  note : Option String
deriving DecidableEq

/-- What `decide_draft_pr` commits of a decision. -/
def decided (repair : GitHubAppRepair) (d : Decision) (now : Nat) : GitHubAppRepair :=
  { repair with
    approvedBy := some d.approver
    approvedAt := some now
    approvalNote := d.note
    status := if d.approved then .creatingDraft else .rejected }

def draftCreated (repair : GitHubAppRepair) (branchName : String) (number : Int) (url : Option String) :
    GitHubAppRepair :=
  { repair with
    status := .draftPrCreated
    branchName := some branchName
    pullRequestNumber := some number
    pullRequestUrl := orText url none
    errorMessage := none }

def draftFailed (repair : GitHubAppRepair) (message : String) : GitHubAppRepair :=
  { repair with status := .failed, errorMessage := some (String.ofList (message.toList.take 2000)) }

def markEnqueueFailed (repair : GitHubAppRepair) (reason : String) : GitHubAppRepair :=
  { repair with status := .failed, errorMessage := some reason }

/-! ## The draft pull request -/

/-- `urlparse`, of which the host and the path are read, and the setting of the branch prefix. -/
structure Library where
  urlparse : String → Option String × String
  githubAppBranchPrefix : String

structure Repository where
  repoUrl : String
  localPath : Option String
deriving DecidableEq

def strip (blank : Char → Bool) (text : List Char) : List Char :=
  ((text.dropWhile blank).reverse.dropWhile blank).reverse

def removeSuffix (suffix text : List Char) : List Char :=
  if suffix.isSuffixOf text then text.take (text.length - suffix.length) else text

section

variable (lib : Library)

/-- The host and the path of a URL, also of one such as `git@github.com:owner/name.git`. -/
def hostAndPath (repoUrl : String) : Option String × List Char :=
  match repoUrl.toList with
  | 'g' :: 'i' :: 't' :: '@' :: rest =>
    (some (String.ofList (rest.takeWhile (· ≠ ':'))), (rest.dropWhile (· ≠ ':')).drop 1)
  | _ => ((lib.urlparse repoUrl).1, (lib.urlparse repoUrl).2.toList)

/-- `_github_repository_name`. -/
def githubRepositoryName (repoUrl : String) : Except String (String × String) :=
  let (host, path) := hostAndPath lib repoUrl
  if (host.getD "").toLower ≠ "github.com" then .error "GitHub App repairs require a github.com repository"
  else
    match ((removeSuffix ".git".toList (strip (· = '/') path)).splitOn '/').filter (· ≠ []) with
    | [owner, name] => .ok (String.ofList owner, String.ofList name)
    | _ => .error "Repository URL is not a GitHub owner/repository URL"

/-- `_branch_name`. -/
def branchName (repairId : String) : String :=
  let configured := strip (· = '/') (strip Char.isWhitespace lib.githubAppBranchPrefix.toList)
  (if configured = [] then "codemate/ci-fix" else String.ofList configured) ++ "/" ++
    String.ofList (repairId.toList.take 12)

/-- `_draft_pr_body`. -/
def draftPrBody (repair : GitHubAppRepair) : String :=
  let source := (orText repair.workflowUrl none).getD ("workflow run " ++ repair.workflowRunId)
  "Automated repair generated from a failed GitHub Actions workflow.\n\n" ++
    "Source CI: " ++ source ++ "\n" ++
    "CodeMate repair run: " ++ repair.runId ++ "\n" ++
    "Human approval: " ++ (orText repair.approvedBy none).getD "recorded" ++ "\n\n" ++
    "Failure logs and tool payloads are intentionally not copied into this Draft PR."

/-- The arguments of `create_draft_pull_request`. -/
structure PullRequest where
  installationId : String
  owner : String
  repository : String
  branchName : String
  baseBranch : String
  title : String
  body : String
deriving DecidableEq

/-- What is pushed and where it is taken from, with the request that follows. -/
structure Draft where
  localPath : Option String
  patch : String
  request : PullRequest
deriving DecidableEq

/-- What is read before the push, or the error that ends the decision. -/
def prepareDraft (repair : GitHubAppRepair) (repository : Option Repository) (run : Option AgentRun) :
    Except String Draft :=
  match repository, run.bind fun run => run.finalDiff.filter (· ≠ "") with
  | some repository, some patch =>
    match githubRepositoryName lib repository.repoUrl with
    | .error message => .error message
    | .ok (owner, name) =>
      .ok
        { localPath := repository.localPath
          patch
          request :=
            { installationId := repair.installationId
              owner
              repository := name
              branchName := branchName lib repair.id
              baseBranch := repair.baseBranch
              title := "fix(ci): repair failed workflow run " ++ repair.workflowRunId
              body := draftPrBody repair } }
  | _, _ => .error "Verified repair patch is unavailable"

/-- The checks of `_push_verified_patch` on the checkout, whose head is `none`
where it is not a directory; `git` is the error of the commands after them. -/
def pushVerifiedPatch (head : String → Option String) (localPath : Option String) (headSha : String)
    (git : Option String) : Option String :=
  match localPath.bind head with
  | none => some "Repository workspace is unavailable"
  | some localHead =>
    if localHead ≠ headSha then some "Local repository commit does not match the failed CI commit" else git

end

/-! ## What a call leaves -/

section

variable {lib : Library} {repair n : GitHubAppRepair} {run : Option AgentRun}

/-- A draft is the diff of its run. -/
theorem prepareDraft_ok {repository : Option Repository} {draft : Draft}
    (h : prepareDraft lib repair repository run = .ok draft) :
    ∃ found, run = some found ∧ found.finalDiff = some draft.patch := by
  unfold prepareDraft at h
  split at h
  · next patch _ hpatch =>
    split at h
    · exact absurd h nofun
    · obtain ⟨found, hfound, hdiff⟩ := Option.bind_eq_some_iff.mp hpatch
      rw [← Except.ok.inj h]
      exact ⟨found, hfound, (Option.filter_eq_some_iff.mp hdiff).1⟩
  · exact absurd h nofun

/-- A push without an error is one from the checkout of the commit. -/
theorem pushVerifiedPatch_none {head : String → Option String} {localPath : Option String} {headSha : String}
    {git : Option String} (h : pushVerifiedPatch head localPath headSha git = none) :
    localPath.bind head = some headSha ∧ git = none := by
  unfold pushVerifiedPatch at h
  split at h
  · exact absurd h nofun
  · next localHead hhead =>
    split at h
    · exact absurd h nofun
    · next hsame =>
      rw [not_not] at hsame
      exact ⟨hsame ▸ hhead, h⟩

/-- A result is written for a repair that is being fixed, and carries no decision. -/
theorem syncAgentResult_some (h : syncAgentResult repair run = some n) :
    repair.status = .fixing ∧ n.approvedBy = repair.approvedBy ∧
      (n.status = .waitingApproval ∨ n.status = .fixFailed ∨ n.status = .failed) := by
  unfold syncAgentResult at h
  split at h
  · exact absurd h nofun
  · next hfixing =>
    rw [not_not] at hfixing
    refine ⟨hfixing, ?_⟩
    split at h
    · rw [← Option.some.inj h]
      exact ⟨rfl, .inr (.inr rfl)⟩
    · split at h
      · rw [← Option.some.inj h]
        exact ⟨rfl, .inl rfl⟩
      · split at h
        · rw [← Option.some.inj h]
          exact ⟨rfl, .inr (.inl rfl)⟩
        · exact absurd h nofun

/-- The draft waits for approval only after a verified success with a diff. -/
theorem syncAgentResult_waiting (h : syncAgentResult repair run = some n) (hn : n.status = .waitingApproval) :
    ∃ verified, run = some verified ∧ verified.status = .verifiedSuccess ∧ truthyText verified.finalDiff = true := by
  unfold syncAgentResult at h
  split at h
  · exact absurd h nofun
  · split at h
    · rw [← Option.some.inj h] at hn
      exact absurd hn nofun
    · next verified =>
      split at h
      · next hverified => exact ⟨verified, rfl, hverified⟩
      · split at h
        · rw [← Option.some.inj h] at hn
          exact absurd hn nofun
        · exact absurd h nofun

end

end CodeMate.GitHub
