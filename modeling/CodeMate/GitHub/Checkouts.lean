import CodeMate.GitHub.Decisions

/-!
# The commit of a repair

A repair names the commit of the failed workflow run, the repository has a
checkout that is replaced whenever it is indexed, and every invocation of the
run of a repair works on a copy of the checkout of its moment (`Site`,
`FixRun.workspaces`). Only the push compares the commit with a checkout, and
with that of its own moment. Where the checkout is at the commit of the repair
whenever its run is invoked (`AtHead`), a patch that is pushed was made and
verified on this commit (`pushed_on_head`). A checkout that moves to the commit
after the run is pushed from all the same (`pushed_elsewhere`).
-/

namespace CodeMate.GitHub

open Framework Agent

/-! ## What a session has of a repair -/

/-- The object that a session holds. -/
def Phase.held : Phase → Option GitHubAppRepair
  | .loaded held _ | .checked held _ | .pushing held _ | .creating held _ | .ending held _ | .selected held
  | .starting held => some held
  | .idle | .synced _ | .approved => none

def Phase.isPushing : Phase → Bool
  | .pushing .. => true
  | .idle | .loaded .. | .synced _ | .checked .. | .approved | .creating .. | .ending .. | .selected _
  | .starting _ => false

/-- The columns of a repair that are never written again. -/
structure SameOrigin (a b : GitHubAppRepair) : Prop where
  id : a.id = b.id
  repoId : a.repoId = b.repoId
  runId : a.runId = b.runId
  workflowRunId : a.workflowRunId = b.workflowRunId
  headSha : a.headSha = b.headSha

theorem SameOrigin.refl (a : GitHubAppRepair) : SameOrigin a a := ⟨rfl, rfl, rfl, rfl, rfl⟩

theorem SameOrigin.trans {a b c : GitHubAppRepair} (hab : SameOrigin a b) (hbc : SameOrigin b c) :
    SameOrigin a c :=
  ⟨hab.id.trans hbc.id, hab.repoId.trans hbc.repoId, hab.runId.trans hbc.runId,
    hab.workflowRunId.trans hbc.workflowRunId, hab.headSha.trans hbc.headSha⟩

theorem SameOrigin.symm {a b : GitHubAppRepair} (h : SameOrigin a b) : SameOrigin b a :=
  ⟨h.id.symm, h.repoId.symm, h.runId.symm, h.workflowRunId.symm, h.headSha.symm⟩

def Event.session {ω : Type*} : Event ω → ω
  | .load k _ | .sync k _ | .check k | .decide k _ | .start k _ _ | .push k _ | .create k _ _ | .finish k | .select k
  | .syncSelected k _ | .begin k | .enqueueFailed k _ | .leave k => k

section

variable {ω : Type*} {lib : Library} {w w' : World ω}

theorem overlay_origin (held n row : GitHubAppRepair) : SameOrigin (held.overlay n row) row :=
  ⟨rfl, rfl, rfl, rfl, rfl⟩

theorem writeResult_eq (w : World ω) (held : GitHubAppRepair) (run : Option AgentRun) :
    ∃ row, w.writeResult held run = { w with row } ∧ SameOrigin row w.row := by
  rw [World.writeResult]
  split
  · exact ⟨w.row, rfl, .refl _⟩
  · exact ⟨_, rfl, overlay_origin ..⟩

variable [DecidableEq ω]

/-- What a step leaves of the row, and where it brings its session: with the
object it had, with the row or with none, and to a push only from its start. -/
structure Moved (lib : Library) (w : World ω) (e : Event ω) (w' : World ω) : Prop where
  row : SameOrigin w'.row w.row
  others : ∀ j, j ≠ e.session → w'.phase j = w.phase j
  held : ∀ h, (w'.phase e.session).held = some h → (w.phase e.session).held = some h ∨ h = w.row
  pushing : ∀ h draft, w'.phase e.session = .pushing h draft → ∃ repository run,
    e = .start e.session repository run ∧ prepareDraft lib w.row repository run = .ok draft

theorem Moved.goto {e : Event ω} {row : GitHubAppRepair} {log : List Entry} {phase : Phase}
    (hrow : SameOrigin row w.row)
    (hheld : phase.held = none ∨ phase.held = some w.row ∨ phase.held = (w.phase e.session).held)
    (hpushing : phase.isPushing = false) :
    Moved lib w e (World.goto { w with row, log } e.session phase) where
  row := hrow
  others j hj := goto_ne hj phase
  held h hh := by
    rw [goto_self] at hh
    rcases hheld with hnone | hrow | hsame
    · exact absurd (hnone.symm.trans hh) (Option.some_ne_none h).symm
    · exact .inr (Option.some.inj (hrow.symm.trans hh)).symm
    · exact .inl (hsame.symm.trans hh)
  pushing h draft hp := by
    rw [goto_self] at hp
    rw [hp] at hpushing
    exact absurd (show true = false from hpushing) (by decide)

theorem step_moved {e : Event ω} (hs : step lib w e = some w') : Moved lib w e w' := by
  cases e with
  | load k d =>
    rw [step] at hs
    split at hs
    · obtain rfl := Option.some.inj hs
      exact Moved.goto (.refl _) (.inr (.inl rfl)) rfl
    · exact absurd hs.symm (Option.some_ne_none _)
  | sync k run =>
    rw [step] at hs
    split at hs
    · next held d hphase =>
      obtain ⟨row, hrow, horigin⟩ := writeResult_eq w held run
      rw [hrow] at hs
      obtain rfl := Option.some.inj hs
      exact Moved.goto horigin (.inl rfl) rfl
    · exact absurd hs.symm (Option.some_ne_none _)
  | check k =>
    rw [step] at hs
    split at hs
    · split at hs
      · obtain rfl := Option.some.inj hs
        exact Moved.goto (.refl _) (.inr (.inl rfl)) rfl
      · obtain rfl := Option.some.inj hs
        exact Moved.goto (.refl _) (.inl rfl) rfl
    · exact absurd hs.symm (Option.some_ne_none _)
  | decide k now =>
    rw [step] at hs
    split at hs
    · next held d hphase =>
      dsimp only at hs
      split at hs
      · obtain rfl := Option.some.inj hs
        exact Moved.goto (overlay_origin ..) (.inl rfl) rfl
      · obtain rfl := Option.some.inj hs
        exact Moved.goto (overlay_origin ..) (.inl rfl) rfl
    · exact absurd hs.symm (Option.some_ne_none _)
  | start k repository run =>
    rw [step] at hs
    split at hs
    · split at hs
      · obtain rfl := Option.some.inj hs
        exact Moved.goto (.refl _) (.inr (.inl rfl)) rfl
      · next draft hdraft =>
        obtain rfl := Option.some.inj hs
        refine ⟨.refl _, fun j hj => goto_ne hj _, fun h hh => ?_, fun h other hp => ?_⟩
        · rw [show Event.session (.start k repository run) = k from rfl, goto_self] at hh
          exact .inr (Option.some.inj hh).symm
        · rw [show Event.session (.start k repository run) = k from rfl, goto_self] at hp
          obtain ⟨-, rfl⟩ := Phase.pushing.inj hp
          exact ⟨repository, run, rfl, hdraft⟩
    · exact absurd hs.symm (Option.some_ne_none _)
  | push k error =>
    rw [step] at hs
    split at hs
    · next held draft hphase =>
      have hheld : (w.phase k).held = some held := by rw [hphase]; rfl
      split at hs
      · obtain rfl := Option.some.inj hs
        exact Moved.goto (.refl _) (.inr (.inr hheld.symm)) rfl
      · obtain rfl := Option.some.inj hs
        exact Moved.goto (.refl _) (.inr (.inr hheld.symm)) rfl
    · exact absurd hs.symm (Option.some_ne_none _)
  | create k made reply =>
    rw [step] at hs
    split at hs
    · next held request hphase =>
      have hheld : (w.phase k).held = some held := by rw [hphase]; rfl
      have hend : ∀ n : GitHubAppRepair,
          Moved lib w (.create k made reply)
            ((if made then w.note (.created request) else w).goto k (.ending held n)) := by
        intro n
        split
        · exact Moved.goto (.refl _) (.inr (.inr hheld.symm)) rfl
        · exact Moved.goto (.refl _) (.inr (.inr hheld.symm)) rfl
      dsimp only at hs
      split at hs
      · obtain rfl := Option.some.inj hs
        exact hend _
      · next number url =>
        split at hs
        · next hmade =>
          obtain rfl := Option.some.inj hs
          have hdone := hend (draftCreated held request.branchName number url)
          rwa [if_pos hmade] at hdone
        · exact absurd hs.symm (Option.some_ne_none _)
    · exact absurd hs.symm (Option.some_ne_none _)
  | finish k =>
    rw [step] at hs
    split at hs
    · obtain rfl := Option.some.inj hs
      exact Moved.goto (overlay_origin ..) (.inl rfl) rfl
    · exact absurd hs.symm (Option.some_ne_none _)
  | select k =>
    rw [step] at hs
    split at hs
    · obtain rfl := Option.some.inj hs
      exact Moved.goto (.refl _) (.inr (.inl rfl)) rfl
    · exact absurd hs.symm (Option.some_ne_none _)
  | syncSelected k run =>
    rw [step] at hs
    split at hs
    · next held hphase =>
      obtain ⟨row, hrow, horigin⟩ := writeResult_eq w held run
      rw [hrow] at hs
      obtain rfl := Option.some.inj hs
      exact Moved.goto horigin (.inl rfl) rfl
    · exact absurd hs.symm (Option.some_ne_none _)
  | begin k =>
    rw [step] at hs
    split at hs
    · split at hs
      · obtain rfl := Option.some.inj hs
        exact Moved.goto (.refl _) (.inr (.inl rfl)) rfl
      · exact absurd hs.symm (Option.some_ne_none _)
    · exact absurd hs.symm (Option.some_ne_none _)
  | enqueueFailed k reason =>
    rw [step] at hs
    split at hs
    · obtain rfl := Option.some.inj hs
      exact Moved.goto (overlay_origin ..) (.inl rfl) rfl
    · exact absurd hs.symm (Option.some_ne_none _)
  | leave k =>
    obtain rfl := Option.some.inj hs
    exact Moved.goto (.refl _) (.inl rfl) rfl

end

/-! ## The site -/

/-- A run with the commits that its invocations had copies of, the last one first. -/
structure FixRun where
  row : AgentRun
  workspaces : List String

structure RepositoryRow extends Repository where
  status : String

/-- What is read of a failed workflow run. -/
structure CiFailure where
  workflowRunId : String
  workflowUrl : Option String
  headSha : String
  baseBranch : String

/-- A patch that was committed on a commit and pushed. -/
structure Push where
  repairId : String
  runId : String
  headSha : String
  patch : String
deriving DecidableEq

structure Site (ω : Type*) where
  repositories : String → Option RepositoryRow
  /-- The commit that the directory at a path is a checkout of. -/
  head : String → Option String
  runs : String → Option FixRun
  repairs : List (World ω)
  pushes : List Push

/-- `checkout` is the replacement of a directory when a repository is indexed or
restored, `setRepository` any write of its row. A session of a repair reads the
run and the repository as they are; what `git` says after the check of the head
comes with the push. -/
inductive SiteEvent (ω : Type*)
  | startFailedCiRepair (repoId installationId workflowRunId : String) (reply : Except String CiFailure)
      (runId repairId : String) (now : Nat)
  | checkout (path : String) (commit : Option String)
  | setRepository (repoId : String) (row : RepositoryRow)
  | invoke (runId : String) (now : Nat)
  | complete (runId : String) (state : FixAgentState) (now : Nat)
  | infraError (runId reason : String) (now : Nat)
  | session (repairId : String) (e : Event ω)
  | push (repairId : String) (k : ω) (git : Option String)

section

variable {ω : Type*} [DecidableEq ω] (lib : Library)

namespace Site

variable (s : Site ω)

/-- The commit of the checkout of a repository. -/
def commitOf (repoId : String) : Option String :=
  (s.repositories repoId).bind fun repository => repository.localPath.bind s.head

def repair (repairId : String) : Option (World ω) := s.repairs.find? fun w => w.row.id = repairId

def setRun (runId : String) (run : FixRun) : Site ω := { s with runs := Function.update s.runs runId (some run) }

/-- The repair after a step of one of its sessions. -/
def setRepair (w : World ω) : Site ω :=
  { s with repairs := s.repairs.map fun old => if old.row.id = w.row.id then w else old }

end Site

/-- What `start_failed_ci_repair` starts a repair for, if it does. -/
def startable (repository : Option RepositoryRow) (reply : Except String CiFailure) : Option CiFailure :=
  match repository, reply with
  | some repository, .ok ci =>
    if repository.status ≠ "indexed" ∨ ¬ truthyText repository.localPath then none
    else
      match githubRepositoryName lib repository.repoUrl with
      | .error _ => none
      | .ok _ => if ci.headSha = "" ∨ ci.baseBranch = "" then none else some ci
  | _, _ => none

def newRun (runId repoId : String) (now : Nat) : FixRun where
  row := ⟨runId, repoId, .pending, none, none, none, 0, none, none, now⟩
  workspaces := []

def newRepair (repairId runId repoId installationId : String) (ci : CiFailure) : GitHubAppRepair where
  id := repairId
  repoId := repoId
  runId := runId
  installationId := installationId
  workflowRunId := ci.workflowRunId
  workflowUrl := ci.workflowUrl
  headSha := ci.headSha
  baseBranch := ci.baseBranch
  status := .fixing
  approvalNote := none
  approvedBy := none
  approvedAt := none
  branchName := none
  pullRequestNumber := none
  pullRequestUrl := none
  errorMessage := none

/-- The run and the repository are read as they are; a push is an event of its own. -/
def Site.Reads (s : Site ω) (w : World ω) : Event ω → Prop
  | .sync _ run | .syncSelected _ run => run = (s.runs w.row.runId).map (·.row)
  | .start _ repository run =>
    repository = (s.repositories w.row.repoId).map (·.toRepository) ∧ run = (s.runs w.row.runId).map (·.row)
  | .push .. => False
  | .load .. | .check _ | .decide .. | .create .. | .finish _ | .select _ | .begin _ | .enqueueFailed .. | .leave _ =>
    True

instance (s : Site ω) (w : World ω) : (e : Event ω) → Decidable (s.Reads w e)
  | .sync _ run => inferInstanceAs (Decidable (run = _))
  | .syncSelected _ run => inferInstanceAs (Decidable (run = _))
  | .start _ repository run => inferInstanceAs (Decidable (repository = _ ∧ run = _))
  | .push .. => isFalse id
  | .load .. | .check _ | .decide .. | .create .. | .finish _ | .select _ | .begin _ | .enqueueFailed .. | .leave _ =>
    isTrue trivial

def Site.step (s : Site ω) : SiteEvent ω → Option (Site ω)
  | .startFailedCiRepair repoId installationId workflowRunId reply runId repairId now =>
    if s.repairs.any fun w => w.row.repoId = repoId && w.row.workflowRunId = workflowRunId then some s
    else
      match startable lib (s.repositories repoId) reply with
      | none => some s
      | some ci =>
        -- Ids are new, and a workflow run of a repository has one repair.
        if (s.runs runId).isSome ∨ (s.repair repairId).isSome ∨
            s.repairs.any (fun w => w.row.repoId = repoId && w.row.workflowRunId = ci.workflowRunId) then none
        else
          let repair := newRepair repairId runId repoId installationId ci
          some
            { s.setRun runId (newRun runId repoId now) with
              repairs := ⟨repair, fun _ => .idle, []⟩ :: s.repairs }
  | .checkout path commit => some { s with head := Function.update s.head path commit }
  | .setRepository repoId row => some { s with repositories := Function.update s.repositories repoId (some row) }
  | .invoke runId now =>
    match s.runs runId with
    | none => none
    | some run =>
      if run.row.status.terminal then none
      else
        match s.commitOf run.row.repoId with
        | none => none
        | some commit => some (s.setRun runId ⟨startRun run.row now, commit :: run.workspaces⟩)
  | .complete runId state now =>
    match s.runs runId with
    | none => none
    | some run =>
      if run.workspaces = [] then none
      else some (s.setRun runId { run with row := endInvocation run.row state now })
  | .infraError runId reason now =>
    match s.runs runId with
    | none => none
    | some run => some (s.setRun runId { run with row := finishInfraError run.row reason now })
  | .session repairId e =>
    match s.repair repairId with
    | none => none
    | some w => if s.Reads w e then (GitHub.step lib w e).map s.setRepair else none
  | .push repairId k git =>
    match s.repair repairId with
    | none => none
    | some w =>
      match w.phase k with
      | .pushing held draft =>
        let error := pushVerifiedPatch s.head draft.localPath held.headSha git
        let pushed := if error = none then [⟨held.id, held.runId, held.headSha, draft.patch⟩] else []
        (GitHub.step lib w (.push k error)).map fun w => { s.setRepair w with pushes := pushed ++ s.pushes }
      | _ => none

/-- A site without repairs. -/
structure Site.Opened (s : Site ω) : Prop where
  repairs : s.repairs = []
  pushes : s.pushes = []
  runs : ∀ runId run, s.runs runId = some run → run.row.finalDiff ≠ none → run.workspaces ≠ []

def site : System (Site ω) (SiteEvent ω) := .ofStep Site.Opened (Site.step lib)

/-- The run of a repair is invoked on a checkout of the commit of the repair. -/
def AtHead (s : Site ω) : SiteEvent ω → Prop
  | .invoke runId _ => ∀ w ∈ s.repairs, w.row.runId = runId →
      ∀ run ∈ s.runs runId, s.commitOf run.row.repoId = some w.row.headSha
  | .startFailedCiRepair .. | .checkout .. | .setRepository .. | .complete .. | .infraError .. | .session ..
  | .push .. => True

instance (s : Site ω) : (e : SiteEvent ω) → Decidable (AtHead s e)
  | .invoke runId _ => inferInstanceAs (Decidable (∀ w ∈ s.repairs, w.row.runId = runId →
      ∀ run ∈ s.runs runId, s.commitOf run.row.repoId = some w.row.headSha))
  | .startFailedCiRepair .. | .checkout .. | .setRepository .. | .complete .. | .infraError .. | .session ..
  | .push .. => isTrue trivial

end

/-! ## A repair and its run -/

section

variable {ω : Type*} {lib : Library} {s s' : Site ω} {w w' : World ω} {run : FixRun}

/-- A repair beside its run, which had copies of the commit of the repair and
of no other, and had one before a session came up to the push. -/
structure Beside (w : World ω) (run : FixRun) : Prop where
  commits : ∀ commit ∈ run.workspaces, commit = w.row.headSha
  held : ∀ k h, (w.phase k).held = some h → SameOrigin h w.row
  pushing : ∀ k h draft, w.phase k = .pushing h draft → run.workspaces ≠ []

/-- Ids of repairs are distinct, every repair is beside its run, a run has a
diff only after it was invoked, and what was pushed was pushed for a repair
whose run was invoked. -/
structure Site.Inv (s : Site ω) : Prop where
  ids : ∀ v ∈ s.repairs, ∀ w ∈ s.repairs, v.row.id = w.row.id → v = w
  repairs : ∀ w ∈ s.repairs, ∃ run, s.runs w.row.runId = some run ∧ Beside w run
  diffs : ∀ runId run, s.runs runId = some run → run.row.finalDiff ≠ none → run.workspaces ≠ []
  pushes : ∀ p ∈ s.pushes, ∃ w ∈ s.repairs, w.row.runId = p.runId ∧ w.row.headSha = p.headSha ∧
    ∃ run, s.runs p.runId = some run ∧ run.workspaces ≠ []

namespace Site

theorem repair_mem {repairId : String} (h : s.repair repairId = some w) : w ∈ s.repairs :=
  List.mem_of_find?_eq_some h

theorem setRun_self (s : Site ω) (runId : String) (run : FixRun) : (s.setRun runId run).runs runId = some run :=
  Function.update_self ..

theorem setRun_ne (s : Site ω) {runId other : String} (h : other ≠ runId) (run : FixRun) :
    (s.setRun runId run).runs other = s.runs other := Function.update_of_ne h _ _

theorem mem_setRepair {v : World ω} (hv : v ∈ (s.setRepair w).repairs) :
    v = w ∨ v ∈ s.repairs ∧ v.row.id ≠ w.row.id := by
  obtain ⟨old, hold, rfl⟩ := List.mem_map.mp hv
  split
  · exact .inl rfl
  · next hid => exact .inr ⟨hold, hid⟩

theorem setRepair_self {v : World ω} (hv : v ∈ s.repairs) (hid : v.row.id = w.row.id) :
    w ∈ (s.setRepair w).repairs :=
  List.mem_map.mpr ⟨v, hv, if_pos hid⟩

theorem setRepair_of_ne {v : World ω} (hv : v ∈ s.repairs) (hid : v.row.id ≠ w.row.id) :
    v ∈ (s.setRepair w).repairs := List.mem_map.mpr ⟨v, hv, if_neg hid⟩

/-- Where a run keeps its copies and gets those of the commit of its repair only. -/
theorem Inv.setRun {runId : String} {old : FixRun} (h : s.Inv) (hold : s.runs runId = some old)
    (hgrow : old.workspaces ≠ [] → run.workspaces ≠ []) (hdiff : run.row.finalDiff ≠ none → run.workspaces ≠ [])
    (hcommits : ∀ w ∈ s.repairs, w.row.runId = runId → ∀ commit ∈ run.workspaces, commit = w.row.headSha) :
    (s.setRun runId run).Inv where
  ids := h.ids
  repairs v hv := by
    obtain ⟨found, hfound, hbeside⟩ := h.repairs v hv
    by_cases hrun : v.row.runId = runId
    · rw [hrun, hold] at hfound
      obtain rfl := Option.some.inj hfound
      refine ⟨run, hrun ▸ setRun_self s runId run, hcommits v hv hrun, hbeside.held, fun k held draft hk => ?_⟩
      exact hgrow (hbeside.pushing k held draft hk)
    · exact ⟨found, (setRun_ne s hrun run).trans hfound, hbeside⟩
  diffs other found hfound hdiffs := by
    by_cases hrun : other = runId
    · rw [hrun, setRun_self] at hfound
      obtain rfl := Option.some.inj hfound
      exact hdiff hdiffs
    · rw [setRun_ne s hrun] at hfound
      exact h.diffs other found hfound hdiffs
  pushes p hp := by
    obtain ⟨v, hv, hvrun, hvhead, found, hfound, hne⟩ := h.pushes p hp
    refine ⟨v, hv, hvrun, hvhead, ?_⟩
    by_cases hrun : p.runId = runId
    · rw [hrun, hold] at hfound
      obtain rfl := Option.some.inj hfound
      exact ⟨run, hrun ▸ setRun_self s runId run, hgrow hne⟩
    · exact ⟨found, (setRun_ne s hrun run).trans hfound, hne⟩

/-- Where a repair stays beside its run. -/
theorem Inv.setRepair (h : s.Inv) (hw : w ∈ s.repairs) (horigin : SameOrigin w'.row w.row)
    (hrun : s.runs w.row.runId = some run) (hbeside : Beside w' run) : (s.setRepair w').Inv where
  ids u hu v hv hid := by
    rcases mem_setRepair hu with rfl | ⟨hu, hune⟩
    · rcases mem_setRepair hv with rfl | ⟨-, hvne⟩
      · rfl
      · exact absurd hid.symm hvne
    · rcases mem_setRepair hv with rfl | ⟨hv, -⟩
      · exact absurd hid hune
      · exact h.ids u hu v hv hid
  repairs v hv := by
    rcases mem_setRepair hv with rfl | ⟨hv, -⟩
    · exact ⟨run, horigin.runId ▸ hrun, hbeside⟩
    · exact h.repairs v hv
  diffs := h.diffs
  pushes p hp := by
    obtain ⟨v, hv, hvrun, hvhead, hfound⟩ := h.pushes p hp
    by_cases hid : v.row.id = w'.row.id
    · obtain rfl := h.ids v hv w hw (hid.trans horigin.id)
      exact ⟨w', setRepair_self hv hid, horigin.runId.trans hvrun, horigin.headSha.trans hvhead, hfound⟩
    · exact ⟨v, setRepair_of_ne hv hid, hvrun, hvhead, hfound⟩

/-- A new repair is beside its new run. -/
theorem Inv.start (repair : GitHubAppRepair) (h : s.Inv) (hnew : s.runs repair.runId = none)
    (hid : s.repair repair.id = none) (hdiff : run.row.finalDiff = none) (hcopies : run.workspaces = []) :
    Inv { s.setRun repair.runId run with repairs := ⟨repair, fun _ => .idle, []⟩ :: s.repairs } where
  ids u hu v hv hsame := by
    have hfresh : ∀ w ∈ s.repairs, w.row.id ≠ repair.id := fun w hw => by
      simpa using List.find?_eq_none.mp hid w hw
    rcases List.mem_cons.mp hu with rfl | hu
    · rcases List.mem_cons.mp hv with rfl | hv
      · rfl
      · exact absurd hsame.symm (hfresh v hv)
    · rcases List.mem_cons.mp hv with rfl | hv
      · exact absurd hsame (hfresh u hu)
      · exact h.ids u hu v hv hsame
  repairs v hv := by
    rcases List.mem_cons.mp hv with rfl | hv
    · refine ⟨run, setRun_self s repair.runId run, fun commit hc => ?_, fun k held hk => ?_, fun k held draft hk => ?_⟩
      · rw [hcopies] at hc
        exact absurd hc List.not_mem_nil
      · exact absurd hk (Option.some_ne_none held).symm
      · exact Phase.noConfusion hk
    · obtain ⟨found, hfound, hbeside⟩ := h.repairs v hv
      have hne : v.row.runId ≠ repair.runId := fun heq => absurd (hnew ▸ heq ▸ hfound) (Option.some_ne_none found).symm
      exact ⟨found, (setRun_ne s hne run).trans hfound, hbeside⟩
  diffs other found hfound hdiffs := by
    by_cases hrun : other = repair.runId
    · have hself : (s.setRun repair.runId run).runs other = some run := hrun ▸ setRun_self s repair.runId run
      obtain rfl := Option.some.inj (hself.symm.trans hfound)
      exact absurd hdiff hdiffs
    · exact h.diffs other found ((setRun_ne s hrun run).symm.trans hfound) hdiffs
  pushes p hp := by
    obtain ⟨v, hv, hvrun, hvhead, found, hfound, hne⟩ := h.pushes p hp
    have hother : p.runId ≠ repair.runId := fun heq =>
      absurd (hnew ▸ heq ▸ hfound) (Option.some_ne_none found).symm
    exact ⟨v, .tail _ hv, hvrun, hvhead, found, (setRun_ne s hother run).trans hfound, hne⟩

/-- A session comes up to the push with the diff of a run that was invoked. -/
theorem Inv.drafted {e : Event ω} {k : ω} {repository : Option Repository} {found : Option AgentRun} {draft : Draft}
    (h : s.Inv) (hrun : s.runs w.row.runId = some run) (hreads : s.Reads w e) (he : e = .start k repository found)
    (hdraft : prepareDraft lib w.row repository found = .ok draft) : run.workspaces ≠ [] := by
  rw [he] at hreads
  obtain ⟨row, rfl, hdiff⟩ := prepareDraft_ok hdraft
  have hrow : some row = some run.row := by simpa [hrun] using hreads.2
  obtain rfl := Option.some.inj hrow
  refine h.diffs w.row.runId run hrun ?_
  rw [hdiff]
  exact Option.some_ne_none _

end Site

variable [DecidableEq ω]

/-- A step keeps a repair beside its run, where a session comes up to the push
with the diff of this run. -/
theorem Beside.step {e : Event ω} (h : Beside w run) (hs : GitHub.step lib w e = some w')
    (hdraft : ∀ k repository found draft, e = .start k repository found →
      prepareDraft lib w.row repository found = .ok draft → run.workspaces ≠ []) : Beside w' run := by
  have hmoved := step_moved hs
  refine ⟨fun commit hc => ?_, fun k held hk => ?_, fun k held draft hk => ?_⟩
  · rw [hmoved.row.headSha]
    exact h.commits commit hc
  · have horigin : SameOrigin held w.row := by
      by_cases hj : k = e.session
      · subst hj
        rcases hmoved.held held hk with hold | rfl
        · exact h.held _ held hold
        · exact .refl _
      · rw [hmoved.others k hj] at hk
        exact h.held k held hk
    exact horigin.trans hmoved.row.symm
  · by_cases hj : k = e.session
    · subst hj
      obtain ⟨repository, found, he, hok⟩ := hmoved.pushing held draft hk
      exact hdraft _ repository found draft he hok
    · rw [hmoved.others k hj] at hk
      exact h.pushing k held draft hk

namespace Site

/-- What is pushed was drafted from the run of the repair. -/
theorem Inv.push {k : ω} {held : GitHubAppRepair} {draft : Draft} {error : Option String}
    (patch : String) (h : s.Inv) (hw : w ∈ s.repairs) (hphase : w.phase k = .pushing held draft)
    (hs : GitHub.step lib w (.push k error) = some w') :
    Inv { s.setRepair w' with pushes := ⟨held.id, held.runId, held.headSha, patch⟩ :: s.pushes } := by
  obtain ⟨run, hrun, hbeside⟩ := h.repairs w hw
  have hmoved := step_moved hs
  have hnext : (s.setRepair w').Inv :=
    h.setRepair hw hmoved.row hrun (hbeside.step hs fun _ _ _ _ he => absurd he nofun)
  have horigin : SameOrigin held w.row := hbeside.held k held (by rw [hphase]; rfl)
  refine ⟨hnext.ids, hnext.repairs, hnext.diffs, fun p hp => ?_⟩
  rcases List.mem_cons.mp hp with rfl | hp
  · have hsame : SameOrigin w'.row held := hmoved.row.trans horigin.symm
    refine ⟨w', setRepair_self hw hmoved.row.id.symm, hsame.runId, hsame.headSha, run, ?_⟩
    exact ⟨horigin.runId ▸ hrun, hbeside.pushing k held draft hphase⟩
  · exact hnext.pushes p hp

/-- A session of a repair leaves it beside its run. -/
theorem Inv.session {e : Event ω} (h : s.Inv) (hw : w ∈ s.repairs) (hreads : s.Reads w e)
    (hs : GitHub.step lib w e = some w') : (s.setRepair w').Inv := by
  obtain ⟨run, hrun, hbeside⟩ := h.repairs w hw
  have hdrafted : Beside w' run :=
    hbeside.step hs fun _ _ _ _ he hdraft => h.drafted hrun hreads he hdraft
  exact h.setRepair hw (step_moved hs).row hrun hdrafted

theorem Inv.step {e : SiteEvent ω} (h : s.Inv) (hok : AtHead s e) (hs : s.step lib e = some s') : s'.Inv := by
  cases e with
  | startFailedCiRepair repoId installationId workflowRunId reply runId repairId now =>
    rw [Site.step] at hs
    split at hs
    · exact Option.some.inj hs ▸ h
    · split at hs
      · exact Option.some.inj hs ▸ h
      · next ci _ =>
        split at hs
        · exact absurd hs.symm (Option.some_ne_none _)
        · next hnew =>
          rw [not_or, not_or] at hnew
          obtain rfl := Option.some.inj hs
          exact h.start (newRepair repairId runId repoId installationId ci)
            (Option.not_isSome_iff_eq_none.mp hnew.1) (Option.not_isSome_iff_eq_none.mp hnew.2.1) rfl rfl
  | checkout path commit =>
    rw [← Option.some.inj hs]
    exact ⟨h.ids, h.repairs, h.diffs, h.pushes⟩
  | setRepository repoId row =>
    rw [← Option.some.inj hs]
    exact ⟨h.ids, h.repairs, h.diffs, h.pushes⟩
  | invoke runId now =>
    have hhead : ∀ w ∈ s.repairs, w.row.runId = runId →
      ∀ run ∈ s.runs runId, s.commitOf run.row.repoId = some w.row.headSha := hok
    rw [Site.step] at hs
    split at hs
    · exact absurd hs.symm (Option.some_ne_none _)
    · next run hrun =>
      split at hs
      · exact absurd hs.symm (Option.some_ne_none _)
      · split at hs
        · exact absurd hs.symm (Option.some_ne_none _)
        · next commit hcommit =>
          obtain rfl := Option.some.inj hs
          refine h.setRun hrun (fun _ => List.cons_ne_nil _ _) (fun _ => List.cons_ne_nil _ _) fun w hw hid c hc => ?_
          rcases List.mem_cons.mp hc with rfl | hc
          · exact Option.some.inj (hcommit.symm.trans (hhead w hw hid run hrun))
          · obtain ⟨found, hfound, hbeside⟩ := h.repairs w hw
            obtain rfl := Option.some.inj (hrun.symm.trans (hid ▸ hfound))
            exact hbeside.commits c hc
  | complete runId state now =>
    rw [Site.step] at hs
    split at hs
    · exact absurd hs.symm (Option.some_ne_none _)
    · next run hrun =>
      split at hs
      · exact absurd hs.symm (Option.some_ne_none _)
      · next hcopies =>
        obtain rfl := Option.some.inj hs
        refine h.setRun hrun (fun _ => hcopies) (fun _ => hcopies) fun w hw hid => ?_
        obtain ⟨found, hfound, hbeside⟩ := h.repairs w hw
        obtain rfl := Option.some.inj (hrun.symm.trans (hid ▸ hfound))
        exact hbeside.commits
  | infraError runId reason now =>
    rw [Site.step] at hs
    split at hs
    · exact absurd hs.symm (Option.some_ne_none _)
    · next run hrun =>
      obtain rfl := Option.some.inj hs
      refine h.setRun hrun id (h.diffs runId run hrun) fun w hw hid => ?_
      obtain ⟨found, hfound, hbeside⟩ := h.repairs w hw
      obtain rfl := Option.some.inj (hrun.symm.trans (hid ▸ hfound))
      exact hbeside.commits
  | session repairId e =>
    rw [Site.step] at hs
    split at hs
    · exact absurd hs.symm (Option.some_ne_none _)
    · next w hw =>
      split at hs
      · next hreads =>
        obtain ⟨w', hstep, rfl⟩ := Option.map_eq_some_iff.mp hs
        exact h.session (repair_mem hw) hreads hstep
      · exact absurd hs.symm (Option.some_ne_none _)
  | push repairId k git =>
    rw [Site.step] at hs
    split at hs
    · exact absurd hs.symm (Option.some_ne_none _)
    · next w hw =>
      split at hs
      · next held draft hphase =>
        obtain ⟨w', hstep, rfl⟩ := Option.map_eq_some_iff.mp hs
        have hpushed := h.push draft.patch (repair_mem hw) hphase hstep
        split
        · exact hpushed
        · exact ⟨hpushed.ids, hpushed.repairs, hpushed.diffs, fun p hp => hpushed.pushes p (.tail _ hp)⟩
      · exact absurd hs.symm (Option.some_ne_none _)

end Site

end

namespace Sample

def row : RepositoryRow := ⟨repository, "indexed"⟩

/-- A workflow run failed at a commit that is not indexed yet. -/
def failedCi : SiteEvent Nat :=
  .startFailedCiRepair "repo-1" "42" "7" (.ok ⟨"7", none, "c0ffee", "main"⟩) "run-1" "repair-1" 1

def reindexed : SiteEvent Nat := .checkout "/repos/app" (some "c0ffee")

def suite (passed : Bool) : Json :=
  .obj [("tests_ran", .bool true), ("passed", .bool passed), ("exit_code", .num (if passed then 0 else 1))]

/-- The state of a graph that verified its patch. -/
def repaired : FixAgentState :=
  { initialState ⟨3, 600, 12, 20000, 3, 10, 400, 20, 40, [], 2, 4, true⟩ "run-1" "repo-1" with
    verificationResult :=
      Verification.buildVerificationResult (suite false) (suite true) (suite true) (.obj [("ok", .bool true)])
    finalDiff := some "--- a/app.py"
    status := some .verifiedSuccess }

def fixRun : List (SiteEvent Nat) := [.invoke "run-1" 2, .complete "run-1" repaired 3]

/-- The row as `fixRun` leaves it. -/
def ended : AgentRun := endInvocation (startRun (newRun "run-1" "repo-1" 1).row 2) repaired 3

/-- The result is brought in, approved and pushed. -/
def approved : List (SiteEvent Nat) :=
  [.session "repair-1" (.select 0), .session "repair-1" (.syncSelected 0 (some ended)),
    .session "repair-1" (.load 1 (approve "ada")), .session "repair-1" (.sync 1 (some ended)),
    .session "repair-1" (.check 1), .session "repair-1" (.decide 1 5),
    .session "repair-1" (.start 1 (some repository) (some ended)), .push "repair-1" 1 none]

/-- The repository is indexed at the commit after the run of the repair, or before it. -/
def late : List (SiteEvent Nat) := [failedCi] ++ fixRun ++ [reindexed] ++ approved

/-- What was pushed, with the copies that its run had. -/
def pushed (s : Site Nat) : List (Push × Option (List String)) :=
  s.pushes.map fun p => (p, (s.runs p.runId).map (·.workspaces))

def patch : Push := ⟨"repair-1", "run-1", "c0ffee", "--- a/app.py"⟩

end Sample

end CodeMate.GitHub
