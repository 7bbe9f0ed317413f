import CodeMate.Agent.Evidence
import CodeMate.Sandbox.Attempts
import CodeMate.Sandbox.Site

/-!
# The final diff is the tested patch

While the tests of a patch and the final answer are due, the workspace has the
patch that was applied last, also after a replay in a new workspace (`Tested`,
`tested_step`). The final diff compares the tracked files with the index, so it
makes of the base commit what the patch makes of it where the patch was applied
to the files of this commit (`Whole`, `final_diff`). A workspace is copied
without tracked files of some names, and then the diff deletes them
(`dropped_file_deleted`).
-/

namespace CodeMate.Sandbox

open Framework Agent Verification

section

variable {git : Git} {repr : String → String} {env : Env} {input : FixAgentState} {runId repoId : String}
  {w w' : Site} {state : FixAgentState} {ws : Workspace} {attempt : Option Attempt}

/-! ## The workspace of a patch that is tested -/

/-- The workspace has the patch of the state, which was applied in it last. -/
def Holds (git : Git) (repr : String → String) (attempt : Option Attempt) (state : FixAgentState) (ws : Workspace) :
    Prop :=
  ∃ a, attempt = some a ∧ a.base = ws.base ∧ a.patch = state.patch.getD "" ∧
    (applyPatch git repr a.before a.patch).2.ok = true ∧ SameTracked (applyPatch git repr a.before a.patch).1 ws.repo

/-- The node that is next has to find the patch in the workspace. -/
def Awaits (state : FixAgentState) : Node → Prop
  | .targetedTests | .regressionChecks => state.applied.flag "ok" = true
  | .finalAnswer =>
    state.applied.flag "ok" = true ∧ classifyTestResult state.targetedTestResult = .passed ∧
      classifyTestResult state.regressionTestResult = .passed
  | _ => False

/-- The diff of a verified run makes of the base commit what its last patch makes of it, and nothing else. -/
def FinalDiff (git : Git) (w : Site) : Prop :=
  ∀ state, w.repair.thread = some (state, none) → state.status = some .verifiedSuccess →
    ∃ a patch diff, w.attempt = some a ∧ normalizeUnifiedDiffHunks a.patch = .ok patch ∧ state.finalDiff = some diff ∧
      (git.apply patch.content a.base).1.returncode = 0 ∧
      git.applied diff a.base = some (git.apply patch.content a.base).2 ∧
      ∀ p ∉ git.names patch.content, (git.apply patch.content a.base).2.lookup p = a.base.lookup p

/-- What the thread says of the workspace and of the last attempt. -/
structure Tested (git : Git) (repr : String → String) (w : Site) : Prop where
  next : ∀ state node, w.repair.thread = some (state, some node) → Awaits state node →
    truthyText state.patch = true ∧ ∀ ws ∈ w.workspace, Holds git repr w.attempt state ws
  done : FinalDiff git w

/-- When the run answers, its last patch was applied to the files of the base commit, and the diff is made. -/
def Whole (git : Git) (w : Site) : SiteStep → Prop
  | .agent (.node .finalAnswer _) _ =>
    (∀ a ∈ w.attempt, ∀ patch, normalizeUnifiedDiffHunks a.patch = .ok patch →
      Ready git a.base a.before patch.content) ∧ ∀ ws ∈ w.workspace, (git.diff ws.repo).returncode = 0
  | _ => True

theorem Holds.tracked {repo : Repo} (h : Holds git repr attempt state ws) (hsame : SameTracked ws.repo repo) :
    Holds git repr attempt state { ws with repo } := by
  obtain ⟨a, ha, hbase, hpatch, hok, hrepo⟩ := h
  exact ⟨a, ha, hbase, hpatch, hok, hrepo.trans hsame⟩

/-- With clean evidence no node finds a patch to test. -/
theorem not_awaits_of_clean (h : Evidence.Clean state.evidence) {next : Node}
    (hnext : Evidence.laterNode next = true) : ¬ Awaits state next := by
  intro hawaits
  cases next with
  | targetedTests | regressionChecks => exact absurd hnext (by decide)
  | finalAnswer =>
    obtain ⟨hok, hpassed, -⟩ := hawaits
    rcases h with htargeted | ⟨result, hresult, hfailed⟩
    · rw [show state.targetedTestResult = .obj [] from htargeted] at hpassed
      exact absurd hpassed (by decide)
    · rw [FixAgentState.applied, show state.applyResult = some result from hresult, Option.getD_some, hfailed] at hok
      exact absurd hok (by decide)
  | _ => exact hawaits

theorem not_awaits_graphEntry (state : FixAgentState) : ¬ Awaits state (graphEntry state) := by
  unfold graphEntry
  split <;> exact id

/-- What a node awaits is replayed in a new workspace. -/
theorem rehydrated_of_awaits {next : Node} (h : Awaits state next) (ht : truthyText state.patch = true) :
    rehydrated state next = state.patch := by
  refine if_pos ⟨ht, ?_⟩
  cases next with
  | targetedTests | regressionChecks => exact ⟨h, rfl⟩
  | finalAnswer => exact ⟨h.1, rfl⟩
  | _ => exact absurd h id

/-- A patch that was applied is not blank. -/
theorem truthyText_of_applied {repo : Repo} {patch : Option String}
    (h : (applyPatch git repr repo (patch.getD "")).2.ok = true) : truthyText patch = true := by
  unfold applyPatch at h
  split at h
  · exact absurd (show false = true from h) (by decide)
  · next hblank =>
    cases patch with
    | none => exact absurd rfl hblank
    | some text =>
      by_cases hempty : text = ""
      · exact absurd (by rw [hempty]; rfl) hblank
      · simp [truthyText, Mcp.nonempty, hempty]

theorem applied_flag {result : ApplyResult} : result.toJson.flag "ok" = result.ok := by
  cases h : result.ok <;> simp [ApplyResult.toJson, Json.flag, Json.get, Json.members, Json.truthy, h]

/-- What the next node finds, where a node found what it awaits. -/
theorem node_next {node : Node} {reply : node.Reply} {written : Tree} {repo : Repo} {log : List Event} {next : Node}
    (hat : Evidence.At log state.evidence node) (hact : act git repr state ws.repo written node reply = some repo)
    (hfound : Awaits state node → truthyText state.patch = true ∧ Holds git repr w.attempt state ws)
    (hnext : after node (node.run env state reply).state = some next)
    (hawaits : Awaits (node.run env state reply).state next) :
    truthyText (node.run env state reply).state.patch = true ∧
      Holds git repr (attemptOf w ws state node) (node.run env state reply).state { ws with repo } := by
  cases hn : node.investigates with
  | true =>
    have hclean : Evidence.Clean state.evidence := by cases node <;> first | exact hat.2 | exact absurd hn (by decide)
    rw [← (run_investigates env state hn reply).evidence] at hclean
    exact absurd hawaits (not_awaits_of_clean hclean (laterNode_after (.inl hn) hnext))
  | false =>
    cases node <;> first | exact absurd hn (by decide) | skip
    case inspectRepository =>
      obtain rfl := Option.some.inj hnext
      exact absurd hawaits id
    case reproduceFailure =>
      refine absurd hawaits (not_awaits_of_clean (.inl hat.2) ?_)
      rw [← Option.some.inj hnext]
      split <;> rfl
    case generatePatch =>
      exact absurd hawaits (not_awaits_of_clean hat.2 (laterNode_after (.inr rfl) hnext))
    case applyPatch =>
      obtain rfl := Option.some.inj hnext
      dsimp only [act] at hact
      split at hact
      · next hresult =>
        obtain rfl := Option.some.inj hact
        have hok : (applyPatch git repr ws.repo (state.patch.getD "")).2.ok = true := by
          rw [← applied_flag, ← hresult]
          exact hawaits
        exact ⟨truthyText_of_applied hok, _, rfl, rfl, rfl, hok, .refl _⟩
      · exact absurd hact.symm (Option.some_ne_none repo)
    case targetedTests =>
      dsimp only [act] at hact
      obtain rfl := Option.some.inj hact
      have hok : state.applied.flag "ok" = true := by
        rw [← Option.some.inj hnext] at hawaits
        rcases afterTargetedTests_cases (targetedTests state reply).state with ⟨-, hok, -⟩ | hroute | hroute
        · exact hok
        · have hreflect : Awaits (targetedTests state reply).state .reflect := hroute ▸ hawaits
          exact absurd hreflect id
        · have hfinal : Awaits (targetedTests state reply).state .finalAnswer := hroute ▸ hawaits
          exact hfinal.1
      obtain ⟨htruthy, hholds⟩ := hfound hok
      refine ⟨htruthy, ?_⟩
      rw [if_pos hok]
      exact hholds.tracked (runTests_tracked _ _)
    case regressionChecks =>
      dsimp only [act] at hact
      obtain rfl := Option.some.inj hact
      have hok : state.applied.flag "ok" = true := by
        rw [← Option.some.inj hnext] at hawaits
        rcases afterRegressionChecks_cases (Node.regressionChecks.run env state reply).state with hroute | hroute
        · have hreflect : Awaits (Node.regressionChecks.run env state reply).state .reflect := hroute ▸ hawaits
          exact absurd hreflect id
        · have hfinal : Awaits (Node.regressionChecks.run env state reply).state .finalAnswer := hroute ▸ hawaits
          exact hfinal.1
      obtain ⟨htruthy, hholds⟩ := hfound hok
      exact ⟨htruthy, hholds.tracked (runTests_tracked _ _)⟩
    case reflect =>
      refine absurd hawaits (not_awaits_of_clean (.inr ⟨.obj [], rfl, rfl⟩) ?_)
      rw [← Option.some.inj hnext]
      show Evidence.laterNode (afterReflect _) = true
      unfold afterReflect
      split <;> rfl
    case finalAnswer => exact absurd hnext.symm (Option.some_ne_none next)

/-- A verified answer has found what it awaits. -/
theorem awaits_of_verified {diff : String} (hv : (finalAnswer state diff).status = some .verifiedSuccess) :
    Awaits state .finalAnswer := by
  obtain ⟨-, hok, htargeted, hregression⟩ := verdict_verified (Option.some.inj hv)
  refine ⟨?_, htargeted, hregression⟩
  cases ha : state.applyResult with
  | none =>
    rw [ha] at hok
    exact absurd (show false = true from hok) (by decide)
  | some result =>
    rw [ha] at hok
    rw [FixAgentState.applied, ha]
    exact hok

/-- The diff of a workspace that holds its patch makes of the base commit what the patch makes of it. -/
theorem Holds.diff (hgit : git.Documented) (h : Holds git repr attempt state ws)
    (hready : ∀ a ∈ attempt, ∀ patch, normalizeUnifiedDiffHunks a.patch = .ok patch →
      Ready git a.base a.before patch.content)
    (hdiff : (git.diff ws.repo).returncode = 0) :
    ∃ a patch, attempt = some a ∧ normalizeUnifiedDiffHunks a.patch = .ok patch ∧
      (git.apply patch.content a.base).1.returncode = 0 ∧
      git.applied (gitDiff git ws.repo) a.base = some (git.apply patch.content a.base).2 ∧
      ∀ p ∉ git.names patch.content, (git.apply patch.content a.base).2.lookup p = a.base.lookup p := by
  obtain ⟨a, ha, -, -, hok, hsame⟩ := h
  obtain ⟨patch, hpatch, -, happlies, hleft⟩ := applyPatch_ok hgit hok
  have hr : Ready git a.base a.before patch.content := hready a ha patch hpatch
  have hpatched : Patched git a.base patch.content ws.repo := by
    rw [hleft] at hsame
    exact hsame.patched (hr.patched hgit happlies)
  exact ⟨a, patch, ha, hpatch, hpatched.applies, gitDiff_patched hgit hpatched hr.noCR hdiff,
    fun p hp => hgit.apply_frame hp⟩

/-! ## Runs -/

theorem Tested.invoke (h : Tested git repr w) {workspace : Option Workspace}
    (hheld : ∀ state next, w.repair.thread = some (state, some next) → Awaits state next →
      ∀ ws ∈ workspace, Holds git repr attempt state ws)
    (hattempt : ∀ state, w.repair.thread = some (state, none) → attempt = w.attempt) :
    Tested git repr { w with repair := Agent.invoke input w.repair, workspace, attempt } := by
  have hentry : ∀ old state next, (Agent.enter old input) = (state, some next) → ¬ Awaits state next := by
    intro old state next heq
    obtain ⟨rfl, hnext⟩ := Prod.mk.inj heq
    rw [← Option.some.inj hnext]
    exact not_awaits_graphEntry _
  cases ht : w.repair.thread with
  | none =>
    have hthread : (Agent.invoke input w.repair).thread = some (Agent.enter none input) := by
      rw [Agent.invoke, ht]
    refine ⟨fun state next hn hawaits => ?_, fun state hn => ?_⟩
    · exact absurd hawaits (hentry _ _ _ (Option.some.inj (hthread.symm.trans hn)))
    · exact absurd (congrArg Prod.snd (Option.some.inj (hthread.symm.trans hn))) (Option.some_ne_none _)
  | some thread =>
    obtain ⟨state, _ | next⟩ := thread
    · by_cases hcomplete : checkpointIsComplete state = true
      · have hsame : Agent.invoke input w.repair = w.repair := by
          rw [Agent.invoke, ht]
          exact if_pos hcomplete
        refine ⟨fun state' next hn => ?_, fun state' hn hv => ?_⟩
        · rw [hsame, ht] at hn
          exact absurd (congrArg Prod.snd (Option.some.inj hn)) (Option.some_ne_none _).symm
        · have hdone := h.done state' (by rw [hsame] at hn; exact hn) hv
          rwa [← hattempt state ht] at hdone
      · have hthread : (Agent.invoke input w.repair).thread = some (Agent.enter (some state) input) := by
          rw [Agent.invoke, ht]
          simp only [if_neg hcomplete]
        refine ⟨fun state next hn hawaits => ?_, fun state hn => ?_⟩
        · exact absurd hawaits (hentry _ _ _ (Option.some.inj (hthread.symm.trans hn)))
        · exact absurd (congrArg Prod.snd (Option.some.inj (hthread.symm.trans hn))) (Option.some_ne_none _)
    · have hthread : (Agent.invoke input w.repair).thread = w.repair.thread := by
        unfold Agent.invoke
        split
        · next hnone => exact absurd (hnone.symm.trans ht) (Option.some_ne_none _).symm
        · next hdone =>
          have hends : none = some next := congrArg Prod.snd (Option.some.inj (hdone.symm.trans ht))
          exact absurd hends.symm (Option.some_ne_none next)
        · rfl
      refine ⟨fun state' next' hn hawaits => ?_, fun state' hn => ?_⟩
      · rw [hthread] at hn
        exact ⟨(h.next state' next' hn hawaits).1, hheld state' next' hn hawaits⟩
      · rw [hthread, ht] at hn
        exact absurd (congrArg Prod.snd (Option.some.inj hn)) (Option.some_ne_none _)

/-- Only the final answer ends a run verified. -/
theorem node_end {node : Node} {reply : node.Reply} (hstatus : state.status ≠ some .verifiedSuccess)
    (hend : after node (node.run env state reply).state = none)
    (hv : (node.run env state reply).state.status = some .verifiedSuccess) : node = .finalAnswer := by
  cases hn : node.investigates with
  | true =>
    rcases (run_investigates env state hn reply).status with hsame | hwaits | hwaits
    · exact absurd (hsame.symm.trans hv) hstatus
    · exact absurd (hwaits.symm.trans hv) (by decide)
    · exact absurd (hwaits.symm.trans hv) (by decide)
  | false => cases node <;> first | rfl | exact absurd hn (by decide) | exact absurd hend (Option.some_ne_none _)

theorem tested_step {e : SiteStep} (hgit : git.Documented) (hinv : Agent.Inv w.repair) (h : Tested git repr w)
    (hwhole : Whole git w e) (hs : siteStep git repr env input w e = some w') : Tested git repr w' := by
  cases site_move _ _ _ _ hs with
  | fresh hidle hnone =>
    refine h.invoke (fun state next ht hawaits => ?_) fun _ _ => rfl
    have htruthy : truthyText state.patch = true := (h.next state next ht hawaits).1
    have hpatch : state.patch = none := by
      rw [← rehydrated_of_awaits hawaits htruthy]
      unfold replayed at hnone
      rw [ht] at hnone
      exact hnone
    rw [hpatch] at htruthy
    exact absurd (show false = true from htruthy) (by decide)
  | @replay written patch hidle hreplayed hok =>
    refine h.invoke (fun state next ht hawaits ws hws => ?_) fun state ht => ?_
    · have hpatch : state.patch = some patch := by
        rw [← rehydrated_of_awaits hawaits (h.next state next ht hawaits).1]
        unfold replayed at hreplayed
        rw [ht] at hreplayed
        exact hreplayed
      obtain rfl := Option.some.inj hws
      exact ⟨_, rfl, rfl, by rw [hpatch]; rfl, hok, .refl _⟩
    · unfold replayed at hreplayed
      rw [ht] at hreplayed
      exact absurd hreplayed.symm (Option.some_ne_none patch)
  | replayFails => exact h
  | @node node reply written ws state repo hws ht hact =>
    obtain ⟨hstatus, hat⟩ := hinv.thread _ ht
    have hfound : Awaits state node → truthyText state.patch = true ∧ Holds git repr w.attempt state ws :=
      fun hawaits => ⟨(h.next state node ht hawaits).1, (h.next state node ht hawaits).2 ws hws⟩
    refine ⟨fun out next hn hawaits => ?_, fun out hn hv => ?_⟩
    · obtain ⟨rfl, hnext⟩ := Prod.mk.inj (Option.some.inj hn)
      obtain ⟨htruthy, hholds⟩ := node_next hat hact hfound hnext hawaits
      exact ⟨htruthy, fun ws' hws' => Option.some.inj hws' ▸ hholds⟩
    · obtain ⟨rfl, hend⟩ := Prod.mk.inj (Option.some.inj hn)
      obtain rfl := node_end hstatus hend hv
      obtain ⟨hready, hdiff⟩ := hwhole
      dsimp only [act] at hact
      split at hact
      · next hreply =>
        subst hreply
        obtain ⟨-, hholds⟩ := hfound (awaits_of_verified hv)
        obtain ⟨a, patch, ha, hpatch, happlies⟩ := hholds.diff hgit hready (hdiff ws hws)
        exact ⟨a, patch, _, ha, hpatch, rfl, happlies⟩
      · exact absurd hact.symm (Option.some_ne_none repo)
  | @crash node reply events saved written repair state ht hthread hstep =>
    refine ⟨fun state' next hn hawaits => ⟨?_, fun ws hws => ?_⟩, fun state' hn => ?_⟩
    · exact (h.next state' next (hthread ▸ hn) hawaits).1
    · exact absurd hws.symm (Option.some_ne_none ws)
    · rw [show repair.thread = some (state', none) from hn, ht] at hthread
      exact absurd (congrArg Prod.snd (Option.some.inj hthread)) (Option.some_ne_none _).symm
  | resume hidle hfrom hrunning hstep hstored =>
    refine ⟨fun state next hn hawaits => ?_, fun state hn => ?_⟩
    · obtain ⟨rfl, hnext⟩ := Prod.mk.inj (Option.some.inj hn)
      rw [← Option.some.inj hnext] at hawaits
      exact absurd hawaits (not_awaits_graphEntry _)
    · exact absurd (congrArg Prod.snd (Option.some.inj hn)) (Option.some_ne_none _)
  | leave =>
    refine ⟨fun state next hn hawaits => ⟨(h.next state next hn hawaits).1, fun ws hws => ?_⟩, h.done⟩
    exact absurd hws.symm (Option.some_ne_none ws)
  | reindex => exact ⟨h.next, h.done⟩

theorem tested_inductive (hgit : git.Documented) (env : Env) (runId repoId : String) :
    ((site git repr env (initialState env.settings runId repoId)).only (Whole git)).Inductive
      fun w => Agent.Inv w.repair ∧ Tested git repr w where
  start hs := by
    refine ⟨(site_inductive git repr env _ (inductive_inv env runId repoId)).start hs, ?_⟩
    obtain ⟨checkout, rfl⟩ := hs
    exact ⟨fun state next hn => absurd hn.symm (Option.some_ne_none _), fun state hn =>
      absurd hn.symm (Option.some_ne_none _)⟩
  step h hs :=
    ⟨(site_inductive git repr env _ (inductive_inv env runId repoId)).step h.1 hs.2,
      tested_step hgit h.1 h.2 hs.1 hs.2⟩

/-- In every run that answers only after its last patch was applied to the files
of the base commit, the final diff of a verified run makes of this commit what
the last patch makes of it. -/
theorem final_diff (hgit : git.Documented)
    (hr : ((site git repr env (initialState env.settings runId repoId)).only (Whole git)).Reachable w) :
    FinalDiff git w :=
  ((tested_inductive hgit env runId repoId).reachable hr).2.done

end

namespace FinalDiff

/-- A diff, with the entries of its paths before and after it. -/
structure Edit where
  diff : String
  before : Tree
  after : Tree

def Edit.paths (e : Edit) : Finset Path := e.before.keys ∪ e.after.keys

def source (line : UInt8) : Tree := (∅ : Tree).insert ["app.py"] (.file [line, 10] false)

def dotenv : Tree := (∅ : Tree).insert [".env.example"] (.file [65, 61, 10] false)

/-- The patch of the planner. -/
def fix : Edit := ⟨"--- a/app.py\n+++ b/app.py\n@@ -1,1 +1,1 @@\n-1\n+2\n", source 49, source 50⟩

/-- The diff of a workspace that has the patch, but not the file that was not copied. -/
def fixAndDelete : Edit where
  diff :=
    "--- a/.env.example\n+++ /dev/null\n@@ -1 +0,0 @@\n-A=\n--- a/app.py\n+++ b/app.py\n@@ -1 +1 @@\n-1\n+2\n"
  before := dotenv ∪ source 49
  after := source 50

def edits : List Edit := [fix, fixAndDelete]

def edit (patch : String) : Option Edit := edits.find? fun e => e.diff = patch

def apply (patch : String) (t : Tree) : Completed × Tree :=
  match edit patch with
  | none => (⟨128, "", "error: No valid patches in input\n"⟩, t)
  | some e =>
    if ∀ p ∈ e.paths, t.lookup p = e.before.lookup p then
      (Sample.done, e.after ∪ keep (fun p _ => decide (p ∉ e.paths)) t)
    else (⟨1, "", "error\n"⟩, t)

/-- The commands, with these diffs. -/
def git : Git :=
  { Sample.git with
    applyCheck := fun patch t => (apply patch t).1
    apply
    names := fun patch => ((edit patch).map Edit.paths).getD ∅
    diff := fun r =>
      if r.staged = r.trackedFiles then Sample.done
      else
        match edits.find? fun e => apply e.diff r.staged = (Sample.done, r.trackedFiles) with
        | some e => ⟨0, e.diff, ""⟩
        | none => ⟨128, "", ""⟩ }

theorem edit_noCR {e : Edit} (h : e ∈ edits) :
    '\r' ∉ e.diff.toList ∧ ∀ p entry, e.after.lookup p = some entry → entry.hasCR = false := by
  have hafter : ∀ p entry, (source 50).lookup p = some entry → entry.hasCR = false := by
    intro p entry hentry
    by_cases hp : p = ["app.py"]
    · rw [source, hp, Finmap.lookup_insert] at hentry
      rw [← Option.some.inj hentry]
      decide
    · rw [source, Finmap.lookup_insert_of_ne _ hp, Finmap.lookup_empty] at hentry
      exact absurd hentry.symm (Option.some_ne_none entry)
  rcases List.mem_cons.mp h with rfl | h
  · exact ⟨by decide +kernel, hafter⟩
  · obtain rfl := List.mem_singleton.mp h
    exact ⟨by decide +kernel, hafter⟩

theorem lookup_apply {e : Edit} {t : Tree} {p : Path} :
    (e.after ∪ keep (fun p _ => decide (p ∉ e.paths)) t).lookup p =
      if p ∈ e.paths then e.after.lookup p else t.lookup p := by
  split
  · next hp =>
    refine Finmap.lookup_union_left_of_not_in fun hmem => ?_
    obtain ⟨entry, hentry⟩ := Finmap.mem_iff.mp hmem
    rw [lookup_keep, Option.filter_eq_some_iff] at hentry
    exact absurd hp (of_decide_eq_true hentry.2)
  · next hp =>
    have hafter : p ∉ e.after := fun hmem =>
      hp (Finset.mem_union_right _ (Finmap.mem_keys.mpr hmem))
    rw [Finmap.lookup_union_right hafter, lookup_keep]
    cases t.lookup p with
    | none => rfl
    | some entry => rw [Option.filter_some, if_pos (decide_eq_true hp)]

theorem lookup_of_applies {patch : String} {t : Tree} (h : (apply patch t).1.returncode = 0) :
    ∃ e, edit patch = some e ∧ (∀ p ∈ e.paths, t.lookup p = e.before.lookup p) ∧
      ∀ p, (apply patch t).2.lookup p = if p ∈ e.paths then e.after.lookup p else t.lookup p := by
  unfold apply at h ⊢
  cases he : edit patch with
  | none =>
    rw [he] at h
    exact absurd (show (128 : Int) = 0 from h) (by decide)
  | some e =>
    rw [he] at h
    dsimp only at h ⊢
    split at h
    · next hbefore =>
      rw [if_pos hbefore]
      exact ⟨e, rfl, hbefore, fun p => lookup_apply⟩
    · exact absurd (show (1 : Int) = 0 from h) (by decide)

theorem apply_refused {patch : String} {t : Tree} (h : (apply patch t).1.returncode ≠ 0) : (apply patch t).2 = t := by
  unfold apply at h ⊢
  cases he : edit patch with
  | none => rfl
  | some e =>
    rw [he] at h
    dsimp only at h ⊢
    split
    · next hbefore =>
      rw [if_pos hbefore] at h
      exact absurd rfl h
    · rfl

theorem edit_given {e : Edit} (h : e ∈ edits) : e.diff ≠ "" := by
  rcases List.mem_cons.mp h with rfl | h
  · decide +kernel
  · obtain rfl := List.mem_singleton.mp h
    decide +kernel

theorem diff_cases {r : Repo} (h : (git.diff r).returncode = 0) :
    (r.staged = r.trackedFiles ∧ git.diff r = Sample.done) ∨
      ∃ e ∈ edits, apply e.diff r.staged = (Sample.done, r.trackedFiles) ∧ git.diff r = ⟨0, e.diff, ""⟩ := by
  simp only [git] at h ⊢
  split at h
  · next hsame =>
    rw [if_pos hsame]
    exact .inl ⟨hsame, rfl⟩
  · next hne =>
    rw [if_neg hne]
    split at h
    · next e he => exact .inr ⟨e, List.mem_of_find?_eq_some he, by simpa using List.find?_some he, rfl⟩
    · exact absurd (show (128 : Int) = 0 from h) (by decide)

theorem documented : git.Documented where
  others := Sample.documented.others
  apply_atomic h := apply_refused h
  apply_frame {patch t p} h := by
    show (apply patch t).2.lookup p = t.lookup p
    by_cases hok : (apply patch t).1.returncode = 0
    · obtain ⟨e, he, -, hlookup⟩ := lookup_of_applies hok
      have hnames : git.names patch = e.paths := by
        show ((edit patch).map Edit.paths).getD ∅ = _
        rw [he]
        rfl
      rw [hlookup, if_neg (hnames ▸ h)]
    · rw [apply_refused hok]
  apply_local {patch t u} h hsame := by
    obtain ⟨e, he, hbefore, hlookup⟩ := lookup_of_applies h
    have hnames : git.names patch = e.paths := by
      show ((edit patch).map Edit.paths).getD ∅ = _
      rw [he]
      rfl
    have hu : ∀ p ∈ e.paths, u.lookup p = e.before.lookup p := fun p hp =>
      (hsame p (hnames ▸ hp) p (near_refl p)).symm.trans (hbefore p hp)
    have happly : apply patch u = (Sample.done, e.after ∪ keep (fun p _ => decide (p ∉ e.paths)) u) := by
      unfold apply
      rw [he]
      exact if_pos hu
    show (apply patch u).1.returncode = 0 ∧ _
    refine ⟨by rw [happly]; rfl, fun p hp => ?_⟩
    rw [hnames] at hp
    show (apply patch u).2.lookup p = (apply patch t).2.lookup p
    rw [hlookup, happly, lookup_apply, if_pos hp, if_pos hp]
  apply_cr {patch t p entry} _ hbefore hafter := by
    by_cases hok : (apply patch t).1.returncode = 0
    · obtain ⟨e, he, -, hlookup⟩ := lookup_of_applies hok
      rw [show (git.apply patch t).2.lookup p = _ from hlookup p] at hafter
      split at hafter
      · exact (edit_noCR (List.mem_of_find?_eq_some he)).2 p entry hafter
      · exact hbefore entry hafter
    · rw [show (git.apply patch t).2 = t from apply_refused hok] at hafter
      exact hbefore entry hafter
  add := Sample.documented.add
  diff_applies {r} h := by
    rcases diff_cases h with ⟨hsame, hdiff⟩ | ⟨e, he, happly, hdiff⟩
    · rw [hdiff, Git.applied]
      exact (if_pos rfl).trans (congrArg some hsame)
    · have happly : git.apply e.diff r.staged = (Sample.done, r.trackedFiles) := happly
      rw [hdiff, Git.applied, if_neg (edit_given he), happly]
      rfl
  diff_cr {r} h hcr := by
    rcases diff_cases h with ⟨-, hdiff⟩ | ⟨e, he, -, hdiff⟩
    · rw [hdiff] at hcr
      exact absurd hcr (by decide)
    · rw [hdiff] at hcr
      exact absurd hcr (edit_noCR he).1
  reset_unborn := Sample.documented.reset_unborn
  reset := Sample.documented.reset
  clean := Sample.documented.clean

def main : Path := ["refs", "heads", "main"]

/-- A commit with a file whose name is not copied, and one without. -/
def dotted : Checkout := ⟨dotenv ∪ source 49, main⟩

def plain : Checkout := ⟨source 49, main⟩

def applied : ApplyResult :=
  { ok := true, stdout := "", stderr := "", exitCode := some 0, patchNormalized := some false }

/-- The first patch passes the tests. -/
def patchSteps : List Step :=
  [.node .planNextAction ⟨1, .ok (.generatePatch, 10)⟩, .node .executeLocalAction ⟨2, .null⟩,
    .node .planMCPTools ⟨false, [], [], ""⟩, .node .generatePatch fix.diff, .node .applyPatch applied.toJson,
    .node .targetedTests (testRan true), .node .regressionChecks (testRan true)]

/-- A run up to its final answer. -/
def tested : List SiteStep := (reproducedSteps ++ patchSteps).map (.agent · ∅)

def answer (diff : String) : SiteStep := .agent (.node .finalAnswer diff) ∅

def input : FixAgentState := initialState sampleEnv.settings "run" "repo"

def repr (text : String) : String := text

/-- What the run ends with: its status and diff, and the base and the patch of its last attempt. -/
def ended (w : Site) : Option (Option RunStatus × Option String) × Option (Tree × String) :=
  ((w.repair.thread.filter fun thread => thread.2 = none).map fun thread => (thread.1.status, thread.1.finalDiff),
    w.attempt.map fun a => (a.base, a.patch))

theorem ended_thread {w : Site} {diff : String} (h : (ended w).1 = some (some .verifiedSuccess, some diff)) :
    ∃ state, w.repair.thread = some (state, none) ∧ state.status = some .verifiedSuccess ∧
      state.finalDiff = some diff := by
  obtain ⟨⟨state, next⟩, hfilter, hpair⟩ := Option.map_eq_some_iff.mp h
  obtain ⟨hthread, hnext⟩ := Option.filter_eq_some_iff.mp hfilter
  have hnext : next = none := of_decide_eq_true hnext
  obtain ⟨hstatus, hdiff⟩ := Prod.mk.inj hpair
  exact ⟨state, hnext ▸ hthread, hstatus, hdiff⟩

theorem fix_content {patch : NormalizedPatch} (h : normalizeUnifiedDiffHunks fix.diff = .ok patch) :
    patch.content = fix.diff := by
  have hcontent : (normalizeUnifiedDiffHunks fix.diff).toOption.map (·.content) = some fix.diff := by decide +kernel
  rw [h] at hcontent
  exact Option.some.inj hcontent

/-- The final diff of a verified run deletes a file that the patch does not name. -/
theorem dropped_file_deleted : ∃ w state, (site git repr sampleEnv input).Reachable w ∧
    w.repair.thread = some (state, none) ∧ state.status = some .verifiedSuccess ∧ ¬ FinalDiff git w := by
  have hrun : ((tested ++ [answer fixAndDelete.diff]).foldlM (siteStep git repr sampleEnv input)
      (.initial dotted)).map ended =
      some (some (some .verifiedSuccess, some fixAndDelete.diff), some (dotted.base, fix.diff)) := by
    decide +kernel
  obtain ⟨w, hw, hview⟩ := Option.map_eq_some_iff.mp hrun
  obtain ⟨state, hthread, hstatus, hdiff⟩ := ended_thread (congrArg Prod.fst hview)
  refine ⟨w, state, ⟨_, _, ⟨dotted, rfl⟩, .of_foldlM hw⟩, hthread, hstatus, fun h => ?_⟩
  obtain ⟨a, patch, diff, ha, hpatch, hfinal, -, happlied, hframe⟩ := h state hthread hstatus
  obtain rfl := Option.some.inj (hfinal.symm.trans hdiff)
  have hattempt : (w.attempt.map fun a => (a.base, a.patch)) = some (dotted.base, fix.diff) := congrArg Prod.snd hview
  rw [ha] at hattempt
  obtain ⟨hbase, hfix⟩ := Prod.mk.inj (Option.some.inj hattempt)
  have hcontent : patch.content = fix.diff := by
    rw [hfix] at hpatch
    exact fix_content hpatch
  rw [hbase] at happlied hframe
  have hkept := hframe [".env.example"] (by rw [hcontent]; decide +kernel)
  have hgone : (git.applied fixAndDelete.diff dotted.base).map (·.lookup [".env.example"]) = some none := by
    decide +kernel
  rw [happlied, Option.map_some, hkept] at hgone
  exact absurd hgone (by decide +kernel)

theorem mem_source {p : Path} {line : UInt8} : p ∈ source line ↔ p = ["app.py"] := by
  rw [source, Finmap.mem_insert]
  exact or_iff_left Finmap.notMem_empty

theorem ready : Ready git plain.base (createWorkspace plain) fix.diff := by
  have hnames : ∀ p ∈ git.names fix.diff, p = ["app.py"] := by decide +kernel
  have hfiles : ∀ p, (createWorkspace plain).files.lookup p = plain.base.lookup p := by
    intro p
    show (keep copies plain.base).lookup p = _
    rw [lookup_keep]
    by_cases hp : p = ["app.py"]
    · rw [hp]
      decide +kernel
    · have hnone : plain.base.lookup p = none := lookup_eq_none_of_notMem (mem_source.not.mpr hp)
      rw [hnone]
      rfl
  refine ⟨rfl, rfl, fun p _ => hfiles p, ⟨by decide +kernel, fun p hp => ?_⟩, fun p _ q _ hq hmem => ?_, ?_, ?_⟩
  · rw [hnames p hp]
    show ¬ (["app.py"] <+: patchFile ∨ patchFile <+: ["app.py"])
    decide
  · obtain ⟨e, he⟩ := Finmap.mem_iff.mp hmem
    rw [hfiles q] at he
    exact hq (Finmap.mem_iff.mpr ⟨e, he⟩)
  · decide +kernel
  · intro p hp e he
    rw [hnames p hp] at he
    have hentry : plain.base.lookup ["app.py"] = some (.file [49, 10] false) := by decide +kernel
    rw [← Option.some.inj (hentry.symm.trans he)]
    decide

/-- Whether a step is the final answer. -/
def answers : SiteStep → Bool
  | .agent (.node .finalAnswer _) _ => true
  | _ => false

theorem whole_of_not_answers {w : Site} {e : SiteStep} (h : answers e = false) : Whole git w e := by
  unfold Whole
  split
  · exact absurd (show true = false from h) (by decide)
  · trivial

/-- The attempt and the workspace of a run that is to answer. -/
def awaiting (w : Site) : Option (Tree × Repo × String) × Option Int :=
  (w.attempt.map fun a => (a.base, a.before, a.patch), w.workspace.map fun ws => (git.diff ws.repo).returncode)

theorem final_diff_sample : ∃ w state, w.repair.thread = some (state, none) ∧
    state.status = some .verifiedSuccess ∧ state.finalDiff = some fix.diff ∧ FinalDiff git w := by
  have htested : (tested.foldlM (fun w e => if answers e = false then siteStep git repr sampleEnv input w e else none)
      (.initial plain)).map (fun w =>
        (decide (awaiting w = (some (plain.base, createWorkspace plain, fix.diff), some 0)),
          (siteStep git repr sampleEnv input w (answer fix.diff)).map fun w' =>
            decide ((ended w').1 = some (some .verifiedSuccess, some fix.diff)))) = some (true, some true) := by
    decide +kernel
  obtain ⟨w, hw, hview⟩ := Option.map_eq_some_iff.mp htested
  obtain ⟨hawaiting, hanswer⟩ := Prod.mk.inj hview
  obtain ⟨hattempt, hdiff⟩ := Prod.mk.inj (of_decide_eq_true hawaiting)
  obtain ⟨w', hw', hended⟩ := Option.map_eq_some_iff.mp hanswer
  have hrun : ((site git repr sampleEnv input).only (Whole git)).Run (.initial plain) tested w :=
    (System.Run.only_of_foldlM hw).only_imp (I := fun _ => True) (fun _ _ _ _ _ _ => trivial)
      (fun _ _ _ hok => whole_of_not_answers hok) trivial
  have hwhole : Whole git w (answer fix.diff) := by
    refine ⟨fun a ha patch hpatch => ?_, fun ws hws => ?_⟩
    · rw [show w.attempt = some a from ha] at hattempt
      obtain ⟨hbase, hrest⟩ := Prod.mk.inj (Option.some.inj hattempt)
      obtain ⟨hbefore, hfix⟩ := Prod.mk.inj hrest
      rw [hfix] at hpatch
      rw [hbase, hbefore, fix_content hpatch]
      exact ready
    · rw [show w.workspace = some ws from hws] at hdiff
      exact Option.some.inj hdiff
  obtain ⟨state, hthread, hstatus, hfinal⟩ := ended_thread (of_decide_eq_true hended)
  exact ⟨w', state, hthread, hstatus, hfinal, final_diff documented ⟨_, _, ⟨plain, rfl⟩, hrun.snoc ⟨hwhole, hw'⟩⟩⟩

end FinalDiff

end CodeMate.Sandbox
