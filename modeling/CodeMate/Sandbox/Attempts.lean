import CodeMate.Framework.Effect
import CodeMate.Framework.Run
import CodeMate.Sandbox.Workspace

/-!
# Attempts one after the other

A run tries candidate patches in one workspace: each is applied, tested, and
reset before the next. `tryApplyPatch` is `_apply_patch` with the points at which
it raises; where nothing raises it is `applyPatch` (`tryApplyPatch_quiet`).
`Meets` says when an attempt leaves the workspace as it found it: git tracks or
ignores what is there (`Pristine`), and the patch is refused or applied without
a leftover (`Harmless`). `tryApplyPatch_spec` is what such an attempt leaves,
`reset_restores` what the reset makes of it, and `attempts_restore` the result
for every sequence of attempts.
-/

namespace CodeMate.Sandbox

open Framework Effect

/-- Which untracked files `reset --hard` and `clean -fd` leave, and which files `add` refuses; `ignored` is
by the ignore rules in a work tree. -/
structure Git.Leaves (git : Git) (ignored : Tree → Path → Bool) : Prop where
  reset {r : Repo} {head : Tree} {p : Path} : r.head = some head → p ∉ head → r.tracks p = false →
    (∀ q ∈ head, ¬ near p q) → (git.resetHard r).2.files.lookup p = r.files.lookup p
  clean {r : Repo} {p : Path} : r.tracks p = false → ignored r.files p = true →
    (git.clean r).2.files.lookup p = r.files.lookup p
  cleans {r : Repo} {p : Path} : r.tracks p = false → ignored r.files p = false →
    (git.clean r).2.files.lookup p = none
  add {r : Repo} {paths : Finset Path} {p : Path} : p ∈ paths → r.tracks p = false → ignored r.files p = true →
    (git.addIntentToAdd r paths).1.returncode ≠ 0

/-- The commands at which `_apply_patch` can raise. -/
inductive PatchStep
  | inventory
  | writePatch
  | check
  | apply
  | unlink
  | inventoryAfter
  | addIntent
deriving DecidableEq

/-- An attempt: its patch, what the commands do in it, which of them raise, and what one leaves that raises. -/
structure Candidate (ignored : Tree → Path → Bool) where
  git : Git
  documented : git.Documented
  leaves : git.Leaves ignored
  diff : String
  raises : PatchStep → Bool
  leftover : PatchStep → Repo → Repo

variable {ignored : Tree → Path → Bool}

namespace Candidate

variable (a : Candidate ignored) {α : Type}

/-- A command that only reads. -/
def ask (step : PatchStep) (f : Repo → α) : Effect Repo PatchStep α := do
  Effect.check (if a.raises step then some step else none)
  Effect.read f

/-- A command that writes. -/
def act (step : PatchStep) (f : Repo → α × Repo) : Effect Repo PatchStep α := fun ws =>
  if a.raises step then (.error step, a.leftover step ws) else (.ok (f ws).1, (f ws).2)

end Candidate

/-- `git apply`, in the workspace. -/
def gitApply (git : Git) (content : String) (ws : Repo) : Completed × Repo :=
  ((git.apply content ws.files).1, { ws with files := (git.apply content ws.files).2 })

variable (repr : String → String) (a : Candidate ignored)

/-- The end of `_apply_patch`, after `git apply` succeeded. -/
def tryAddNewFiles (before : Finset Path) (result : Completed) (normalized : Bool) :
    Effect Repo PatchStep ApplyResult := do
  let inventory ← a.ask .inventoryAfter (untrackedPaths a.git)
  match inventory with
  | .error inventoryError =>
    return { ok := false, stdout := captured result.stdout, stderr := inventoryError, exitCode := some 1 }
  | .ok after =>
    let addedPaths := after \ before
    let ok : ApplyResult :=
      { ok := true, stdout := captured result.stdout, stderr := captured result.stderr, exitCode := some 0
        patchNormalized := some normalized }
    if addedPaths = ∅ then return ok
    let intent ← a.act .addIntent fun ws => a.git.addIntentToAdd ws addedPaths
    if intent.returncode ≠ 0 then
      return { ok := false
               stdout := captured result.stdout ++ captured intent.stdout
               stderr := captured result.stderr ++ captured intent.stderr
               exitCode := some intent.returncode }
    return ok

/-- From the patch file on. -/
def tryPatch (patch : NormalizedPatch) (before : Finset Path) : Effect Repo PatchStep ApplyResult := do
  a.act .writePatch fun ws => ((), writePatch ws patch.content)
  let normalized := decide (patch.repairedHunks > 0)
  let check ← a.ask .check fun ws => a.git.applyCheck patch.content ws.files
  if check.returncode ≠ 0 then
    a.act .unlink fun ws => ((), unlinkPatch ws ws.files)
    return { ok := false, stdout := captured check.stdout, stderr := captured check.stderr
             exitCode := some check.returncode, patchNormalized := some normalized }
  let result ← a.act .apply (gitApply a.git patch.content)
  a.act .unlink fun ws => ((), unlinkPatch ws ws.files)
  if result.returncode ≠ 0 then
    return { ok := false, stdout := captured result.stdout, stderr := captured result.stderr
             exitCode := some result.returncode, patchNormalized := some normalized }
  tryAddNewFiles a before result normalized

/-- `_apply_patch`, with what it raises. -/
def tryApplyPatch : Effect Repo PatchStep ApplyResult := do
  if a.diff.toList.all isSpace then return { ok := false, stdout := "", stderr := "Empty patch" }
  match normalizeUnifiedDiffHunks a.diff with
  | .error exc =>
    return { ok := false, stdout := "", stderr := "Invalid unified diff: " ++ exc.message repr, exitCode := some 128 }
  | .ok patch =>
    let inventory ← a.ask .inventory (untrackedPaths a.git)
    match inventory with
    | .error inventoryError => return { ok := false, stdout := "", stderr := inventoryError, exitCode := some 1 }
    | .ok before => tryPatch a patch before

/-- An attempt: the patch is applied, and the workspace is reset. -/
def attempt : Effect Repo PatchStep ApplyResult := do
  let result ← tryApplyPatch repr a
  Effect.modify (resetWorkspace a.git)
  return result

/-- Attempts in any workspace, one after the other. -/
def attempts (ignored : Tree → Path → Bool) : System Repo (Candidate ignored) where
  start := fun _ => True
  step ws a ws' := ∃ result, attempt repr a ws = (.ok result, ws')

/-! ## Where nothing raises -/

section Quiet

variable {repr a} {ws : Repo} {α β : Type}

theorem ask_quiet {step : PatchStep} (h : a.raises step = false) (f : Repo → α) (k : α → Effect Repo PatchStep β) :
    (a.ask step f >>= k) ws = k (f ws) ws := by
  simp [Candidate.ask, h, Bind.bind, Effect.bind, Effect.check, Effect.read, Effect.pure]

theorem act_quiet {step : PatchStep} (h : a.raises step = false) (f : Repo → α × Repo) (k : α → Effect Repo PatchStep β) :
    (a.act step f >>= k) ws = k (f ws).1 (f ws).2 := by
  simp [Candidate.act, h, Bind.bind, Effect.bind]

theorem tryAddNewFiles_quiet (h : ∀ step, a.raises step = false) (before : Finset Path) (result : Completed)
    (normalized : Bool) :
    tryAddNewFiles a before result normalized ws =
      (.ok (addNewFiles a.git ws before result normalized).2, (addNewFiles a.git ws before result normalized).1) := by
  rw [tryAddNewFiles, ask_quiet (h _), addNewFiles]
  cases untrackedPaths a.git ws with
  | error inventoryError => rfl
  | ok after =>
    dsimp only
    split
    · rfl
    · rw [act_quiet (h _)]
      split <;> rfl

/-- It is `_apply_patch`. -/
theorem tryApplyPatch_quiet (h : ∀ step, a.raises step = false) :
    tryApplyPatch repr a ws = (.ok (applyPatch a.git repr ws a.diff).2, (applyPatch a.git repr ws a.diff).1) := by
  rw [tryApplyPatch, applyPatch]
  split
  · rfl
  cases normalizeUnifiedDiffHunks a.diff with
  | error exc => rfl
  | ok patch =>
    dsimp only
    rw [ask_quiet (h _)]
    cases untrackedPaths a.git ws with
    | error inventoryError => rfl
    | ok before =>
      dsimp only
      rw [tryPatch, act_quiet (h _), ask_quiet (h _)]
      dsimp only
      split
      · rw [act_quiet (h _)]
        rfl
      · rw [act_quiet (h _), act_quiet (h _)]
        dsimp only
        split
        next hrefused =>
          rw [if_pos (show (a.git.apply patch.content (writePatch ws patch.content).files).1.returncode ≠ 0 from hrefused)]
          rfl
        next happlied =>
          rw [if_neg (show ¬ (a.git.apply patch.content (writePatch ws patch.content).files).1.returncode ≠ 0 from happlied)]
          exact tryAddNewFiles_quiet h _ _ _

end Quiet

/-! ## When an attempt leaves the workspace as it was -/

/-- The work tree has the files of `HEAD` as they were committed, and besides them only untracked files that
git ignores. -/
structure Pristine (ignored : Tree → Path → Bool) (head : Tree) (ws : Repo) : Prop where
  commit : ws.head = some head
  committed : ∀ p ∈ head, ws.files.lookup p = head.lookup p
  others : ∀ p ∈ ws.files, p ∉ head → ws.tracks p = false ∧ ignored ws.files p = true
  /-- No file is above another. -/
  disk : ∀ p ∈ ws.files, ∀ q ∈ ws.files, near p q → p = q

/-- The attempt gets as far as to write the patch file. -/
def Writes (a : Candidate ignored) (ws : Repo) (content : String) : Prop :=
  a.diff.toList.all isSpace = false ∧ (normalizeUnifiedDiffHunks a.diff).toOption.map (·.content) = some content ∧
    a.raises .inventory = false ∧ (a.git.lsFilesOthers ws).isOk = true

/-- What `git apply` says in the workspace with the patch file, and the workspace after it. -/
def checked (git : Git) (ws : Repo) (content : String) : Completed := git.applyCheck content (writePatch ws content).files

def patched (git : Git) (ws : Repo) (content : String) : Completed × Repo :=
  ((git.apply content (writePatch ws content).files).1,
    unlinkPatch ws (git.apply content (writePatch ws content).files).2)

/-- The files that the patch has created are added, and no file that git ignores has changed. -/
structure Accepted (a : Candidate ignored) (head : Tree) (ws : Repo) (content : String) : Prop where
  listing : a.raises .inventoryAfter = false ∧ (a.git.lsFilesOthers (patched a.git ws content).2).isOk = true
  adds : (patched a.git ws content).2.untracked \ ws.untracked ≠ ∅ → a.raises .addIntent = false ∧
    (a.git.addIntentToAdd (patched a.git ws content).2
      ((patched a.git ws content).2.untracked \ ws.untracked)).1.returncode = 0
  apart : patchFile ∈ ws.files → patchFile ∈ head
  kept : ∀ p ∈ ws.files, p ∉ head → (a.git.apply content (writePatch ws content).files).2.lookup p = ws.files.lookup p

/-- Nothing raises while the patch file is there; a refused patch finds no such file, and an accepted one
leaves nothing that the reset does not see. -/
structure Harmless (a : Candidate ignored) (head : Tree) (ws : Repo) (content : String) : Prop where
  write : a.raises .writePatch = false
  check : a.raises .check = false
  unlink : a.raises .unlink = false
  unchecked : (checked a.git ws content).returncode ≠ 0 → patchFile ∉ ws.files
  apply : (checked a.git ws content).returncode = 0 → a.raises .apply = false
  refused : (checked a.git ws content).returncode = 0 → (patched a.git ws content).1.returncode ≠ 0 →
    patchFile ∉ ws.files
  accepted : (checked a.git ws content).returncode = 0 → (patched a.git ws content).1.returncode = 0 →
    Accepted a head ws content

/-- The condition under which an attempt leaves the workspace as it found it. -/
def Meets (ws : Repo) (a : Candidate ignored) : Prop :=
  ∃ head, Pristine ignored head ws ∧ ∀ content, Writes a ws content → Harmless a head ws content

/-- What a patch has left: new files are in the index, and other files that `HEAD` does not have are as before. -/
structure Left (head : Tree) (ws ws' : Repo) : Prop where
  commit : ws'.head = ws.head
  new : ∀ p ∉ head, ws'.tracks p = true → p ∉ ws.files
  same : ∀ p ∉ head, ws'.tracks p = false → ws'.files.lookup p = ws.files.lookup p

/-- `_apply_patch` reports success. -/
def Applied (reply : Except PatchStep ApplyResult) : Prop := ∃ result, reply = .ok result ∧ result.ok = true

section Restores

variable {repr a} {ws ws' : Repo} {head : Tree} {content : String} {git : Git}

theorem Pristine.left (h : Pristine ignored head ws) : Left head ws ws := by
  refine ⟨rfl, fun p hp htracks hmem => ?_, fun _ _ _ => rfl⟩
  rw [(h.others p hmem hp).1] at htracks
  cases htracks

theorem unlink_writePatch (h : patchFile ∉ ws.files) :
    unlinkPatch (writePatch ws content) (writePatch ws content).files = ws := by
  have hfiles : ((writePatch ws content).files.erase patchFile) = ws.files := by
    refine Finmap.ext_lookup fun p => ?_
    by_cases hp : p = patchFile
    · rw [hp, Finmap.lookup_erase, lookup_eq_none_of_notMem h]
    · rw [Finmap.lookup_erase_ne hp, lookup_writePatch hp]
  show ({ ws with files := (writePatch ws content).files.erase patchFile } : Repo) = ws
  rw [hfiles]

/-- The index has what it had, and the files that were not there before. -/
theorem tracks_patchedFrom {p : Path} :
    (patchedFrom git ws content).tracks p = true ↔
      ws.tracks p = true ∨ (p ∈ (patched git ws content).2.files ∧ p ∉ ws.files) := by
  have hnew : p ∈ (patched git ws content).2.untracked \ ws.untracked ↔
      (p ∈ (patched git ws content).2.files ∧ ws.tracks p = false) ∧ ¬ (p ∈ ws.files ∧ ws.tracks p = false) := by
    rw [Finset.mem_sdiff, mem_untracked, mem_untracked]
    rfl
  have htracks : (patchedFrom git ws content).tracks p = true ↔
      ws.tracks p = true ∨ p ∈ (patched git ws content).2.untracked \ ws.untracked := by
    rw [Repo.tracks, Repo.tracks, decide_eq_true_iff, decide_eq_true_iff]
    show p ∈ ws.staged ∨ p ∈ ws.intended ∪ _ ↔ _
    rw [Finset.mem_union, or_assoc]
    rfl
  rw [htracks, hnew]
  cases ws.tracks p <;> simp

theorem Accepted.left (h : Accepted a head ws content) (hpristine : Pristine ignored head ws) :
    Left head ws (patchedFrom a.git ws content) := by
  refine ⟨rfl, fun p hp htracks hmem => ?_, fun p hp htracks => ?_⟩
  · rcases tracks_patchedFrom.mp htracks with hold | hnew
    · rw [(hpristine.others p hmem hp).1] at hold
      cases hold
    · exact hnew.2 hmem
  · have hnot := mt tracks_patchedFrom.mpr (Bool.not_eq_true _ ▸ htracks)
    show ((a.git.apply content (writePatch ws content).files).2.erase patchFile).lookup p = _
    by_cases hmem : p ∈ ws.files
    · have hne : p ≠ patchFile := fun heq => hp (heq ▸ h.apart (heq ▸ hmem))
      rw [Finmap.lookup_erase_ne hne, h.kept p hmem hp]
    · rw [lookup_eq_none_of_notMem hmem]
      exact lookup_eq_none_of_notMem fun hin => hnot (.inr ⟨hin, hmem⟩)

theorem untrackedPaths_ok (hgit : git.Documented) (h : (git.lsFilesOthers ws).isOk = true) :
    untrackedPaths git ws = .ok ws.untracked := by
  rw [untrackedPaths]
  cases hothers : git.lsFilesOthers ws with
  | error stderr =>
    rw [hothers] at h
    cases h
  | ok paths => rw [hgit.others hothers]

/-- The new files are added. -/
theorem Accepted.adds_new (h : Accepted a head ws content) {result : Completed} {normalized : Bool} :
    ∃ reply, tryAddNewFiles a ws.untracked result normalized (patched a.git ws content).2 =
      (.ok reply, patchedFrom a.git ws content) ∧ reply.ok = true := by
  rw [tryAddNewFiles, ask_quiet h.listing.1, untrackedPaths_ok a.documented h.listing.2]
  dsimp only
  by_cases hempty : (patched a.git ws content).2.untracked \ ws.untracked = ∅
  · have hsame : patchedFrom a.git ws content = (patched a.git ws content).2 := by
      show ({ (patched a.git ws content).2 with
        intended := ws.intended ∪ ((patched a.git ws content).2.untracked \ ws.untracked) } : Repo) = _
      rw [hempty, Finset.union_empty]
      rfl
    rw [if_pos hempty, hsame]
    exact ⟨_, rfl, rfl⟩
  · obtain ⟨hraises, hadd⟩ := h.adds hempty
    rw [if_neg hempty, act_quiet hraises, if_neg (not_not.mpr hadd), a.documented.add hadd]
    exact ⟨_, rfl, rfl⟩

theorem Harmless.left (h : Harmless a head ws content) (hpristine : Pristine ignored head ws) {patch : NormalizedPatch}
    (hpatch : patch.content = content) :
    ∃ reply ws', tryPatch a patch ws.untracked ws = (.ok reply, ws') ∧ Left head ws ws' ∧
      (reply.ok = false → ws' = ws) := by
  subst hpatch
  rw [tryPatch, act_quiet h.write, ask_quiet h.check]
  dsimp only
  by_cases hcheck : (a.git.applyCheck patch.content (writePatch ws patch.content).files).returncode = 0
  · rw [if_neg (not_not.mpr hcheck), act_quiet (h.apply hcheck), act_quiet h.unlink]
    dsimp only
    by_cases happly : (gitApply a.git patch.content (writePatch ws patch.content)).1.returncode = 0
    · rw [if_neg (not_not.mpr happly)]
      obtain ⟨reply, hadds, hok⟩ := (h.accepted hcheck happly).adds_new
      refine ⟨reply, _, hadds, (h.accepted hcheck happly).left hpristine, fun hnot => ?_⟩
      rw [hok] at hnot
      cases hnot
    · have hsame : unlinkPatch (gitApply a.git patch.content (writePatch ws patch.content)).2
          (gitApply a.git patch.content (writePatch ws patch.content)).2.files = ws := by
        show unlinkPatch ws (a.git.apply patch.content (writePatch ws patch.content).files).2 = ws
        rw [a.documented.apply_atomic happly]
        exact unlink_writePatch (h.refused hcheck happly)
      rw [if_pos happly, hsame]
      exact ⟨_, ws, rfl, hpristine.left, fun _ => rfl⟩
  · rw [if_pos hcheck, act_quiet h.unlink]
    dsimp only
    rw [unlink_writePatch (h.unchecked hcheck)]
    exact ⟨_, ws, rfl, hpristine.left, fun _ => rfl⟩

variable (repr) in
/-- What `_apply_patch` leaves. -/
theorem tryApplyPatch_left (hpristine : Pristine ignored head ws)
    (hmeets : ∀ content, Writes a ws content → Harmless a head ws content) :
    ∃ reply ws', tryApplyPatch repr a ws = (reply, ws') ∧ Left head ws ws' ∧ (¬ Applied reply → ws' = ws) := by
  have hsame (reply : Except PatchStep ApplyResult) (heq : tryApplyPatch repr a ws = (reply, ws)) :
      ∃ reply ws', tryApplyPatch repr a ws = (reply, ws') ∧ Left head ws ws' ∧ (¬ Applied reply → ws' = ws) :=
    ⟨reply, ws, heq, hpristine.left, fun _ => rfl⟩
  by_cases hblank : a.diff.toList.all isSpace = true
  · exact hsame (.ok _) (by rw [tryApplyPatch, if_pos hblank]; rfl)
  cases hnormalized : normalizeUnifiedDiffHunks a.diff with
  | error exc =>
    exact hsame (.ok _) (by rw [tryApplyPatch, if_neg hblank, hnormalized]; rfl)
  | ok patch =>
    by_cases hraises : a.raises .inventory = true
    · refine hsame (.error .inventory) ?_
      rw [tryApplyPatch, if_neg hblank, hnormalized]
      simp [Candidate.ask, hraises, Bind.bind, Effect.bind, Effect.check, Effect.ofExcept]
    · have hquiet := Bool.not_eq_true _ ▸ hraises
      by_cases hothers : (a.git.lsFilesOthers ws).isOk = true
      · have hask : tryApplyPatch repr a ws = tryPatch a patch ws.untracked ws := by
          rw [tryApplyPatch, if_neg hblank, hnormalized]
          exact (ask_quiet hquiet _ _).trans (by rw [untrackedPaths_ok a.documented hothers])
        have hwrites : Writes a ws patch.content :=
          ⟨Bool.not_eq_true _ ▸ hblank, by rw [hnormalized]; rfl, hquiet, hothers⟩
        obtain ⟨reply, ws', heq, hleft, hfailed⟩ := (hmeets _ hwrites).left hpristine rfl
        refine ⟨.ok reply, ws', hask.trans heq, hleft, fun hnot => hfailed ?_⟩
        exact Bool.eq_false_iff.mpr fun hok => hnot ⟨reply, rfl, hok⟩
      · obtain ⟨error, herror⟩ : ∃ error, untrackedPaths a.git ws = .error error := by
          rw [untrackedPaths]
          cases hls : a.git.lsFilesOthers ws with
          | error stderr => exact ⟨_, rfl⟩
          | ok paths =>
            rw [hls] at hothers
            exact absurd rfl hothers
        refine hsame (.ok { ok := false, stdout := "", stderr := error, exitCode := some 1 }) ?_
        rw [tryApplyPatch, if_neg hblank, hnormalized]
        refine (ask_quiet hquiet _ _).trans ?_
        rw [herror]
        rfl

/-- The reset makes the work tree what it was, and leaves the index with `HEAD`. -/
theorem reset_restores (hgit : git.Documented) (hleaves : git.Leaves ignored) (hpristine : Pristine ignored head ws)
    (hleft : Left head ws ws') :
    (resetWorkspace git ws').files = ws.files ∧ Pristine ignored head (resetWorkspace git ws') := by
  have hcommit : ws'.head = some head := hleft.commit.trans hpristine.commit
  obtain ⟨hhead, hstaged, hintended, hcommitted, htracked, huntracked⟩ := hgit.reset hcommit
  have htracks (p : Path) : (git.resetHard ws').2.tracks p = true ↔ p ∈ head := by
    rw [Repo.tracks, hstaged, hintended, decide_eq_true_iff]
    exact or_iff_left (Finset.notMem_empty p)
  have hin {q : Path} (hq : q ∈ head) : q ∈ ws.files := by
    obtain ⟨e, he⟩ := Finmap.mem_iff.mp hq
    exact Finmap.mem_iff.mpr ⟨e, (hpristine.committed q hq).trans he⟩
  -- The reset alone restores the files: those that the patch has created are in the index.
  have hreset : (git.resetHard ws').2.files = ws.files := by
    refine Finmap.ext_lookup fun p => ?_
    by_cases hp : p ∈ head
    · rw [hcommitted p hp, hpristine.committed p hp]
    cases ht : ws'.tracks p with
    | true => rw [htracked p hp ht, lookup_eq_none_of_notMem (hleft.new p hp ht)]
    | false =>
      rw [← hleft.same p hp ht]
      by_cases hmem : p ∈ ws.files
      · refine hleaves.reset hcommit hp ht fun q hq hnear => hp ?_
        rw [hpristine.disk p hmem q (hin hq) hnear]
        exact hq
      · have hnone : ws'.files.lookup p = none := (hleft.same p hp ht).trans (lookup_eq_none_of_notMem hmem)
        rcases huntracked p hp (by rw [ht]; decide) with hkept | hgone
        · exact hkept
        · rw [hgone, hnone]
  obtain ⟨hcleanHead, hcleanStaged, hcleanIntended, hcleanTracked, hcleanUntracked⟩ :=
    hgit.clean (r := (git.resetHard ws').2)
  have hfiles : (resetWorkspace git ws').files = ws.files := by
    refine Finmap.ext_lookup fun p => ?_
    show (git.clean (git.resetHard ws').2).2.files.lookup p = _
    by_cases hp : p ∈ head
    · rw [hcleanTracked p ((htracks p).mpr hp), hreset]
    have ht : (git.resetHard ws').2.tracks p = false := Bool.eq_false_iff.mpr (mt (htracks p).mp hp)
    by_cases hmem : p ∈ ws.files
    · rw [hleaves.clean ht (by rw [hreset]; exact (hpristine.others p hmem hp).2), hreset]
    · rcases hcleanUntracked p (by rw [ht]; decide) with hkept | hgone
      · rw [hkept, hreset]
      · rw [hgone, lookup_eq_none_of_notMem hmem]
  refine ⟨hfiles, hcleanHead.trans hhead, ?_, fun p hmem hp => ⟨?_, ?_⟩, ?_⟩
  · rw [hfiles]
    exact hpristine.committed
  · have ht : (git.resetHard ws').2.tracks p = false := Bool.eq_false_iff.mpr (mt (htracks p).mp hp)
    rw [← ht, Repo.tracks, Repo.tracks, ← hcleanStaged, ← hcleanIntended]
    rfl
  · rw [hfiles] at hmem ⊢
    exact (hpristine.others p hmem hp).2
  · rw [hfiles]
    exact hpristine.disk

/-! ## Every sequence of attempts -/

/-- A patch that is not applied leaves the workspace as it was, and so does the reset after the patch. -/
structure Restores (repr : String → String) (a : Candidate ignored) (ws : Repo) : Prop where
  failed : ∀ reply ws', tryApplyPatch repr a ws = (reply, ws') → ¬ Applied reply → ws'.files = ws.files
  reset : ∀ reply ws', tryApplyPatch repr a ws = (reply, ws') → (resetWorkspace a.git ws').files = ws.files

theorem Meets.restores (h : Meets ws a) : Restores repr a ws := by
  obtain ⟨head, hpristine, hmeets⟩ := h
  obtain ⟨reply, ws', heq, hleft, hfailed⟩ := tryApplyPatch_left repr hpristine hmeets
  refine ⟨fun reply₁ ws₁ h₁ hnot => ?_, fun reply₁ ws₁ h₁ => ?_⟩
  · obtain ⟨rfl, rfl⟩ := Prod.mk.inj (heq.symm.trans h₁)
    rw [hfailed hnot]
  · obtain ⟨rfl, rfl⟩ := Prod.mk.inj (heq.symm.trans h₁)
    exact (reset_restores a.documented a.leaves hpristine hleft).1

end Restores

/-- In every sequence of attempts that meet the condition, each starts from the files that the first started
from, and leaves them. -/
theorem attempts_restore {repr : String → String} {ws w : Repo} {as : List (Candidate ignored)} {a : Candidate ignored}
    (hrun : ((attempts repr ignored).only Meets).Run ws as w) (hmeets : Meets w a) :
    w.files = ws.files ∧ Restores repr a w := by
  refine ⟨?_, hmeets.restores⟩
  have hsame : ∀ u a v, ((attempts repr ignored).only Meets).step u a v → v.files = u.files := by
    rintro u a v ⟨hmeets, result, hattempt⟩
    obtain ⟨result', u', happlied, hrest⟩ := bind_returns hattempt
    obtain ⟨-, rfl⟩ := Prod.mk.inj hrest
    exact hmeets.restores.reset _ _ happlied
  exact hrun.rel (I := fun _ => True) (R := fun u v => v.files = u.files) (fun _ _ _ _ _ => trivial) (fun _ => rfl)
    (fun s t u h h' => by rw [h', h]) (fun u a v _ hstep => hsame u a v hstep) trivial

namespace Sample

/-- One of the patches, with the file that it is for. -/
structure Edit where
  diff : String
  path : Path
  before : Option Entry
  after : Entry

def changesApp : Edit :=
  ⟨"--- a/app.py\n+++ b/app.py\n@@ -1,1 +1,1 @@\n-1\n+2\n", ["app.py"], some (.file [49, 10] false), .file [50, 10] false⟩

def createsLog : Edit :=
  ⟨"--- /dev/null\n+++ b/debug.log\n@@ -0,0 +1,1 @@\n+2\n", ["debug.log"], none, .file [50, 10] false⟩

def edit (patch : String) : Option Edit := [changesApp, createsLog].find? fun e => e.diff = patch

def done : Completed := ⟨0, "", ""⟩

/-- The rule `*.log` of the tree's `.gitignore`. -/
def ignores (t : Tree) (p : Path) : Bool :=
  t.lookup [".gitignore"] = some (.file [42, 46, 108, 111, 103, 10] false) ∧ p = ["debug.log"]

def apply (patch : String) (t : Tree) : Completed × Tree :=
  match edit patch with
  | none => (⟨128, "", "error: No valid patches in input\n"⟩, t)
  | some e => if t.lookup e.path = e.before then (done, t.insert e.path e.after) else (⟨1, "", "error\n"⟩, t)

/-- The commands, with the two patches. -/
def git : Git where
  lsFilesOthers r := .ok r.untracked
  applyCheck patch t := (apply patch t).1
  apply := apply
  names patch := ((edit patch).map (·.path)).toFinset
  addIntentToAdd r paths :=
    if (paths.filter fun p => r.tracks p = false ∧ ignores r.files p = true) = ∅ then
      (done, { r with intended := r.intended ∪ paths })
    else (⟨1, "", "The following paths are ignored by one of your .gitignore files\n"⟩, r)
  diff r := if r.staged = r.trackedFiles then done else ⟨128, "", ""⟩
  resetHard r :=
    match r.head with
    | none => (⟨128, "", ""⟩, r)
    | some head =>
      (done, { head := some head, staged := head, intended := ∅, files := head ∪ keep (fun p _ => !r.tracks p) r.files })
  clean r := (done, { r with files := keep (fun p _ => r.tracks p || ignores r.files p) r.files })

theorem lookup_reset {r : Repo} {head : Tree} (h : r.head = some head) (p : Path) :
    (git.resetHard r).2.files.lookup p =
      if p ∈ head then head.lookup p else if r.tracks p then none else r.files.lookup p := by
  have hfiles : (git.resetHard r).2.files = head ∪ keep (fun p _ => !r.tracks p) r.files := by
    simp only [git, h]
  rw [hfiles]
  split
  next hp => rw [Finmap.lookup_union_left hp]
  next hp =>
    rw [Finmap.lookup_union_right hp, lookup_keep]
    cases r.tracks p <;> cases r.files.lookup p <;> rfl

theorem lookup_clean (r : Repo) (p : Path) :
    (git.clean r).2.files.lookup p = if r.tracks p || ignores r.files p then r.files.lookup p else none := by
  show (keep (fun p _ => r.tracks p || ignores r.files p) r.files).lookup p = _
  rw [lookup_keep]
  cases r.tracks p || ignores r.files p <;> cases r.files.lookup p <;> rfl

theorem edit_noCR {patch : String} {e : Edit} (h : edit patch = some e) : e.after.hasCR = false := by
  have hmem := List.mem_of_find?_eq_some h
  simp only [List.mem_cons, List.not_mem_nil, or_false] at hmem
  rcases hmem with rfl | rfl <;> decide

theorem documented : git.Documented where
  others h := (Except.ok.inj h).symm
  apply_atomic {patch t} h := by
    show (apply patch t).2 = t
    replace h : (apply patch t).1.returncode ≠ 0 := h
    unfold apply at h ⊢
    split
    · rfl
    · split
      · next hbefore =>
        simp only [*, if_true] at h
        exact absurd rfl h
      · rfl
  apply_frame {patch t p} h := by
    replace h : p ∉ ((edit patch).map (·.path)).toFinset := h
    show (apply patch t).2.lookup p = t.lookup p
    unfold apply
    split
    · rfl
    · next e he =>
      rw [he] at h
      split
      · exact Finmap.lookup_insert_of_ne _ (by simpa using h)
      · rfl
  apply_local {patch t u} h hsame := by
    replace h : (apply patch t).1.returncode = 0 := h
    show (apply patch u).1.returncode = 0 ∧ ∀ p ∈ ((edit patch).map (·.path)).toFinset,
      (apply patch u).2.lookup p = (apply patch t).2.lookup p
    replace hsame : ∀ p ∈ ((edit patch).map (·.path)).toFinset, ∀ q, near p q → t.lookup q = u.lookup q := hsame
    unfold apply at h ⊢
    split at h
    · cases h
    next e he =>
    rw [he] at hsame
    have heq : t.lookup e.path = u.lookup e.path := hsame e.path (by simp) e.path (near_refl _)
    split at h
    · next hbefore =>
      simp only [he, hbefore, ← heq, if_true]
      refine ⟨rfl, fun p hp => ?_⟩
      obtain rfl : p = e.path := by simpa using hp
      rw [Finmap.lookup_insert, Finmap.lookup_insert]
    · cases h
  apply_cr {patch t p e'} _ hbefore hafter := by
    replace hafter : (apply patch t).2.lookup p = some e' := hafter
    unfold apply at hafter
    split at hafter
    · exact hbefore e' hafter
    next e he =>
    split at hafter
    · by_cases hp : p = e.path
      · rw [hp, Finmap.lookup_insert] at hafter
        exact Option.some.inj hafter ▸ edit_noCR he
      · rw [Finmap.lookup_insert_of_ne _ hp] at hafter
        exact hbefore e' hafter
    · exact hbefore e' hafter
  add {r paths} h := by
    simp only [git] at h ⊢
    split
    · rfl
    · next hne =>
      rw [if_neg hne] at h
      cases h
  diff_applies {r} h := by
    simp only [git] at h ⊢
    split at h
    · next hsame =>
      rw [if_pos hsame, Git.applied]
      exact (if_pos rfl).trans (congrArg some hsame)
    · cases h
  diff_cr {r} h hcr := by
    simp only [git] at h hcr
    split at h
    · next hsame =>
      rw [if_pos hsame] at hcr
      cases hcr
    · cases h
  reset_unborn {r} h := by simp only [git, h]
  reset {r head} h := by
    refine ⟨?_, ?_, ?_, fun p hp => ?_, fun p hp ht => ?_, fun p hp ht => .inl ?_⟩
    · simp only [git, h]
    · simp only [git, h]
    · simp only [git, h]
    · rw [lookup_reset h, if_pos hp]
    · rw [lookup_reset h, if_neg hp, if_pos ht]
    · rw [lookup_reset h, if_neg hp, if_neg ht]
  clean {r} := by
    refine ⟨rfl, rfl, rfl, fun p ht => ?_, fun p ht => ?_⟩
    · rw [lookup_clean, ht]
      rfl
    · rw [lookup_clean]
      split
      · exact .inl rfl
      · exact .inr rfl

theorem leaves : git.Leaves ignores where
  reset h hp ht _ := by rw [lookup_reset h, if_neg hp, ht]; rfl
  clean ht hi := by rw [lookup_clean, ht, hi]; rfl
  cleans ht hi := by rw [lookup_clean, ht, hi]; rfl
  add {r paths p} hp ht hi := by
    have hne : (paths.filter fun p => r.tracks p = false ∧ ignores r.files p = true) ≠ ∅ :=
      Finset.ne_empty_of_mem (Finset.mem_filter.mpr ⟨hp, ht, hi⟩)
    simp only [git, if_neg hne]
    decide

/-- An attempt in which nothing raises. -/
def candidate (diff : String) : Candidate ignores :=
  { git, documented, leaves, diff, raises := fun _ => false, leftover := fun _ ws => ws }

def base : Tree :=
  ((∅ : Tree).insert [".gitignore"] (.file [42, 46, 108, 111, 103, 10] false)).insert ["app.py"] (.file [49, 10] false)

/-- A clean checkout. -/
def workspace : Repo := { head := some base, staged := base, intended := ∅, files := base }

theorem mem_base {p : Path} : p ∈ base ↔ p = ["app.py"] ∨ p = [".gitignore"] := by
  rw [base, Finmap.mem_insert, Finmap.mem_insert]
  exact or_congr Iff.rfl (or_iff_left Finmap.notMem_empty)

theorem pristine : Pristine ignores base workspace where
  commit := rfl
  committed _ _ := rfl
  others p hmem hp := absurd hmem hp
  disk p hp q hq hnear := by
    have hcases : ∀ p ∈ [["app.py"], [".gitignore"]], ∀ q ∈ [["app.py"], [".gitignore"]],
        p.isPrefixOf q ∨ q.isPrefixOf p → p = q := by decide
    refine hcases p ?_ q ?_ ?_
    · simpa using mem_base.mp hp
    · simpa using mem_base.mp hq
    · simpa [near, List.isPrefixOf_iff_prefix] using hnear

theorem harmless : Meets workspace (candidate changesApp.diff) := by
  refine ⟨base, pristine, fun content hwrites => ?_⟩
  obtain rfl : changesApp.diff = content := by
    have hcontent : (normalizeUnifiedDiffHunks changesApp.diff).toOption.map (·.content) = some changesApp.diff := by
      decide +kernel
    exact Option.some.inj (hcontent.symm.trans hwrites.2.1)
  have happlies : (patched git workspace changesApp.diff).1.returncode = 0 := by decide +kernel
  refine ⟨rfl, rfl, rfl, fun h => absurd ?_ h, fun _ => rfl, fun _ h => absurd happlies h, fun _ _ => ?_⟩
  · exact happlies
  · refine ⟨⟨rfl, rfl⟩, fun h => absurd ?_ h, fun hmem => hmem, fun p hp hnot => absurd hp hnot⟩
    decide +kernel

end Sample

/-- The file that the patch creates is ignored: adding it fails, and the reset leaves it for the next attempt. -/
theorem ignored_file_stays :
    Pristine Sample.ignores Sample.base Sample.workspace ∧
      ¬ Restores (fun text => text) (Sample.candidate Sample.createsLog.diff) Sample.workspace ∧
      ["debug.log"] ∈ (attempt (fun text => text) (Sample.candidate Sample.createsLog.diff) Sample.workspace).2.files := by
  refine ⟨Sample.pristine, fun h => ?_, by decide +kernel⟩
  have hfiles := h.reset (tryApplyPatch (fun text => text) (Sample.candidate Sample.createsLog.diff) Sample.workspace).1
    (tryApplyPatch (fun text => text) (Sample.candidate Sample.createsLog.diff) Sample.workspace).2 rfl
  have hstays : ["debug.log"] ∈ (resetWorkspace Sample.git (tryApplyPatch (fun text => text)
      (Sample.candidate Sample.createsLog.diff) Sample.workspace).2).files := by decide +kernel
  have hgone : ["debug.log"] ∉ Sample.workspace.files := by decide
  exact hgone (hfiles ▸ hstays)

/-- Two attempts with a patch of a tracked file. -/
theorem attempts_restore_sample :
    ∃ w, ((attempts (fun text => text) Sample.ignores).only Meets).Run Sample.workspace
        [Sample.candidate Sample.changesApp.diff] w ∧
      w.files = Sample.workspace.files ∧ Restores (fun text => text) (Sample.candidate Sample.changesApp.diff) w := by
  have hsecond : (attempt (fun text => text) (Sample.candidate Sample.changesApp.diff) Sample.workspace).2 =
      Sample.workspace := by decide +kernel
  have hok : (attempt (fun text => text) (Sample.candidate Sample.changesApp.diff) Sample.workspace).1 =
      .ok { ok := true, stdout := "", stderr := "", exitCode := some 0, patchNormalized := some false } := by
    decide +kernel
  have hrun : ((attempts (fun text => text) Sample.ignores).only Meets).Run Sample.workspace
      [Sample.candidate Sample.changesApp.diff] Sample.workspace :=
    .single ⟨Sample.harmless, _, Prod.ext hok hsecond⟩
  exact ⟨Sample.workspace, hrun, attempts_restore hrun Sample.harmless⟩

end CodeMate.Sandbox
