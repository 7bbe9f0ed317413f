import CodeMate.Framework.Json
import CodeMate.Sandbox.Git
import CodeMate.Sandbox.Patches

/-!
# The workspace of a run

The operations of `SandboxService` on a run's workspace: it is copied from the
indexed checkout with a filter on names (`createWorkspace`), patched
(`applyPatch`), compared with its index (`gitDiff`) and reset
(`resetWorkspace`); a test command may write files that git does not track
(`runTests`).

`applyPatch_patched` says what an applied patch leaves in a workspace that is
`Ready` for it: the base tree with the patch, and `gitDiff_patched` that the
diff then makes of the base tree what the patch makes of it.
-/

namespace CodeMate.Sandbox

open Framework

/-- The checkout of an indexed repository: a commit, and the ref that its `HEAD` names. -/
structure Checkout where
  base : Tree
  headRef : Path
deriving DecidableEq

/-- `IGNORED_NAMES`. -/
def ignoredNames : List String :=
  ["node_modules", "dist", "build", ".next", "coverage", ".env", ".env.local", ".env.development", ".env.production"]

/-- Whether `_ignore` drops a name. -/
def ignoresName (name : String) : Bool := name ∈ ignoredNames ∨ ".env".toList <+: name.toList

/-- Whether a file is copied: no directory on its path is dropped, and it is no symbolic link. -/
def copies (p : Path) (e : Entry) : Bool :=
  p.all (fun name => !ignoresName name) && match e with
    | .file .. => true
    | .symlink _ => false

/-- `create_workspace`, from a clean checkout. The filter also applies inside `.git`. -/
def createWorkspace (checkout : Checkout) : Repo where
  head := if checkout.headRef.all fun name => !ignoresName name then some checkout.base else none
  staged := checkout.base
  intended := ∅
  files := keep copies checkout.base

/-- `io.TextIOWrapper` with universal newlines. -/
def universalNewlines : List Char → List Char
  | [] => []
  | '\r' :: '\n' :: cs => '\n' :: universalNewlines cs
  | '\r' :: cs => '\n' :: universalNewlines cs
  | c :: cs => c :: universalNewlines cs

/-- An output that `subprocess.run(…, text=True)` captured. -/
def captured (output : String) : String := String.ofList (universalNewlines output.toList)

/-- `str.isspace`. -/
def isSpace (c : Char) : Bool :=
  c ∈ ['\t', '\n', '\x0b', '\x0c', '\r', '\x1c', '\x1d', '\x1e', '\x1f', ' ', '\u0085', '\u00a0', '\u1680', '\u2028',
    '\u2029', '\u202f', '\u205f', '\u3000'] ∨ (0x2000 ≤ c.toNat ∧ c.toNat ≤ 0x200a)

/-- What `apply_patch` returns. -/
structure ApplyResult where
  ok : Bool
  stdout : String
  stderr : String
  exitCode : Option Int := none
  patchNormalized : Option Bool := none
deriving DecidableEq

def ApplyResult.toJson (r : ApplyResult) : Json :=
  .obj ([("ok", .bool r.ok), ("stdout", .str r.stdout), ("stderr", .str r.stderr)] ++
    (r.exitCode.map fun code => ("exit_code", Json.num code)).toList ++
    (r.patchNormalized.map fun b => ("patch_normalized", Json.bool b)).toList)

section

variable (git : Git) (repr : String → String)

/-- `_untracked_paths`: the paths, or the error. -/
def untrackedPaths (ws : Repo) : Except String (Finset Path) :=
  match git.lsFilesOthers ws with
  | .ok paths => .ok paths
  | .error stderr => .error (if stderr = "" then "Failed to inspect untracked sandbox files" else captured stderr)

/-- The file that holds the patch while it is applied. -/
def patchFile : Path := [".codemate.patch"]

/-- The workspace with the patch file. -/
def writePatch (ws : Repo) (content : String) : Repo :=
  { ws with files := ws.files.insert patchFile (.file content.toUTF8.toList false) }

/-- The workspace with the files that `git apply` left, without the patch file. -/
def unlinkPatch (ws : Repo) (files : Tree) : Repo := { ws with files := files.erase patchFile }

/-- The end of `_apply_patch`, after `git apply` succeeded: the files that the patch
created are added to the index as intended. -/
def addNewFiles (ws : Repo) (before : Finset Path) (result : Completed) (normalized : Bool) : Repo × ApplyResult :=
  match untrackedPaths git ws with
  | .error inventoryError =>
    (ws, { ok := false, stdout := captured result.stdout, stderr := inventoryError, exitCode := some 1 })
  | .ok after =>
    let addedPaths := after \ before
    let ok : ApplyResult :=
      { ok := true, stdout := captured result.stdout, stderr := captured result.stderr, exitCode := some 0
        patchNormalized := some normalized }
    if addedPaths = ∅ then (ws, ok)
    else
      let (intent, ws) := git.addIntentToAdd ws addedPaths
      if intent.returncode ≠ 0 then
        (ws, { ok := false
               stdout := captured result.stdout ++ captured intent.stdout
               stderr := captured result.stderr ++ captured intent.stderr
               exitCode := some intent.returncode })
      else (ws, ok)

/-- `_apply_patch`. -/
def applyPatch (ws : Repo) (diff : String) : Repo × ApplyResult :=
  if diff.toList.all isSpace then (ws, { ok := false, stdout := "", stderr := "Empty patch" })
  else match normalizeUnifiedDiffHunks diff with
    | .error exc =>
      (ws, { ok := false, stdout := "", stderr := "Invalid unified diff: " ++ exc.message repr, exitCode := some 128 })
    | .ok patch =>
      match untrackedPaths git ws with
      | .error inventoryError => (ws, { ok := false, stdout := "", stderr := inventoryError, exitCode := some 1 })
      | .ok before =>
        let files := (writePatch ws patch.content).files
        let normalized := decide (patch.repairedHunks > 0)
        let check := git.applyCheck patch.content files
        if check.returncode ≠ 0 then
          (unlinkPatch ws files,
            { ok := false, stdout := captured check.stdout, stderr := captured check.stderr
              exitCode := some check.returncode, patchNormalized := some normalized })
        else
          let (result, files) := git.apply patch.content files
          if result.returncode ≠ 0 then
            (unlinkPatch ws files,
              { ok := false, stdout := captured result.stdout, stderr := captured result.stderr
                exitCode := some result.returncode, patchNormalized := some normalized })
          else addNewFiles git (unlinkPatch ws files) before result normalized

/-- `_git_diff`. -/
def gitDiff (ws : Repo) : String :=
  let result := git.diff ws
  if result.returncode = 0 then captured result.stdout else captured result.stderr

/-- `_reset_workspace`, on the files. -/
def resetWorkspace (ws : Repo) : Repo := (git.clean (git.resetHard ws).2).2

end

/-- A test command that leaves the files `written`, but does not write to tracked files. -/
def runTests (ws : Repo) (written : Tree) : Repo :=
  { ws with files := ws.trackedFiles ∪ keep (fun p _ => !ws.tracks p) written }

/-! ## What an applied patch leaves -/

variable {git : Git} {repr : String → String} {ws : Repo} {base : Tree} {diff : String}

/-- A workspace in which a patch does what it does to the base tree, and the diff says so. -/
structure Ready (git : Git) (base : Tree) (ws : Repo) (content : String) : Prop where
  staged : ws.staged = base
  intended : ws.intended = ∅
  files : ∀ p ∈ base, ws.files.lookup p = base.lookup p
  apart : patchFile ∉ base ∧ ∀ p ∈ git.names content, ¬ near p patchFile
  /-- No untracked file is in the way of the patch. -/
  fresh : ∀ p ∈ git.names content, ∀ q, near p q → q ∉ base → q ∉ ws.files
  noCR : '\r' ∉ content.toList ∧ ∀ p ∈ git.names content, ∀ e, base.lookup p = some e → e.hasCR = false

/-- The tracked files are those of the base tree with the patch. -/
structure Patched (git : Git) (base : Tree) (content : String) (ws : Repo) : Prop where
  applies : (git.apply content base).1.returncode = 0
  staged : ws.staged = base
  files : ws.trackedFiles = (git.apply content base).2

/-- A workspace in which a patch was applied. -/
def patchedFrom (git : Git) (ws : Repo) (content : String) : Repo :=
  let patched := unlinkPatch ws (git.apply content (writePatch ws content).files).2
  { patched with intended := ws.intended ∪ (patched.untracked \ ws.untracked) }

theorem addNewFiles_ok (hgit : git.Documented) {before : Finset Path} {result : Completed} {normalized : Bool}
    (h : (addNewFiles git ws before result normalized).2.ok = true) :
    (addNewFiles git ws before result normalized).1 =
      { ws with intended := ws.intended ∪ (ws.untracked \ before) } := by
  unfold addNewFiles at h ⊢
  unfold untrackedPaths at h ⊢
  cases hothers : git.lsFilesOthers ws with
  | error stderr =>
    rw [hothers] at h
    cases h
  | ok after =>
    rw [hothers] at h
    obtain rfl := hgit.others hothers
    dsimp only at h ⊢
    split at h
    · next hempty =>
      rw [if_pos hempty, hempty, Finset.union_empty]
    · next hadded =>
      rw [if_neg hadded]
      split at h
      · cases h
      · next hok =>
        rw [if_neg hok]
        exact hgit.add (not_not.mp hok)

/-- What a successful `apply_patch` did. -/
theorem applyPatch_ok (hgit : git.Documented) (h : (applyPatch git repr ws diff).2.ok = true) :
    ∃ patch, normalizeUnifiedDiffHunks diff = .ok patch ∧ diff.toList.all isSpace = false ∧
      (git.apply patch.content (writePatch ws patch.content).files).1.returncode = 0 ∧
      (applyPatch git repr ws diff).1 = patchedFrom git ws patch.content := by
  unfold applyPatch at h ⊢
  split at h
  · cases h
  next hblank =>
  rw [if_neg hblank]
  cases hnormalized : normalizeUnifiedDiffHunks diff with
  | error exc =>
    rw [hnormalized] at h
    cases h
  | ok patch =>
    rw [hnormalized] at h
    refine ⟨patch, rfl, Bool.eq_false_iff.mpr hblank, ?_⟩
    unfold untrackedPaths at h ⊢
    cases hothers : git.lsFilesOthers ws with
    | error stderr =>
      rw [hothers] at h
      cases h
    | ok before =>
      rw [hothers] at h
      obtain rfl := hgit.others hothers
      dsimp only at h ⊢
      split at h
      · cases h
      next hcheck =>
      rw [if_neg hcheck]
      split at h
      · cases h
      next happly =>
      rw [if_neg happly]
      exact ⟨not_not.mp happly, addNewFiles_ok hgit h⟩

theorem lookup_writePatch {content : String} {p : Path} (h : p ≠ patchFile) :
    (writePatch ws content).files.lookup p = ws.files.lookup p := Finmap.lookup_insert_of_ne _ h

theorem lookup_eq_none_of_notMem {t : Tree} {p : Path} (h : p ∉ t) : t.lookup p = none := Finmap.lookup_eq_none.mpr h

theorem Ready.tracks {content : String} (h : Ready git base ws content) (p : Path) :
    ws.tracks p = true ↔ p ∈ base := by
  rw [Repo.tracks, h.staged, h.intended, decide_eq_true_iff]
  exact or_iff_left (Finset.notMem_empty p)

/-- The index after a patch has the base tree, and the files that the patch created. -/
theorem Ready.patched_tracks {content : String} (h : Ready git base ws content) (p : Path) :
    (patchedFrom git ws content).tracks p = true ↔
      p ∈ base ∨ p ∈ (patchedFrom git ws content).files ∧ p ∉ ws.files := by
  have htracks : ∀ files : Tree, p ∈ ({ ws with files } : Repo).untracked ↔ p ∈ files ∧ p ∉ base := fun files => by
    rw [mem_untracked, ← Bool.not_eq_true]
    exact and_congr Iff.rfl (not_congr (h.tracks p))
  have hintended : p ∈ (patchedFrom git ws content).intended ↔
      (p ∈ (patchedFrom git ws content).files ∧ p ∉ base) ∧ ¬ (p ∈ ws.files ∧ p ∉ base) := by
    show p ∈ ws.intended ∪ (_ \ _) ↔ _
    rw [h.intended, Finset.empty_union, Finset.mem_sdiff]
    exact and_congr (htracks _) (not_congr (htracks ws.files))
  rw [Repo.tracks, decide_eq_true_iff, hintended]
  have hstaged : p ∈ (patchedFrom git ws content).staged ↔ p ∈ base := by rw [← h.staged]; rfl
  rw [hstaged]
  tauto

/-- An applied patch leaves, of the tracked files, the base tree with the patch. -/
theorem Ready.patched (hgit : git.Documented) {content : String} (h : Ready git base ws content)
    (happly : (git.apply content (writePatch ws content).files).1.returncode = 0) :
    Patched git base content (patchedFrom git ws content) := by
  have hnone {q : Path} (hq : q ∉ base) : base.lookup q = none := lookup_eq_none_of_notMem hq
  -- What the patch reads is what it reads of the base tree.
  have hreads : ∀ p ∈ git.names content, ∀ q, near p q →
      (writePatch ws content).files.lookup q = base.lookup q := by
    intro p hp q hq
    rw [lookup_writePatch fun heq => h.apart.2 p hp (heq ▸ hq)]
    by_cases hb : q ∈ base
    · exact h.files q hb
    · rw [hnone hb, lookup_eq_none_of_notMem (h.fresh p hp q hq hb)]
  obtain ⟨hok, hlocal⟩ := hgit.apply_local happly hreads
  refine ⟨hok, h.staged, Finmap.ext_lookup fun p => ?_⟩
  rw [lookup_trackedFiles]
  have hfiles : p ≠ patchFile → (patchedFrom git ws content).files.lookup p =
      (git.apply content (writePatch ws content).files).2.lookup p := fun hne => Finmap.lookup_erase_ne hne
  by_cases hp : p ∈ git.names content
  · have hne : p ≠ patchFile := fun heq => h.apart.2 p hp (heq ▸ near_refl p)
    rw [hlocal p hp, ← hfiles hne]
    split
    · rfl
    · next htracks =>
      rw [h.patched_tracks, not_or] at htracks
      refine (lookup_eq_none_of_notMem fun hmem => ?_).symm
      exact htracks.2 ⟨hmem, h.fresh p hp p (near_refl p) htracks.1⟩
  · rw [hgit.apply_frame hp]
    by_cases hb : p ∈ base
    · have hne : p ≠ patchFile := fun heq => h.apart.1 (heq ▸ hb)
      rw [if_pos ((h.patched_tracks p).mpr (.inl hb)), hfiles hne, hgit.apply_frame hp, lookup_writePatch hne]
      exact h.files p hb
    · rw [hnone hb]
      refine if_neg fun htracks => ?_
      obtain ⟨hmem, hnew⟩ := ((h.patched_tracks p).mp htracks).resolve_left hb
      have hne : p ≠ patchFile := fun heq => Finmap.notMem_erase_self (heq ▸ hmem)
      refine hnew (Finmap.mem_iff.mpr ?_)
      obtain ⟨e, he⟩ := Finmap.mem_iff.mp hmem
      rw [hfiles hne, hgit.apply_frame hp, lookup_writePatch hne] at he
      exact ⟨e, he⟩

/-! ## What the diff says -/

/-- The workspaces have the same index and the same files in it. -/
structure SameTracked (ws ws' : Repo) : Prop where
  staged : ws'.staged = ws.staged
  intended : ws'.intended = ws.intended
  files : ws'.trackedFiles = ws.trackedFiles

theorem SameTracked.refl (ws : Repo) : SameTracked ws ws := ⟨rfl, rfl, rfl⟩

theorem SameTracked.trans {a b c : Repo} (h : SameTracked a b) (h' : SameTracked b c) : SameTracked a c :=
  ⟨h'.staged.trans h.staged, h'.intended.trans h.intended, h'.files.trans h.files⟩

theorem runTests_tracked (ws : Repo) (written : Tree) : SameTracked ws (runTests ws written) := by
  refine ⟨rfl, rfl, Finmap.ext_lookup fun p => ?_⟩
  rw [lookup_trackedFiles, lookup_trackedFiles]
  have htracks : (runTests ws written).tracks p = ws.tracks p := rfl
  rw [htracks]
  split
  · next ht =>
    show (ws.trackedFiles ∪ _).lookup p = _
    have hright : p ∉ keep (fun p _ => !ws.tracks p) written := fun hmem => by
      obtain ⟨e, he⟩ := Finmap.mem_iff.mp hmem
      rw [lookup_keep, Option.filter_eq_some_iff] at he
      rw [ht] at he
      exact absurd he.2 (by decide)
    rw [Finmap.lookup_union_left_of_not_in hright, lookup_trackedFiles, if_pos ht]
  · rfl

theorem SameTracked.patched {content : String} {ws' : Repo} (h : SameTracked ws ws')
    (hp : Patched git base content ws) : Patched git base content ws' :=
  ⟨hp.applies, h.staged.trans hp.staged, h.files.trans hp.files⟩

theorem universalNewlines_of_notMem {cs : List Char} (h : '\r' ∉ cs) : universalNewlines cs = cs := by
  induction cs with
  | nil => rfl
  | cons c cs ih =>
    have hc : c ≠ '\r' := fun heq => h (heq ▸ List.mem_cons_self)
    rw [universalNewlines.eq_4 _ _ (fun _ heq => absurd heq hc) hc]
    rw [ih fun hm => h (List.mem_cons_of_mem c hm)]

theorem captured_of_notMem {output : String} (h : '\r' ∉ output.toList) : captured output = output := by
  rw [captured, universalNewlines_of_notMem h, String.ofList_toList]

/-- The diff of a patched workspace makes of the base tree what the patch makes of it. -/
theorem gitDiff_patched (hgit : git.Documented) {content : String} (h : Patched git base content ws)
    (hcr : '\r' ∉ content.toList ∧ ∀ p ∈ git.names content, ∀ e, base.lookup p = some e → e.hasCR = false)
    (hdiff : (git.diff ws).returncode = 0) :
    git.applied (gitDiff git ws) base = some (git.apply content base).2 := by
  have hplain : '\r' ∉ (git.diff ws).stdout.toList := fun hmem => by
    obtain ⟨p, e, hdiffers, he, hc⟩ := hgit.diff_cr hdiff hmem
    rw [h.staged, h.files] at hdiffers he
    have hp : p ∈ git.names content := by
      by_contra hp
      exact hdiffers (hgit.apply_frame hp).symm
    rcases he with he | he
    · rw [hcr.2 p hp e he] at hc
      cases hc
    · rw [hgit.apply_cr hcr.1 (hcr.2 p hp) he] at hc
      cases hc
  have happlied := hgit.diff_applies hdiff
  rw [h.staged, h.files] at happlied
  rw [gitDiff, if_pos hdiff, captured_of_notMem hplain]
  exact happlied

end CodeMate.Sandbox
