import CodeMate.Framework.Map

/-!
# Git, as the sandbox uses it

A work tree with its index and the tree of its `HEAD` (`Repo`), and the
commands that the sandbox runs in it (`Git`), which are parameters.
`Git.Documented` is what is relied on: a patch changes only the paths it names
and depends only on them and what is above or below them, `diff` is applied to
the index's tree to get the tracked files, `reset --hard` and `clean -fd`
restore `HEAD`.
-/

namespace CodeMate.Sandbox

open Framework

/-- The components of a path in the work tree. -/
abbrev Path := List String

/-- What git tracks at a path. -/
inductive Entry
  | file (content : List UInt8) (executable : Bool)
  | symlink (target : String)
deriving DecidableEq

/-- Whether a carriage return is in the entry. -/
def Entry.hasCR : Entry → Bool
  | file content _ => content.contains 13
  | symlink target => target.toList.contains '\r'

abbrev Tree := Finmap fun _ : Path => Entry

/-- A work tree: `staged` are the entries of its index, `intended` those that are only intended. -/
structure Repo where
  /-- The tree of `HEAD`, if it resolves. -/
  head : Option Tree
  staged : Tree
  intended : Finset Path
  files : Tree
deriving DecidableEq

namespace Repo

/-- Whether the index has the path. -/
def tracks (r : Repo) (p : Path) : Bool := p ∈ r.staged ∨ p ∈ r.intended

/-- The files that the index has. -/
def trackedFiles (r : Repo) : Tree := keep (fun p _ => r.tracks p) r.files

/-- What `ls-files --others` lists. -/
def untracked (r : Repo) : Finset Path := r.files.keys.filter fun p => ¬ r.tracks p

end Repo

/-- `subprocess.CompletedProcess`. -/
structure Completed where
  returncode : Int
  stdout : String
  stderr : String
deriving DecidableEq

/-- The commands; their output is as git writes it. -/
structure Git where
  /-- `ls-files --others -z`: the paths, or the standard error. -/
  lsFilesOthers : Repo → Except String (Finset Path)
  /-- `apply --check`. -/
  applyCheck : String → Tree → Completed
  /-- `apply`, with the files that it leaves. -/
  apply : String → Tree → Completed × Tree
  /-- The paths that a patch names. -/
  names : String → Finset Path
  /-- `add --intent-to-add`. -/
  addIntentToAdd : Repo → Finset Path → Completed × Repo
  /-- `diff --binary --no-ext-diff`. -/
  diff : Repo → Completed
  /-- `reset --hard`. -/
  resetHard : Repo → Completed × Repo
  /-- `clean -fd`. -/
  clean : Repo → Completed × Repo

/-- One of the paths is the other or is above it. -/
def near (p q : Path) : Prop := p <+: q ∨ q <+: p

theorem near_refl (p : Path) : near p p := .inl (List.prefix_refl p)

namespace Git

variable (git : Git)

/-- The tree that a patch makes of a tree; a diff without changes is empty. -/
def applied (patch : String) (t : Tree) : Option Tree :=
  if patch = "" then some t
  else if (git.apply patch t).1.returncode = 0 then some (git.apply patch t).2
  else none

/-- The documented behaviour of the commands. -/
structure Documented : Prop where
  others {r : Repo} {paths : Finset Path} : git.lsFilesOthers r = .ok paths → paths = r.untracked
  /-- A patch that does not apply changes nothing. -/
  apply_atomic {patch : String} {t : Tree} : (git.apply patch t).1.returncode ≠ 0 → (git.apply patch t).2 = t
  apply_frame {patch : String} {t : Tree} {p : Path} :
    p ∉ git.names patch → (git.apply patch t).2.lookup p = t.lookup p
  apply_local {patch : String} {t u : Tree} : (git.apply patch t).1.returncode = 0 →
    (∀ p ∈ git.names patch, ∀ q, near p q → t.lookup q = u.lookup q) →
    (git.apply patch u).1.returncode = 0 ∧
      ∀ p ∈ git.names patch, (git.apply patch u).2.lookup p = (git.apply patch t).2.lookup p
  /-- A carriage return in a patched file was in the file or in the patch. -/
  apply_cr {patch : String} {t : Tree} {p : Path} {e : Entry} : '\r' ∉ patch.toList →
    (∀ e, t.lookup p = some e → e.hasCR = false) → (git.apply patch t).2.lookup p = some e → e.hasCR = false
  add {r : Repo} {paths : Finset Path} : (git.addIntentToAdd r paths).1.returncode = 0 →
    (git.addIntentToAdd r paths).2 = { r with intended := r.intended ∪ paths }
  diff_applies {r : Repo} : (git.diff r).returncode = 0 →
    git.applied (git.diff r).stdout r.staged = some r.trackedFiles
  /-- A carriage return in a diff is in an entry that differs. -/
  diff_cr {r : Repo} : (git.diff r).returncode = 0 → '\r' ∈ (git.diff r).stdout.toList →
    ∃ p e, r.staged.lookup p ≠ r.trackedFiles.lookup p ∧
      (r.staged.lookup p = some e ∨ r.trackedFiles.lookup p = some e) ∧ e.hasCR = true
  /-- Without a `HEAD` nothing is reset. -/
  reset_unborn {r : Repo} : r.head = none → (git.resetHard r).2 = r
  reset {r : Repo} {head : Tree} : r.head = some head →
    (git.resetHard r).2.head = some head ∧ (git.resetHard r).2.staged = head ∧ (git.resetHard r).2.intended = ∅ ∧
    (∀ p ∈ head, (git.resetHard r).2.files.lookup p = head.lookup p) ∧
    (∀ p ∉ head, r.tracks p → (git.resetHard r).2.files.lookup p = none) ∧
    ∀ p ∉ head, ¬ r.tracks p → (git.resetHard r).2.files.lookup p = r.files.lookup p ∨
      (git.resetHard r).2.files.lookup p = none
  /-- Only untracked files are removed. -/
  clean {r : Repo} : (git.clean r).2.head = r.head ∧ (git.clean r).2.staged = r.staged ∧
    (git.clean r).2.intended = r.intended ∧
    (∀ p, r.tracks p → (git.clean r).2.files.lookup p = r.files.lookup p) ∧
    ∀ p, ¬ r.tracks p → (git.clean r).2.files.lookup p = r.files.lookup p ∨
      (git.clean r).2.files.lookup p = none

end Git

/-! ## Lookups -/

variable {r : Repo} {p : Path}

theorem lookup_trackedFiles (r : Repo) (p : Path) :
    r.trackedFiles.lookup p = if r.tracks p then r.files.lookup p else none := by
  rw [Repo.trackedFiles, lookup_keep]
  cases r.files.lookup p with
  | none => rw [Option.filter_none, ite_self]
  | some e => rfl

theorem mem_untracked : p ∈ r.untracked ↔ p ∈ r.files ∧ r.tracks p = false := by
  rw [Repo.untracked, Finset.mem_filter, Finmap.mem_keys, Bool.not_eq_true]

end CodeMate.Sandbox
