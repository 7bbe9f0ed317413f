import CodeMate.Framework.FileSystem
import CodeMate.Sandbox.Lines

/-!
# Reading a file of a workspace

`readFile` takes a path as text, goes down from the resolved workspace one name
at a time and refuses links, then resolves the whole and reads it.
`checkedCandidate_ok_iff` is what the loop over the names makes sure of, and
`readFile_contained` says exactly which requests return content, and of what.
-/

namespace CodeMate.Sandbox

open Framework

/-- What `_read_file` raises. -/
inductive ReadError
  | permission (text : String)
  | symlinkLoop
  | os (error : OsError)
  deriving DecidableEq

/-- What `_read_file` returns. -/
structure ReadResult where
  filePath : List Char
  startLine : ℤ
  endLine : ℤ
  content : List Char
  deriving DecidableEq

/-- `text.splitlines()`. -/
def splitlines (text : List Char) : List (List Char) :=
  (splitLines text).map fun line => line.takeWhile fun c => !isLineBreak c

/-- `lines[start - 1 : end]` for a start from one on; a negative end counts from the last line. -/
def linesFrom (lines : List (List Char)) (start stop : ℤ) : List (List Char) :=
  let stop := if stop < 0 then lines.length + stop else stop
  (lines.take stop.toNat).drop (start - 1).toNat

/-- `value or default`. -/
def orElse (value : Option ℤ) (default : ℤ) : ℤ :=
  match value with
  | none => default
  | some value => if value = 0 then default else value

section Read

variable {β : Type} (decode : β → List Char) (fs : FileSystem β) (links : ℕ)

/-- The loop over the parts of the requested path. -/
def checkedCandidate : NamePath → List Name → Except ReadError NamePath
  | candidate, [] => .ok candidate
  | candidate, part :: parts =>
    if fs.isSymlink links (candidate ++ [part]) then
      .error (.permission "Symbolic links are not readable in the sandbox")
    else checkedCandidate (candidate ++ [part]) parts

/-- The result for the text of a file. -/
def readResult (filePath text : List Char) (startLine endLine : Option ℤ) : ReadResult :=
  let lines := splitlines text
  let safeStart := max (orElse startLine 1) 1
  let safeEnd := min (orElse endLine lines.length) lines.length
  { filePath := filePath, startLine := safeStart, endLine := safeEnd,
    content := List.intercalate ['\n'] (linesFrom lines safeStart safeEnd) }

/-- `_read_file`, of a workspace given by the names of its path; `decode` is UTF-8 without what is
not. -/
def readFile (workspace : List Name) (filePath : List Char) (startLine endLine : Option ℤ) :
    Except ReadError ReadResult :=
  match fs.resolve links workspace with
  | none => .error .symlinkLoop
  | some root =>
    if isAbsolute filePath ∨ (names filePath).contains dots then .error (.permission "Invalid file path")
    else
      match checkedCandidate fs links root (names filePath) with
      | .error error => .error error
      | .ok candidate =>
        match fs.resolve links candidate with
        | none => .error .symlinkLoop
        | some absolutePath =>
          if ¬ root.isPrefixOf absolutePath then .error (.permission "Invalid file path")
          else
            match fs.readBytes links absolutePath with
            | .error error => .error (.os error)
            | .ok contents => .ok (readResult filePath (decode contents) startLine endLine)

/-! ## What it returns -/

variable {fs links}

/-- The loop ends at the candidate exactly when no link stands below the root it started at. -/
theorem checkedCandidate_ok_iff {root candidate : NamePath} {parts : List Name} (h : fs.Plain root)
    (hdots : dots ∉ parts) : checkedCandidate fs links root parts = .ok candidate ↔
      candidate = root ++ parts ∧ fs.Plain (root ++ parts) := by
  induction parts generalizing root with
  | nil =>
    rw [checkedCandidate, List.append_nil]
    exact ⟨fun heq => ⟨(Except.ok.inj heq).symm, h⟩, fun heq => by rw [heq.1]⟩
  | cons part parts ih =>
    have hpart : part ≠ dots := fun heq => hdots (heq ▸ List.mem_cons_self ..)
    have hparts : dots ∉ parts := fun hmem => hdots (List.mem_cons_of_mem _ hmem)
    have happend : root ++ part :: parts = (root ++ [part]) ++ parts := by simp
    have hlink : fs.isSymlink links (root ++ [part]) = true ↔
        ∃ target, fs.node (root ++ [part]) = some (.link target) := FileSystem.isSymlink_of_plain h hpart
    rw [checkedCandidate, happend]
    by_cases hsymlink : fs.isSymlink links (root ++ [part]) = true
    · obtain ⟨target, htarget⟩ := hlink.mp hsymlink
      rw [if_pos hsymlink]
      refine ⟨fun heq => (nomatch heq), fun heq => ?_⟩
      exact absurd htarget (heq.2.noLink _ (List.prefix_append ..) target)
    · rw [if_neg hsymlink]
      exact ih (h.concat hpart fun target htarget => hsymlink (hlink.mpr ⟨target, htarget⟩)) hparts

/-- The requested file of a workspace at `root`: the path goes down from the root, no link stands
below it, and a read of what stands at its end gives the contents. -/
structure Reached (fs : FileSystem β) (links : ℕ) (workspace : List Name) (filePath : List Char) (root : NamePath)
    (contents : β) : Prop where
  root_eq : fs.resolve links workspace = some root
  relative : isAbsolute filePath = false
  down : dots ∉ names filePath
  noLink (below : NamePath) : below <+: names filePath → below ≠ [] →
    ∀ target, fs.node (root ++ below) ≠ some (.link target)
  reads : ∃ node, fs.node (root ++ names filePath) = some node ∧ FileSystem.Node.Reads node contents

theorem Reached.plain {workspace : List Name} {filePath : List Char} {root : NamePath} {contents : β}
    (h : Reached fs links workspace filePath root contents) : fs.Plain (root ++ names filePath) := by
  have hroot := FileSystem.resolve_plain h.root_eq
  refine ⟨fun hmem => ?_, fun above habove target htarget => ?_⟩
  · rcases List.mem_append.mp hmem with hmem | hmem
    · exact hroot.down hmem
    · exact h.down hmem
  · rcases List.prefix_or_prefix_of_prefix habove (List.prefix_append root _) with hupper | ⟨below, rfl⟩
    · exact hroot.noLink above hupper target htarget
    · have hbelow := (List.prefix_append_right_inj root).mp habove
      by_cases hnil : below = []
      · rw [hnil, List.append_nil] at htarget
        exact hroot.noLink root (List.prefix_refl _) target htarget
      · exact h.noLink below hbelow hnil target htarget

/-- The requests that return are those of a reached file, with the lines of its contents. -/
theorem readFile_ok_iff (workspace : List Name) (filePath : List Char) (startLine endLine : Option ℤ)
    (result : ReadResult) :
    readFile decode fs links workspace filePath startLine endLine = .ok result ↔
      ∃ root contents, Reached fs links workspace filePath root contents ∧
        result = readResult filePath (decode contents) startLine endLine := by
  rw [readFile]
  cases hroot : fs.resolve links workspace with
  | none =>
    refine ⟨fun heq => (nomatch heq), fun ⟨root, contents, h, _⟩ => ?_⟩
    cases hroot.symm.trans h.root_eq
  | some root =>
    have hplain := FileSystem.resolve_plain hroot
    simp only [List.contains_iff_mem]
    by_cases hbad : isAbsolute filePath = true ∨ dots ∈ names filePath
    · rw [if_pos hbad]
      refine ⟨fun heq => (nomatch heq), fun ⟨_, _, h, _⟩ => ?_⟩
      rcases hbad with hbad | hbad
      · rw [h.relative] at hbad
        cases hbad
      · exact absurd hbad h.down
    · rw [if_neg hbad]
      obtain ⟨hrelative, hdown⟩ := not_or.mp hbad
      have hcandidate (candidate : NamePath) : checkedCandidate fs links root (names filePath) = .ok candidate ↔
          candidate = root ++ names filePath ∧ fs.Plain (root ++ names filePath) :=
        checkedCandidate_ok_iff hplain hdown
      cases hchecked : checkedCandidate fs links root (names filePath) with
      | error error =>
        refine ⟨fun heq => (nomatch heq), fun ⟨root', contents, h, _⟩ => ?_⟩
        obtain rfl := Option.some.inj (hroot.symm.trans h.root_eq)
        cases hchecked.symm.trans ((hcandidate _).mpr ⟨rfl, h.plain⟩)
      | ok candidate =>
        obtain ⟨rfl, hall⟩ := (hcandidate candidate).mp hchecked
        dsimp only
        rw [FileSystem.resolve_of_plain hall]
        dsimp only
        rw [if_neg (by simp)]
        have hreads (contents : β) : fs.readBytes links (root ++ names filePath) = .ok contents ↔
            ∃ node, fs.node (root ++ names filePath) = some node ∧ FileSystem.Node.Reads node contents :=
          FileSystem.readBytes_of_plain hall
        cases hread : fs.readBytes links (root ++ names filePath) with
        | error error =>
          refine ⟨fun heq => (nomatch heq), fun ⟨root', contents, h, _⟩ => ?_⟩
          obtain rfl := Option.some.inj (hroot.symm.trans h.root_eq)
          cases hread.symm.trans ((hreads contents).mpr h.reads)
        | ok contents =>
          refine ⟨fun heq => ⟨root, contents, ⟨hroot, by simpa using hrelative, hdown, fun below hbelow _ => ?_,
            (hreads contents).mp hread⟩, (Except.ok.inj heq).symm⟩, fun ⟨root', contents', h, hresult⟩ => ?_⟩
          · exact hall.noLink _ ((List.prefix_append_right_inj root).mpr hbelow)
          · obtain rfl := Option.some.inj (hroot.symm.trans h.root_eq)
            cases hread.symm.trans ((hreads contents').mpr h.reads)
            rw [hresult]

/-- Content is returned exactly for a path that goes down from the workspace over no link, and it is
that of the file at its end, which lies inside the workspace; every other request raises. -/
theorem readFile_contained (workspace : List Name) (filePath : List Char) (startLine endLine : Option ℤ) :
    (∀ result, readFile decode fs links workspace filePath startLine endLine = .ok result ↔
      ∃ root contents, Reached fs links workspace filePath root contents ∧
        result = readResult filePath (decode contents) startLine endLine) ∧
    ∀ root contents, Reached fs links workspace filePath root contents → fs.node root = some .dir →
      names filePath ≠ [] := by
  refine ⟨readFile_ok_iff decode workspace filePath startLine endLine, fun root contents h hdir hnil => ?_⟩
  obtain ⟨node, hnode, hreads⟩ := h.reads
  rw [hnil, List.append_nil, hdir] at hnode
  obtain rfl := Option.some.inj hnode
  rcases hreads with ⟨mode, heq⟩ | heq <;> cases heq

end Read

end CodeMate.Sandbox
