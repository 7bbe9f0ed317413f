import CodeMate.Sandbox.GitDiffs

/-!
# The files that a diff changes

`_changed_files_allowed` reads the changed paths off the header lines of a diff
(`matchHeader`) and compares them with the files that a case allows. Git quotes
a name with unusual characters (`quoteTwo`), and a header with a quoted name is
not read; nor is one where the old name holds the mark between the two. What a
readable header names is checked (`matchHeader_header`), and nothing else is
taken for a header (`findHeaders_diffText`).
-/

namespace CodeMate.Evaluation

open Sandbox (LineText after? after?_append after?_some)

/-! ## Diffs as git writes them -/

/-- The name is written as it is; with `quotePath` that is so for ASCII only. -/
def plainChar (quotePath : Bool) (c : Char) : Bool :=
  ' ' ≤ c && c ≠ '\x7f' && c ≠ '"' && c ≠ '\\' && (c.toNat < 0x80 || !quotePath)

def octal (byte : UInt8) : List Char :=
  '\\' :: [byte.toNat / 64, byte.toNat / 8 % 8, byte.toNat % 8].map Nat.digitChar

def escapes : List (Char × Char) :=
  [('\x07', 'a'), ('\x08', 'b'), ('\t', 't'), ('\n', 'n'), ('\x0b', 'v'), ('\x0c', 'f'), ('\r', 'r'), ('"', '"'),
    ('\\', '\\')]

/-- What stands for a character in a quoted name. -/
def escaped (c : Char) : List Char :=
  match escapes.find? (·.1 = c) with
  | some (_, letter) => ['\\', letter]
  | none => (String.utf8EncodeChar c).flatMap octal

/-- The name under a directory, in quotes if it is not written as it is. -/
def quoteTwo (quotePath : Bool) (directory name : List Char) : List Char :=
  if name.all (plainChar quotePath) then directory ++ name
  else '"' :: (directory ++ name.flatMap (fun c => if plainChar quotePath c then [c] else escaped c) ++ ['"'])

def headerMark : List Char := "diff --git ".toList

/-- A file of a diff: its two names, which are the same unless it is renamed or
copied, and the lines after its header. -/
structure FileChange where
  oldPath : List Char
  newPath : List Char
  oldPath_ne : oldPath ≠ []
  newPath_ne : newPath ≠ []
  lines : List LineText
  unmarked : ∀ line ∈ lines, ¬ headerMark <+: line.chars

def FileChange.header (quotePath : Bool) (file : FileChange) : List Char :=
  headerMark ++ (quoteTwo quotePath "a/".toList file.oldPath ++ ' ' :: quoteTwo quotePath "b/".toList file.newPath)

def FileChange.written (quotePath : Bool) (file : FileChange) : List (List Char) :=
  file.header quotePath :: file.lines.map LineText.chars

/-- Every line is ended by a newline. -/
def diffText (quotePath : Bool) (diff : List FileChange) : List Char :=
  List.intercalate ['\n'] (diff.flatMap (FileChange.written quotePath) ++ [[]])

/-! ## The check -/

/-- `(.+?) b/(.+)$`. -/
def pathPair : List Char → Option (List Char × List Char)
  | [] => none
  | c :: rest =>
    match after? " b/".toList rest with
    | some (d :: newPath) => some ([c], d :: newPath)
    | _ => (pathPair rest).map fun pair => (c :: pair.1, pair.2)

/-- `^diff --git a/(.+?) b/(.+)$` on a line. -/
def matchHeader (line : List Char) : Option (List Char × List Char) :=
  (after? "diff --git a/".toList line).bind pathPair

/-- `re.findall`, where no match spans two lines. -/
def findHeaders (diff : List Char) : List (List Char × List Char) := (diff.splitOn '\n').filterMap matchHeader

/-- `_changed_files_allowed`. -/
def changedFilesAllowed (diff : List Char) (allowedChangedFiles : List (List Char)) : Bool :=
  if allowedChangedFiles = [] then true
  else
    let flattened := (findHeaders diff).flatMap fun pair => [pair.1, pair.2]
    flattened ≠ [] && flattened.all allowedChangedFiles.contains

/-! ## Headers and their lines -/

theorem octal_single (byte : UInt8) : '\n' ∉ octal byte := by
  have hdigit : ∀ n < 8, '\n' ≠ Nat.digitChar n := by decide
  have hbyte := byte.toNat_lt
  simp only [octal, List.map_cons, List.map_nil, List.mem_cons, List.not_mem_nil, or_false, not_or]
  exact ⟨by decide, hdigit _ (by omega), hdigit _ (by omega), hdigit _ (by omega)⟩

theorem escaped_single (c : Char) : '\n' ∉ escaped c := by
  have hletters : ∀ pair ∈ escapes, '\n' ≠ pair.2 := by decide
  unfold escaped
  split
  · next letter hfind =>
    have hletter := hletters _ (List.mem_of_find?_eq_some hfind)
    rw [List.mem_pair, not_or]
    exact ⟨by decide, hletter⟩
  · rw [List.mem_flatMap]
    exact fun ⟨byte, _, hmem⟩ => octal_single byte hmem

theorem ne_newline_of_plain {quotePath : Bool} {c : Char} (h : plainChar quotePath c = true) : '\n' ≠ c := by
  rintro rfl
  simp [plainChar] at h

theorem quoteTwo_single {quotePath : Bool} {directory : List Char} (h : '\n' ∉ directory) (name : List Char) :
    '\n' ∉ quoteTwo quotePath directory name := by
  unfold quoteTwo
  split
  · next hplain =>
    rw [List.mem_append, not_or]
    exact ⟨h, fun hmem => ne_newline_of_plain (List.all_eq_true.mp hplain _ hmem) rfl⟩
  · simp only [List.mem_cons, List.mem_append, List.mem_flatMap, List.not_mem_nil, or_false, not_or]
    refine ⟨by decide, ⟨h, fun ⟨c, _, hmem⟩ => ?_⟩, by decide⟩
    split at hmem
    · next hplain => exact ne_newline_of_plain hplain (List.mem_singleton.mp hmem)
    · exact escaped_single c hmem

theorem FileChange.written_single {quotePath : Bool} (file : FileChange) :
    ∀ line ∈ file.written quotePath, '\n' ∉ line := by
  intro line hline
  rcases List.mem_cons.mp hline with rfl | hline
  · simp only [header, List.mem_append, List.mem_cons, not_or]
    exact ⟨by decide, quoteTwo_single (by decide) _, by decide, quoteTwo_single (by decide) _⟩
  · obtain ⟨text, -, rfl⟩ := List.mem_map.mp hline
    exact text.single

theorem matchHeader_marked {line : List Char} {pair : List Char × List Char} (h : matchHeader line = some pair) :
    headerMark <+: line := by
  obtain ⟨rest, hrest, -⟩ := Option.bind_eq_some_iff.mp h
  rw [after?_some hrest]
  exact ⟨"a/".toList ++ rest, rfl⟩

/-- The headers of the files are the only lines that are read. -/
theorem findHeaders_diffText (quotePath : Bool) (diff : List FileChange) :
    findHeaders (diffText quotePath diff) = diff.filterMap fun file => matchHeader (file.header quotePath) := by
  rw [findHeaders, diffText, List.splitOn_intercalate '\n' ?_ (by simp), List.filterMap_append]
  · have hfile (file : FileChange) :
        (file.written quotePath).filterMap matchHeader = (matchHeader (file.header quotePath)).toList := by
      have hlines : (file.lines.map LineText.chars).filterMap matchHeader = [] := by
        rw [List.filterMap_eq_nil_iff]
        intro line hline
        obtain ⟨text, hmem, rfl⟩ := List.mem_map.mp hline
        exact Option.eq_none_iff_forall_ne_some.mpr fun pair heq => file.unmarked text hmem (matchHeader_marked heq)
      rw [FileChange.written, List.filterMap_cons, hlines]
      cases matchHeader (file.header quotePath) <;> rfl
    rw [List.filterMap_flatMap, List.filterMap_cons_none (by rfl), List.filterMap_nil, List.append_nil,
      List.flatMap_congr fun file _ => hfile file, List.filterMap_eq_flatMap_toList]
  · intro line hline
    rcases List.mem_append.mp hline with hline | hline
    · obtain ⟨file, -, hline⟩ := List.mem_flatMap.mp hline
      exact file.written_single line hline
    · rw [List.mem_singleton.mp hline]
      exact List.not_mem_nil

/-! ## What is checked -/

/-- The mark does not begin inside a name that it is not in. -/
theorem after?_mark {name rest : List Char} (hname : name ≠ []) (h : ¬ " b/".toList <:+: name) :
    after? " b/".toList (name ++ (" b/".toList ++ rest)) = none := by
  refine Option.eq_none_iff_forall_ne_some.mpr fun text heq => ?_
  have htext : name ++ (' ' :: 'b' :: '/' :: rest) = ' ' :: 'b' :: '/' :: text := after?_some heq
  rcases name with _ | ⟨c, _ | ⟨d, _ | ⟨e, name⟩⟩⟩
  · exact hname rfl
  · simp at htext
  · simp at htext
  · simp only [List.cons_append, List.cons.injEq] at htext
    obtain ⟨rfl, rfl, rfl, -⟩ := htext
    exact h (List.prefix_append " b/".toList name).isInfix

theorem pathPair_append {oldPath newPath : List Char} (hold : oldPath ≠ []) (hnew : newPath ≠ [])
    (h : ¬ " b/".toList <:+: oldPath) :
    pathPair (oldPath ++ (" b/".toList ++ newPath)) = some (oldPath, newPath) := by
  induction oldPath with
  | nil => exact absurd rfl hold
  | cons c oldPath ih =>
    obtain ⟨d, newPath, rfl⟩ := List.exists_cons_of_ne_nil hnew
    cases oldPath with
    | nil =>
      rw [List.singleton_append, pathPair, after?_append]
    | cons e oldPath =>
      have hrest : ¬ " b/".toList <:+: e :: oldPath := fun hmark => h (hmark.trans (List.suffix_cons ..).isInfix)
      have hnone : after? " b/".toList (e :: oldPath ++ (" b/".toList ++ d :: newPath)) = none :=
        after?_mark (List.cons_ne_nil e oldPath) hrest
      rw [List.cons_append, pathPair, hnone, ih (List.cons_ne_nil e oldPath) hrest]
      rfl

/-- The names of the file are written as they are, and the old one does not hold the mark between the two. -/
structure Readable (quotePath : Bool) (file : FileChange) : Prop where
  oldPath : file.oldPath.all (plainChar quotePath) = true
  newPath : file.newPath.all (plainChar quotePath) = true
  unmarked : ¬ " b/".toList <:+: file.oldPath

theorem matchHeader_header {quotePath : Bool} {file : FileChange} (h : Readable quotePath file) :
    matchHeader (file.header quotePath) = some (file.oldPath, file.newPath) := by
  have hheader : file.header quotePath =
      "diff --git a/".toList ++ (file.oldPath ++ (" b/".toList ++ file.newPath)) := by
    rw [FileChange.header, quoteTwo, if_pos h.oldPath, quoteTwo, if_pos h.newPath, List.append_assoc]
    rfl
  rw [matchHeader, hheader, after?_append, Option.bind_some,
    pathPair_append file.oldPath_ne file.newPath_ne h.unmarked]

/-- Where some files are allowed, a diff that passes changes no other file under
names that are written as they are, whatever else it changes. -/
theorem changedFilesAllowed_covers (quotePath : Bool) (diff : List FileChange)
    (allowedChangedFiles : List (List Char)) (hallowed : allowedChangedFiles ≠ [])
    (h : changedFilesAllowed (diffText quotePath diff) allowedChangedFiles = true) :
    ∀ file ∈ diff, Readable quotePath file →
      file.oldPath ∈ allowedChangedFiles ∧ file.newPath ∈ allowedChangedFiles := by
  intro file hfile hreadable
  rw [changedFilesAllowed, if_neg hallowed, findHeaders_diffText] at h
  have hall := List.all_eq_true.mp (Bool.and_eq_true_iff.mp h).2
  have hpair : (file.oldPath, file.newPath) ∈ diff.filterMap fun file => matchHeader (file.header quotePath) :=
    List.mem_filterMap.mpr ⟨file, hfile, matchHeader_header hreadable⟩
  have hmem (path : List Char) (hpath : path ∈ [file.oldPath, file.newPath]) : path ∈ allowedChangedFiles :=
    List.contains_iff_mem.mp (hall path (List.mem_flatMap.mpr ⟨_, hpair, hpath⟩))
  exact ⟨hmem _ (by simp), hmem _ (by simp)⟩

/-- A change of a file that keeps its name, with nothing of it but the header. -/
def modified (path : List Char) (h : path ≠ []) : FileChange := ⟨path, path, h, h, [], nofun⟩

theorem changedFilesAllowed_covers_sample :
    (modified "src/app.py".toList (by decide)).oldPath ∈ ["src/app.py".toList] ∧
      (modified "src/app.py".toList (by decide)).newPath ∈ ["src/app.py".toList] :=
  changedFilesAllowed_covers true [modified "src/app.py".toList (by decide)] ["src/app.py".toList] (by decide)
    (by decide +kernel) _ (List.mem_singleton_self _) ⟨by decide +kernel, by decide +kernel, by decide +kernel⟩

/-- Nothing is checked where no file is allowed. Where one is, a file whose name git quotes is not
seen beside it, and a name that holds the mark is taken for two others. -/
theorem changedFilesAllowed_misses :
    (¬ ∀ (quotePath : Bool) (diff : List FileChange) (allowedChangedFiles : List (List Char)),
      changedFilesAllowed (diffText quotePath diff) allowedChangedFiles = true →
        ∀ file ∈ diff, file.oldPath ∈ allowedChangedFiles ∧ file.newPath ∈ allowedChangedFiles) ∧
      changedFilesAllowed
        (diffText true [modified "app.py".toList (by decide), modified "café.py".toList (by decide)])
        ["app.py".toList] = true ∧
      changedFilesAllowed (diffText true [modified "a b/a".toList (by decide)])
        ["a".toList, "a b/a b/a".toList] = true := by
  refine ⟨fun h => ?_, by decide +kernel, by decide +kernel⟩
  exact absurd (h true [modified "app.py".toList (by decide)] [] rfl _ (List.mem_singleton_self _)).1
    List.not_mem_nil

end CodeMate.Evaluation
