import Mathlib.Data.List.TakeWhile
import CodeMate.Sandbox.Hunks

/-!
# Git's diffs

Diffs as git writes them (`GitDiff`), and which of them `normalize_unified_diff_hunks`
leaves as they are. Git ends a line at a newline only, and a hunk after as many
lines as its header says; the pass ends a line at every line break that Python
knows, and a hunk before a line that looks like the start of a file.

* `pythonLines_text`: the lines that the pass reads;
* `counted_append`: hunks are read one by one;
* `counted_hunk_iff`: a hunk whose lines are lines to Python;
* `normalize_gitDiff`: what is left as it is.
-/

namespace CodeMate.Sandbox

/-! ## Diffs -/

/-- What stands on a line. -/
structure LineText where
  chars : List Char
  single : '\n' ∉ chars

/-- A line with a mark in front. -/
def LineText.after (text : LineText) (mark : String) : Line := mark.toList ++ text.chars ++ ['\n']

inductive Mark
  | context
  | deleted
  | added
  | note
deriving DecidableEq

def Mark.text : Mark → String
  | context => " "
  | deleted => "-"
  | added => "+"
  | note => "\\ "

structure HunkLine where
  mark : Mark
  text : LineText

def HunkLine.line (l : HunkLine) : Line := l.text.after l.mark.text

/-- A count in a header, where a count of 1 may be left out. -/
def writtenCount (short : Bool) (count : Nat) : Option (List Char) :=
  if short ∧ count = 1 then none else some (toString count).toList

structure Hunk where
  oldStart : Nat
  newStart : Nat
  oldShort : Bool
  newShort : Bool
  heading : LineText
  lines : List HunkLine
  nonempty : lines ≠ []

def Hunk.oldCount (hunk : Hunk) : Nat := hunk.lines.countP fun l => l.mark = .context ∨ l.mark = .deleted

def Hunk.newCount (hunk : Hunk) : Nat := hunk.lines.countP fun l => l.mark = .context ∨ l.mark = .added

def Hunk.header (hunk : Hunk) : HunkHeader where
  oldStart := (toString hunk.oldStart).toList
  oldCount := writtenCount hunk.oldShort hunk.oldCount
  newStart := (toString hunk.newStart).toList
  newCount := writtenCount hunk.newShort hunk.newCount
  suffix := hunk.heading.chars

def Hunk.body (hunk : Hunk) : List Line := hunk.lines.map HunkLine.line

def Hunk.written (hunk : Hunk) : List Line := (hunk.header.text ++ ['\n']) :: hunk.body

/-- How the lines between the first line of a file and its names begin. -/
def extendedKeywords : List String :=
  ["old mode ", "new mode ", "deleted file mode ", "new file mode ", "copy from ", "copy to ", "rename from ",
    "rename to ", "similarity index ", "dissimilarity index ", "index ", "Binary files "]

structure ExtendedLine where
  text : LineText
  known : ∃ keyword ∈ extendedKeywords, keyword.toList <+: text.chars

structure FileDiff where
  paths : LineText
  extended : List ExtendedLine
  names : Option (LineText × LineText)
  hunks : List Hunk
  named : names = none → hunks = []

/-- The lines before the hunks of a file. -/
def FileDiff.header (file : FileDiff) : List Line :=
  file.paths.after "diff --git " :: (file.extended.map fun e => e.text.after "") ++
    (match file.names with
      | none => []
      | some (old, new) => [old.after "--- ", new.after "+++ "])

def FileDiff.written (file : FileDiff) : List Line := file.header ++ file.hunks.flatMap Hunk.written

abbrev GitDiff := List FileDiff

def GitDiff.text (diff : GitDiff) : List Char := (diff.flatMap FileDiff.written).flatten

/-! ## Its lines to Python -/

theorem Hunk.written_newline (hunk : Hunk) : ∀ line ∈ hunk.written, ∃ text, line = text ++ ['\n'] := by
  intro line hline
  rcases List.mem_cons.mp hline with rfl | hline
  · exact ⟨_, rfl⟩
  · obtain ⟨l, -, rfl⟩ := List.mem_map.mp hline
    exact ⟨_, rfl⟩

theorem FileDiff.header_newline (file : FileDiff) : ∀ line ∈ file.header, ∃ text, line = text ++ ['\n'] := by
  intro line hline
  rcases List.mem_append.mp hline with hline | hline
  · rcases List.mem_cons.mp hline with rfl | hline
    · exact ⟨_, rfl⟩
    · obtain ⟨e, -, rfl⟩ := List.mem_map.mp hline
      exact ⟨_, rfl⟩
  · split at hline
    · exact absurd hline List.not_mem_nil
    · rcases List.mem_cons.mp hline with rfl | hline
      · exact ⟨_, rfl⟩
      · obtain rfl := List.mem_singleton.mp hline
        exact ⟨_, rfl⟩

theorem FileDiff.written_newline (file : FileDiff) : ∀ line ∈ file.written, ∃ text, line = text ++ ['\n'] := by
  intro line hline
  rcases List.mem_append.mp hline with hline | hline
  · exact file.header_newline line hline
  · obtain ⟨hunk, -, hline⟩ := List.mem_flatMap.mp hline
    exact hunk.written_newline line hline

/-- The lines that `splitlines` makes of some lines. -/
def pythonLines (lines : List Line) : List Line := lines.flatMap splitLines

theorem pythonLines_append (lines more : List Line) :
    pythonLines (lines ++ more) = pythonLines lines ++ pythonLines more :=
  List.flatMap_append

theorem pythonLines_text (diff : GitDiff) :
    splitLines diff.text = pythonLines (diff.flatMap FileDiff.written) := by
  have hlines : ∀ line ∈ diff.flatMap FileDiff.written, ∃ text, line = text ++ ['\n'] := fun line hline => by
    obtain ⟨file, -, hline⟩ := List.mem_flatMap.mp hline
    exact file.written_newline line hline
  have hsplit := splitLines_flatten_newline hlines []
  rw [List.append_nil] at hsplit
  exact hsplit.trans (List.append_nil _)

/-! ## Hunks one by one -/

/-- Nothing, or lines of which the first starts a hunk or a file. -/
def Sectioned (lines : List Line) : Prop := (lines.head?.all fun line => startsDiff line || startsHunk line) = true

theorem not_plus_of_starts {line : Line} (h : (startsDiff line || startsHunk line) = true) :
    "+++ ".toList.isPrefixOf line = false := by
  rcases Bool.or_eq_true _ _ |>.mp h with h | h
  · obtain ⟨tail, rfl⟩ := List.isPrefixOf_iff_prefix.mp h
    rfl
  · obtain ⟨tail, rfl⟩ := List.isPrefixOf_iff_prefix.mp h
    rfl

theorem hunkBody_sectioned {lines : List Line} (h : Sectioned lines) : hunkBody lines = [] := by
  cases lines with
  | nil => rfl
  | cons line rest =>
    have hstarts : (startsDiff line || startsHunk line) = true := h
    unfold hunkBody
    rw [show "@@ ".toList.isPrefixOf line = startsHunk line from rfl, hstarts]
    rfl

theorem startsFileHeader_append (line : Line) {rest next : List Line} (h : Sectioned next) :
    startsFileHeader (line :: (rest ++ next)) = startsFileHeader (line :: rest) := by
  cases rest with
  | cons => rfl
  | nil =>
    cases next with
    | nil => rfl
    | cons first =>
      show (_ && "+++ ".toList.isPrefixOf first) = false
      rw [not_plus_of_starts h, Bool.and_false]

theorem hunkBody_append {lines next : List Line} (h : Sectioned next) :
    hunkBody (lines ++ next) = hunkBody lines := by
  induction lines with
  | nil => exact hunkBody_sectioned h
  | cons line rest ih =>
    rw [List.cons_append]
    unfold hunkBody
    rw [startsFileHeader_append line h, ih]

/-- What follows from the start of a hunk or a file on is read for itself. -/
theorem counted_append {lines next : List Line} (h : Sectioned next) :
    Counted (lines ++ next) ↔ Counted lines ∧ Counted next := by
  induction lines with
  | nil => exact ⟨fun hnext => ⟨trivial, hnext⟩, And.right⟩
  | cons line rest ih =>
    show (_ → Counts line (hunkBody (rest ++ next))) ∧ Counted (rest ++ next) ↔ _
    rw [hunkBody_append h, ih]
    exact and_assoc.symm

theorem head?_prepend {mark : List Char} (hmark : mark ≠ []) (text : List Char) :
    ∃ line rest, prepend mark (splitLines text) = (mark ++ line) :: rest := by
  cases splitLines text with
  | nil => exact ⟨[], [], (if_neg hmark).trans (by rw [List.append_nil])⟩
  | cons line rest => exact ⟨line, rest, rfl⟩

theorem digits_writtenCount {short : Bool} {count : Nat} :
    ∀ digits ∈ writtenCount short count, Digits digits := by
  intro digits h
  unfold writtenCount at h
  split at h
  · exact absurd h.symm (Option.some_ne_none digits)
  · obtain rfl := Option.some.inj h
    exact digits_toString count

theorem intOf_writtenCount (short : Bool) (count : Nat) : intOf ((writtenCount short count).getD ['1']) = count := by
  unfold writtenCount
  split
  · next h =>
    rw [h.2]
    decide
  · exact intOf_toString count

theorem Hunk.numbered (hunk : Hunk) : hunk.header.Numbered where
  oldStart := digits_toString _
  oldCount := digits_writtenCount
  newStart := digits_toString _
  newCount := digits_writtenCount

theorem sectioned_hunk (hunk : Hunk) (more : List Line) : Sectioned (pythonLines hunk.written ++ more) := by
  have hline : splitLines (hunk.header.text ++ ['\n']) =
      prepend hunk.header.front (splitLines (hunk.heading.chars ++ ['\n'])) := by
    rw [HunkHeader.text, List.append_assoc, splitLines_append hunk.numbered.unbroken]
    rfl
  have hfront : hunk.header.front ≠ [] := by simp [HunkHeader.front]
  obtain ⟨line, rest, hlines⟩ := head?_prepend hfront (hunk.heading.chars ++ ['\n'])
  rw [hlines] at hline
  show Sectioned ((splitLines (hunk.header.text ++ ['\n']) ++ pythonLines hunk.body) ++ more)
  rw [hline]
  rfl

theorem FileDiff.first (file : FileDiff) :
    ∃ line rest, pythonLines file.written = line :: rest ∧ startsDiff line = true := by
  have hline : splitLines (file.paths.after "diff --git ") =
      prepend "diff --git ".toList (splitLines (file.paths.chars ++ ['\n'])) := by
    rw [LineText.after, List.append_assoc, splitLines_append (by decide)]
  obtain ⟨line, rest, hlines⟩ := head?_prepend (by decide : "diff --git ".toList ≠ []) (file.paths.chars ++ ['\n'])
  rw [hlines] at hline
  unfold FileDiff.written FileDiff.header pythonLines
  rw [List.cons_append, List.cons_append, List.flatMap_cons, hline]
  exact ⟨"diff --git ".toList ++ line, _, rfl, List.isPrefixOf_iff_prefix.mpr (List.prefix_append _ line)⟩

theorem sectioned_file (file : FileDiff) (more : List Line) : Sectioned (pythonLines file.written ++ more) := by
  obtain ⟨line, rest, hlines, hdiff⟩ := file.first
  rw [hlines]
  show (startsDiff line || startsHunk line) = true
  rw [hdiff, Bool.true_or]

theorem counted_hunks (hunks : List Hunk) :
    Counted (pythonLines (hunks.flatMap Hunk.written)) ↔ ∀ hunk ∈ hunks, Counted (pythonLines hunk.written) := by
  induction hunks with
  | nil => exact ⟨fun _ => List.forall_mem_nil _, fun _ => trivial⟩
  | cons hunk rest ih =>
    have hrest : Sectioned (pythonLines (rest.flatMap Hunk.written)) := by
      cases rest with
      | nil => rfl
      | cons next rest =>
        rw [List.flatMap_cons, pythonLines_append]
        exact sectioned_hunk next _
    rw [List.flatMap_cons, pythonLines_append, counted_append hrest, ih, List.forall_mem_cons]

theorem counted_file (file : FileDiff) :
    Counted (pythonLines file.written) ↔
      Counted (pythonLines file.header) ∧ ∀ hunk ∈ file.hunks, Counted (pythonLines hunk.written) := by
  have hhunks : Sectioned (pythonLines (file.hunks.flatMap Hunk.written)) := by
    cases file.hunks with
    | nil => rfl
    | cons next rest =>
      rw [List.flatMap_cons, pythonLines_append]
      exact sectioned_hunk next _
  rw [FileDiff.written, pythonLines_append, counted_append hhunks, counted_hunks]

theorem counted_diff (diff : GitDiff) :
    Counted (pythonLines (diff.flatMap FileDiff.written)) ↔ ∀ file ∈ diff, Counted (pythonLines file.written) := by
  induction diff with
  | nil => exact ⟨fun _ => List.forall_mem_nil _, fun _ => trivial⟩
  | cons file rest ih =>
    have hrest : Sectioned (pythonLines (rest.flatMap FileDiff.written)) := by
      cases rest with
      | nil => rfl
      | cons next rest =>
        rw [List.flatMap_cons, pythonLines_append]
        exact sectioned_file next _
    rw [List.flatMap_cons, pythonLines_append, counted_append hrest, ih, List.forall_mem_cons]

/-! ## A hunk whose lines are lines to Python -/

theorem pythonLines_of_single {lines : List Line} (h : ∀ line ∈ lines, splitLines line = [line]) :
    pythonLines lines = lines := by
  induction lines with
  | nil => rfl
  | cons line rest ih =>
    show splitLines line ++ pythonLines rest = line :: rest
    rw [h line List.mem_cons_self, ih fun l hl => h l (List.mem_cons_of_mem line hl)]
    rfl

theorem counted_of_not_startsHunk {lines : List Line} (h : ∀ line ∈ lines, startsHunk line = false) :
    Counted lines := by
  induction lines with
  | nil => trivial
  | cons line rest ih =>
    refine ⟨fun hstarts => ?_, ih fun l hl => h l (List.mem_cons_of_mem line hl)⟩
    rw [h line List.mem_cons_self] at hstarts
    exact absurd hstarts Bool.false_ne_true

theorem FileDiff.not_startsHunk (file : FileDiff) : ∀ line ∈ file.header, startsHunk line = false := by
  intro line hline
  rcases List.mem_append.mp hline with hline | hline
  · rcases List.mem_cons.mp hline with rfl | hline
    · rfl
    · obtain ⟨e, -, rfl⟩ := List.mem_map.mp hline
      obtain ⟨keyword, hkeyword, tail, htail⟩ := e.known
      have hkeywords : ∀ keyword ∈ extendedKeywords, keyword.toList.head?.any (· ≠ '@') = true := by decide
      have hhead := hkeywords keyword hkeyword
      show startsHunk (e.text.chars ++ ['\n']) = false
      rw [← htail]
      cases hchars : keyword.toList with
      | nil => rw [hchars] at hhead; exact absurd hhead (by decide)
      | cons c rest =>
        rw [hchars] at hhead
        have hne : c ≠ '@' := by simpa using hhead
        have hc : ('@' == c) = false := beq_eq_false_iff_ne.mpr hne.symm
        show (('@' == c) && _) = false
        rw [hc, Bool.false_and]
  · split at hline
    · exact absurd hline List.not_mem_nil
    · rcases List.mem_cons.mp hline with rfl | hline
      · rfl
      · obtain rfl := List.mem_singleton.mp hline
        rfl

theorem HunkLine.not_starts (l : HunkLine) : startsHunk l.line = false ∧ startsDiff l.line = false := by
  obtain ⟨mark, text⟩ := l
  cases mark <;> simp [startsHunk, startsDiff, HunkLine.line, LineText.after, Mark.text, List.isPrefixOf]

theorem isOld_line (l : HunkLine) : isOld l.line = decide (l.mark = .context ∨ l.mark = .deleted) := by
  obtain ⟨mark, text⟩ := l
  cases mark <;> simp [isOld, HunkLine.line, LineText.after, Mark.text, List.isPrefixOf]

theorem isNew_line (l : HunkLine) : isNew l.line = decide (l.mark = .context ∨ l.mark = .added) := by
  obtain ⟨mark, text⟩ := l
  cases mark <;> simp [isNew, HunkLine.line, LineText.after, Mark.text, List.isPrefixOf]

theorem sizes_body (hunk : Hunk) : sizes hunk.body = (hunk.oldCount, hunk.newCount) := by
  unfold sizes Hunk.body Hunk.oldCount Hunk.newCount
  rw [List.countP_map, List.countP_map]
  simp only [Function.comp_def, isOld_line, isNew_line]

/-- Nothing is stripped of what ends with another character. -/
theorem rstripLine_append_left {front : List Char} (h : ∃ c ∈ front.getLast?, c ≠ '\r' ∧ c ≠ '\n')
    (text : List Char) : rstripLine (front ++ text) = front ++ rstripLine text := by
  obtain ⟨c, hc, hne⟩ := h
  have hfront : rstripLine front = front := rstripLine_eq_self.mpr fun d hd => by
    obtain rfl := Option.some.inj (hc.symm.trans hd)
    exact hne
  unfold rstripLine at hfront ⊢
  rw [List.reverse_append, List.dropWhile_append]
  split
  · next hempty =>
    rw [hfront, List.isEmpty_iff.mp hempty]
    exact (List.append_nil _).symm
  · rw [List.reverse_append, List.reverse_reverse]

/-- The header of a hunk is read with the hunk's counts. -/
theorem matchHunkHeader_hunk (hunk : Hunk) :
    ∃ header, matchHunkHeader (rstripLine (hunk.header.text ++ ['\n'])) = some header ∧
      header.declared = (hunk.oldCount, hunk.newCount) := by
  have hlast : hunk.header.front.getLast? = some '@' := by
    rw [HunkHeader.front, ← List.append_assoc, ← List.append_assoc, ← List.append_assoc, List.getLast?_append]
    rfl
  have hstrip : rstripLine (hunk.header.text ++ ['\n']) =
      { hunk.header with suffix := rstripLine (hunk.header.suffix ++ ['\n']) : HunkHeader }.text := by
    rw [HunkHeader.text, List.append_assoc, rstripLine_append_left ⟨'@', hlast, by decide⟩]
    rfl
  have hnumbered : { hunk.header with suffix := rstripLine (hunk.header.suffix ++ ['\n']) : HunkHeader }.Numbered :=
    ⟨hunk.numbered.1, hunk.numbered.2, hunk.numbered.3, hunk.numbered.4⟩
  rw [hstrip]
  exact ⟨_, matchHunkHeader_text hnumbered, congrArg₂ Prod.mk (intOf_writtenCount _ _) (intOf_writtenCount _ _)⟩

/-- A line of a hunk that looks like the start of a file: a deleted line and an added one after it. -/
def Hunk.StartsFile (hunk : Hunk) : Prop :=
  ∃ before after old new, hunk.body = before ++ old :: new :: after ∧ "--- ".toList <+: old ∧ "+++ ".toList <+: new

/-- Where lines are cut off, the first of them is the start of a file. -/
theorem hunkBody_cut {lines : List Line} (h : ∀ line ∈ lines, startsHunk line = false ∧ startsDiff line = false) :
    hunkBody lines = lines ∧ (¬ ∃ before after old new, lines = before ++ old :: new :: after ∧
        "--- ".toList <+: old ∧ "+++ ".toList <+: new) ∨
      ∃ before after old new, lines = before ++ old :: new :: after ∧ hunkBody lines = before ∧
        "--- ".toList <+: old ∧ "+++ ".toList <+: new := by
  induction lines with
  | nil => exact .inl ⟨rfl, by rintro ⟨before, after, old, new, heq, -⟩; simp at heq⟩
  | cons line rest ih =>
    obtain ⟨hhunk, hdiff⟩ := h line List.mem_cons_self
    by_cases hfile : startsFileHeader (line :: rest) = true
    · cases rest with
      | nil => exact absurd hfile Bool.false_ne_true
      | cons new after =>
        obtain ⟨hminus, hplus⟩ := (Bool.and_eq_true _ _).mp hfile
        refine .inr ⟨[], after, line, new, rfl, ?_, List.isPrefixOf_iff_prefix.mp hminus,
          List.isPrefixOf_iff_prefix.mp hplus⟩
        unfold hunkBody
        rw [hfile, Bool.or_true, if_pos rfl]
    · have hbody : hunkBody (line :: rest) = line :: hunkBody rest := by
        conv_lhs => unfold hunkBody
        rw [show "@@ ".toList.isPrefixOf line = startsHunk line from rfl, hhunk, hdiff, eq_false_of_ne_true hfile]
        rfl
      rw [hbody]
      have hrest := ih fun l hl => h l (List.mem_cons_of_mem line hl)
      rcases hrest with ⟨heq, hnone⟩ | ⟨before, after, old, new, heq, hcut, hs⟩
      · refine .inl ⟨by rw [heq], ?_⟩
        rintro ⟨before, after, old, new, hsplit, hminus, hplus⟩
        cases before with
        | nil =>
          obtain ⟨rfl, rfl⟩ := List.cons.inj hsplit
          refine hfile ?_
          show (_ && _) = true
          rw [List.isPrefixOf_iff_prefix.mpr hminus, List.isPrefixOf_iff_prefix.mpr hplus]
          rfl
        | cons first before =>
          obtain ⟨-, rfl⟩ := List.cons.inj hsplit
          exact hnone ⟨before, after, old, new, rfl, hminus, hplus⟩
      · exact .inr ⟨line :: before, after, old, new, by rw [heq]; rfl, by rw [hcut], hs⟩

theorem isHunkLine_body (hunk : Hunk) :
    (∀ line ∈ hunk.body, isHunkLine line) ↔
      ∀ l ∈ hunk.lines, l.mark = .note → "\\ No newline at end of file".toList <+: l.line := by
  unfold Hunk.body
  rw [List.forall_mem_map]
  refine forall₂_congr fun l _ => ?_
  rw [isHunkLine, isOld_line, isNew_line, Bool.or_eq_true, Bool.or_eq_true, decide_eq_true_eq, decide_eq_true_eq,
    List.isPrefixOf_iff_prefix]
  cases l.mark <;> simp

/-- A hunk whose lines are lines to Python is read as it is unless it seems to hold the start of a file
or its note is another one. -/
theorem counted_hunk_iff {hunk : Hunk} (hsingle : ∀ line ∈ hunk.written, splitLines line = [line]) :
    Counted (pythonLines hunk.written) ↔
      ¬ hunk.StartsFile ∧ ∀ l ∈ hunk.lines, l.mark = .note → "\\ No newline at end of file".toList <+: l.line := by
  have hstarts : ∀ line ∈ hunk.body, startsHunk line = false ∧ startsDiff line = false := fun line hline => by
    obtain ⟨l, -, rfl⟩ := List.mem_map.mp hline
    exact l.not_starts
  obtain ⟨header, hheader, hdeclared⟩ := matchHunkHeader_hunk hunk
  have hfirst : startsHunk (hunk.header.text ++ ['\n']) = true := rfl
  have hiff : Counted (pythonLines hunk.written) ↔
      (∀ l ∈ hunkBody hunk.body, isHunkLine l) ∧ sizes (hunkBody hunk.body) = sizes hunk.body := by
    rw [pythonLines_of_single hsingle, sizes_body]
    refine ⟨fun h => ?_, fun h => ⟨fun _ => ⟨header, hheader, h.1, hdeclared.trans h.2.symm⟩, ?_⟩⟩
    · obtain ⟨header', hheader', hlines, hsizes⟩ := h.1 hfirst
      obtain rfl := Option.some.inj (hheader.symm.trans hheader')
      exact ⟨hlines, hsizes.symm.trans hdeclared⟩
    · exact counted_of_not_startsHunk fun line hline => (hstarts line hline).1
  rw [hiff]
  rcases hunkBody_cut hstarts with ⟨heq, hnone⟩ | ⟨before, after, old, new, heq, hcut, hminus, hplus⟩
  · rw [heq, isHunkLine_body]
    exact ⟨fun h => ⟨hnone, h.1⟩, fun h => ⟨h.2, rfl⟩⟩
  · refine ⟨fun h => ?_, fun h => absurd ⟨before, after, old, new, heq, hminus, hplus⟩ h.1⟩
    have hold := congrArg Prod.fst h.2
    obtain ⟨tail, rfl⟩ := hminus
    rw [hcut, heq] at hold
    have hcount : (before ++ ("--- ".toList ++ tail) :: new :: after).countP isOld =
        before.countP isOld + ((new :: after).countP isOld + 1) := by
      rw [List.countP_append, List.countP_cons_of_pos rfl]
    simp only [sizes] at hold
    omega

/-! ## What is left as it is -/

/-- No line of the hunk holds a line break but its newline, and it is read as it is; or the lines that Python
makes of it happen to be as many as its header says. -/
def Hunk.Kept (hunk : Hunk) : Prop :=
  (∀ line ∈ hunk.written, splitLines line = [line]) ∧ ¬ hunk.StartsFile ∧
      (∀ l ∈ hunk.lines, l.mark = .note → "\\ No newline at end of file".toList <+: l.line) ∨
    ¬ (∀ line ∈ hunk.written, splitLines line = [line]) ∧ Counted (pythonLines hunk.written)

/-- No line before the hunks holds a line break but its newline, or what follows one starts no wrong hunk. -/
def FileDiff.Kept (file : FileDiff) : Prop :=
  ((∀ line ∈ file.header, splitLines line = [line]) ∨ Counted (pythonLines file.header)) ∧
    ∀ hunk ∈ file.hunks, hunk.Kept

theorem Hunk.counted_iff_kept (hunk : Hunk) : Counted (pythonLines hunk.written) ↔ hunk.Kept := by
  have hiff := @counted_hunk_iff hunk
  unfold Hunk.Kept
  generalize Counted (pythonLines hunk.written) = counted at hiff ⊢
  by_cases hsingle : ∀ line ∈ hunk.written, splitLines line = [line]
  · rw [hiff hsingle]
    refine ⟨fun h => .inl ⟨hsingle, h⟩, fun h => ?_⟩
    rcases h with h | h
    · exact h.2
    · exact absurd hsingle h.1
  · refine ⟨fun h => .inr ⟨hsingle, h⟩, fun h => ?_⟩
    rcases h with h | h
    · exact absurd h.1 hsingle
    · exact h.2

theorem FileDiff.counted_iff_kept (file : FileDiff) : Counted (pythonLines file.written) ↔ file.Kept := by
  rw [counted_file, FileDiff.Kept]
  refine and_congr ⟨.inr, ?_⟩ (forall₂_congr fun hunk _ => hunk.counted_iff_kept)
  rintro (hsingle | hcounted)
  · rw [pythonLines_of_single hsingle]
    exact counted_of_not_startsHunk file.not_startsHunk
  · exact hcounted

/-- A diff as git writes it is left as it is exactly when each of its files is read as it is. -/
theorem normalize_gitDiff (diff : GitDiff) :
    normalizeUnifiedDiffHunks (String.ofList diff.text) =
        .ok { content := String.ofList diff.text, repairedHunks := 0 } ↔
      ∀ file ∈ diff, file.Kept := by
  have hfile : (splitLines diff.text).head?.all startsDiff = true := by
    rw [pythonLines_text]
    cases diff with
    | nil => rfl
    | cons file rest =>
      obtain ⟨line, more, hlines, hdiff⟩ := file.first
      rw [List.flatMap_cons, pythonLines_append, hlines]
      exact hdiff
  rw [normalize_eq_iff (by rw [String.toList_ofList]; exact hfile), String.toList_ofList, pythonLines_text,
    counted_diff]
  exact forall₂_congr fun file _ => file.counted_iff_kept

/-- A comment of an SQL file that is changed. -/
def commentDiff : GitDiff :=
  [{ paths := ⟨"a/q.sql b/q.sql".toList, by decide⟩
     extended := []
     names := some (⟨"a/q.sql".toList, by decide⟩, ⟨"b/q.sql".toList, by decide⟩)
     hunks :=
       [{ oldStart := 1
          newStart := 1
          oldShort := false
          newShort := false
          heading := ⟨[], by decide⟩
          lines :=
            [⟨.deleted, "-- old".toList, by decide⟩, ⟨.added, "++ new".toList, by decide⟩,
              ⟨.context, "select 1;".toList, by decide⟩]
          nonempty := by decide }]
     named := nofun }]

theorem comment_rejected :
    String.ofList commentDiff.text =
      "diff --git a/q.sql b/q.sql\n--- a/q.sql\n+++ b/q.sql\n@@ -1,2 +1,2 @@\n--- old\n+++ new\n select 1;\n" ∧
    normalizeUnifiedDiffHunks (String.ofList commentDiff.text) = .error .wrongCounts := by
  decide +kernel

end CodeMate.Sandbox
