import Mathlib.Data.List.Basic

/-!
# Unified diffs

`normalize_unified_diff_hunks`: the hunks of a diff are counted, and the counts
in a hunk's header are repaired where the hunk ends with unchanged context.
A line is the list of its characters, with its line break.
-/

namespace CodeMate.Sandbox

abbrev Line := List Char

/-- What `str.splitlines` ends a line at. -/
def isLineBreak (c : Char) : Bool :=
  c ∈ ['\n', '\r', '\x0b', '\x0c', '\x1c', '\x1d', '\x1e', '\u0085', '\u2028', '\u2029']

/-- `text.splitlines(keepends=True)`. -/
def splitLines : List Char → List Line
  | [] => []
  | '\r' :: '\n' :: rest => ['\r', '\n'] :: splitLines rest
  | c :: rest =>
    if isLineBreak c then [c] :: splitLines rest
    else match splitLines rest with
      | [] => [[c]]
      | line :: lines => (c :: line) :: lines

/-- The first character of each block of ten decimal digits. -/
def digitBlocks : List Nat :=
  [0x30, 0x660, 0x6f0, 0x7c0, 0x966, 0x9e6, 0xa66, 0xae6, 0xb66, 0xbe6, 0xc66, 0xce6, 0xd66, 0xde6, 0xe50, 0xed0,
    0xf20, 0x1040, 0x1090, 0x17e0, 0x1810, 0x1946, 0x19d0, 0x1a80, 0x1a90, 0x1b50, 0x1bb0, 0x1c40, 0x1c50, 0xa620,
    0xa8d0, 0xa900, 0xa9d0, 0xa9f0, 0xaa50, 0xabf0, 0xff10, 0x104a0, 0x10d30, 0x11066, 0x110f0, 0x11136, 0x111d0,
    0x112f0, 0x11450, 0x114d0, 0x11650, 0x116c0, 0x11730, 0x118e0, 0x11950, 0x11c50, 0x11d50, 0x11da0,
    0x16a60, 0x16ac0, 0x16b50, 0x1d7ce, 0x1d7d8, 0x1d7e2, 0x1d7ec, 0x1d7f6, 0x1e140, 0x1e2f0, 0x1e950,
    0x1fbf0]

/-- The value of a decimal digit, which `\d` matches. -/
def digitValue (c : Char) : Option Nat :=
  (digitBlocks.find? fun first => first ≤ c.toNat && c.toNat < first + 10).map (c.toNat - ·)

/-- `int(digits)`. -/
def intOf (digits : List Char) : Nat := digits.foldl (fun n c => 10 * n + (digitValue c).getD 0) 0

/-- `(\d+)(?:,(\d+))?` at the start of a text, with what follows. -/
def hunkRange (text : List Char) : Option ((List Char × Option (List Char)) × List Char) :=
  let start := text.takeWhile fun c => (digitValue c).isSome
  let rest := text.dropWhile fun c => (digitValue c).isSome
  if start = [] then none
  else match rest with
    | ',' :: rest' =>
      let count := rest'.takeWhile fun c => (digitValue c).isSome
      if count = [] then some ((start, none), rest)
      else some ((start, some count), rest'.dropWhile fun c => (digitValue c).isSome)
    | _ => some ((start, none), rest)

/-- The groups of `_HUNK_HEADER`. -/
structure HunkHeader where
  oldStart : List Char
  oldCount : Option (List Char)
  newStart : List Char
  newCount : Option (List Char)
  suffix : List Char

/-- The text after a prefix. -/
def after? (pre text : List Char) : Option (List Char) :=
  if pre.isPrefixOf text then some (text.drop pre.length) else none

/-- `_HUNK_HEADER.fullmatch`. -/
def matchHunkHeader (text : List Char) : Option HunkHeader := do
  let text ← after? "@@ -".toList text
  let ((oldStart, oldCount), text) ← hunkRange text
  let text ← after? " +".toList text
  let ((newStart, newCount), text) ← hunkRange text
  let suffix ← after? " @@".toList text
  return { oldStart, oldCount, newStart, newCount, suffix }

inductive InvalidUnifiedDiffError
  | noFileHeader
  | invalidHeader (headerText : List Char)
  | wrongCounts
  | invalidLine (rendered : List Char)
deriving DecidableEq

/-- `str(exc)`; `repr` is that of a text. -/
def InvalidUnifiedDiffError.message (repr : String → String) : InvalidUnifiedDiffError → String
  | noFileHeader => "hunk appears before a file header"
  | invalidHeader headerText => "invalid hunk header: " ++ String.ofList headerText
  | wrongCounts =>
    "hunk line counts are wrong and the hunk has no trailing context; the generated patch may be truncated"
  | invalidLine rendered => "invalid line in hunk: " ++ repr (String.ofList rendered)

/-- `line.rstrip("\r\n")`. -/
def rstripLine (line : Line) : List Char := (line.reverse.dropWhile fun c => c = '\r' || c = '\n').reverse

/-- `_starts_file_header`, at the head of the lines. -/
def startsFileHeader : List Line → Bool
  | line :: next :: _ => "--- ".toList.isPrefixOf line && "+++ ".toList.isPrefixOf next
  | _ => false

def startsDiff (line : Line) : Bool := "diff --git ".toList.isPrefixOf line

/-- The lines of a hunk, up to the next hunk or file. -/
def hunkBody : List Line → List Line
  | [] => []
  | line :: rest =>
    if startsDiff line || "@@ ".toList.isPrefixOf line || startsFileHeader (line :: rest) then []
    else line :: hunkBody rest

/-- What `_count_hunk_lines` returns, with the lines after the last change in place of its index:
`none` where no line changes anything. -/
structure HunkCounts where
  old : Nat
  new : Nat
  afterLastChange : Option (List Line)

/-- `_count_hunk_lines`. -/
def countHunkLines : List Line → HunkCounts → Except InvalidUnifiedDiffError HunkCounts
  | [], counts => .ok counts
  | line :: rest, counts =>
    match line with
    | ' ' :: _ => countHunkLines rest { counts with old := counts.old + 1, new := counts.new + 1 }
    | '-' :: _ => countHunkLines rest { counts with old := counts.old + 1, afterLastChange := some rest }
    | '+' :: _ => countHunkLines rest { counts with new := counts.new + 1, afterLastChange := some rest }
    | _ =>
      if "\\ No newline at end of file".toList.isPrefixOf line then countHunkLines rest counts
      else .error (.invalidLine (rstripLine line))

/-- The line break at the end of a header. -/
def headerNewline (line : Line) : List Char :=
  if "\r\n".toList.isSuffixOf line then "\r\n".toList
  else if "\n".toList.isSuffixOf line then "\n".toList
  else []

/-- The header of a hunk, with the counts of its body; whether it was repaired. -/
def normalizeHeader (line : Line) (header : HunkHeader) (body : List Line) :
    Except InvalidUnifiedDiffError (Line × Bool) := do
  let counts ← countHunkLines body ⟨0, 0, none⟩
  let declaredOldCount := intOf (header.oldCount.getD ['1'])
  let declaredNewCount := intOf (header.newCount.getD ['1'])
  if (declaredOldCount, declaredNewCount) = (counts.old, counts.new) then return (line, false)
  match counts.afterLastChange with
  | none => throw .wrongCounts
  | some trailing =>
    if !trailing.any fun line => " ".toList.isPrefixOf line then throw .wrongCounts
    return ("@@ -".toList ++ header.oldStart ++ ",".toList ++ (toString counts.old).toList ++ " +".toList ++
      header.newStart ++ ",".toList ++ (toString counts.new).toList ++ " @@".toList ++ header.suffix ++
      headerNewline line, true)

/-- The loop of `normalize_unified_diff_hunks`; the next `skip` lines are the body of a hunk. -/
def normalizeLines : (skip : Nat) → List Line → (sawFileHeader : Bool) →
    Except InvalidUnifiedDiffError (List Line × Nat)
  | _, [], _ => .ok ([], 0)
  | skip + 1, line :: rest, saw => do
    let (lines, repaired) ← normalizeLines skip rest saw
    return (line :: lines, repaired)
  | 0, line :: rest, saw =>
    let headerText := rstripLine line
    if startsDiff line || startsFileHeader (line :: rest) then do
      let (lines, repaired) ← normalizeLines 0 rest true
      return (line :: lines, repaired)
    else if !"@@ ".toList.isPrefixOf headerText then do
      let (lines, repaired) ← normalizeLines 0 rest saw
      return (line :: lines, repaired)
    else if !saw then .error .noFileHeader
    else match matchHunkHeader headerText with
      | none => .error (.invalidHeader headerText)
      | some header => do
        let body := hunkBody rest
        let (line', isRepaired) ← normalizeHeader line header body
        let (lines, repaired) ← normalizeLines body.length rest saw
        return (line' :: lines, repaired + if isRepaired then 1 else 0)

structure NormalizedPatch where
  content : String
  repairedHunks : Nat
deriving DecidableEq

/-- `normalize_unified_diff_hunks`. -/
def normalizeUnifiedDiffHunks (diff : String) : Except InvalidUnifiedDiffError NormalizedPatch := do
  let (lines, repairedHunks) ← normalizeLines 0 (splitLines diff.toList) false
  return { content := String.ofList lines.flatten, repairedHunks }

end CodeMate.Sandbox
