import CodeMate.Framework.Text
import CodeMate.Indexing.Scan
import CodeMate.Sandbox.Reads

/-!
# The fallback JavaScript chunker

`SimpleJavaScriptChunker.parse` goes over the lines of a text: a line that
declares something starts a chunk, which runs to the line where the braces
opened since then are closed, or over that one line where they never are. A
turn of the loop always goes on further down (`turn_advances`), so that the
loop ends and its chunks are a sound partition of some of the lines
(`parse_partition`), whatever the text.
-/

namespace CodeMate.Indexing

open Framework
open Sandbox (splitlines after?)

/-- `line_slice`. -/
def lineSlice (lines : List (List Char)) (startLine endLine : ℕ) : List Char :=
  List.intercalate ['\n'] ((lines.take endLine).drop (startLine - 1))

/-! ## The patterns of a declaration -/

section Patterns

/-- `\s*`. -/
def spaces (text : List Char) : List Char := text.dropWhile Text.isSpace

/-- `word\s+`. -/
def keyword (word : String) (text : List Char) : Option (List Char) := do
  let rest ← after? word.toList text
  if rest.head?.any Text.isSpace then some (spaces rest) else none

/-- `(?:pattern)?`: in these patterns nothing that follows could match where the pattern does. -/
def optional (pattern : List Char → Option (List Char)) (text : List Char) : List Char :=
  (pattern text).getD text

-- `\w`: the letters and digits of Unicode, and the underscore.
variable (wordChar : Char → Bool)

/-- `[A-Za-z_$][\w$]*`, and the text after it. -/
def identifier : List Char → Option (List Char × List Char)
  | [] => none
  | c :: rest =>
    if c.isAlpha || c = '_' || c = '$' then
      some (c :: rest.takeWhile fun d => wordChar d || d = '$', rest.dropWhile fun d => wordChar d || d = '$')
    else none

/-- `\s*=>` at the start of the text. -/
def arrow (text : List Char) : Bool := "=>".toList.isPrefixOf (spaces text)

/-- `[^=]*\)\s*=>`. -/
def closedArrow : List Char → Bool
  | [] => false
  | c :: rest => (c = ')' && arrow rest) || (c ≠ '=' && closedArrow rest)

/-- `[A-Za-z_$][\w$]*\s*=>`. -/
def namedArrow (text : List Char) : Bool := (identifier wordChar text).any fun named => arrow named.2

def exportedFunction (line : List Char) : Option (List Char) := do
  let text ← keyword "export" (spaces line)
  let text ← keyword "function" (optional (keyword "async") text)
  return (← identifier wordChar text).1

def plainFunction (line : List Char) : Option (List Char) := do
  let text ← keyword "function" (optional (keyword "async") (spaces line))
  return (← identifier wordChar text).1

def exportedClass (line : List Char) : Option (List Char) := do
  let text ← keyword "export" (spaces line)
  return (← identifier wordChar (← keyword "class" text)).1

def plainClass (line : List Char) : Option (List Char) := do
  return (← identifier wordChar (← keyword "class" (spaces line))).1

/-- The name of a `const`, `let` or `var`, and the text after its `=\s*`. -/
def assigned (line : List Char) : Option (List Char × List Char) := do
  let text := optional (keyword "export") (spaces line)
  let text ← keyword "const" text <|> keyword "let" text <|> keyword "var" text
  let (name, rest) ← identifier wordChar text
  let rest ← after? ['='] (spaces rest)
  return (name, spaces rest)

def assignedFunction (line : List Char) : Option (List Char) := do
  let (name, value) ← assigned wordChar line
  let parameters ← after? ['('] (optional (fun text => (after? "async".toList text).map spaces) value)
  if closedArrow parameters then some name else none

def assignedArrow (line : List Char) : Option (List Char) := do
  let (name, value) ← assigned wordChar line
  if (after? "async".toList value).any (fun rest => namedArrow wordChar (spaces rest)) || namedArrow wordChar value
    then some name
  else none

/-- `DECLARATION_PATTERNS`. -/
def declarationPatterns : List ((List Char → Option (List Char)) × String) :=
  [(exportedFunction wordChar, "function"), (plainFunction wordChar, "function"), (exportedClass wordChar, "class"),
    (plainClass wordChar, "class"), (assignedFunction wordChar, "function"), (assignedArrow wordChar, "function")]

/-- `_match_declaration`. -/
def matchDeclaration (line : List Char) : Option (List Char × String) :=
  (declarationPatterns wordChar).findSome? fun pattern => (pattern.1 line).map fun name => (name, pattern.2)

/-- `re.search(r"return\s*\(?\s*<", text)`. -/
def returnsMarkup : List Char → Bool
  | [] => false
  | c :: rest =>
    (after? "return".toList (c :: rest)).any (fun text =>
      (spaces (optional (after? ['(']) (spaces text))).head? = some '<') || returnsMarkup rest

end Patterns

/-! ## The chunker -/

/-- The loop of `_find_block_end` over the lines from `index` on. -/
def blockEndFrom : ℤ → Bool → ℕ → List (List Char) → Option ℕ
  | _, _, _, [] => none
  | braceDepth, started, index, line :: rest =>
    let started := started || line.contains '{'
    let braceDepth := braceDepth + line.count '{' - line.count '}'
    if started && braceDepth ≤ 0 then some (index + 1) else blockEndFrom braceDepth started (index + 1) rest

/-- `_find_block_end`. -/
def findBlockEnd (lines : List (List Char)) (startIndex : ℕ) : ℕ :=
  (blockEndFrom 0 false startIndex (lines.drop startIndex)).getD (startIndex + 1)

theorem blockEndFrom_bounds {braceDepth : ℤ} {started : Bool} {index : ℕ} {rest : List (List Char)} {stop : ℕ}
    (h : blockEndFrom braceDepth started index rest = some stop) : index < stop ∧ stop ≤ index + rest.length := by
  induction rest generalizing braceDepth started index with
  | nil => cases h
  | cons line rest ih =>
    rw [blockEndFrom] at h
    rw [List.length_cons]
    split at h
    · cases h
      omega
    · have := ih h
      omega

/-- A block ends after its first line, within the file. -/
theorem findBlockEnd_bounds {lines : List (List Char)} {startIndex : ℕ} (h : startIndex < lines.length) :
    startIndex < findBlockEnd lines startIndex ∧ findBlockEnd lines startIndex ≤ lines.length := by
  unfold findBlockEnd
  cases hend : blockEndFrom 0 false startIndex (lines.drop startIndex) with
  | none =>
    rw [Option.getD_none]
    omega
  | some stop =>
    have hbounds := blockEndFrom_bounds hend
    rw [List.length_drop] at hbounds
    rw [Option.getD_some]
    omega

section Parse

variable (wordChar : Char → Bool) (makeContentHash : List Char → String) (imports exports : List String)

/-- A turn of the loop at a line: the chunk it adds, if any, and the line it goes on at. -/
def turn (lines : List (List Char)) (lineIndex : ℕ) (line : List Char) : Option ChunkData × ℕ :=
  match matchDeclaration wordChar line with
  | none => (none, lineIndex + 1)
  | some (symbolName, symbolType) =>
    let endLine := findBlockEnd lines lineIndex
    let content := lineSlice lines (lineIndex + 1) endLine
    let symbolType := if symbolName.head?.any Char.isUpper && returnsMarkup content then "component" else symbolType
    (some { symbolName := String.ofList symbolName, symbolType := symbolType, startLine := lineIndex + 1,
            endLine := endLine, content := String.ofList content, contentHash := makeContentHash content,
            imports := imports, exports := exports }, endLine)

/-- Every turn goes on further down, and no further than the end of the file. -/
theorem turn_advances {lines : List (List Char)} {lineIndex : ℕ} (h : lineIndex < lines.length) (line : List Char) :
    lineIndex < (turn wordChar makeContentHash imports exports lines lineIndex line).2 ∧
      (turn wordChar makeContentHash imports exports lines lineIndex line).2 ≤ lines.length := by
  unfold turn
  split
  · exact ⟨lineIndex.lt_succ_self, h⟩
  · exact findBlockEnd_bounds h

/-- The loop of `parse` from a line on. -/
def parseFrom (lines : List (List Char)) (lineIndex : ℕ) : List ChunkData :=
  if h : lineIndex < lines.length then
    (turn wordChar makeContentHash imports exports lines lineIndex lines[lineIndex]).1.toList ++
      parseFrom lines (turn wordChar makeContentHash imports exports lines lineIndex lines[lineIndex]).2
  else []
termination_by lines.length - lineIndex
decreasing_by exact Nat.sub_lt_sub_left h (turn_advances _ _ _ _ h _).1

/-- `SimpleJavaScriptChunker.parse`. -/
def parse (content : List Char) : List ChunkData :=
  parseFrom wordChar makeContentHash imports exports (splitlines content) 0

end Parse

variable {wordChar : Char → Bool} {makeContentHash : List Char → String} {imports exports : List String}

/-- The chunk of a turn runs from the line of the turn to the one that the loop goes on at. -/
theorem turn_chunk {lines : List (List Char)} {lineIndex : ℕ} {line : List Char} {chunk : ChunkData}
    (h : chunk ∈ (turn wordChar makeContentHash imports exports lines lineIndex line).1) :
    chunk.startLine = lineIndex + 1 ∧
      chunk.endLine = (turn wordChar makeContentHash imports exports lines lineIndex line).2 ∧
      chunk.content = String.ofList (lineSlice lines chunk.startLine chunk.endLine) := by
  unfold turn at h ⊢
  split at h
  · cases h
  · cases h
    exact ⟨rfl, rfl, rfl⟩

/-- The chunk stands in the lines from `lineIndex` on, and holds just the lines it names. -/
structure Stands (lines : List (List Char)) (lineIndex : ℕ) (chunk : ChunkData) : Prop where
  after : lineIndex < chunk.startLine
  nonempty : chunk.startLine ≤ chunk.endLine
  within : chunk.endLine ≤ lines.length
  content_eq : chunk.content = String.ofList (lineSlice lines chunk.startLine chunk.endLine)

/-- The rest of the loop adds chunks of lines further down, one after the other. -/
theorem parseFrom_stands (lines : List (List Char)) (lineIndex : ℕ) :
    (parseFrom wordChar makeContentHash imports exports lines lineIndex).Pairwise
        (fun earlier later => earlier.endLine < later.startLine) ∧
      ∀ chunk ∈ parseFrom wordChar makeContentHash imports exports lines lineIndex, Stands lines lineIndex chunk := by
  fun_induction parseFrom wordChar makeContentHash imports exports lines lineIndex with
  | case2 lineIndex h => exact ⟨.nil, nofun⟩
  | case1 lineIndex h ih =>
    obtain ⟨hlt, hle⟩ := turn_advances wordChar makeContentHash imports exports h lines[lineIndex]
    have hfirst (chunk : ChunkData) (hmem : chunk ∈ (turn wordChar makeContentHash imports exports lines lineIndex
        lines[lineIndex]).1) := turn_chunk hmem
    revert ih hlt hle hfirst
    generalize turn wordChar makeContentHash imports exports lines lineIndex lines[lineIndex] = result
    intro ih hlt hle hfirst
    refine ⟨List.pairwise_append.mpr ⟨?_, ih.1, fun first hmem later hlater => ?_⟩, fun chunk hmem => ?_⟩
    · cases result.1 <;> simp
    · obtain ⟨-, hend, -⟩ := hfirst first (Option.mem_toList.mp hmem)
      exact hend ▸ (ih.2 later hlater).after
    · rcases List.mem_append.mp hmem with hmem | hmem
      · obtain ⟨hstart, hend, hcontent⟩ := hfirst chunk (Option.mem_toList.mp hmem)
        exact ⟨by omega, by omega, by omega, hcontent⟩
      · have := ih.2 chunk hmem
        exact ⟨hlt.trans this.after, this.nonempty, this.within, this.content_eq⟩

/-- The loop ends whatever the text is, as every turn goes on further down and past the chunk it
adds. The chunks come in the order of the source without sharing a line, within the file, each with
the lines it names. -/
theorem parse_partition (wordChar : Char → Bool) (makeContentHash : List Char → String)
    (imports exports : List String) (content : List Char) :
    (parse wordChar makeContentHash imports exports content).Pairwise
        (fun earlier later => earlier.endLine < later.startLine) ∧
      (∀ chunk ∈ parse wordChar makeContentHash imports exports content,
        1 ≤ chunk.startLine ∧ chunk.startLine ≤ chunk.endLine ∧ chunk.endLine ≤ (splitlines content).length ∧
          chunk.content = String.ofList (lineSlice (splitlines content) chunk.startLine chunk.endLine)) ∧
      ∀ lineIndex < (splitlines content).length, ∀ line,
        lineIndex < (turn wordChar makeContentHash imports exports (splitlines content) lineIndex line).2 ∧
          ∀ chunk ∈ (turn wordChar makeContentHash imports exports (splitlines content) lineIndex line).1,
            chunk.startLine = lineIndex + 1 ∧
              chunk.endLine =
                (turn wordChar makeContentHash imports exports (splitlines content) lineIndex line).2 := by
  obtain ⟨hpairwise, hstands⟩ : (parse wordChar makeContentHash imports exports content).Pairwise
        (fun earlier later => earlier.endLine < later.startLine) ∧
      ∀ chunk ∈ parse wordChar makeContentHash imports exports content, Stands (splitlines content) 0 chunk :=
    parseFrom_stands (splitlines content) 0
  refine ⟨hpairwise, fun chunk hmem => ?_, fun lineIndex h line =>
    ⟨(turn_advances _ _ _ _ h line).1, fun chunk hmem => ?_⟩⟩
  · have := hstands chunk hmem
    exact ⟨this.after, this.nonempty, this.within, this.content_eq⟩
  · obtain ⟨hstart, hend, -⟩ := turn_chunk hmem
    exact ⟨hstart, hend⟩

end CodeMate.Indexing
