import CodeMate.Indexing.Chunkers

/-!
# The chunker of single-file components

`VueSFCChunker.parse` finds the blocks of a component with a pattern
(`matchBlock`), and cuts a chunk for the body of a template and the chunks of
the JavaScript chunker for that of a script, at lines of the file.
`chunks_exact_iff` is when the chunks of all three chunkers are the lines that
the parsers meant.
-/

namespace CodeMate.Indexing

open Framework
open Sandbox (splitlines after? Unbroken)

/-! ## The pattern of a block -/

/-- A match of `BLOCK_RE`, and where its body starts. -/
structure Block where
  tag : List Char
  attrs : List Char
  body : List Char
  bodyStart : ℕ

/-- A small letter of the pattern against a character of the text, with `IGNORECASE`. -/
def matchesLetter (letter c : Char) : Bool :=
  c.toLower = letter || (letter = 'i' && c.toNat ∈ [0x130, 0x131]) || (letter = 's' && c.toNat = 0x17f)

/-- What a backreference compares with `IGNORECASE`. -/
def lowered (c : Char) : Char := if c.toNat = 0x130 then 'i' else c.toLower

/-- The text after a word that is compared letter by letter. -/
def afterWord (same : Char → Char → Bool) : List Char → List Char → Option (List Char)
  | [], text => some text
  | _ :: _, [] => none
  | letter :: word, c :: text => if same letter c then afterWord same word text else none

/-- The tag at the start of the text, and what follows it. -/
def blockTag (text : List Char) : Option (List Char × List Char) :=
  ["template", "script"].findSome? fun word =>
    (afterWord matchesLetter word.toList text).map fun rest => (text.take word.length, rest)

/-- The text after the closing tag that it starts with. -/
def afterClosing (tag : List Char) : List Char → Option (List Char)
  | '<' :: '/' :: text =>
    match afterWord (fun a b => lowered a = lowered b) tag text with
    | some ('>' :: rest) => some rest
    | _ => none
  | _ => none

/-- `.*?` up to the closing tag, and the text after that. -/
def bodyUntil (tag : List Char) : List Char → Option (List Char × List Char)
  | [] => none
  | c :: text =>
    match afterClosing tag (c :: text) with
    | some rest => some ([], rest)
    | none => (bodyUntil tag text).map fun found => (c :: found.1, found.2)

section Parse

-- `\w`
variable (wordChar : Char → Bool)

/-- `BLOCK_RE` at the start of a text that stands at an offset of the content, and the text after the match. -/
def matchBlock (offset : ℕ) : List Char → Option (Block × List Char)
  | '<' :: text => do
    let (tag, text') ← blockTag text
    if text'.head?.any wordChar then none
    else match text'.dropWhile (· ≠ '>') with
      | '>' :: inner => do
        let (body, rest) ← bodyUntil tag inner
        let attrs := text'.takeWhile (· ≠ '>')
        some (⟨tag, attrs, body, offset + tag.length + attrs.length + 2⟩, rest)
      | _ => none
  | _ => none

theorem length_afterWord {same : Char → Char → Bool} {word text rest : List Char}
    (h : afterWord same word text = some rest) : text.length = word.length + rest.length := by
  fun_induction afterWord same word text with
  | case1 text => rw [Option.some.inj h, List.length_nil, Nat.zero_add]
  | case2 => cases h
  | case3 letter word c text hsame ih =>
    rw [List.length_cons, List.length_cons, ih h]
    omega
  | case4 => cases h

theorem eq_of_afterWord {same : Char → Char → Bool} {word text rest : List Char}
    (h : afterWord same word text = some rest) : text = text.take word.length ++ rest := by
  fun_induction afterWord same word text with
  | case1 text => rw [Option.some.inj h]; rfl
  | case2 => cases h
  | case3 letter word c text hsame ih =>
    rw [List.length_cons, List.take_succ_cons, List.cons_append, ← ih h]
  | case4 => cases h

theorem blockTag_some {text tag rest : List Char} (h : blockTag text = some (tag, rest)) : text = tag ++ rest := by
  obtain ⟨word, -, hword⟩ := List.exists_of_findSome?_eq_some h
  obtain ⟨after, hafter, heq⟩ := Option.map_eq_some_iff.mp hword
  cases heq
  exact eq_of_afterWord hafter

theorem afterClosing_some {tag text rest : List Char} (h : afterClosing tag text = some rest) :
    ∃ word, text = '<' :: '/' :: (word ++ '>' :: rest) := by
  unfold afterClosing at h
  split at h
  · next text =>
    split at h
    · next rest' hword =>
      obtain rfl := Option.some.inj h
      exact ⟨text.take tag.length, by rw [← eq_of_afterWord hword]⟩
    · cases h
  · cases h

/-- A body ends at a closing tag. -/
theorem bodyUntil_some {tag text body rest : List Char} (h : bodyUntil tag text = some (body, rest)) :
    ∃ closing, afterClosing tag closing = some rest ∧ text = body ++ closing := by
  induction text generalizing body with
  | nil => cases h
  | cons c text ih =>
    rw [bodyUntil] at h
    split at h
    · next rest' hclosing =>
      cases h
      exact ⟨c :: text, hclosing, rfl⟩
    · obtain ⟨found, hfound, heq⟩ := Option.map_eq_some_iff.mp h
      cases heq
      obtain ⟨closing, hclosing, rfl⟩ := ih hfound
      exact ⟨closing, hclosing, rfl⟩

/-- A match holds its body where it says, and goes on after that. -/
theorem matchBlock_some {offset : ℕ} {text rest : List Char} {block : Block}
    (h : matchBlock wordChar offset text = some (block, rest)) :
    ∃ opening closing, text = opening ++ (block.body ++ closing) ∧ block.bodyStart = offset + opening.length ∧
      ∃ used, used ≠ [] ∧ closing = used ++ rest := by
  unfold matchBlock at h
  split at h
  · next text =>
    obtain ⟨⟨tag, after⟩, htag, htagged⟩ := Option.bind_eq_some_iff.mp h
    obtain rfl := blockTag_some htag
    dsimp only at htagged
    split at htagged
    · cases htagged
    · split at htagged
      · next inner hinner =>
        obtain ⟨⟨body, rest'⟩, hbody, hblock⟩ := Option.bind_eq_some_iff.mp htagged
        cases hblock
        obtain ⟨closing, hclosing, rfl⟩ := bodyUntil_some hbody
        obtain ⟨word, rfl⟩ := afterClosing_some hclosing
        have hafter := List.takeWhile_append_dropWhile (p := (· ≠ '>')) (l := after)
        rw [hinner] at hafter
        refine ⟨'<' :: (tag ++ (after.takeWhile (· ≠ '>') ++ ['>'])), '<' :: '/' :: (word ++ '>' :: rest'), ?_, ?_,
          '<' :: '/' :: (word ++ ['>']), ?_, ?_⟩
        · conv_lhs => rw [← hafter]
          simp
        · simp only [List.length_cons, List.length_append, List.length_nil]
          omega
        · exact List.cons_ne_nil _ _
        · simp
      · cases htagged
  · cases h

/-- `BLOCK_RE.finditer`, in the rest of a content from an offset on. -/
def blocksFrom (offset : ℕ) (text : List Char) : List Block :=
  match h : matchBlock wordChar offset text with
  | some (block, rest) => block :: blocksFrom (offset + (text.length - rest.length)) rest
  | none =>
    match text with
    | [] => []
    | _ :: text => blocksFrom (offset + 1) text
termination_by text.length
decreasing_by
  · obtain ⟨opening, closing, htext, -, used, hused, hclosing⟩ := matchBlock_some wordChar h
    have := List.length_pos_iff.mpr hused
    rw [htext, hclosing]
    simp only [List.length_append]
    omega
  · exact Nat.lt_succ_self _

def blocks (content : List Char) : List Block := blocksFrom wordChar 0 content

/-- Every block has its body in the content, where it says. -/
theorem blocksFrom_body {before text : List Char} :
    ∀ block ∈ blocksFrom wordChar before.length text, ∃ front closing,
      before ++ text = front ++ (block.body ++ closing) ∧
      front.length = block.bodyStart ∧ closing ≠ [] := by
  generalize hoffset : before.length = offset
  fun_induction blocksFrom wordChar offset text generalizing before with
  | case1 offset text block rest h ih =>
    obtain ⟨opening, closing, htext, hstart, used, hused, hclosing⟩ := matchBlock_some wordChar h
    refine List.forall_mem_cons.mpr ⟨⟨before ++ opening, closing, ?_, ?_, ?_⟩, fun other hother => ?_⟩
    · rw [htext, List.append_assoc]
    · rw [List.length_append, hoffset, hstart]
    · rw [hclosing]
      exact List.append_ne_nil_of_left_ne_nil hused rest
    · have hlength : (before ++ (opening ++ (block.body ++ used))).length = offset + (text.length - rest.length) := by
        rw [htext, hclosing]
        simp only [List.length_append]
        omega
      obtain ⟨front, closing', heq, hfront⟩ := ih hlength other hother
      refine ⟨front, closing', ?_, hfront⟩
      rw [← heq, htext, hclosing]
      simp only [List.append_assoc]
  | case2 offset h => exact nofun
  | case3 offset c text h ih =>
    intro block hblock
    have hlength : (before ++ [c]).length = offset + 1 := by rw [List.length_append, hoffset]; rfl
    obtain ⟨front, closing, heq, hfront⟩ := ih hlength block hblock
    exact ⟨front, closing, by rw [← heq, List.append_assoc]; rfl, hfront⟩

end Parse

/-! ## The chunks -/

/-- `_absolute_body_range`. -/
def absoluteBodyRange (body : List Char) (bodyStartLine : ℕ) : ℕ × ℕ :=
  let leadingNewlines := (body.takeWhile (· = '\n')).length
  let trailingNewlines := (body.reverse.takeWhile (· = '\n')).length
  let bodyLineCount := max (body.count '\n' + 1) 1
  let startLine := bodyStartLine + leadingNewlines
  let endLine := bodyStartLine + bodyLineCount - trailingNewlines - 1
  (startLine, max startLine endLine)

/-- `re.search(r"lang=[\"']?([^\"'\s>]+)", attrs, re.IGNORECASE)`, the group. -/
def searchLang : List Char → Option (List Char)
  | [] => none
  | c :: text =>
    let quote (c : Char) : Bool := c = '"' || c.toNat = 0x27
    match afterWord matchesLetter "lang=".toList (c :: text) with
    | none => searchLang text
    | some value =>
      let value := if value.head?.any quote then value.drop 1 else value
      let lang := value.takeWhile fun c => !(quote c || Text.isSpace c || c = '>')
      if lang = [] then searchLang text else some lang

inductive Language
  | javascript
  | typescript
  deriving DecidableEq

/-- `_script_language`. -/
def scriptLanguage (attrs : List Char) : Language :=
  match searchLang attrs with
  | some lang =>
    if String.ofList (lang.map Char.toLower) ∈ ["ts", "tsx", "typescript"] then .typescript else .javascript
  | none => .javascript

/-- `tag == "template"`, of the tag in lower case. -/
def Block.isTemplate (block : Block) : Bool := block.tag.map Char.toLower = "template".toList

/-- `body.strip()` is empty. -/
def Block.isBlank (block : Block) : Bool := Text.strip block.body = []

/-- `body_start_line`. -/
def Block.startLine (content : List Char) (block : Block) : ℕ := (content.take block.bodyStart).count '\n' + 1

/-- The parsers, each as the chunkers call it: `ast.parse`, which may fail, and the one of a language. -/
structure Parsers where
  astParse : List Char → Option (List Statement)
  treeSitter : Language → List Char → Node

/-- What the chunkers do with texts besides: `\w`, `str.isupper`, the hash, and the names that are imported and
exported in JavaScript. -/
structure Reading where
  wordChar : Char → Bool
  isUpper : Char → Bool
  makeContentHash : List Char → String
  extractImports : List Char → List String
  extractExports : List Char → List String

variable (reading : Reading) (parsers : Parsers)

def bodyChunk (lines : List (List Char)) (stem kind : String) (block : Block) (bodyStartLine : ℕ)
    (imports exports : List String) : ChunkData :=
  let range := absoluteBodyRange block.body bodyStartLine
  let content := lineSlice lines range.1 range.2
  { symbolName := stem ++ "." ++ kind
    symbolType := kind
    startLine := range.1
    endLine := range.2
    content := String.ofList content
    contentHash := reading.makeContentHash content
    imports := imports
    exports := exports }

/-- `_template_chunk`. -/
def templateChunk (lines : List (List Char)) (stem : String) (block : Block) (bodyStartLine : ℕ) : List ChunkData :=
  if block.isBlank then [] else [bodyChunk reading lines stem "template" block bodyStartLine [] []]

/-- `_shift_chunk_lines`. -/
def shiftChunkLines (lines : List (List Char)) (bodyStartLine : ℕ) (chunk : ChunkData) : ChunkData :=
  let startLine := bodyStartLine + chunk.startLine - 1
  let endLine := bodyStartLine + chunk.endLine - 1
  let content := lineSlice lines startLine endLine
  { chunk with
    startLine := startLine
    endLine := endLine
    content := String.ofList content
    contentHash := reading.makeContentHash content }

def parseScript (block : Block) : ParsedFile :=
  javascriptParse reading.isUpper reading.makeContentHash reading.extractImports reading.extractExports
    (parsers.treeSitter (scriptLanguage block.attrs)) block.body

/-- `_script_chunks`. -/
def scriptChunks (lines : List (List Char)) (stem : String) (block : Block) (bodyStartLine : ℕ) : List ChunkData :=
  let parsed := parseScript reading parsers block
  let chunks := parsed.chunks.map (shiftChunkLines reading lines bodyStartLine)
  if chunks ≠ [] then chunks
  else if block.isBlank then []
  else
    let scriptKind := if (Text.find? "setup".toList block.attrs).isSome then "script_setup" else "script"
    [bodyChunk reading lines stem scriptKind block bodyStartLine parsed.imports parsed.exports]

def blockChunks (content : List Char) (stem : String) (block : Block) : List ChunkData :=
  if block.isTemplate then templateChunk reading (splitlines content) stem block (block.startLine content)
  else scriptChunks reading parsers (splitlines content) stem block (block.startLine content)

/-- `VueSFCChunker.parse`. -/
def vueParse (stem : String) (content : List Char) : ParsedFile :=
  let found := blocks reading.wordChar content
  let scriptBodies := (found.filter fun block => !block.isTemplate).map Block.body
  let imports := sortedSet (scriptBodies.flatMap reading.extractImports)
  let exports := sortedSet (scriptBodies.flatMap reading.extractExports)
  let chunks := found.flatMap (blockChunks reading parsers content stem)
  ⟨imports, exports, chunks.map fun chunk => { chunk with imports := imports, exports := exports }⟩

/-! ## Ranges -/

/-- The lines of a range of a block, as lines of the file. -/
def shiftRange (bodyStartLine : ℕ) (range : ℕ × ℕ) : ℕ × ℕ :=
  (bodyStartLine + range.1 - 1, bodyStartLine + range.2 - 1)

/-- The ranges of a block in the file: that of its body, or those of the declarations in a script. -/
def Block.ranges (content : List Char) (block : Block) : List (ℕ × ℕ) :=
  let declared := javascriptRanges reading.isUpper (parsers.treeSitter (scriptLanguage block.attrs)) block.body
  if block.isTemplate || declared = [] then
    if block.isBlank then [] else [absoluteBodyRange block.body (block.startLine content)]
  else declared.map (shiftRange (block.startLine content))

def vueRanges (content : List Char) : List (ℕ × ℕ) :=
  (blocks reading.wordChar content).flatMap (Block.ranges reading parsers content)

section

variable {reading parsers}

theorem Cut.shift {lines bodyLines : List (List Char)} {ranges : List (ℕ × ℕ)} {chunks : List ChunkData}
    (h : Cut bodyLines ranges chunks) (bodyStartLine : ℕ) :
    Cut lines (ranges.map (shiftRange bodyStartLine)) (chunks.map (shiftChunkLines reading lines bodyStartLine)) where
  reported shifted hshifted := by
    obtain ⟨chunk, hchunk, rfl⟩ := List.mem_map.mp hshifted
    exact List.mem_map_of_mem (h.reported chunk hchunk)
  content_eq shifted hshifted := by
    obtain ⟨chunk, -, rfl⟩ := List.mem_map.mp hshifted
    rfl
  complete range hrange := by
    obtain ⟨range', hrange', rfl⟩ := List.mem_map.mp hrange
    obtain ⟨chunk, hchunk, rfl⟩ := h.complete range' hrange'
    exact ⟨_, List.mem_map_of_mem hchunk, rfl⟩

theorem Cut.rename {lines : List (List Char)} {ranges : List (ℕ × ℕ)} {chunks : List ChunkData}
    (h : Cut lines ranges chunks) (imports exports : List String) :
    Cut lines ranges (chunks.map fun chunk => { chunk with imports := imports, exports := exports }) where
  reported renamed hrenamed := by
    obtain ⟨chunk, hchunk, rfl⟩ := List.mem_map.mp hrenamed
    exact h.reported chunk hchunk
  content_eq renamed hrenamed := by
    obtain ⟨chunk, hchunk, rfl⟩ := List.mem_map.mp hrenamed
    exact h.content_eq chunk hchunk
  complete range hrange := by
    obtain ⟨chunk, hchunk, heq⟩ := h.complete range hrange
    exact ⟨_, List.mem_map_of_mem hchunk, heq⟩

/-- There are chunks exactly if there are ranges. -/
theorem Cut.eq_nil_iff {lines : List (List Char)} {ranges : List (ℕ × ℕ)} {chunks : List ChunkData}
    (h : Cut lines ranges chunks) : chunks = [] ↔ ranges = [] := by
  constructor
  · rintro rfl
    refine List.eq_nil_iff_forall_not_mem.mpr fun range hrange => ?_
    obtain ⟨chunk, hchunk, -⟩ := h.complete range hrange
    cases hchunk
  · rintro rfl
    exact List.eq_nil_iff_forall_not_mem.mpr fun chunk hchunk => absurd (h.reported chunk hchunk) List.not_mem_nil

theorem block_cut (content : List Char) (stem : String) (block : Block) :
    Cut (splitlines content) (block.ranges reading parsers content)
      (blockChunks reading parsers content stem block) := by
  have hbody (kind : String) (imports exports : List String) :
      Cut (splitlines content) [absoluteBodyRange block.body (block.startLine content)]
        [bodyChunk reading (splitlines content) stem kind block (block.startLine content) imports exports] :=
    Cut.single rfl rfl rfl
  have hscript : Cut (splitlines block.body)
      (javascriptRanges reading.isUpper (parsers.treeSitter (scriptLanguage block.attrs)) block.body)
      (parseScript reading parsers block).chunks := javascript_cut ..
  have hwhole (kind : String) (imports exports : List String) :
      Cut (splitlines content)
        (if block.isBlank then [] else [absoluteBodyRange block.body (block.startLine content)])
        (if block.isBlank then [] else
          [bodyChunk reading (splitlines content) stem kind block (block.startLine content) imports exports]) := by
    split
    · exact Cut.nil _
    · exact hbody kind imports exports
  unfold Block.ranges blockChunks
  dsimp only
  by_cases htemplate : block.isTemplate = true
  · rw [if_pos htemplate, if_pos (by rw [htemplate]; rfl)]
    exact hwhole _ _ _
  · rw [if_neg htemplate]
    by_cases hdeclared :
        javascriptRanges reading.isUpper (parsers.treeSitter (scriptLanguage block.attrs)) block.body = []
    · have hnone : (parseScript reading parsers block).chunks.map
          (shiftChunkLines reading (splitlines content) (block.startLine content)) = [] := by
        rw [hscript.eq_nil_iff.mpr hdeclared, List.map_nil]
      rw [if_pos (by rw [hdeclared]; simp), scriptChunks]
      dsimp only
      rw [if_neg (not_not.mpr hnone)]
      exact hwhole _ _ _
    · have hsome : (parseScript reading parsers block).chunks.map
          (shiftChunkLines reading (splitlines content) (block.startLine content)) ≠ [] :=
        mt List.map_eq_nil_iff.mp (mt hscript.eq_nil_iff.mp hdeclared)
      rw [if_neg (by simp [htemplate, hdeclared]), scriptChunks]
      dsimp only
      rw [if_pos hsome]
      exact hscript.shift _

/-- The chunks of a component are cut at the ranges of its blocks. -/
theorem vue_cut (stem : String) (content : List Char) :
    Cut (splitlines content) (vueRanges reading parsers content) (vueParse reading parsers stem content).chunks :=
  Cut.rename (Cut.flatMap fun block _ => block_cut content stem block) _ _

end

/-- The range is one of lines of the text, as a parser counts them. -/
structure InText (content : List Char) (range : ℕ × ℕ) : Prop where
  first : 1 ≤ range.1
  ordered : range.1 ≤ range.2
  last : range.2 ≤ lineCount content

/-- The parsers report ranges of lines in the text that they are given. -/
structure Parsers.Documented : Prop where
  python : ∀ content, ∀ range ∈ pythonRanges parsers.astParse content, InText content range
  javascript : ∀ language content, ∀ range ∈ javascriptRanges reading.isUpper (parsers.treeSitter language) content,
    InText content range

variable {reading parsers}

/-- A line that is as far into a body as it has newlines is a line of the file. -/
theorem startLine_add_le {content front closing : List Char} {block : Block}
    (hcontent : content = front ++ (block.body ++ closing)) (hstart : front.length = block.bodyStart)
    (hclosing : closing ≠ []) : 1 ≤ block.startLine content ∧
      block.startLine content + block.body.count '\n' ≤ lineCount content := by
  have hline : block.startLine content = front.count '\n' + 1 := by
    rw [Block.startLine, hcontent, ← hstart, List.take_left]
  have hlt := count_lt_lineCount hclosing (front ++ block.body)
  rw [List.append_assoc, ← hcontent, List.count_append] at hlt
  omega

/-- The lines of a body, without the empty ones at its ends, are lines of the file. -/
theorem bodyRange_inText {content front closing : List Char} {block : Block}
    (hcontent : content = front ++ (block.body ++ closing)) (hstart : front.length = block.bodyStart)
    (hclosing : closing ≠ []) : InText content (absoluteBodyRange block.body (block.startLine content)) := by
  obtain ⟨hfirst, hlast⟩ := startLine_add_le hcontent hstart hclosing
  have hleading : (block.body.takeWhile (· = '\n')).length ≤ block.body.count '\n' := by
    have hall : (block.body.takeWhile (· = '\n')).count '\n' = (block.body.takeWhile (· = '\n')).length :=
      List.count_eq_length.mpr fun c hc => by
        have hnewline := List.mem_takeWhile_imp hc
        exact (of_decide_eq_true hnewline).symm
    rw [← hall]
    exact (List.takeWhile_sublist _).count_le _
  refine ⟨?_, le_max_left _ _, ?_⟩
  · show 1 ≤ _ + _
    omega
  · show max _ (_ + max _ 1 - _ - 1) ≤ _
    omega

theorem shiftRange_inText {content front closing : List Char} {block : Block} {range : ℕ × ℕ}
    (hcontent : content = front ++ (block.body ++ closing)) (hstart : front.length = block.bodyStart)
    (hclosing : closing ≠ []) (hrange : InText block.body range) :
    InText content (shiftRange (block.startLine content) range) := by
  obtain ⟨hfirst, hlast⟩ := startLine_add_le hcontent hstart hclosing
  have hordered := hrange.ordered
  have hcount : range.2 ≤ block.body.count '\n' + 1 := hrange.last.trans (by unfold lineCount; split <;> omega)
  have hone := hrange.first
  refine ⟨?_, ?_, ?_⟩
  · show 1 ≤ _ + _ - 1
    omega
  · show _ + _ - 1 ≤ _ + _ - 1
    omega
  · show _ + _ - 1 ≤ _
    omega

/-- The ranges of a component are lines of its file. -/
theorem vue_inText (hparsers : parsers.Documented reading) (content : List Char) :
    ∀ range ∈ vueRanges reading parsers content, InText content range := by
  intro range hrange
  obtain ⟨block, hblock, hrange⟩ := List.mem_flatMap.mp hrange
  obtain ⟨front, closing, hcontent, hstart, hclosing⟩ := @blocksFrom_body reading.wordChar [] content block hblock
  rw [List.nil_append] at hcontent
  unfold Block.ranges at hrange
  dsimp only at hrange
  split at hrange
  · split at hrange
    · cases hrange
    · rw [List.mem_singleton.mp hrange]
      exact bodyRange_inText hcontent hstart hclosing
  · obtain ⟨range', hrange', rfl⟩ := List.mem_map.mp hrange
    exact shiftRange_inText hcontent hstart hclosing (hparsers.javascript _ _ range' hrange')

/-! ## All chunkers -/

/-- The file that is given to a chunker; a component has a name. -/
inductive SourceKind
  | python
  | javascript (language : Language)
  | vue (stem : String)

/-- The chunks of a file of the kind. -/
def parseSource (reading : Reading) (parsers : Parsers) (content : List Char) : SourceKind → List ChunkData
  | .python => (pythonParse reading.makeContentHash parsers.astParse content).chunks
  | .javascript language =>
    (javascriptParse reading.isUpper reading.makeContentHash reading.extractImports reading.extractExports
      (parsers.treeSitter language) content).chunks
  | .vue stem => (vueParse reading parsers stem content).chunks

/-- The ranges that the parsers report for it, as lines of the file. -/
def sourceRanges (reading : Reading) (parsers : Parsers) (content : List Char) : SourceKind → List (ℕ × ℕ)
  | .python => pythonRanges parsers.astParse content
  | .javascript language => javascriptRanges reading.isUpper (parsers.treeSitter language) content
  | .vue _ => vueRanges reading parsers content

theorem source_cut (content : List Char) (kind : SourceKind) :
    Cut (splitlines content) (sourceRanges reading parsers content kind)
      (parseSource reading parsers content kind) := by
  cases kind with
  | python => exact python_cut ..
  | javascript language => exact javascript_cut ..
  | vue stem => exact vue_cut stem content

theorem source_inText (hparsers : parsers.Documented reading) (content : List Char) (kind : SourceKind) :
    ∀ range ∈ sourceRanges reading parsers content kind, InText content range := by
  cases kind with
  | python => exact hparsers.python content
  | javascript language => exact hparsers.javascript language content
  | vue stem => exact vue_inText hparsers content

/-- The chunks of a file lie in it and are the lines that the parsers meant, exactly if all ranges are aligned. -/
theorem chunks_exact_iff (hparsers : parsers.Documented reading) (content : List Char) (kind : SourceKind) :
    (∀ chunk ∈ parseSource reading parsers content kind, InText content (chunk.startLine, chunk.endLine) ∧
        chunk.content = String.ofList (lineSlice (newlineLines content) chunk.startLine chunk.endLine)) ↔
      ∀ range ∈ sourceRanges reading parsers content kind, Aligned content range.1 range.2 := by
  have hcut : Cut (splitlines content) _ (parseSource reading parsers content kind) := source_cut content kind
  have hin := source_inText hparsers content kind
  have hiff (range : ℕ × ℕ) (hrange : range ∈ sourceRanges reading parsers content kind) :=
    slice_iff (hin range hrange).first (hin range hrange).ordered (hin range hrange).last
  constructor
  · intro h range hrange
    obtain ⟨chunk, hchunk, rfl⟩ := hcut.complete range hrange
    refine (hiff _ hrange).mp ?_
    have hcontent := (hcut.content_eq chunk hchunk).symm.trans (h chunk hchunk).2
    exact String.ofList_injective hcontent
  · intro h chunk hchunk
    have hrange := hcut.reported chunk hchunk
    refine ⟨hin _ hrange, ?_⟩
    rw [hcut.content_eq chunk hchunk, (hiff _ hrange).mpr (h _ hrange)]

/-- A Python file with a function below a line that ends with the mark. -/
def sampleContent (mark : List Char) : List Char := "x = 1".toList ++ mark ++ "\ndef f():\n    pass\n".toList

def sampleParsers : Parsers where
  astParse content :=
    if content = sampleContent [] ∨ content = sampleContent ['\x0c'] then some [.functionDef "f" 2 3 false] else none
  treeSitter _ _ := .node "program" none none [] 0 0 []

def sampleReading : Reading := ⟨Char.isAlphanum, Char.isUpper, String.ofList, fun _ => [], fun _ => []⟩

theorem sampleParsers_documented : sampleParsers.Documented sampleReading where
  python content range hrange := by
    have hsample : InText (sampleContent []) (2, 3) := ⟨by decide, by decide, by decide⟩
    have hbroken : InText (sampleContent ['\x0c']) (2, 3) := ⟨by decide, by decide, by decide⟩
    unfold pythonRanges sampleParsers at hrange
    dsimp only at hrange
    split at hrange
    · next hcontent =>
      rw [show range = (2, 3) from List.mem_singleton.mp hrange]
      rcases hcontent with rfl | rfl
      · exact hsample
      · exact hbroken
    · cases hrange
  javascript _ _ _ hrange := absurd hrange List.not_mem_nil

theorem chunks_exact_sample : sampleParsers.Documented sampleReading ∧
    ∀ chunk ∈ parseSource sampleReading sampleParsers (sampleContent []) .python,
      InText (sampleContent []) (chunk.startLine, chunk.endLine) ∧ chunk.content =
        String.ofList (lineSlice (newlineLines (sampleContent [])) chunk.startLine chunk.endLine) := by
  have hdocumented := sampleParsers_documented
  refine ⟨hdocumented, (chunks_exact_iff hdocumented (sampleContent []) .python).mpr fun range hrange => ?_⟩
  rw [show range = (2, 3) from List.mem_singleton.mp hrange]
  exact ⟨by decide, .inl (by decide)⟩

/-- Below a form feed the chunk of the function starts at the line before it, and ends before the last of it. -/
theorem form_feed_moves : sampleParsers.Documented sampleReading ∧
    ¬ ∀ chunk ∈ parseSource sampleReading sampleParsers (sampleContent ['\x0c']) .python,
      InText (sampleContent ['\x0c']) (chunk.startLine, chunk.endLine) ∧ chunk.content =
        String.ofList (lineSlice (newlineLines (sampleContent ['\x0c'])) chunk.startLine chunk.endLine) := by
  refine ⟨sampleParsers_documented, fun h => ?_⟩
  have hchunk := (h _ (List.mem_singleton_self _)).2
  exact absurd (String.ofList_injective hchunk) (by decide)

end CodeMate.Indexing
