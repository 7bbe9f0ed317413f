import CodeMate.Indexing.Numbering

/-!
# The chunkers that use a parser

`PythonAstChunker.parse` cuts a chunk for every class, function and method of
the syntax tree, `JavaScriptTreeSitterChunker.parse` one for every declaration
that it meets in its walk. The trees come from a parser, with their ranges.
`python_cut` and `javascript_cut` are what the chunks have from those.
-/

namespace CodeMate.Indexing

open Framework
open Sandbox (splitlines after?)

/-- `sorted(set(names))`. -/
def sortedSet (names : List String) : List String := names.dedup.mergeSort fun a b => decide (a ≤ b)

/-- The chunks are cut from the lines at the ranges, one at least for each. -/
structure Cut (lines : List (List Char)) (ranges : List (ℕ × ℕ)) (chunks : List ChunkData) : Prop where
  reported : ∀ chunk ∈ chunks, (chunk.startLine, chunk.endLine) ∈ ranges
  content_eq : ∀ chunk ∈ chunks, chunk.content = String.ofList (lineSlice lines chunk.startLine chunk.endLine)
  complete : ∀ range ∈ ranges, ∃ chunk ∈ chunks, (chunk.startLine, chunk.endLine) = range

theorem Cut.append {lines : List (List Char)} {ranges more : List (ℕ × ℕ)} {chunks others : List ChunkData}
    (h : Cut lines ranges chunks) (h' : Cut lines more others) : Cut lines (ranges ++ more) (chunks ++ others) where
  reported chunk hchunk := (List.mem_append.mp hchunk).elim
    (fun hchunk => List.mem_append_left _ (h.reported chunk hchunk))
    fun hchunk => List.mem_append_right _ (h'.reported chunk hchunk)
  content_eq chunk hchunk := (List.mem_append.mp hchunk).elim (h.content_eq chunk) (h'.content_eq chunk)
  complete range hrange := by
    rcases List.mem_append.mp hrange with hrange | hrange
    · obtain ⟨chunk, hchunk, heq⟩ := h.complete range hrange
      exact ⟨chunk, List.mem_append_left _ hchunk, heq⟩
    · obtain ⟨chunk, hchunk, heq⟩ := h'.complete range hrange
      exact ⟨chunk, List.mem_append_right _ hchunk, heq⟩

theorem Cut.nil (lines : List (List Char)) : Cut lines [] [] := ⟨nofun, nofun, nofun⟩

/-! ## Python -/

/-- What the chunker reads of a statement, with its first and its last line. Of an import these are the names, of an
assignment the names among its targets and the texts of a literal list. -/
inductive Statement
  | classDef (name : String) (lineno endLineno : ℕ) (body : List Statement)
  | functionDef (name : String) (lineno endLineno : ℕ) (decorated : Bool)
  | importNames (names : List String)
  | importFrom (module : String) (names : List String)
  | assign (targets literals : List String)
  | other

/-- `text.strip(".")`. -/
def stripDots (text : String) : String :=
  String.ofList ((text.toList.dropWhile (· = '.')).reverse.dropWhile (· = '.')).reverse

/-- `PythonAstChunker._extract_imports`. -/
def pythonImports (tree : List Statement) : List String :=
  sortedSet (tree.flatMap fun
    | .importNames names => names
    | .importFrom module names => names.map fun name => stripDots (module ++ "." ++ name)
    | _ => [])

/-- `PythonAstChunker._extract_exports`. -/
def pythonExports (tree : List Statement) : List String :=
  sortedSet (tree.flatMap fun
    | .classDef name _ _ _ | .functionDef name _ _ _ => if name.toList.head? = some '_' then [] else [name]
    | .assign targets literals => targets.flatMap fun target => if target = "__all__" then literals else []
    | _ => [])

section Python

variable (makeContentHash : List Char → String) (lines : List (List Char)) (imports exports : List String)

/-- `_chunk_from_node`. -/
def chunkFromNode (symbolPrefix : Option String) (name : String) (lineno endLineno : ℕ) (symbolType : String) :
    ChunkData :=
  let content := lineSlice lines lineno endLineno
  { symbolName := match symbolPrefix with
      | some symbolPrefix => symbolPrefix ++ "." ++ name
      | none => name
    symbolType := symbolType
    startLine := lineno
    endLine := endLineno
    content := String.ofList content
    contentHash := makeContentHash content
    imports := imports
    exports := exports }

def methodChunk (className : String) : Statement → Option ChunkData
  | .functionDef name lineno endLineno _ =>
    some (chunkFromNode makeContentHash lines imports exports (some className) name lineno endLineno "method")
  | _ => none

/-- The chunks of a statement of the module. -/
def statementChunks : Statement → List ChunkData
  | .classDef name lineno endLineno body =>
    chunkFromNode makeContentHash lines imports exports none name lineno endLineno "class" ::
      body.filterMap (methodChunk makeContentHash lines imports exports name)
  | .functionDef name lineno endLineno decorated =>
    [chunkFromNode makeContentHash lines imports exports none name lineno endLineno
      (if decorated then "decorated_function" else "function")]
  | _ => []

end Python

/-- `PythonAstChunker.parse`; `astParse` is `none` for a `SyntaxError`. -/
def pythonParse (makeContentHash : List Char → String) (astParse : List Char → Option (List Statement))
    (content : List Char) : ParsedFile :=
  match astParse content with
  | none => ⟨[], [], []⟩
  | some tree =>
    let lines := splitlines content
    let imports := pythonImports tree
    let exports := pythonExports tree
    ⟨imports, exports, tree.flatMap (statementChunks makeContentHash lines imports exports)⟩

def Statement.methodRange : Statement → Option (ℕ × ℕ)
  | .functionDef _ lineno endLineno _ => some (lineno, endLineno)
  | _ => none

/-- The ranges that the parser reports for the classes, functions and methods. -/
def Statement.ranges : Statement → List (ℕ × ℕ)
  | .classDef _ lineno endLineno body => (lineno, endLineno) :: body.filterMap methodRange
  | .functionDef _ lineno endLineno _ => [(lineno, endLineno)]
  | _ => []

def pythonRanges (astParse : List Char → Option (List Statement)) (content : List Char) : List (ℕ × ℕ) :=
  ((astParse content).getD []).flatMap Statement.ranges

/-! ## JavaScript and TypeScript -/

/-- What the chunker reads of a node of the tree: its type, its name if it has one, the type of its value, its text,
its first and last row, and its children. -/
inductive Node
  | node (type : String) (name value : Option String) (text : List Char) (startRow endRow : ℕ) (children : List Node)

/-- `re.search(r"(?:return|=>)\s*\(?\s*<", text)`. -/
def rendersMarkup : List Char → Bool
  | [] => false
  | c :: rest =>
    ((after? "return".toList (c :: rest)).or (after? "=>".toList (c :: rest))).any (fun text =>
      (spaces (optional (after? ['(']) (spaces text))).head? = some '<') || rendersMarkup rest

def classSymbolType (text : List Char) : String :=
  let marks := ["React.Component", "React.PureComponent", "Component<"]
  if marks.any fun mark => (Text.find? mark.toList text).isSome then "component"
  else "class"

/-- `_looks_like_react_component`. -/
def looksLikeReactComponent (text : List Char) : Bool :=
  rendersMarkup text || (Text.find? "React.createElement".toList text).isSome

section JavaScript

variable (isUpper : Char → Bool) (makeContentHash : List Char → String) (lines : List (List Char))
  (imports exports : List String)

def functionSymbolType (name : String) (text : List Char) : String :=
  if name.toList.head?.any isUpper && looksLikeReactComponent text then "component" else "function"

/-- The chunks so far, and the ranges with the names that were seen. -/
structure Walk where
  chunks : List ChunkData
  seenRanges : List (ℕ × ℕ × String)

/-- `_append_node_chunk`. -/
def appendNodeChunk (walk : Walk) (startRow endRow : ℕ) (symbolName symbolType : String) : Walk :=
  let startLine := startRow + 1
  let endLine := endRow + 1
  if (startLine, endLine, symbolName) ∈ walk.seenRanges then walk
  else
    let content := lineSlice lines startLine endLine
    let chunk : ChunkData :=
      { symbolName := symbolName, symbolType := symbolType, startLine := startLine, endLine := endLine,
        content := String.ofList content, contentHash := makeContentHash content, imports := imports,
        exports := exports }
    ⟨walk.chunks ++ [chunk], (startLine, endLine, symbolName) :: walk.seenRanges⟩

/-- `value or default`, of a name. -/
def nameOr (name : Option String) (default : String) : String := if name.getD "" = "" then default else name.getD ""

/-- The name and the type of the symbol for which a node has a chunk. -/
def declaration (className : Option String) (insideFunction : Bool) (type : String) (name value : Option String)
    (text : List Char) : Option (String × String) :=
  if type = "class_declaration" then some (nameOr name "AnonymousClass", classSymbolType text)
  else if type = "function_declaration" then
    some (nameOr name "anonymous", functionSymbolType isUpper (nameOr name "anonymous") text)
  else if type = "method_definition" then
    let name := nameOr name "anonymous"
    some (if className.getD "" = "" then name else className.getD "" ++ "." ++ name, "method")
  else if type = "variable_declarator" && !insideFunction then
    if name.getD "" ≠ "" && value = some "arrow_function" then
      some (name.getD "", functionSymbolType isUpper (name.getD "") text)
    else none
  else none

/-- The name of the class around the children of a node. -/
def nextClassName (className : Option String) (type : String) (name : Option String) : Option String :=
  if type = "class_declaration" then some (nameOr name "AnonymousClass") else className

def nextInsideFunction (insideFunction : Bool) (type : String) : Bool :=
  insideFunction || type ∈ ["function_declaration", "arrow_function", "function", "method_definition"]

mutual

def visit (className : Option String) (insideFunction : Bool) : Node → Walk → Walk
  | .node type name value text startRow endRow children, walk =>
    let walk := match declaration isUpper className insideFunction type name value text with
      | some (symbolName, symbolType) =>
        appendNodeChunk makeContentHash lines imports exports walk startRow endRow symbolName symbolType
      | none => walk
    visitAll (nextClassName className type name) (nextInsideFunction insideFunction type) children walk

def visitAll (className : Option String) (insideFunction : Bool) : List Node → Walk → Walk
  | [], walk => walk
  | child :: children, walk => visitAll className insideFunction children (visit className insideFunction child walk)

end

mutual

/-- The ranges of the nodes below that have a chunk, with the names of their symbols. -/
def Node.declared (className : Option String) (insideFunction : Bool) : Node → List (ℕ × ℕ × String)
  | .node type name value text startRow endRow children =>
    (declaration isUpper className insideFunction type name value text).toList.map
        (fun symbol => (startRow + 1, endRow + 1, symbol.1)) ++
      declaredAll (nextClassName className type name) (nextInsideFunction insideFunction type) children

def declaredAll (className : Option String) (insideFunction : Bool) : List Node → List (ℕ × ℕ × String)
  | [] => []
  | child :: children => child.declared className insideFunction ++ declaredAll className insideFunction children

end

variable (extractImports extractExports : List Char → List String)

/-- `JavaScriptTreeSitterChunker.parse`, with the tree of the parser. -/
def javascriptParse (treeSitter : List Char → Node) (content : List Char) : ParsedFile :=
  let imports := extractImports content
  let exports := extractExports content
  ⟨imports, exports,
    (visit isUpper makeContentHash (splitlines content) imports exports none false (treeSitter content)
      ⟨[], []⟩).chunks⟩

/-- The ranges that the parser reports for the declarations that the walk meets. -/
def javascriptRanges (treeSitter : List Char → Node) (content : List Char) : List (ℕ × ℕ) :=
  ((treeSitter content).declared isUpper none false).map fun key => (key.1, key.2.1)

end JavaScript

/-! ## What the chunks have from the ranges -/

section

variable {makeContentHash : List Char → String} {lines : List (List Char)} {imports exports : List String}

theorem Cut.flatMap {α : Type} {ranges : α → List (ℕ × ℕ)} {chunks : α → List ChunkData} {xs : List α}
    (h : ∀ x ∈ xs, Cut lines (ranges x) (chunks x)) : Cut lines (xs.flatMap ranges) (xs.flatMap chunks) := by
  induction xs with
  | nil => exact Cut.nil lines
  | cons x xs ih =>
    obtain ⟨hx, hxs⟩ := List.forall_mem_cons.mp h
    exact hx.append (ih hxs)

theorem Cut.single {chunk : ChunkData} {startLine endLine : ℕ} (hstart : chunk.startLine = startLine)
    (hend : chunk.endLine = endLine) (h : chunk.content = String.ofList (lineSlice lines startLine endLine)) :
    Cut lines [(startLine, endLine)] [chunk] := by
  subst hstart hend
  refine ⟨fun other hother => ?_, fun other hother => ?_, fun range hrange => ?_⟩
  · rw [List.mem_singleton.mp hother]
    exact List.mem_singleton_self _
  · rw [List.mem_singleton.mp hother]
    exact h
  · exact ⟨chunk, List.mem_singleton_self _, (List.mem_singleton.mp hrange).symm⟩

theorem method_cut (className : String) (body : List Statement) :
    Cut lines (body.filterMap Statement.methodRange)
      (body.filterMap (methodChunk makeContentHash lines imports exports className)) := by
  induction body with
  | nil => exact Cut.nil lines
  | cons statement body ih =>
    cases statement with
    | functionDef name lineno endLineno decorated =>
      show Cut lines ([(lineno, endLineno)] ++ _) ([_] ++ _)
      exact Cut.append (Cut.single rfl rfl rfl) ih
    | _ => exact ih

theorem statement_cut (statement : Statement) :
    Cut lines statement.ranges (statementChunks makeContentHash lines imports exports statement) := by
  cases statement with
  | classDef name lineno endLineno body =>
    show Cut lines ([(lineno, endLineno)] ++ _) ([_] ++ _)
    exact Cut.append (Cut.single rfl rfl rfl) (method_cut name body)
  | functionDef name lineno endLineno decorated => exact Cut.single rfl rfl rfl
  | _ => exact Cut.nil lines

/-- The chunks of a Python file are cut at the ranges of its syntax tree. -/
theorem python_cut (makeContentHash : List Char → String) (astParse : List Char → Option (List Statement))
    (content : List Char) :
    Cut (splitlines content) (pythonRanges astParse content)
      (pythonParse makeContentHash astParse content).chunks := by
  unfold pythonRanges pythonParse
  cases astParse content with
  | none => exact Cut.nil _
  | some tree => exact Cut.flatMap fun statement _ => statement_cut statement

/-- The walk has cut its chunks at the ranges of the declarations so far, and remembers those. -/
structure Walked (lines : List (List Char)) (keys : List (ℕ × ℕ × String)) (walk : Walk) : Prop where
  cut : Cut lines (keys.map fun key => (key.1, key.2.1)) walk.chunks
  seen : ∀ key, key ∈ walk.seenRanges ↔ key ∈ keys

theorem Walked.appendNodeChunk {keys : List (ℕ × ℕ × String)} {walk : Walk} (h : Walked lines keys walk)
    (startRow endRow : ℕ) (symbolName symbolType : String) :
    Walked lines (keys ++ [(startRow + 1, endRow + 1, symbolName)])
      (appendNodeChunk makeContentHash lines imports exports walk startRow endRow symbolName symbolType) := by
  unfold Indexing.appendNodeChunk
  dsimp only
  split
  · next hseen =>
    have hmem := (h.seen _).mp hseen
    refine ⟨⟨fun chunk hchunk => ?_, h.cut.content_eq, fun range hrange => h.cut.complete range ?_⟩, fun key => ?_⟩
    · rw [List.map_append]
      exact List.mem_append_left _ (h.cut.reported chunk hchunk)
    · rw [List.map_append] at hrange
      rcases List.mem_append.mp hrange with hrange | hrange
      · exact hrange
      · rw [List.mem_singleton.mp hrange]
        exact List.mem_map_of_mem hmem
    · rw [h.seen, List.mem_append, List.mem_singleton]
      exact ⟨.inl, fun hkey => hkey.elim id fun hkey => hkey ▸ hmem⟩
  · refine ⟨?_, fun key => ?_⟩
    · rw [List.map_append]
      exact h.cut.append (Cut.single rfl rfl rfl)
    · rw [List.mem_cons, List.mem_append, List.mem_singleton, h.seen, or_comm]

mutual

/-- The walk through a node meets the declarations below it, one after the other. -/
theorem Walked.visit {isUpper : Char → Bool} {keys : List (ℕ × ℕ × String)} {walk : Walk} (h : Walked lines keys walk)
    (className : Option String) (insideFunction : Bool) (node : Node) :
    Walked lines (keys ++ node.declared isUpper className insideFunction)
      (visit isUpper makeContentHash lines imports exports className insideFunction node walk) := by
  obtain ⟨type, name, value, text, startRow, endRow, children⟩ := node
  rw [Indexing.visit, Node.declared, ← List.append_assoc]
  refine Walked.visitAll ?_ _ _ children
  cases declaration isUpper className insideFunction type name value text with
  | none =>
    rw [Option.toList_none, List.map_nil, List.append_nil]
    exact h
  | some symbol => exact h.appendNodeChunk startRow endRow symbol.1 symbol.2

theorem Walked.visitAll {isUpper : Char → Bool} {keys : List (ℕ × ℕ × String)} {walk : Walk}
    (h : Walked lines keys walk) (className : Option String) (insideFunction : Bool) (children : List Node) :
    Walked lines (keys ++ declaredAll isUpper className insideFunction children)
      (visitAll isUpper makeContentHash lines imports exports className insideFunction children walk) := by
  cases children with
  | nil =>
    rw [Indexing.visitAll, declaredAll, List.append_nil]
    exact h
  | cons child children =>
    rw [Indexing.visitAll, declaredAll, ← List.append_assoc]
    exact Walked.visitAll (h.visit className insideFunction child) className insideFunction children

end

/-- The chunks of a JavaScript file are cut at the ranges of the declarations in its tree. -/
theorem javascript_cut (isUpper : Char → Bool) (makeContentHash : List Char → String)
    (extractImports extractExports : List Char → List String) (treeSitter : List Char → Node) (content : List Char) :
    Cut (splitlines content) (javascriptRanges isUpper treeSitter content)
      (javascriptParse isUpper makeContentHash extractImports extractExports treeSitter content).chunks := by
  have hempty : Walked (splitlines content) [] ⟨[], []⟩ := ⟨Cut.nil _, fun key => Iff.rfl⟩
  exact (hempty.visit none false (treeSitter content)).cut

end

end CodeMate.Indexing
