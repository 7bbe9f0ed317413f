import CodeMate.Framework.Search
import CodeMate.Framework.FileSystem
import CodeMate.Framework.Text
import CodeMate.Indexing.Stores
import Mathlib.Data.List.Sort
import Mathlib.Data.Prod.Lex
import Mathlib.Data.String.Basic

/-!
# The graph of imports

`get_import_graph` goes from one indexed file to others, along the imports that
resolve to an indexed file, against them, or both, up to a depth, and shows at
most 80 nodes and 120 edges. `untruncated_iff`: it does not call itself
truncated exactly if it shows every import that is in reach. By
`importGraph_sound` every graph shows nothing else, and every edge between two
of its nodes.
-/

namespace CodeMate.Agent

open Framework Indexing

/-! ## Paths -/

/-- The slashes a path begins with: exactly two of them are kept. -/
def anchor : List Char → List Char
  | '/' :: '/' :: '/' :: _ => ['/']
  | '/' :: '/' :: _ => ['/', '/']
  | '/' :: _ => ['/']
  | _ => []

def spelled (anchor : List Char) (names : List Name) : List Char :=
  let text := anchor ++ ['/'].intercalate names
  if text = [] then ['.'] else text

/-- `PurePosixPath.parent`. -/
def parent (path : List Char) : List Char := spelled (anchor path) (names path).dropLast

/-- `posixpath.join`. -/
def join (directory path : List Char) : List Char :=
  if isAbsolute path then path
  else if directory = [] ∨ directory.getLast? = some '/' then directory ++ path
  else directory ++ '/' :: path

/-- One name of `normpath`; `..` stays where there is nothing to take back. -/
def normalized (absolute : Bool) (kept : List Name) (name : Name) : List Name :=
  if name ≠ dots ∨ (absolute = false ∧ kept = []) ∨ kept.getLast? = some dots then kept ++ [name] else kept.dropLast

/-- `posixpath.normpath`. -/
def normpath (path : List Char) : List Char :=
  spelled (anchor path) ((names path).foldl (normalized (isAbsolute path)) [])

/-- A name without its suffix, if there is something before and after the last dot. -/
def bareName (name : Name) : Name :=
  let extension := name.reverse.takeWhile (· ≠ '.')
  match name.reverse.drop extension.length with
  | [] => name
  | _ :: front => if extension = [] ∨ front = [] then name else front.reverse

/-- `PurePosixPath.with_suffix("")`; the path of an indexed file has a name. -/
def withoutSuffix (path : List Char) : List Char :=
  match (names path).getLast? with
  | none => path
  | some name => spelled (anchor path) ((names path).dropLast ++ [bareName name])

/-! ## What an import resolves to -/

/-- `str.removesuffix`, of a text that ends so. -/
def removeSuffix? (ending text : List Char) : Option (List Char) :=
  if ending.isSuffixOf text then some (text.take (text.length - ending.length)) else none

/-- The module paths that a file stands for. -/
def stems (filePath : List Char) : List (List Char) :=
  let stem := withoutSuffix filePath
  stem :: (removeSuffix? "/index".toList stem).toList ++ (removeSuffix? "/__init__".toList stem).toList

def isCandidate (candidate filePath : List Char) : Bool :=
  (stems filePath).any fun stem => candidate = stem || ('/' :: candidate).isSuffixOf stem

/-- The path of a relative import, or the dotted prefixes of an absolute one, the longest first. -/
def moduleCandidates (sourcePath imported : List Char) : List (List Char) :=
  let normalizedImport := (Text.strip imported).map fun c => if c = '\\' then '/' else c
  if normalizedImport.head? = some '.' then [normpath (join (parent sourcePath) normalizedImport)]
  else
    let parts := (normalizedImport.map fun c => if c = '/' then '.' else c).splitOn '.'
    (List.range parts.length).map fun dropped => ['/'].intercalate (parts.take (parts.length - dropped))

/-- `_resolve_import_path`; here with the file whose path it gives. -/
def resolveImportPath (files : List CodeFile) (source : CodeFile) (imported : String) : Option CodeFile :=
  (moduleCandidates source.filePath.toList imported.toList).findSome? fun candidate =>
    files.find? fun file => isCandidate candidate file.filePath.toList

/-! ## The graph -/

inductive Direction
  | imports
  | importers
  | both
  deriving DecidableEq

inductive GraphNode
  | file (path language : String)
  | externalModule (name : String)
  deriving DecidableEq

def GraphNode.id : GraphNode → String
  | .file path _ => path
  | .externalModule name => "module:" ++ name

/-- An edge of the kind `imports`. -/
structure GraphEdge where
  source : String
  target : String
  module : String
  deriving DecidableEq

def GraphEdge.key (edge : GraphEdge) : String × String := (edge.source, edge.target)

structure ImportGraph where
  path : String
  direction : Direction
  depth : ℕ
  nodes : List GraphNode
  edges : List GraphEdge
  error : Option String := none
  truncated : Bool

def graphMaxNodes : ℕ := 80

def graphMaxEdges : ℕ := 120

/-- `_file_node`. -/
def fileNode (file : CodeFile) : GraphNode := .file file.filePath file.language

def targetNode (target : Option CodeFile) (imported : String) : GraphNode :=
  match target with
  | some file => fileNode file
  | none => .externalModule imported

/-- The files of a repository in the order of their paths, which are unique among its rows. -/
structure IndexedFiles where
  files : List CodeFile
  paths_nodup : (files.map fun file => file.filePath).Nodup

def sortedImports (file : CodeFile) : List String := file.imports.insertionSort (· ≤ ·)

/-- What the imports of a file lead to. -/
def importFindings (files : List CodeFile) (current : CodeFile) :
    List (Search.Finding CodeFile GraphNode GraphEdge) :=
  (sortedImports current).map fun imported =>
    let target := resolveImportPath files current imported
    let node := targetNode target imported
    ⟨node, ⟨current.filePath, node.id, imported⟩, target⟩

/-- The files with an import that leads to the file. -/
def importerFindings (files : List CodeFile) (current : CodeFile) :
    List (Search.Finding CodeFile GraphNode GraphEdge) :=
  files.flatMap fun candidate =>
    ((sortedImports candidate).filter fun imported => resolveImportPath files candidate imported = some current).map
      fun imported => ⟨fileNode candidate, ⟨candidate.filePath, current.filePath, imported⟩, some candidate⟩

def findings (files : List CodeFile) (direction : Direction) (current : CodeFile) :
    List (Search.Finding CodeFile GraphNode GraphEdge) :=
  (if direction = .importers then [] else importFindings files current) ++
    if direction = .imports then [] else importerFindings files current

theorem findings_next {files : List CodeFile} {direction : Direction} {current : CodeFile}
    {finding : Search.Finding CodeFile GraphNode GraphEdge} (h : finding ∈ findings files direction current)
    {file : CodeFile} (hnext : finding.next = some file) : finding.node.id = file.filePath := by
  rcases List.mem_append.mp h with h | h
  · split at h
    · cases h
    · obtain ⟨imported, -, rfl⟩ := List.mem_map.mp h
      dsimp only at hnext ⊢
      rw [hnext]
      rfl
  · split at h
    · cases h
    · obtain ⟨candidate, -, h⟩ := List.mem_flatMap.mp h
      obtain ⟨imported, -, rfl⟩ := List.mem_map.mp h
      obtain rfl := Option.some.inj hnext
      rfl

/-- The search of `_build_import_graph`. -/
def importSearch (files : List CodeFile) (direction : Direction) (depth : ℕ) :
    Search.Problem CodeFile GraphNode GraphEdge String (String × String) where
  nodeId := GraphNode.id
  edgeKey := GraphEdge.key
  pointId file := file.filePath
  maxNodes := graphMaxNodes
  maxEdges := graphMaxEdges
  expand := findings files direction
  depth := depth
  next_id _ _ h _ := findings_next h

/-- `_build_import_graph`. The search takes a file from its queue once. -/
def buildImportGraph (files : IndexedFiles) (path : String) (direction : Direction) (depth : ℕ) : ImportGraph :=
  let normalizedPath := String.ofList (Text.strip path.toList)
  match files.files.find? fun file => file.filePath = normalizedPath with
  | none => ⟨normalizedPath, direction, depth, [], [], some "indexed_file_not_found", false⟩
  | some root =>
    let found := (importSearch files.files direction depth).run files.files.length (Search.start root (fileNode root))
    ⟨normalizedPath, direction, depth, found.nodes.insertionSort fun x y => x.id ≤ y.id,
      found.edges.insertionSort fun x y => toLex x.key ≤ toLex y.key, none, found.truncated⟩

/-! ## What is in reach -/

/-- An import that the graph shows at a file: one of its own, or one that resolves to it. -/
inductive ImportAt (files : List CodeFile) (direction : Direction) (current : CodeFile) : GraphEdge → Prop
  | imports {imported : String} : direction ≠ .importers → imported ∈ current.imports →
      ImportAt files direction current
        ⟨current.filePath, (targetNode (resolveImportPath files current imported) imported).id, imported⟩
  | importers {candidate : CodeFile} {imported : String} : direction ≠ .imports → candidate ∈ files →
      imported ∈ candidate.imports → resolveImportPath files candidate imported = some current →
      ImportAt files direction current ⟨candidate.filePath, current.filePath, imported⟩

/-- The file is next to another one in the direction of the graph. -/
inductive NextTo (files : List CodeFile) (direction : Direction) (current : CodeFile) : CodeFile → Prop
  | imports {imported : String} {target : CodeFile} : direction ≠ .importers → imported ∈ current.imports →
      resolveImportPath files current imported = some target → NextTo files direction current target
  | importers {candidate : CodeFile} {imported : String} : direction ≠ .imports → candidate ∈ files →
      imported ∈ candidate.imports → resolveImportPath files candidate imported = some current →
      NextTo files direction current candidate

/-- The import is shown at a file that is not as many files away as the depth. -/
def InReach (files : List CodeFile) (direction : Direction) (depth : ℕ) (root : CodeFile) (edge : GraphEdge) : Prop :=
  ∃ distance current, Search.Within (NextTo files direction) root distance current ∧ distance < max depth 1 ∧
    ImportAt files direction current edge

variable {files : List CodeFile} {direction : Direction} {depth : ℕ} {root current : CodeFile}
  {finding : Search.Finding CodeFile GraphNode GraphEdge}

theorem mem_sortedImports {file : CodeFile} {imported : String} :
    imported ∈ sortedImports file ↔ imported ∈ file.imports := (List.perm_insertionSort _ _).mem_iff

theorem resolveImportPath_mem {source target : CodeFile} {imported : String}
    (h : resolveImportPath files source imported = some target) : target ∈ files := by
  obtain ⟨candidate, -, h⟩ := List.exists_of_findSome?_eq_some h
  exact List.mem_of_find?_eq_some h

theorem mem_importFindings : finding ∈ importFindings files current ↔ ∃ imported ∈ current.imports,
    finding = ⟨targetNode (resolveImportPath files current imported) imported,
      ⟨current.filePath, (targetNode (resolveImportPath files current imported) imported).id, imported⟩,
      resolveImportPath files current imported⟩ := by
  unfold importFindings
  simp only [List.mem_map, mem_sortedImports, eq_comm (b := finding)]

theorem mem_importerFindings : finding ∈ importerFindings files current ↔ ∃ candidate ∈ files,
    ∃ imported ∈ candidate.imports, resolveImportPath files candidate imported = some current ∧
      finding = ⟨fileNode candidate, ⟨candidate.filePath, current.filePath, imported⟩, some candidate⟩ := by
  unfold importerFindings
  simp only [List.mem_flatMap, List.mem_map, List.mem_filter, mem_sortedImports, decide_eq_true_eq, and_assoc,
    eq_comm (b := finding)]

theorem mem_findings : finding ∈ findings files direction current ↔
    (direction ≠ .importers ∧ finding ∈ importFindings files current) ∨
      (direction ≠ .imports ∧ finding ∈ importerFindings files current) := by
  unfold findings
  rw [List.mem_append]
  cases direction <;> simp

/-- The edges that are found at a file are the imports that the graph shows there. -/
theorem importAt_iff {edge : GraphEdge} :
    ImportAt files direction current edge ↔ ∃ finding ∈ findings files direction current, finding.edge = edge := by
  constructor
  · intro h
    cases h with
    | imports hdirection himported =>
      exact ⟨_, mem_findings.mpr (.inl ⟨hdirection, mem_importFindings.mpr ⟨_, himported, rfl⟩⟩), rfl⟩
    | importers hdirection hcandidate himported hresolve =>
      have hmem := mem_importerFindings.mpr ⟨_, hcandidate, _, himported, hresolve, rfl⟩
      exact ⟨_, mem_findings.mpr (.inr ⟨hdirection, hmem⟩), rfl⟩
  · rintro ⟨finding, hmem, rfl⟩
    rcases mem_findings.mp hmem with ⟨hdirection, hmem⟩ | ⟨hdirection, hmem⟩
    · obtain ⟨imported, himported, rfl⟩ := mem_importFindings.mp hmem
      exact .imports hdirection himported
    · obtain ⟨candidate, hcandidate, imported, himported, hresolve, rfl⟩ := mem_importerFindings.mp hmem
      exact .importers hdirection hcandidate himported hresolve

/-- The search goes from a file to those next to it. -/
theorem step_eq_nextTo : (importSearch files direction depth).Step = NextTo files direction := by
  funext current file
  refine propext ⟨?_, fun h => ?_⟩
  · rintro ⟨finding, hmem, hnext⟩
    rcases mem_findings.mp hmem with ⟨hdirection, hmem⟩ | ⟨hdirection, hmem⟩
    · obtain ⟨imported, himported, rfl⟩ := mem_importFindings.mp hmem
      exact .imports hdirection himported hnext
    · obtain ⟨candidate, hcandidate, imported, himported, hresolve, rfl⟩ := mem_importerFindings.mp hmem
      obtain rfl := Option.some.inj hnext
      exact .importers hdirection hcandidate himported hresolve
  · cases h with
    | imports hdirection himported hresolve =>
      exact ⟨_, mem_findings.mpr (.inl ⟨hdirection, mem_importFindings.mpr ⟨_, himported, rfl⟩⟩), hresolve⟩
    | importers hdirection hcandidate himported hresolve =>
      have hmem := mem_importerFindings.mpr ⟨_, hcandidate, _, himported, hresolve, rfl⟩
      exact ⟨_, mem_findings.mpr (.inr ⟨hdirection, hmem⟩), rfl⟩

/-- An edge is between the file at which it is found and the node with which it is. -/
theorem findings_ends (h : finding ∈ findings files direction current) :
    (finding.edge.source = current.filePath ∧ finding.edge.target = finding.node.id) ∨
      (finding.edge.target = current.filePath ∧ finding.edge.source = finding.node.id) := by
  rcases mem_findings.mp h with ⟨-, h⟩ | ⟨-, h⟩
  · obtain ⟨imported, -, rfl⟩ := mem_importFindings.mp h
    exact .inl ⟨rfl, rfl⟩
  · obtain ⟨candidate, -, imported, -, -, rfl⟩ := mem_importerFindings.mp h
    exact .inr ⟨rfl, rfl⟩

theorem nextTo_mem (file : CodeFile) (h : NextTo files direction current file) : file ∈ files := by
  cases h with
  | imports _ _ hresolve => exact resolveImportPath_mem hresolve
  | importers _ hcandidate _ _ => exact hcandidate

theorem inReach_iff {edge : GraphEdge} : InReach files direction depth root edge ↔
    ∃ current finding, (importSearch files direction depth).FoundAt root current finding ∧ finding.edge = edge := by
  unfold InReach Search.Problem.FoundAt
  rw [step_eq_nextTo]
  constructor
  · rintro ⟨distance, current, hwithin, hdistance, himport⟩
    obtain ⟨finding, hmem, hedge⟩ := importAt_iff.mp himport
    exact ⟨current, finding, ⟨distance, hwithin, hdistance, hmem⟩, hedge⟩
  · rintro ⟨current, finding, ⟨distance, hwithin, hdistance, hmem⟩, hedge⟩
    exact ⟨distance, current, hwithin, hdistance, importAt_iff.mpr ⟨finding, hmem, hedge⟩⟩

/-! ## What the graph shows -/

/-- The search of the graph of a file. -/
def found (files : IndexedFiles) (root : CodeFile) (direction : Direction) (depth : ℕ) :
    Search.State CodeFile GraphNode GraphEdge :=
  (importSearch files.files direction depth).run files.files.length (Search.start root (fileNode root))

theorem found_outcome (files : IndexedFiles) (hroot : root ∈ files.files) (direction : Direction) (depth : ℕ) :
    Search.Problem.Outcome (importSearch files.files direction depth) root (fileNode root)
      (found files root direction depth) := by
  refine Search.Problem.search_outcome (fun distance file hwithin => ?_) rfl (Nat.succ_pos 79)
  rw [step_eq_nextTo] at hwithin
  exact hwithin.mem_of_closed hroot fun _ _ => nextTo_mem

theorem buildImportGraph_eq (files : IndexedFiles) (hroot : root ∈ files.files) {path : String}
    (hpath : String.ofList (Text.strip path.toList) = root.filePath) :
    buildImportGraph files path direction depth =
      ⟨root.filePath, direction, depth, (found files root direction depth).nodes.insertionSort fun x y => x.id ≤ y.id,
        (found files root direction depth).edges.insertionSort fun x y => toLex x.key ≤ toLex y.key, none,
        (found files root direction depth).truncated⟩ := by
  have hfind : (files.files.find? fun file => file.filePath = root.filePath) = some root := by
    cases hfind : files.files.find? fun file => file.filePath = root.filePath with
    | none => exact absurd rfl (of_decide_eq_false (eq_false_of_ne_true (List.find?_eq_none.mp hfind root hroot)))
    | some file =>
      have hsame : file.filePath = root.filePath := by simpa using List.find?_some hfind
      rw [List.inj_on_of_nodup_map files.paths_nodup (List.mem_of_find?_eq_some hfind) hroot hsame]
  unfold buildImportGraph
  dsimp only
  rw [hpath, hfind]
  rfl

theorem found_kept_iff (files : IndexedFiles) (hroot : root ∈ files.files) {current : CodeFile}
    (hfound : (importSearch files.files direction depth).FoundAt root current finding) :
    (importSearch files.files direction depth).Kept (found files root direction depth) finding ↔
      finding.edge.key ∈ (found files root direction depth).edges.map GraphEdge.key := by
  refine ⟨fun h => h.2, fun h => ⟨?_, h⟩⟩
  obtain ⟨edge, hedge, hkey⟩ := List.mem_map.mp h
  obtain ⟨other, finding', ⟨-, -, -, hmem'⟩, hedge', hother, hnode⟩ :=
    (found_outcome files hroot direction depth).sound.edges_found edge hedge
  obtain ⟨-, -, -, hmem⟩ := hfound
  obtain ⟨hsource, htarget⟩ := Prod.mk.inj hkey
  have hends := findings_ends hmem
  have hends' := findings_ends hmem'
  rw [hedge', hsource, htarget] at hends'
  show finding.node.id ∈ _
  rcases hends with ⟨hcurrent, hid⟩ | ⟨hcurrent, hid⟩ <;> rw [← hid] <;>
    rcases hends' with ⟨hcurrent', hid'⟩ | ⟨hcurrent', hid'⟩
  · exact hid' ▸ hnode
  · exact hcurrent' ▸ hother
  · exact hcurrent' ▸ hother
  · exact hid' ▸ hnode

/-- The node is one of the file, of one that an import in reach joins it to, or of a module that it imports. -/
inductive ShownNode (files : List CodeFile) (direction : Direction) (depth : ℕ) (root : CodeFile) : GraphNode → Prop
  | root : ShownNode files direction depth root (fileNode root)
  | source {file : CodeFile} {edge : GraphEdge} : file ∈ files → InReach files direction depth root edge →
      edge.source = file.filePath → ShownNode files direction depth root (fileNode file)
  | target {file : CodeFile} {edge : GraphEdge} : file ∈ files → InReach files direction depth root edge →
      edge.target = file.filePath → ShownNode files direction depth root (fileNode file)
  | externalModule {edge : GraphEdge} : InReach files direction depth root edge →
      edge.target = (GraphNode.externalModule edge.module).id →
      ShownNode files direction depth root (.externalModule edge.module)

/-- What a graph shows, truncated or not. -/
structure ImportGraph.Sound (graph : ImportGraph) (files : List CodeFile) (root : CodeFile) : Prop where
  nodes_sorted : (graph.nodes.map GraphNode.id).Pairwise (· < ·)
  edges_sorted : (graph.edges.map fun edge => toLex edge.key).Pairwise (· < ·)
  nodes_le : graph.nodes.length ≤ graphMaxNodes
  edges_le : graph.edges.length ≤ graphMaxEdges
  root_shown : fileNode root ∈ graph.nodes
  nodes_shown : ∀ node ∈ graph.nodes, ShownNode files graph.direction graph.depth root node
  edges_shown : ∀ edge ∈ graph.edges, InReach files graph.direction graph.depth root edge
  joined : ∀ edge ∈ graph.edges,
    edge.source ∈ graph.nodes.map GraphNode.id ∧ edge.target ∈ graph.nodes.map GraphNode.id

theorem shownNode_of_found {current : CodeFile}
    (h : (importSearch files direction depth).FoundAt root current finding) :
    ShownNode files direction depth root finding.node := by
  have hreach : InReach files direction depth root finding.edge := inReach_iff.mpr ⟨current, finding, h, rfl⟩
  obtain ⟨distance, hwithin, -, hmem⟩ := h
  rcases mem_findings.mp hmem with ⟨-, hmem⟩ | ⟨-, hmem⟩
  · obtain ⟨imported, -, rfl⟩ := mem_importFindings.mp hmem
    cases hresolve : resolveImportPath files current imported with
    | none =>
      rw [hresolve] at hreach
      exact .externalModule hreach rfl
    | some target =>
      rw [hresolve] at hreach
      exact .target (resolveImportPath_mem hresolve) hreach rfl
  · obtain ⟨candidate, hcandidate, imported, -, -, rfl⟩ := mem_importerFindings.mp hmem
    exact .source hcandidate hreach rfl

/-- Rows with unique keys in the order of their keys. -/
theorem sorted_by_key {β γ : Type} [LinearOrder γ] {key : β → γ} {rows : List β} (hnodup : (rows.map key).Nodup) :
    ((rows.insertionSort fun x y => key x ≤ key y).map key).Pairwise (· < ·) := by
  have hsorted : ((rows.insertionSort fun x y => key x ≤ key y).map key).Pairwise (· ≤ ·) :=
    List.pairwise_map.mpr (List.pairwise_insertionSort _ _)
  have hperm := (List.perm_insertionSort (fun x y => key x ≤ key y) rows).map key
  exact (hsorted.and (hperm.nodup_iff.mpr hnodup)).imp fun h => lt_of_le_of_ne h.1 h.2

/-- Every graph shows files and imports in reach, each once and sorted, its edges between nodes that it shows. -/
theorem importGraph_sound (files : IndexedFiles) (hroot : root ∈ files.files) {path : String}
    (hpath : String.ofList (Text.strip path.toList) = root.filePath) (direction : Direction) (depth : ℕ) :
    (buildImportGraph files path direction depth).Sound files.files root := by
  have hsound := (found_outcome files hroot direction depth).sound
  rw [buildImportGraph_eq files hroot hpath]
  have hids :=
      (List.perm_insertionSort (fun x y => x.id ≤ y.id) (found files root direction depth).nodes).map GraphNode.id
  constructor
  · exact sorted_by_key hsound.ids_nodup
  · have hkeys := hsound.keys_nodup.map toLex.injective
    rw [List.map_map] at hkeys
    exact sorted_by_key hkeys
  · exact (List.length_insertionSort ..).trans_le hsound.nodes_le
  · exact (List.length_insertionSort ..).trans_le hsound.edges_le
  · exact (List.perm_insertionSort ..).mem_iff.mpr hsound.root_mem
  · intro node hnode
    rcases hsound.nodes_found node ((List.perm_insertionSort ..).mem_iff.mp hnode) with rfl |
      ⟨x, finding, hfound, rfl⟩
    · exact .root
    · exact shownNode_of_found hfound
  · intro edge hedge
    obtain ⟨x, finding, hfound, hedge, -⟩ := hsound.edges_found edge ((List.perm_insertionSort ..).mem_iff.mp hedge)
    exact inReach_iff.mpr ⟨x, finding, hfound, hedge⟩
  · intro edge hedge
    obtain ⟨x, finding, ⟨-, -, -, hmem⟩, rfl, hx, hnode⟩ :=
      hsound.edges_found edge ((List.perm_insertionSort ..).mem_iff.mp hedge)
    rw [hids.mem_iff, hids.mem_iff]
    rcases findings_ends hmem with ⟨hsource, htarget⟩ | ⟨htarget, hsource⟩
    · exact ⟨hsource ▸ hx, htarget ▸ hnode⟩
    · exact ⟨hsource ▸ hnode, htarget ▸ hx⟩

/-- A graph is truncated exactly if an import in reach is missing, and then one of the limits is reached. -/
theorem untruncated_iff (files : IndexedFiles) (hroot : root ∈ files.files) {path : String}
    (hpath : String.ofList (Text.strip path.toList) = root.filePath) (direction : Direction) (depth : ℕ) :
    let graph := buildImportGraph files path direction depth
    (graph.truncated = false ↔
      ∀ edge, InReach files.files direction depth root edge → edge.key ∈ graph.edges.map GraphEdge.key) ∧
    (graph.truncated = true → graph.nodes.length = graphMaxNodes ∨ graph.edges.length = graphMaxEdges) := by
  have houtcome := found_outcome files hroot direction depth
  have hkeys := (List.perm_insertionSort (fun x y => toLex x.key ≤ toLex y.key)
    (found files root direction depth).edges).map GraphEdge.key
  rw [buildImportGraph_eq files hroot hpath]
  dsimp only
  refine ⟨⟨fun htruncated edge hreach => ?_, fun h => ?_⟩, fun htruncated => ?_⟩
  · obtain ⟨current, finding, hfound, rfl⟩ := inReach_iff.mp hreach
    exact hkeys.mem_iff.mpr (houtcome.whole htruncated current finding hfound).2
  · refine eq_false_of_ne_true fun htruncated => ?_
    obtain ⟨current, finding, hfound, hlost⟩ := (houtcome.cut htruncated).lost
    have hkey := h finding.edge (inReach_iff.mpr ⟨current, finding, hfound, rfl⟩)
    exact hlost ((found_kept_iff files hroot hfound).mpr (hkeys.mem_iff.mp hkey))
  · rw [List.length_insertionSort, List.length_insertionSort]
    exact (houtcome.cut htruncated).full.imp (le_antisymm houtcome.sound.nodes_le)
      (le_antisymm houtcome.sound.edges_le)

def sampleFile (filePath : String) (imports : List String) : CodeFile :=
  ⟨⟨filePath, "python", "", 1, 1, imports, []⟩, filePath, "repo"⟩

/-- A package that imports one of its modules and a library. -/
def sampleFiles : IndexedFiles where
  files := [sampleFile "app/__init__.py" ["os.path", "app.models.user"], sampleFile "app/models.py" []]
  paths_nodup := by decide

def sampleGraph : ImportGraph := buildImportGraph sampleFiles "app/models.py " .both 2

theorem sampleGraph_sound : sampleGraph.Sound sampleFiles.files (sampleFile "app/models.py" []) :=
  importGraph_sound sampleFiles (List.mem_cons_of_mem _ List.mem_cons_self) (by decide) .both 2

theorem sampleGraph_untruncated :
    (sampleGraph.truncated = false ↔
      ∀ edge, InReach sampleFiles.files .both 2 (sampleFile "app/models.py" []) edge →
        edge.key ∈ sampleGraph.edges.map GraphEdge.key) ∧
    (sampleGraph.truncated = true →
      sampleGraph.nodes.length = graphMaxNodes ∨ sampleGraph.edges.length = graphMaxEdges) :=
  untruncated_iff sampleFiles (List.mem_cons_of_mem _ List.mem_cons_self) (by decide) .both 2

end CodeMate.Agent
