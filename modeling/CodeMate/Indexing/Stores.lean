import CodeMate.Framework.Effect
import CodeMate.Indexing.Scan
import Mathlib.Logic.Function.Basic

/-!
# The stores of an index

An index lives in four places: the rows of the database, of which a session has
its own view until it commits, the points of the vector store, the directories
of the checkouts, and the row of the repository. This file has the state
(`World`), what one call finds outside (`IndexJob`), and the operations on each
store; an operation that can fail first asks the job whether it does
(`IndexJob.raises`), and the job also says what an operation leaves that fails
half-way.
-/

namespace CodeMate.Indexing

open Framework

/-! ## Rows -/

/-- A row of `code_files`, but for its ids. -/
structure FileContents where
  filePath : String
  language : String
  contentHash : String
  lineCount : Nat
  sizeBytes : Nat
  imports : List String
  exports : List String
  deriving DecidableEq

structure CodeFile extends FileContents where
  id : String
  repoId : String
  deriving DecidableEq

/-- A row of `code_chunks`, but for its ids. -/
structure ChunkContents where
  filePath : String
  language : String
  symbolName : String
  symbolType : String
  startLine : Nat
  endLine : Nat
  content : String
  contentHash : String
  imports : List String
  exports : List String
  deriving DecidableEq

structure CodeChunk extends ChunkContents where
  id : String
  repoId : String
  fileId : String
  embeddingId : Option String := none
  deriving DecidableEq

/-- A row of `repositories`. -/
structure Repository where
  localPath : Option String := none
  status : String := "pending"
  errorMessage : Option String := none
  languageSummary : List (String × Nat) := []
  lastCommitHash : Option String := none
  fileCount : Nat := 0
  chunkCount : Nat := 0
  indexedAt : Option String := none
  updatedAt : String := ""
  deriving DecidableEq

structure Tables where
  repositories : String → Option Repository := fun _ => none
  files : List CodeFile := []
  chunks : List CodeChunk := []

/-- The payload of a point of the vector store. -/
structure ChunkPoint where
  repoId : String
  chunkId : String
  filePath : String
  language : String
  symbolName : String
  symbolType : String
  startLine : Nat
  endLine : Nat
  contentHash : String
  deriving DecidableEq

/-! ## The state -/

variable (Raw : Type)

/-- The stores, the session's view of the database, and the local variables that the exception
handler of an index reads. -/
structure World where
  committed : Tables := {}
  tables : Tables := {}
  points : String → Option ChunkPoint := fun _ => none
  directories : String → Option (Checkout Raw) := fun _ => none
  newPointIds : List String := []
  workspaceReplaced : Bool := false
  backupWorkspace : Option String := none

/-- The points at which a call can raise. -/
inductive IndexStep
  | removeStaging
  | status (name : String)
  | clone
  | copyTree
  | updateWorkspace
  | readCommit
  | scan
  | ensureCollection
  | existingFiles
  | pointIds
  | deleteRows
  | persist
  | embed
  | flush
  | upsert (batch : Nat)
  | removeBackup
  | makeParent
  | renameTarget
  | renameStaging
  | chunkCount
  | commit
  deriving DecidableEq

/-- What one call finds outside: the checkout that the remote gives, what fails, and the ids that are made up. -/
structure IndexJob where
  checkout : Checkout Raw
  commitHash : Option String := none
  raises : IndexStep → Option Failure := fun _ => none
  /-- What a clone, a copy or an update that fails leaves behind. -/
  partialCheckout : Option (Checkout Raw) := none
  /-- The points of a batch that are stored though its upsert fails. -/
  storedAnyway : String → Bool := fun _ => false
  /-- A removal that is only tried. -/
  removesBackup : Bool := true
  fileId : Nat → String
  chunkId : Nat → Nat → String
  now : String := ""

variable {Raw}

/-- The ids that a call makes up are not there yet, and differ. -/
structure FreshIds (t : Tables) (points : String → Option ChunkPoint) (job : IndexJob Raw) : Prop where
  files : ∀ i, ∀ file ∈ t.files, file.id ≠ job.fileId i
  chunks : ∀ i j, ∀ chunk ∈ t.chunks, chunk.id ≠ job.chunkId i j
  points : ∀ i j, points (job.chunkId i j) = none
  fileIds : Function.Injective job.fileId
  chunkIds : ∀ i j i' j', job.chunkId i j = job.chunkId i' j' → i = i' ∧ j = j'

/-- A step of an index. -/
abbrev Indexing (Raw : Type) (α : Type) : Type := Effect (World Raw) Failure α

variable (ix : Indexer Raw) (job : IndexJob Raw)

/-! ## The database -/

def Tables.setRepository (t : Tables) (repoId : String) (f : Repository → Repository) : Tables :=
  { t with repositories := Function.update t.repositories repoId ((t.repositories repoId).map f) }

theorem Tables.setRepository_self (t : Tables) (repoId : String) (f : Repository → Repository) :
    (t.setRepository repoId f).repositories repoId = (t.repositories repoId).map f := Function.update_self ..

theorem Tables.setRepository_ne (t : Tables) {repoId id : String} (h : id ≠ repoId) (f : Repository → Repository) :
    (t.setRepository repoId f).repositories id = t.repositories id := Function.update_of_ne h ..

def Tables.filesOf (t : Tables) (repoId : String) : List CodeFile := t.files.filter (·.repoId = repoId)

def Tables.chunksOf (t : Tables) (repoId : String) : List CodeChunk := t.chunks.filter (·.repoId = repoId)

/-- A change of the session's view. -/
def change (f : Tables → Tables) : Indexing Raw Unit := Effect.modify fun w => { w with tables := f w.tables }

def commit (step : IndexStep) : Indexing Raw Unit := do
  Effect.check (job.raises step)
  Effect.modify fun w => { w with committed := w.tables }

def rollback : Indexing Raw Unit := Effect.modify fun w => { w with tables := w.committed }

/-- `_set_repository_values`. -/
def setRepositoryValues (repoId : String) (f : Repository → Repository) : Indexing Raw Unit :=
  change fun t => t.setRepository repoId fun r => { f r with updatedAt := job.now }

/-- `_update_repository`. -/
def updateRepository (repoId : String) (status : String) (errorMessage : Option (Option String)) : Indexing Raw Unit := do
  setRepositoryValues job repoId fun r =>
    { r with status := status, errorMessage := errorMessage.getD r.errorMessage }
  commit job (.status status)

/-- The path is one of those given; with none given, every path is. -/
abbrev Selected (filePaths : Option (List String)) (path : String) : Prop := ∀ paths ∈ filePaths, path ∈ paths

/-- `_chunk_point_ids`; with no paths, those of the whole repository. -/
def chunkPointIds (repoId : String) (filePaths : Option (List String)) : Indexing Raw (List String) := do
  Effect.check (job.raises .pointIds)
  Effect.read fun w =>
    ((w.tables.chunksOf repoId).filter fun chunk => Selected filePaths chunk.filePath).map fun chunk =>
      chunk.embeddingId.getD chunk.id

/-- `_delete_indexed_files_from_db`; with no paths, the deletions of a full index. -/
def deleteIndexedFilesFromDb (repoId : String) (filePaths : Option (List String)) : Indexing Raw Unit := do
  Effect.check (job.raises .deleteRows)
  change fun t =>
    { t with
      chunks := t.chunks.filter fun chunk => ¬ (chunk.repoId = repoId ∧ Selected filePaths chunk.filePath)
      files := t.files.filter fun file => ¬ (file.repoId = repoId ∧ Selected filePaths file.filePath) }

/-- `_count_lines`. -/
def countLines (content : String) : Nat :=
  if content.toList = [] then 0
  else content.toList.count '\n' + if content.toList.getLast? = some '\n' then 0 else 1

def ScannedCodeFile.fileContents (ix : Indexer Raw) (scanned : ScannedCodeFile Raw) : FileContents :=
  { filePath := scanned.relativePath, language := scanned.language, contentHash := scanned.contentHash,
    lineCount := countLines scanned.content, sizeBytes := ix.size scanned.raw, imports := scanned.parsedFile.imports,
    exports := scanned.parsedFile.exports }

def ScannedCodeFile.chunkContents (scanned : ScannedCodeFile Raw) : List ChunkContents :=
  scanned.parsedFile.chunks.map fun chunk =>
    { filePath := scanned.relativePath, language := scanned.language, symbolName := chunk.symbolName,
      symbolType := chunk.symbolType, startLine := chunk.startLine, endLine := chunk.endLine,
      content := chunk.content, contentHash := chunk.contentHash, imports := chunk.imports, exports := chunk.exports }

/-- The row of the `i`-th file. -/
def fileRow (repoId : String) (scanned : ScannedCodeFile Raw) (i : Nat) : CodeFile :=
  { scanned.fileContents ix with id := job.fileId i, repoId := repoId }

/-- The rows of the chunks of the `i`-th file. -/
def chunkRows (repoId : String) (scanned : ScannedCodeFile Raw) (i : Nat) : List CodeChunk :=
  scanned.chunkContents.zipIdx.map fun chunk =>
    { chunk.1 with id := job.chunkId i chunk.2, repoId := repoId, fileId := job.fileId i }

/-- The rows of the files, and of their chunks. -/
def newFiles (repoId : String) (scannedFiles : List (ScannedCodeFile Raw)) : List CodeFile :=
  scannedFiles.zipIdx.map fun scanned => fileRow ix job repoId scanned.1 scanned.2

def newChunks (repoId : String) (scannedFiles : List (ScannedCodeFile Raw)) : List CodeChunk :=
  scannedFiles.zipIdx.flatMap fun scanned => chunkRows job repoId scanned.1 scanned.2

/-- `_persist_scanned_files`, under the unique constraint on the repository and the path. -/
def persistScannedFiles (repoId : String) (scannedFiles : List (ScannedCodeFile Raw)) : Indexing Raw (List CodeChunk) := do
  Effect.check (job.raises .persist)
  let existing ← Effect.read fun w => (w.tables.filesOf repoId).map (·.filePath)
  Effect.check (if (existing ++ scannedFiles.map (·.relativePath)).Nodup then none
    else some "UNIQUE constraint failed: code_files.repo_id, code_files.file_path")
  change fun t =>
    { t with
      files := t.files ++ newFiles ix job repoId scannedFiles, chunks := t.chunks ++ newChunks job repoId scannedFiles }
  return newChunks job repoId scannedFiles

/-- `_existing_files`: the hash of the row at each path. -/
def existingFiles (repoId : String) : Indexing Raw (List (String × String)) := do
  Effect.check (job.raises .existingFiles)
  Effect.read fun w => (w.tables.filesOf repoId).map fun file => (file.filePath, file.contentHash)

/-- `_current_chunk_count`. -/
def currentChunkCount (repoId : String) : Indexing Raw Nat := do
  Effect.check (job.raises .chunkCount)
  Effect.read fun w => (w.tables.chunksOf repoId).length

/-! ## The vector store -/

def makeChunkPoint (chunk : CodeChunk) : ChunkPoint :=
  { repoId := chunk.repoId, chunkId := chunk.id, filePath := chunk.filePath, language := chunk.language,
    symbolName := chunk.symbolName, symbolType := chunk.symbolType, startLine := chunk.startLine,
    endLine := chunk.endLine, contentHash := chunk.contentHash }

/-- `upsert_chunks`: each point under the id of its chunk. -/
def upserted (points : String → Option ChunkPoint) (batch : List CodeChunk) : String → Option ChunkPoint :=
  batch.foldl (fun points chunk => Function.update points chunk.id (some (makeChunkPoint chunk))) points

/-- The points of a list of chunks are written under their ids. -/
theorem upserted_of_notMem {points : String → Option ChunkPoint} {chunks : List CodeChunk} {id : String}
    (h : id ∉ chunks.map (·.id)) : upserted points chunks id = points id := by
  induction chunks generalizing points with
  | nil => rfl
  | cons chunk chunks ih =>
    rw [List.map_cons, List.mem_cons, not_or] at h
    show upserted (Function.update points chunk.id _) chunks id = _
    rw [ih h.2, Function.update_of_ne h.1]

/-- `_delete_vector_points_best_effort`. -/
def deleteVectorPoints (ids : List String) : Indexing Raw Unit :=
  Effect.modify fun w => { w with points := fun id => if id ∈ ids then none else w.points id }

/-- One turn of the loop of `_write_embeddings`; `done` are the ids of the batches before. -/
def upsertBatch (i : Nat) (done : List String) (batch : List CodeChunk) : Indexing Raw Unit :=
  Effect.onError (do
      Effect.modify fun w => { w with points := upserted w.points (batch.filter fun chunk => job.storedAnyway chunk.id) }
      Effect.check (job.raises (.upsert i))
      Effect.modify fun w => { w with points := upserted w.points batch })
    (deleteVectorPoints (done ++ batch.map (·.id)))

/-- The loop of `_write_embeddings`: `n` batches of 64, from the `i`-th on. -/
def upsertBatches (chunks : List CodeChunk) : Nat → Nat → Indexing Raw Unit
  | 0, _ => pure ()
  | n + 1, i => do
    upsertBatch job i ((chunks.take (64 * i)).map (·.id)) ((chunks.drop (64 * i)).take 64)
    upsertBatches chunks n (i + 1)

/-- The rows with the ids have their point under their own id. -/
def markEmbedded (ids : List String) (chunks : List CodeChunk) : List CodeChunk :=
  chunks.map fun row => if row.id ∈ ids then { row with embeddingId := some row.id } else row

/-- `_write_embeddings`. -/
def writeEmbeddings (chunks : List CodeChunk) : Indexing Raw (List String) := do
  if chunks = [] then return []
  Effect.check (job.raises .embed)
  change fun t => { t with chunks := markEmbedded (chunks.map (·.id)) t.chunks }
  Effect.check (job.raises .flush)
  upsertBatches job chunks ((chunks.length + 63) / 64) 0
  return chunks.map (·.id)

/-! ## The directories -/

/-- `_workspace_path`. -/
def workspacePath (repoId : String) : String := ix.workspaceRoot ++ "/" ++ repoId

def stagingPath (repoId : String) : String := workspacePath ix (repoId ++ ".staging")

/-- `target.with_name(f"{target.name}.backup")`. -/
def backupPath (target : String) : String := target ++ ".backup"

def setDirectory (path : String) (contents : Option (Checkout Raw)) : Indexing Raw Unit :=
  Effect.modify fun w => { w with directories := Function.update w.directories path contents }

/-- The directories after one is renamed. -/
def renamed (directories : String → Option (Checkout Raw)) (path newPath : String) : String → Option (Checkout Raw) :=
  Function.update (Function.update directories newPath (directories path)) path none

theorem renamed_self (directories : String → Option (Checkout Raw)) (path newPath : String) :
    renamed directories path newPath path = none := Function.update_self ..

theorem renamed_new {directories : String → Option (Checkout Raw)} {path newPath : String} (h : newPath ≠ path) :
    renamed directories path newPath newPath = directories path :=
  (Function.update_of_ne h ..).trans (Function.update_self ..)

theorem renamed_ne {directories : String → Option (Checkout Raw)} {path newPath other : String} (h : other ≠ path)
    (h' : other ≠ newPath) : renamed directories path newPath other = directories other :=
  (Function.update_of_ne h ..).trans (Function.update_of_ne h' ..)

/-- `Path.rename`, of a directory that is there. -/
def renameDirectory (path newPath : String) : Indexing Raw Unit :=
  Effect.modify fun w => { w with directories := renamed w.directories path newPath }

/-- `_prepare_staging_workspace`. -/
def prepareStagingWorkspace (repoId : String) : Indexing Raw String := do
  Effect.check (job.raises .removeStaging)
  setDirectory (stagingPath ix repoId) none
  return stagingPath ix repoId

/-- A step that fills a directory, or leaves a part of it. -/
def fillDirectory (step : IndexStep) (path : String) (contents : Checkout Raw) : Indexing Raw Unit := do
  setDirectory path job.partialCheckout
  Effect.check (job.raises step)
  setDirectory path (some contents)

/-- `_replace_workspace`. -/
def replaceWorkspace (staging target : String) : Indexing Raw (Option String) := do
  let backup := backupPath target
  Effect.check (job.raises .removeBackup)
  setDirectory backup none
  Effect.check (job.raises .makeParent)
  let present ← Effect.read fun w => (w.directories target).isSome
  if present then
    Effect.check (job.raises .renameTarget)
    renameDirectory target backup
  Effect.onError (do
      Effect.check (job.raises .renameStaging)
      renameDirectory staging target)
    (do
      let kept ← Effect.read fun w => (w.directories backup).isSome
      if kept then renameDirectory backup target)
  Effect.read fun w => if (w.directories backup).isSome then some backup else none

/-- `_restore_workspace`. -/
def restoreWorkspace (target : String) (backup : Option String) : Indexing Raw Unit := do
  setDirectory target none
  match backup with
  | none => pure ()
  | some backup =>
    let kept ← Effect.read fun w => (w.directories backup).isSome
    if kept then renameDirectory backup target

end CodeMate.Indexing
