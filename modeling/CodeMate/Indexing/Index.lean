import CodeMate.Framework.Run
import CodeMate.Indexing.Stores

/-!
# Full and incremental indexing

`indexFull` builds an index from a fresh clone and `indexIncremental` from an
updated copy of the checkout, of which it keeps the rows of the files that did
not change. Both work on a staging directory, swap it in before they commit
(`swapWorkspace`), and undo what they did to the other stores when something
raises (`undo`). `indexRepository` chooses one of the two, and `indexing` is the
system of all calls, one after the other, for any repositories.
-/

namespace CodeMate.Indexing

open Framework

variable {Raw : Type} (ix : Indexer Raw) (job : IndexJob Raw)

/-- `Counter(file.language for file in scanned_files)`, in order of first occurrence. -/
def languageSummary (scanned : List (ScannedCodeFile Raw)) : List (String × Nat) :=
  (scanned.map (·.language)).reverse.dedup.reverse.map fun language =>
    (language, (scanned.map (·.language)).count language)

/-- `_scanned_chunk_count`. -/
def scannedChunkCount : List (ScannedCodeFile Raw) → Nat
  | [] => 0
  | file :: scanned => file.parsedFile.chunks.length + scannedChunkCount scanned

/-- `_clone_repository`. -/
def cloneRepository (staging : String) : Indexing Raw Unit := fillDirectory job .clone staging job.checkout

/-- `shutil.copytree`. -/
def copyTree (target staging : String) : Indexing Raw Unit := do
  let contents ← Effect.read fun w => w.directories target
  match contents with
  | none => Effect.check (some "No such file or directory")
  | some checkout => fillDirectory job .copyTree staging checkout

/-- `_update_workspace`. -/
def updateWorkspace (staging : String) : Indexing Raw Unit := fillDirectory job .updateWorkspace staging job.checkout

/-- `_read_commit_hash`. -/
def readCommitHash : Indexing Raw (Option String) := do
  Effect.check (job.raises .readCommit)
  return job.commitHash

/-- `_scan_source_files`, of the checkout in a directory. -/
def scanDirectory (path : String) : Indexing Raw (List (ScannedCodeFile Raw)) := do
  Effect.check (job.raises .scan)
  let contents ← Effect.read fun w => w.directories path
  match contents with
  | none => return []
  | some checkout => Effect.ofExcept (scanSourceFiles ix checkout)

/-- The workspace swap, and what is remembered of it. -/
def swapWorkspace (staging target : String) : Indexing Raw Unit := do
  let backup ← replaceWorkspace job staging target
  Effect.modify fun w => { w with workspaceReplaced := true, backupWorkspace := backup }

/-- The embeddings, and the ids that are remembered of them. -/
def embedChunks (chunks : List CodeChunk) : Indexing Raw Unit := do
  let ids ← writeEmbeddings job chunks
  Effect.modify fun w => { w with newPointIds := ids }

/-- The new row of the repository, and the commit. -/
def commitIndex (repoId target : String) (scanned : List (ScannedCodeFile Raw)) (commitHash : Option String)
    (chunkCount : Nat) : Indexing Raw Unit := do
  setRepositoryValues job repoId fun r =>
    { r with
      status := "indexed", localPath := some target, lastCommitHash := commitHash, fileCount := scanned.length
      chunkCount := chunkCount, languageSummary := languageSummary scanned, indexedAt := some job.now }
  commit job .commit

/-- The exception handler of an index. -/
def undo (staging target : String) : Indexing Raw Unit := do
  rollback
  let ids ← Effect.read fun w => w.newPointIds
  deleteVectorPoints ids
  let replaced ← Effect.read fun w => w.workspaceReplaced
  let backup ← Effect.read fun w => w.backupWorkspace
  if replaced then restoreWorkspace target backup else setDirectory staging none

/-- `_remove_path_best_effort`. -/
def removePathBestEffort : Option String → Indexing Raw Unit
  | none => pure ()
  | some path => if job.removesBackup then setDirectory path none else pure ()

/-- What is left of the old index is removed, once the new one is committed. -/
def retire (oldPointIds : List String) : Indexing Raw Unit := do
  let backup ← Effect.read fun w => w.backupWorkspace
  removePathBestEffort job backup
  deleteVectorPoints oldPointIds

/-- The body of `_index_full`; it returns the ids of the old points. -/
def fullBody (repoId staging target : String) : Indexing Raw (List String) := do
  cloneRepository job staging
  let commitHash ← readCommitHash job
  updateRepository job repoId "parsing" none
  let scanned ← scanDirectory ix job staging
  updateRepository job repoId "embedding" none
  Effect.check (job.raises .ensureCollection)
  let oldPointIds ← chunkPointIds job repoId none
  deleteIndexedFilesFromDb job repoId none
  let chunks ← persistScannedFiles ix job repoId scanned
  embedChunks job chunks
  swapWorkspace job staging target
  commitIndex job repoId target scanned commitHash (scannedChunkCount scanned)
  return oldPointIds

/-- `_index_full`. -/
def indexFull (repoId : String) : Indexing Raw Unit := do
  let target := workspacePath ix repoId
  let staging ← prepareStagingWorkspace ix job repoId
  updateRepository job repoId "cloning" (some none)
  let oldPointIds ← Effect.onError (fullBody ix job repoId staging target) (undo staging target)
  retire job oldPointIds

/-- The files to index again: those that have no row, or one with another hash. -/
def changedFiles (existing : List (String × String)) (scanned : List (ScannedCodeFile Raw)) :
    List (ScannedCodeFile Raw) :=
  scanned.filter fun file => existing.lookup file.relativePath ≠ some file.contentHash

def deletedPaths (existing : List (String × String)) (scanned : List (ScannedCodeFile Raw)) : List String :=
  (existing.map (·.1)).filter fun path => path ∉ scanned.map (·.relativePath)

/-- The body of `_index_incremental`; it returns the ids of the points of replaced files. -/
def incrementalBody (repoId staging target : String) : Indexing Raw (List String) := do
  copyTree job target staging
  updateWorkspace job staging
  let commitHash ← readCommitHash job
  updateRepository job repoId "parsing" none
  Effect.check (job.raises .ensureCollection)
  let scanned ← scanDirectory ix job staging
  let existing ← existingFiles job repoId
  let changed := changedFiles existing scanned
  updateRepository job repoId "embedding" none
  let replacedPaths := deletedPaths existing scanned ++ changed.map (·.relativePath)
  let oldPointIds ← chunkPointIds job repoId (some replacedPaths)
  deleteIndexedFilesFromDb job repoId (some replacedPaths)
  let chunks ← persistScannedFiles ix job repoId changed
  embedChunks job chunks
  swapWorkspace job staging target
  let chunkCount ← currentChunkCount job repoId
  commitIndex job repoId target scanned commitHash chunkCount
  return oldPointIds

/-- `_index_incremental`, for a repository whose checkout is at `target`. -/
def indexIncremental (repoId target : String) : Indexing Raw Unit := do
  let staging ← prepareStagingWorkspace ix job repoId
  updateRepository job repoId "cloning" (some none)
  let oldPointIds ← Effect.onError (incrementalBody ix job repoId staging target) (undo staging target)
  retire job oldPointIds

/-- `_safe_index_error_message`. -/
def safeIndexErrorMessage (failure : Failure) : String :=
  let message := ix.strip failure
  if message.toList.take 11 = "Repository ".toList then message
  else "Repository indexing failed. Check repository contents and configuration."

/-- The index that a call makes: where its repository has no checkout, a full one. -/
def indexChosen (repoId : String) (full : Bool) : Indexing Raw Unit := do
  let checkout ← Effect.read fun w => (w.tables.repositories repoId).bind (·.localPath)
  match checkout with
  | none => indexFull ix job repoId
  | some target =>
    let present ← Effect.read fun w => (w.directories target).isSome
    if full ∨ ¬ present then indexFull ix job repoId else indexIncremental ix job repoId target

/-- `index_repository`. -/
def indexRepository (repoId : String) (full : Bool) : Indexing Raw Unit := do
  let present ← Effect.read fun w => (w.tables.repositories repoId).isSome
  if present then
    Effect.catching (indexChosen ix job repoId full) fun failure => do
      rollback
      updateRepository job repoId "failed" (some (some (safeIndexErrorMessage ix failure)))

/-! ## Calls one after the other -/

/-- A fresh session: nothing uncommitted, and no local variables yet. -/
def World.enter (w : World Raw) : World Raw :=
  { w with tables := w.committed, newPointIds := [], workspaceReplaced := false, backupWorkspace := none }

inductive IndexEvent (Raw : Type)
  | register (repoId : String)
  | index (repoId : String) (full : Bool) (job : IndexJob Raw)

/-- A repository is registered, without an index; or one is indexed, with ids that are new. -/
inductive Steps : World Raw → IndexEvent Raw → World Raw → Prop
  | register (w : World Raw) (repoId : String) (h : w.committed.repositories repoId = none) :
      Steps w (.register repoId)
        { w with committed :=
          { w.committed with repositories := Function.update w.committed.repositories repoId (some {}) } }
  | index (w : World Raw) (repoId : String) (full : Bool) (job : IndexJob Raw)
      (h : FreshIds w.committed w.points job) :
      Steps w (.index repoId full job) (indexRepository ix job repoId full w.enter).2

/-- Calls in any order, from empty stores. -/
def indexing : System (World Raw) (IndexEvent Raw) where
  start w := w = {}
  step := Steps ix

end CodeMate.Indexing
