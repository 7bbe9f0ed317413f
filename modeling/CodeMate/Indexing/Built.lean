import CodeMate.Indexing.Rows
import CodeMate.Indexing.Undo

/-!
# What an index builds

A call that returns has replaced the rows and points under some paths by those
of the scanned files, and written the row of the repository (`Built`). `View`
says what the session and the vector store hold on the way there; each step is
taken once, for both indexes: the checkout is staged and scanned
(`scanDirectory_yields`), the rows and points are replaced
(`storeIndex_yields`), and the row is written and committed
(`commitIndex_yields`). `indexFull_built` and `indexIncremental_built` are the
results for the two calls.
-/

namespace CodeMate.Indexing

open Framework Effect

variable {Raw : Type} {ix : Indexer Raw} {job : IndexJob Raw} {repoId target staging : String} {w₀ w : World Raw}
  {α β : Type}

/-- From `P`, `x` returns only in `Q`; how it raises does not matter. -/
abbrev Yields (P : World Raw → Prop) (x : Indexing Raw α) (Q : α → World Raw → Prop) : Prop :=
  Spec P x Q fun _ _ => True

/-- The row of a repository after an index. -/
def indexedRow (job : IndexJob Raw) (target : String) (scanned : List (ScannedCodeFile Raw)) (chunkCount : ℕ) :
    Repository :=
  { localPath := some target, status := "indexed", errorMessage := none, languageSummary := languageSummary scanned,
    lastCommitHash := job.commitHash, fileCount := scanned.length, chunkCount := chunkCount,
    indexedAt := some job.now, updatedAt := job.now }

/-- The tables after an index. -/
def indexedTables (job : IndexJob Raw) (repoId target : String) (scanned : List (ScannedCodeFile Raw)) (chunkCount : ℕ)
    (files : List CodeFile) (chunks : List CodeChunk) (t : Tables) : Tables :=
  { repositories := Function.update t.repositories repoId (some (indexedRow job target scanned chunkCount)),
    files := files, chunks := chunks }

/-- What a call has changed that returned: the rows and points under the paths are those of the added
files, and the row of the repository is new. -/
structure Built (ix : Indexer Raw) (job : IndexJob Raw) (repoId target : String) (filePaths : Option (List String))
    (added scanned : List (ScannedCodeFile Raw)) (chunkCount : ℕ) (w₀ w : World Raw) : Prop where
  committed : w.committed = indexedTables job repoId target scanned chunkCount
    (replacedFiles ix job repoId filePaths added w₀.committed) (replacedChunks job repoId filePaths added w₀.committed)
    w₀.committed
  points : w.points = replacedPoints job repoId filePaths added w₀.committed w₀.points

/-! ## What the session sees -/

/-- The rows of the session and the points; of the repositories only one row has changed. -/
structure View (repoId : String) (t₀ : Tables) (files : List CodeFile) (chunks : List CodeChunk)
    (points : String → Option ChunkPoint) (w : World Raw) : Prop where
  files : w.tables.files = files
  chunks : w.tables.chunks = chunks
  others : ∀ id, id ≠ repoId → w.tables.repositories id = t₀.repositories id
  row : ∃ row, w.tables.repositories repoId = some row ∧ row.errorMessage = none
  points : w.points = points

variable {t₀ : Tables} {files : List CodeFile} {chunks : List CodeChunk} {points : String → Option ChunkPoint}

/-- Directories and local variables do not matter. -/
theorem View.of_eq (h : View repoId t₀ files chunks points w) {w' : World Raw} (htables : w'.tables = w.tables)
    (hpoints : w'.points = w.points) : View repoId t₀ files chunks points w' :=
  ⟨htables ▸ h.files, htables ▸ h.chunks, htables ▸ h.others, htables ▸ h.row, hpoints.trans h.points⟩

theorem View.setRepository (h : View repoId t₀ files chunks points w) {f : Repository → Repository}
    (hf : ∀ row, row.errorMessage = none → (f row).errorMessage = none) {w' : World Raw}
    (htables : w'.tables = w.tables.setRepository repoId f) (hpoints : w'.points = w.points) :
    View repoId t₀ files chunks points w' := by
  obtain ⟨row, hrow, herror⟩ := h.row
  refine ⟨?_, ?_, fun id hid => ?_, ⟨f row, ?_, hf row herror⟩, hpoints.trans h.points⟩
  · rw [htables]
    exact h.files
  · rw [htables]
    exact h.chunks
  · rw [htables, Tables.setRepository_ne _ hid]
    exact h.others id hid
  · rw [htables, Tables.setRepository_self, hrow]
    rfl

/-- The first status clears the error message. -/
theorem View.start {row : Repository} (hrow : t₀.repositories repoId = some row) {f : Repository → Repository}
    (hf : (f row).errorMessage = none) (htables : w.tables = t₀.setRepository repoId f) (hpoints : w.points = points) :
    View repoId t₀ t₀.files t₀.chunks points w := by
  refine ⟨?_, ?_, fun id hid => ?_, ⟨f row, ?_, hf⟩, hpoints⟩
  · rw [htables]
    rfl
  · rw [htables]
    rfl
  · rw [htables, Tables.setRepository_ne _ hid]
  · rw [htables, Tables.setRepository_self, hrow]
    rfl

theorem setDirectory_view (path : String) (contents : Option (Checkout Raw)) :
    Yields (View repoId t₀ files chunks points) (setDirectory path contents)
      fun _ w => w.directories path = contents ∧ View repoId t₀ files chunks points w :=
  .modify fun _ h => ⟨Function.update_self .., h.of_eq rfl rfl⟩

theorem check_yields {I : World Raw → Prop} (failure : Option Failure) :
    Yields I (check failure : Indexing Raw Unit) fun _ => I :=
  (Spec.check failure).weaken (fun _ h => h) (fun _ _ h => h) fun _ _ _ => trivial

theorem fillDirectory_yields (step : IndexStep) (path : String) (contents : Checkout Raw) :
    Yields (View repoId t₀ files chunks points) (fillDirectory job step path contents)
      fun _ w => w.directories path = some contents ∧ View repoId t₀ files chunks points w :=
  .seq (I := View repoId t₀ files chunks points) (.modify fun _ h => h.of_eq rfl rfl)
    (.seq (check_yields _) (setDirectory_view _ _))

/-- A new status keeps what is staged. -/
theorem updateRepository_yields (job : IndexJob Raw) (status : String) (D : (String → Option (Checkout Raw)) → Prop) :
    Yields (fun w => D w.directories ∧ View repoId t₀ files chunks points w) (updateRepository job repoId status none)
      fun _ w => D w.directories ∧ View repoId t₀ files chunks points w := by
  refine .seq (.modify (Q := fun _ w => D w.directories ∧ View repoId t₀ files chunks points w) fun w h => ?_)
    (.seq (check_yields _) (.modify fun w h => ⟨h.1, h.2.of_eq rfl rfl⟩))
  refine ⟨h.1, h.2.setRepository (fun row herror => ?_) rfl rfl⟩
  exact herror

theorem readCommitHash_yields {I : World Raw → Prop} :
    Yields I (readCommitHash job) fun commitHash w => commitHash = job.commitHash ∧ I w :=
  .seq (check_yields _) (.pure fun _ h => ⟨rfl, h⟩)

theorem scanDirectory_yields {checkout : Checkout Raw} :
    Yields (fun w => w.directories staging = some checkout ∧ View repoId t₀ files chunks points w)
      (scanDirectory ix job staging)
      fun scanned w => scanSourceFiles ix checkout = .ok scanned ∧ View repoId t₀ files chunks points w := by
  refine .seq (check_yields _) (.bind (.read (Q := fun contents w => contents = some checkout ∧
    View repoId t₀ files chunks points w) fun w h => h) fun contents => .assuming ?_)
  rintro rfl
  exact .ofExcept (fun scanned w hscan h => ⟨hscan, h⟩) fun _ _ _ => trivial

/-! ## The points of a batch -/

theorem upserted_append (points : String → Option ChunkPoint) (batch batch' : List CodeChunk) :
    upserted points (batch ++ batch') = upserted (upserted points batch) batch' := List.foldl_append ..

/-- What was under the ids of the chunks does not matter. -/
theorem upserted_congr {points points' : String → Option ChunkPoint} {batch : List CodeChunk}
    (h : ∀ id, id ∉ batch.map (·.id) → points id = points' id) : upserted points batch = upserted points' batch := by
  induction batch generalizing points points' with
  | nil => exact funext fun id => h id List.not_mem_nil
  | cons chunk batch ih =>
    refine ih fun id hid => ?_
    show Function.update points chunk.id _ id = Function.update points' chunk.id _ id
    by_cases hself : id = chunk.id
    · subst hself
      rw [Function.update_self, Function.update_self]
    · rw [Function.update_of_ne hself, Function.update_of_ne hself]
      refine h id fun hmem => ?_
      rw [List.map_cons, List.mem_cons] at hmem
      exact hmem.elim hself hid

/-- A batch of which a part was stored before is stored all the same. -/
theorem upserted_part (points : String → Option ChunkPoint) (batch : List CodeChunk) (p : CodeChunk → Bool) :
    upserted (upserted points (batch.filter p)) batch = upserted points batch := by
  refine upserted_congr fun id hid => upserted_of_notMem fun hmem => hid ?_
  exact (List.filter_sublist.map _).subset hmem

theorem markEmbedded_nil (chunks : List CodeChunk) : markEmbedded [] chunks = chunks := by
  simp [markEmbedded]

theorem upsertBatch_yields (i : ℕ) (done : List String) (batch : List CodeChunk) :
    Yields (View repoId t₀ files chunks points) (upsertBatch job i done batch)
      fun _ => View repoId t₀ files chunks (upserted points batch) := by
  refine .onError (F := fun _ _ => True) ?_ fun _ => .top
  refine .seq (.modify (Q := fun _ => View repoId t₀ files chunks
    (upserted points (batch.filter fun chunk => job.storedAnyway chunk.id))) fun w h => ?_)
    (.seq (check_yields _) (.modify fun w h => ?_))
  · exact ⟨h.files, h.chunks, h.others, h.row, congrArg (upserted · _) h.points⟩
  · refine ⟨h.files, h.chunks, h.others, h.row, ?_⟩
    show upserted w.points batch = _
    rw [h.points, upserted_part]

/-- By induction on the batches that are left. -/
theorem upsertBatches_yields (added : List CodeChunk) (n i : ℕ) :
    Yields (View repoId t₀ files chunks (upserted points (added.take (64 * i)))) (upsertBatches job added n i)
      fun _ => View repoId t₀ files chunks (upserted points (added.take (64 * (i + n)))) := by
  induction n generalizing i with
  | zero => exact .pure fun w h => h
  | succ n ih =>
    have hbatch : upserted (upserted points (added.take (64 * i))) ((added.drop (64 * i)).take 64) =
        upserted points (added.take (64 * (i + 1))) := by
      rw [← upserted_append, Nat.mul_succ, List.take_add]
    rw [show i + (n + 1) = i + 1 + n by omega]
    refine .seq ?_ (ih (i + 1))
    rw [← hbatch]
    exact upsertBatch_yields i _ _

theorem embedChunks_yields (job : IndexJob Raw) (added : List CodeChunk) :
    Yields (View repoId t₀ files chunks points) (embedChunks job added)
      fun _ => View repoId t₀ files (markEmbedded (added.map (·.id)) chunks) (upserted points added) := by
  have hlen : added.take (64 * (0 + (added.length + 63) / 64)) = added := List.take_of_length_le (by omega)
  refine .bind (Q := fun _ => View repoId t₀ files (markEmbedded (added.map (·.id)) chunks) (upserted points added))
    ?_ fun ids => .modify fun w h => ⟨h.files, h.chunks, h.others, h.row, h.points⟩
  rw [writeEmbeddings]
  split
  next hnil =>
    subst hnil
    refine .pure fun w h => ⟨h.files, ?_, h.others, h.row, h.points⟩
    rw [List.map_nil, markEmbedded_nil]
    exact h.chunks
  next =>
    have hloop : Yields (View repoId t₀ files (markEmbedded (added.map (·.id)) chunks) points)
        (upsertBatches job added ((added.length + 63) / 64) 0)
        fun _ => View repoId t₀ files (markEmbedded (added.map (·.id)) chunks) (upserted points added) := by
      refine (upsertBatches_yields added _ 0).weaken (fun w h => h) (fun _ w h => ?_) fun _ _ h => h
      rwa [hlen] at h
    refine .seq (check_yields _) (.seq (.modify (Q := fun _ => View repoId t₀ files
      (markEmbedded (added.map (·.id)) chunks) points) fun w h => ?_) (.seq (check_yields _)
        (.bind hloop fun _ => .pure fun w h => h)))
    exact ⟨h.files, congrArg (markEmbedded _) h.chunks, h.others, h.row, h.points⟩

/-! ## The swap and the commit -/

/-- A change of directories and local variables. -/
theorem modify_view {f : World Raw → World Raw} (htables : ∀ w, (f w).tables = w.tables)
    (hpoints : ∀ w, (f w).points = w.points) :
    Yields (View repoId t₀ files chunks points) (Effect.modify f) fun _ => View repoId t₀ files chunks points :=
  .modify fun w h => h.of_eq (htables w) (hpoints w)

theorem renameDirectory_view (path newPath : String) :
    Yields (View repoId t₀ files chunks points) (renameDirectory path newPath : Indexing Raw Unit)
      fun _ => View repoId t₀ files chunks points :=
  .modify fun w h => h.of_eq rfl rfl

theorem swapWorkspace_yields (job : IndexJob Raw) (staging target : String) :
    Yields (View repoId t₀ files chunks points) (swapWorkspace job staging target)
      fun _ => View repoId t₀ files chunks points := by
  refine .bind (Q := fun _ => View repoId t₀ files chunks points) ?_ fun backup =>
    modify_view (fun _ => rfl) fun _ => rfl
  refine .seq (check_yields _) (.seq (modify_view (fun _ => rfl) fun _ => rfl) (.seq (check_yields _)
    (.bind (.read (Q := fun _ => View repoId t₀ files chunks points) fun w h => h) fun present => ?_)))
  have hrest (handler : Indexing Raw Unit) (f : World Raw → Option String) :
      Yields (View repoId t₀ files chunks points)
        (do
          Effect.onError (do Effect.check (job.raises .renameStaging); renameDirectory staging target) handler
          Effect.read f)
        fun _ => View repoId t₀ files chunks points :=
    .seq (.onError (F := fun _ _ => True) (.seq (check_yields _) (renameDirectory_view staging target)) fun _ => .top)
      (.read fun w h => h)
  cases present with
  | false => exact hrest _ _
  | true => exact .seq (check_yields _) (.seq (renameDirectory_view target (backupPath target)) (hrest _ _))

/-- The rows and points under the paths are replaced by those of the added files. -/
theorem storeIndex_yields (filePaths : Option (List String)) (added : List (ScannedCodeFile Raw))
    {rest : List String → Indexing Raw β} {R : β → World Raw → Prop}
    (hrest : Yields (View repoId t₀ (replacedFiles ix job repoId filePaths added t₀)
      (replacedChunks job repoId filePaths added t₀) (upserted points (newChunks job repoId added)))
      (rest (replacedIds repoId filePaths t₀)) R) :
    Yields (View repoId t₀ t₀.files t₀.chunks points)
      (do
        let oldPointIds ← chunkPointIds job repoId filePaths
        deleteIndexedFilesFromDb job repoId filePaths
        let chunks ← persistScannedFiles ix job repoId added
        embedChunks job chunks
        swapWorkspace job staging target
        rest oldPointIds) R := by
  refine .bind (Q := fun ids w => ids = replacedIds repoId filePaths t₀ ∧ View repoId t₀ t₀.files t₀.chunks points w)
    (.seq (check_yields _) (.read fun w h => ⟨?_, h⟩)) fun ids => .assuming ?_
  · show ((w.tables.chunks.filter _).filter _).map _ = _
    rw [h.chunks]
    rfl
  rintro rfl
  refine .seq (.seq (check_yields _) (.modify (Q := fun _ => View repoId t₀
    (t₀.files.filter fun file => ¬ (file.repoId = repoId ∧ Selected filePaths file.filePath))
    (t₀.chunks.filter fun chunk => ¬ (chunk.repoId = repoId ∧ Selected filePaths chunk.filePath)) points)
    fun w h => ⟨congrArg _ h.files, congrArg _ h.chunks, h.others, h.row, h.points⟩)) ?_
  refine .bind (Q := fun chunks w => chunks = newChunks job repoId added ∧
    View repoId t₀ (replacedFiles ix job repoId filePaths added t₀)
      (t₀.chunks.filter (fun chunk => ¬ (chunk.repoId = repoId ∧ Selected filePaths chunk.filePath)) ++
        newChunks job repoId added) points w) ?_ fun chunks => .assuming ?_
  · refine .seq (check_yields _) (.bind (.read (Q := fun _ => View repoId t₀ _ _ points) fun w h => h) fun existing =>
      .seq (check_yields _) (.seq (.modify (Q := fun _ => View repoId t₀ _ _ points) fun w h => ?_)
        (.pure fun w h => ⟨rfl, h⟩)))
    exact ⟨congrArg (· ++ newFiles ix job repoId added) h.files,
      congrArg (· ++ newChunks job repoId added) h.chunks, h.others, h.row, h.points⟩
  rintro rfl
  exact .seq (embedChunks_yields job _) (.seq (swapWorkspace_yields job staging target) hrest)

/-- The row is written, and what the session sees is committed. -/
theorem commitIndex_yields (scanned : List (ScannedCodeFile Raw)) (chunkCount : ℕ) :
    Yields (View repoId t₀ files chunks points) (commitIndex job repoId target scanned job.commitHash chunkCount)
      fun _ w => w.points = points ∧
        w.committed = indexedTables job repoId target scanned chunkCount files chunks t₀ := by
  refine .seq (I := fun w => w.points = points ∧
    w.tables = indexedTables job repoId target scanned chunkCount files chunks t₀) (.modify fun w h => ⟨h.points, ?_⟩)
    (.seq (check_yields _) (.modify fun w h => ⟨h.1, h.2⟩))
  obtain ⟨row, hrow, herror⟩ := h.row
  have hrows : (w.tables.setRepository repoId fun r => { indexedRow job target scanned chunkCount with
      errorMessage := r.errorMessage }).repositories =
      Function.update t₀.repositories repoId (some (indexedRow job target scanned chunkCount)) := by
    funext id
    by_cases hid : id = repoId
    · subst hid
      rw [Tables.setRepository_self, hrow, Function.update_self, Option.map_some, herror]
      rfl
    · rw [Tables.setRepository_ne _ hid, Function.update_of_ne hid, h.others id hid]
  rw [indexedTables, ← hrows, ← h.files, ← h.chunks]
  rfl

/-! ## Whole calls -/

/-- What has been done at the end of the body, before the old points are deleted. -/
structure Stored (ix : Indexer Raw) (job : IndexJob Raw) (repoId target : String) (filePaths : Option (List String))
    (added scanned : List (ScannedCodeFile Raw)) (chunkCount : ℕ) (w₀ : World Raw) (ids : List String) (w : World Raw) :
    Prop where
  ids : ids = replacedIds repoId filePaths w₀.committed
  points : w.points = upserted w₀.points (newChunks job repoId added)
  committed : w.committed = indexedTables job repoId target scanned chunkCount
    (replacedFiles ix job repoId filePaths added w₀.committed) (replacedChunks job repoId filePaths added w₀.committed)
    w₀.committed

theorem retire_yields {filePaths : Option (List String)} {added scanned : List (ScannedCodeFile Raw)} {chunkCount : ℕ}
    {ids : List String} :
    Yields (Stored ix job repoId target filePaths added scanned chunkCount w₀ ids) (retire job ids)
      fun _ => Built ix job repoId target filePaths added scanned chunkCount w₀ := by
  refine .bind (.read (Q := fun _ => Stored ix job repoId target filePaths added scanned chunkCount w₀ ids)
    fun w h => h) fun backup => .seq (I := Stored ix job repoId target filePaths added scanned chunkCount w₀ ids) ?_
      (.modify fun w h => ⟨h.committed, ?_⟩)
  · cases backup with
    | none => exact .pure fun w h => h
    | some backup =>
      rw [removePathBestEffort]
      split
      · exact .modify fun w h => ⟨h.ids, h.points, h.committed⟩
      · exact .pure fun w h => h
  · funext id
    show (if id ∈ ids then none else w.points id) = _
    rw [h.points, h.ids]
    rfl

/-- What the bodies of the two indexes have in common around them. -/
theorem indexWith_yields (body : String → Indexing Raw (List String)) {R : List String → World Raw → Prop}
    {B : World Raw → Prop} {row : Repository} (hrow : w₀.committed.repositories repoId = some row)
    (hbody : Yields (View repoId w₀.committed w₀.committed.files w₀.committed.chunks w₀.points)
      (body (stagingPath ix repoId)) R)
    (hretire : ∀ ids, Yields (R ids) (retire job ids) fun _ => B) :
    Yields (· = w₀.enter)
      (do
        let staging ← prepareStagingWorkspace ix job repoId
        updateRepository job repoId "cloning" (some none)
        let oldPointIds ← Effect.onError (body staging) (undo staging target)
        retire job oldPointIds)
      fun _ => B := by
  refine .bind (Q := fun staging w => staging = stagingPath ix repoId ∧
    (w.tables = w₀.committed ∧ w.points = w₀.points)) ?_ fun staging => .assuming ?_
  · refine .seq (check_yields _) (.seq (I := fun w => w.tables = w₀.committed ∧ w.points = w₀.points)
      (.modify ?_) (.pure fun w h => ⟨rfl, h⟩))
    rintro w rfl
    exact ⟨rfl, rfl⟩
  rintro rfl
  refine .seq (I := View repoId w₀.committed w₀.committed.files w₀.committed.chunks w₀.points) ?_
    (.bind (.onError (F := fun _ _ => True) hbody fun _ => .top) hretire)
  refine .seq (I := View repoId w₀.committed w₀.committed.files w₀.committed.chunks w₀.points) (.modify fun w h => ?_)
    (.seq (check_yields _) (.modify fun w h => h.of_eq rfl rfl))
  refine View.start hrow (f := fun row => { row with status := "cloning", errorMessage := none, updatedAt := job.now })
    rfl ?_ h.2
  show w.tables.setRepository repoId _ = _
  rw [h.1]
  rfl

theorem fullBody_yields :
    Yields (View repoId w₀.committed w₀.committed.files w₀.committed.chunks w₀.points)
      (fullBody ix job repoId staging target)
      fun ids w => ∃ scanned, scanSourceFiles ix job.checkout = .ok scanned ∧
        Stored ix job repoId target none scanned scanned (scannedChunkCount scanned) w₀ ids w := by
  refine .seq (fillDirectory_yields _ staging job.checkout) (.bind readCommitHash_yields fun commitHash => .assuming ?_)
  rintro rfl
  refine .seq (updateRepository_yields job _ fun directories => directories staging = some job.checkout)
    (.bind scanDirectory_yields fun scanned => .assuming fun hscan => ?_)
  refine .seq ((updateRepository_yields job _ fun _ => True).weaken (fun w h => ⟨trivial, h⟩) (fun _ w h => h.2)
    fun _ _ h => h) (.seq (check_yields _) ?_)
  refine storeIndex_yields none scanned (.seq (commitIndex_yields scanned _) (.pure fun w h => ?_))
  exact ⟨scanned, hscan, rfl, h.1, h.2⟩

theorem indexFull_built {row : Repository} (hrow : w₀.committed.repositories repoId = some row) :
    Yields (· = w₀.enter) (indexFull ix job repoId) fun _ w =>
      ∃ scanned, scanSourceFiles ix job.checkout = .ok scanned ∧
        Built ix job repoId (workspacePath ix repoId) none scanned scanned
          (scannedChunkCount scanned) w₀ w := by
  refine indexWith_yields (fun staging => fullBody ix job repoId staging (workspacePath ix repoId)) hrow
    fullBody_yields fun ids => .ex fun scanned => .assuming fun hscan => ?_
  exact retire_yields.weaken (fun _ h => h) (fun _ _ h => ⟨scanned, hscan, h⟩) fun _ _ h => h

/-- The path and hash of each file row. -/
def Tables.hashes (t : Tables) (repoId : String) : List (String × String) :=
  (t.filesOf repoId).map fun file => (file.filePath, file.contentHash)

/-- The paths under which the rows are replaced. -/
def replacedPaths (existing : List (String × String)) (scanned : List (ScannedCodeFile Raw)) : List String :=
  deletedPaths existing scanned ++ (changedFiles existing scanned).map (·.relativePath)

/-- What an incremental index has done, of the files that were scanned. -/
abbrev BuiltOn (ix : Indexer Raw) (job : IndexJob Raw) (repoId target : String) (scanned : List (ScannedCodeFile Raw))
    (w₀ w : World Raw) : Prop :=
  Built ix job repoId target (some (replacedPaths (w₀.committed.hashes repoId) scanned))
    (changedFiles (w₀.committed.hashes repoId) scanned) scanned
    ((replacedTables ix job repoId (some (replacedPaths (w₀.committed.hashes repoId) scanned))
      (changedFiles (w₀.committed.hashes repoId) scanned) w₀.committed).chunksOf repoId).length w₀ w

theorem incrementalBody_yields :
    Yields (View repoId w₀.committed w₀.committed.files w₀.committed.chunks w₀.points)
      (incrementalBody ix job repoId staging target)
      fun ids w => ∃ scanned, scanSourceFiles ix job.checkout = .ok scanned ∧
        Stored ix job repoId target (some (replacedPaths (w₀.committed.hashes repoId) scanned))
          (changedFiles (w₀.committed.hashes repoId) scanned) scanned
          ((replacedTables ix job repoId (some (replacedPaths (w₀.committed.hashes repoId) scanned))
            (changedFiles (w₀.committed.hashes repoId) scanned) w₀.committed).chunksOf repoId).length w₀ ids w := by
  refine .seq (I := View repoId w₀.committed w₀.committed.files w₀.committed.chunks w₀.points) ?_ ?_
  · refine .bind (.read (Q := fun _ => View repoId w₀.committed w₀.committed.files w₀.committed.chunks w₀.points)
      fun w h => h) fun contents => ?_
    cases contents with
    | none => exact check_yields _
    | some checkout => exact (fillDirectory_yields _ _ _).weaken (fun _ h => h) (fun _ _ h => h.2) fun _ _ h => h
  refine .seq (fillDirectory_yields _ staging job.checkout) (.bind readCommitHash_yields fun commitHash => .assuming ?_)
  rintro rfl
  refine .seq (updateRepository_yields job _ fun directories => directories staging = some job.checkout)
    (.seq (check_yields _) (.bind scanDirectory_yields fun scanned => .assuming fun hscan => ?_))
  refine .bind (Q := fun existing w => existing = w₀.committed.hashes repoId ∧
    View repoId w₀.committed w₀.committed.files w₀.committed.chunks w₀.points w)
    (.seq (check_yields _) (.read fun w h => ⟨?_, h⟩)) fun existing => .assuming ?_
  · show (w.tables.files.filter _).map _ = _
    rw [h.files]
    rfl
  rintro rfl
  refine .seq ((updateRepository_yields job _ fun _ => True).weaken (fun w h => ⟨trivial, h⟩) (fun _ w h => h.2)
    fun _ _ h => h) ?_
  refine storeIndex_yields (some (replacedPaths (w₀.committed.hashes repoId) scanned)) _
    (.bind (Q := fun count w => count = ((replacedChunks job repoId
      (some (replacedPaths (w₀.committed.hashes repoId) scanned)) (changedFiles (w₀.committed.hashes repoId) scanned)
      w₀.committed).filter (·.repoId = repoId)).length ∧ View repoId w₀.committed _ _ _ w)
      (.seq (check_yields _) (.read fun w h => ⟨?_, h⟩)) fun count => .assuming ?_)
  · show (w.tables.chunks.filter _).length = _
    rw [h.chunks]
  rintro rfl
  exact .seq (commitIndex_yields scanned _) (.pure fun w h => ⟨scanned, hscan, rfl, h.1, h.2⟩)

theorem indexIncremental_built {row : Repository} (hrow : w₀.committed.repositories repoId = some row) :
    Yields (· = w₀.enter) (indexIncremental ix job repoId target) fun _ w =>
      ∃ scanned, scanSourceFiles ix job.checkout = .ok scanned ∧ BuiltOn ix job repoId target scanned w₀ w := by
  refine indexWith_yields (fun staging => incrementalBody ix job repoId staging target) hrow incrementalBody_yields
    fun ids => .ex fun scanned => .assuming fun hscan => ?_
  exact retire_yields.weaken (fun _ h => h) (fun _ _ h => ⟨scanned, hscan, h⟩) fun _ _ h => h

end CodeMate.Indexing
