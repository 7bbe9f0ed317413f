import CodeMate.Indexing.Index

/-!
# A failed index is undone

What a call of the index has done when it raises is always something the
exception handlers can undo. `Stage` says what has been changed: points under
the ids that are remembered, the staging directory, and, once it is swapped, the
checkout, whose old contents are in the backup. Each step moves from one stage
to the next or raises in a stage that is remembered (`Recoverable`), and `undo`
leads from there back to the index as it was (`Restored`, `undo_spec`).
`failed_restored` is the result for a whole call.
-/

namespace CodeMate.Indexing

open Framework Effect

variable {Raw : Type} {ix : Indexer Raw} {job : IndexJob Raw}

/-- The row but for its status, its error message and its time of update. -/
def Repository.index (r : Repository) : Repository := { r with status := "", errorMessage := none, updatedAt := "" }

/-- The tables differ in the status, error message and time of update of one repository. -/
structure SameIndex (repoId : String) (t₀ t : Tables) : Prop where
  files : t.files = t₀.files
  chunks : t.chunks = t₀.chunks
  repository : (t.repositories repoId).map Repository.index = (t₀.repositories repoId).map Repository.index
  others : ∀ id, id ≠ repoId → t.repositories id = t₀.repositories id

theorem SameIndex.refl (repoId : String) (t : Tables) : SameIndex repoId t t := ⟨rfl, rfl, rfl, fun _ _ => rfl⟩

theorem SameIndex.setRepository {repoId : String} {t₀ t : Tables} {f : Repository → Repository}
    (h : SameIndex repoId t₀ t) (hf : ∀ r, (f r).index = r.index) : SameIndex repoId t₀ (t.setRepository repoId f) := by
  refine ⟨h.files, h.chunks, ?_, fun id hid => ?_⟩
  · have hindex : Repository.index ∘ f = Repository.index := funext hf
    rw [← h.repository, Tables.setRepository_self, Option.map_map, hindex]
  · rw [← h.others id hid, Tables.setRepository_ne t hid]

/-! ## Stages of a call -/

section Stages

variable (repoId target staging : String) (w₀ : World Raw)

/-- What a call on `repoId` has changed since `w₀`: points under the ids, the staging directory, and
the checkout if it was swapped. -/
structure Stage (ids : List String) (w : World Raw) : Prop where
  committed : SameIndex repoId w₀.committed w.committed
  points : ∀ id, id ∉ ids → w.points id = w₀.points id
  fresh : ∀ id ∈ ids, w₀.points id = none
  elsewhere : ∀ path, path ≠ target → path ≠ staging → path ≠ backupPath target →
    w.directories path = w₀.directories path
  kept : w.workspaceReplaced = false → w.directories target = w₀.directories target
  swapped : w.workspaceReplaced = true →
    (w.backupWorkspace = none ∧ w₀.directories target = none) ∨
    (w.backupWorkspace = some (backupPath target) ∧ (w₀.directories target).isSome ∧
      w.directories (backupPath target) = w₀.directories target)

/-- What has been changed is remembered for the handler. -/
def Recoverable (w : World Raw) : Prop := Stage repoId target staging w₀ w.newPointIds w

/-- The points under the ids are written, and nothing is remembered yet. -/
structure Writing (ids : List String) (w : World Raw) : Prop extends Stage repoId target staging w₀ ids w where
  noIds : w.newPointIds = []
  notReplaced : w.workspaceReplaced = false

/-- Nothing but the staging directory and the session has changed. -/
abbrev Early (w : World Raw) : Prop := Writing repoId target staging w₀ [] w

/-- The session has not changed the index either. -/
structure Quiet (w : World Raw) : Prop extends Writing repoId target staging w₀ [] w where
  tables : SameIndex repoId w₀.committed w.tables

/-- The points are written and remembered. -/
structure Embedded (w : World Raw) : Prop where
  recoverable : Recoverable repoId target staging w₀ w
  notReplaced : w.workspaceReplaced = false

/-- The index is as it was. -/
structure Restored (w : World Raw) : Prop where
  committed : SameIndex repoId w₀.committed w.committed
  points : w.points = w₀.points
  directories : ∀ path, path ≠ staging → path ≠ backupPath target → w.directories path = w₀.directories path

end Stages

variable {repoId target staging : String} {w₀ w : World Raw} {ids : List String} {α : Type}

theorem Writing.recoverable (h : Early repoId target staging w₀ w) : Recoverable repoId target staging w₀ w := by
  rw [Recoverable, h.noIds]
  exact h.toStage

theorem Writing.restored (h : Early repoId target staging w₀ w) : Restored repoId target staging w₀ w := by
  refine ⟨h.committed, funext fun id => h.points id List.not_mem_nil, fun path hstaging hbackup => ?_⟩
  by_cases htarget : path = target
  · rw [htarget]
    exact h.kept h.notReplaced
  · exact h.elsewhere path htarget hstaging hbackup

/-- A change of the session alone keeps the stage. -/
theorem Writing.of_tables (h : Writing repoId target staging w₀ ids w) (t : Tables) :
    Writing repoId target staging w₀ ids { w with tables := t } :=
  ⟨⟨h.committed, h.points, h.fresh, h.elsewhere, h.kept, h.swapped⟩, h.noIds, h.notReplaced⟩

/-- Only the directories change, and not that of the checkout. -/
theorem Writing.of_directories (h : Writing repoId target staging w₀ ids w) {directories : String → Option (Checkout Raw)}
    (htarget : directories target = w.directories target)
    (helse : ∀ path, path ≠ target → path ≠ staging → path ≠ backupPath target → directories path = w.directories path) :
    Writing repoId target staging w₀ ids { w with directories := directories } :=
  ⟨⟨h.committed, h.points, h.fresh, fun path h₁ h₂ h₃ => (helse path h₁ h₂ h₃).trans (h.elsewhere path h₁ h₂ h₃),
    fun hnot => htarget.trans (h.kept hnot), fun hyes => absurd hyes (by simp [h.notReplaced])⟩, h.noIds, h.notReplaced⟩

theorem Quiet.of_directories (h : Quiet repoId target staging w₀ w) {directories : String → Option (Checkout Raw)}
    (htarget : directories target = w.directories target)
    (helse : ∀ path, path ≠ target → path ≠ staging → path ≠ backupPath target → directories path = w.directories path) :
    Quiet repoId target staging w₀ { w with directories := directories } :=
  ⟨h.toWriting.of_directories htarget helse, h.tables⟩

/-! ## The steps before the rows are replaced -/

/-- A step of the quiet part: it stays quiet, or raises with nothing but the staging directory changed. -/
abbrev QuietStep (repoId target staging : String) (w₀ : World Raw) (x : Indexing Raw α) : Prop :=
  Spec (Quiet repoId target staging w₀) x (fun _ => Quiet repoId target staging w₀) fun _ => Early repoId target staging w₀

theorem QuietStep.of_keeps {x : Indexing Raw α} (h : Keeps (Quiet repoId target staging w₀) x) :
    QuietStep repoId target staging w₀ x :=
  h.weaken (fun _ hs => hs) (fun _ _ hq => hq) fun _ _ he => he.toWriting

/-- What it raises with can be undone. -/
theorem QuietStep.loud {x : Indexing Raw α} (h : QuietStep repoId target staging w₀ x) :
    Spec (Quiet repoId target staging w₀) x (fun _ => Quiet repoId target staging w₀)
      fun _ => Recoverable repoId target staging w₀ :=
  h.weaken (fun _ h => h) (fun _ _ h => h) fun _ _ h => h.recoverable

theorem keeps_read {I : World Raw → Prop} (f : World Raw → α) : Keeps I (read f : Indexing Raw α) :=
  .read fun _ hs => hs

theorem keeps_check_read {I : World Raw → Prop} (failure : Option Failure) (f : World Raw → α) :
    Keeps I (do check failure; read f : Indexing Raw α) :=
  .seq (.check failure) (keeps_read f)

theorem setDirectory_staging (htarget : staging ≠ target) (contents : Option (Checkout Raw)) :
    QuietStep repoId target staging w₀ (setDirectory staging contents) := by
  refine .modify fun w h => ?_
  refine h.of_directories (Function.update_of_ne htarget.symm _ _) fun path _ hpath _ => ?_
  exact Function.update_of_ne hpath _ _

theorem fillDirectory_quiet (htarget : staging ≠ target) (step : IndexStep) (contents : Checkout Raw) :
    QuietStep repoId target staging w₀ (fillDirectory job step staging contents) :=
  .seq (setDirectory_staging htarget _) (.seq (QuietStep.of_keeps (.check _)) (setDirectory_staging htarget _))

theorem copyTree_quiet (htarget : staging ≠ target) : QuietStep repoId target staging w₀ (copyTree job target staging) := by
  refine .bind (QuietStep.of_keeps (keeps_read _)) fun contents => ?_
  cases contents with
  | none => exact QuietStep.of_keeps (.check _)
  | some checkout => exact fillDirectory_quiet htarget _ checkout

theorem updateRepository_quiet (job : IndexJob Raw) (status : String) (errorMessage : Option (Option String)) :
    QuietStep repoId target staging w₀ (updateRepository job repoId status errorMessage) := by
  refine .seq (.modify (Q := fun _ => Quiet repoId target staging w₀) fun w h => ?_)
    (.seq (QuietStep.of_keeps (.check _)) (.modify fun w h => ?_))
  · exact ⟨h.toWriting.of_tables _, h.tables.setRepository fun r => rfl⟩
  · exact ⟨⟨⟨h.tables, h.points, h.fresh, h.elsewhere, h.kept, h.swapped⟩, h.noIds, h.notReplaced⟩, h.tables⟩

theorem scanDirectory_keeps {I : World Raw → Prop} : Keeps I (scanDirectory ix job staging) := by
  refine .seq (.check _) (.bind (keeps_read _) fun contents => ?_)
  cases contents with
  | none => exact .pure fun _ h => h
  | some checkout => exact .ofExcept (fun _ _ _ h => h) fun _ _ h => h

theorem readCommitHash_keeps {I : World Raw → Prop} : Keeps I (readCommitHash job : Indexing Raw _) :=
  .seq (.check _) (.pure fun _ h => h)

/-! ## The rows and their points -/

theorem change_early (f : Tables → Tables) : Keeps (Early repoId target staging w₀) (change f : Indexing Raw Unit) :=
  .modify fun _ h => h.of_tables _

theorem deleteIndexedFilesFromDb_early (filePaths : Option (List String)) :
    Keeps (Early repoId target staging w₀) (deleteIndexedFilesFromDb job repoId filePaths : Indexing Raw Unit) :=
  .seq (.check _) (change_early _)

theorem deleteIndexedFilesFromDb_quiet (filePaths : Option (List String)) :
    Spec (Quiet repoId target staging w₀) (deleteIndexedFilesFromDb job repoId filePaths : Indexing Raw Unit)
      (fun _ => Early repoId target staging w₀) fun _ => Recoverable repoId target staging w₀ :=
  (deleteIndexedFilesFromDb_early filePaths).weaken (fun _ h => h.toWriting) (fun _ _ h => h)
    fun _ _ h => h.recoverable

/-- The ids that the job makes up for chunks. -/
def MadeUp (job : IndexJob Raw) (ids : List String) : Prop := ∀ id ∈ ids, ∃ i j, id = job.chunkId i j

theorem newChunks_madeUp (scannedFiles : List (ScannedCodeFile Raw)) :
    MadeUp job ((newChunks job repoId scannedFiles).map (·.id)) := by
  intro id hid
  obtain ⟨chunk, hchunk, rfl⟩ := List.mem_map.mp hid
  obtain ⟨scanned, -, hchunk⟩ := List.mem_flatMap.mp hchunk
  obtain ⟨contents, -, rfl⟩ := List.mem_map.mp hchunk
  exact ⟨_, _, rfl⟩

theorem persistScannedFiles_early (scannedFiles : List (ScannedCodeFile Raw)) :
    Spec (Early repoId target staging w₀) (persistScannedFiles ix job repoId scannedFiles)
      (fun chunks w => MadeUp job (chunks.map (·.id)) ∧ Early repoId target staging w₀ w)
      fun _ => Early repoId target staging w₀ := by
  refine .seq (.check _) (.bind (keeps_read _) fun existing => .seq (.check _) (.seq (change_early _) ?_))
  exact .pure fun w h => ⟨newChunks_madeUp scannedFiles, h⟩

/-- More points are written, under more ids. -/
theorem Writing.of_points {ids' : List String} {points : String → Option ChunkPoint}
    (h : Writing repoId target staging w₀ ids w) (hfresh : ∀ id ∈ ids', w₀.points id = none)
    (hpoints : ∀ id, id ∉ ids' → points id = w₀.points id) :
    Writing repoId target staging w₀ ids' { w with points := points } :=
  ⟨⟨h.committed, hpoints, hfresh, h.elsewhere, h.kept, h.swapped⟩, h.noIds, h.notReplaced⟩

theorem Writing.mono {ids' : List String} (h : Writing repoId target staging w₀ ids w) (hsub : ∀ id ∈ ids, id ∈ ids')
    (hfresh : ∀ id ∈ ids', w₀.points id = none) : Writing repoId target staging w₀ ids' w :=
  h.of_points hfresh fun id hid => h.points id fun hmem => hid (hsub id hmem)

/-- Deleting what was written leaves what was there. -/
theorem Writing.delete (h : Writing repoId target staging w₀ ids w) :
    Early repoId target staging w₀ { w with points := fun id => if id ∈ ids then none else w.points id } := by
  refine h.of_points (fun _ hid => nomatch hid) fun id _ => ?_
  by_cases hid : id ∈ ids
  · rw [if_pos hid, h.fresh id hid]
  · rw [if_neg hid, h.points id hid]

/-- A batch is written, or what it and the batches before it have written is deleted. -/
theorem upsertBatch_spec (i : ℕ) (done : List String) (batch : List CodeChunk)
    (hfresh : ∀ id ∈ done ++ batch.map (·.id), w₀.points id = none) :
    Spec (Writing repoId target staging w₀ done) (upsertBatch job i done batch)
      (fun _ => Writing repoId target staging w₀ (done ++ batch.map (·.id)))
      fun _ => Early repoId target staging w₀ := by
  have hstore (chunks : List CodeChunk) (hsub : ∀ id ∈ chunks.map (·.id), id ∈ done ++ batch.map (·.id)) :
      Keeps (Writing repoId target staging w₀ (done ++ batch.map (·.id)))
        (Effect.modify fun w => { w with points := upserted w.points chunks } : Indexing Raw Unit) := by
    refine .modify fun w h => h.of_points hfresh fun id hid => ?_
    rw [upserted_of_notMem fun hmem => hid (hsub id hmem)]
    exact h.points id hid
  have hbatch : ∀ id ∈ batch.map (·.id), id ∈ done ++ batch.map (·.id) := fun id hid => List.mem_append_right _ hid
  have hpart : ∀ id ∈ (batch.filter fun chunk => job.storedAnyway chunk.id).map (·.id),
      id ∈ done ++ batch.map (·.id) := fun id hid => by
    obtain ⟨chunk, hchunk, rfl⟩ := List.mem_map.mp hid
    exact List.mem_append_right _ (List.mem_map.mpr ⟨chunk, (List.mem_filter.mp hchunk).1, rfl⟩)
  refine .onError (F := fun _ => Writing repoId target staging w₀ (done ++ batch.map (·.id))) ?_ fun _ => ?_
  · refine Spec.of (.seq (hstore _ hpart) (.seq (.check _) (hstore _ hbatch))) fun w h => ?_
    exact h.mono (fun id hid => List.mem_append_left _ hid) hfresh
  · exact .modify fun w h => h.delete

/-- By induction on the batches that are left. -/
theorem upsertBatches_spec (chunks : List CodeChunk) (hfresh : ∀ id ∈ chunks.map (·.id), w₀.points id = none)
    (n i : ℕ) :
    Spec (Writing repoId target staging w₀ ((chunks.take (64 * i)).map (·.id))) (upsertBatches job chunks n i)
      (fun _ => Writing repoId target staging w₀ ((chunks.take (64 * (i + n))).map (·.id)))
      fun _ => Early repoId target staging w₀ := by
  induction n generalizing i with
  | zero => exact .pure fun w h => h
  | succ n ih =>
    have hbatch : (chunks.take (64 * i)).map (·.id) ++ ((chunks.drop (64 * i)).take 64).map (·.id) =
        (chunks.take (64 * (i + 1))).map (·.id) := by
      rw [← List.map_append, Nat.mul_succ, List.take_add]
    have hsub : ∀ id ∈ (chunks.take (64 * (i + 1))).map (·.id), w₀.points id = none := fun id hid =>
      hfresh id (((List.take_sublist _ _).map _).subset hid)
    rw [show i + (n + 1) = i + 1 + n by omega]
    refine .seq ?_ (ih (i + 1))
    rw [← hbatch]
    exact upsertBatch_spec i _ _ (hbatch ▸ hsub)

theorem writeEmbeddings_spec (chunks : List CodeChunk) (hfresh : ∀ id ∈ chunks.map (·.id), w₀.points id = none) :
    Spec (Early repoId target staging w₀) (writeEmbeddings job chunks)
      (fun ids w => ids = chunks.map (·.id) ∧ Writing repoId target staging w₀ (chunks.map (·.id)) w)
      fun _ => Early repoId target staging w₀ := by
  rw [writeEmbeddings]
  split
  next hnil =>
    subst hnil
    exact .pure fun w h => ⟨rfl, h⟩
  next =>
    have hlen : chunks.take (64 * (0 + (chunks.length + 63) / 64)) = chunks := List.take_of_length_le (by omega)
    refine .seq (.check _) (.seq (change_early _) (.seq (.check _) (.bind (upsertBatches_spec chunks hfresh _ 0)
      fun _ => .pure fun w h => ⟨rfl, ?_⟩)))
    rwa [hlen] at h

/-- The points are written, and their ids are remembered. -/
theorem embedChunks_spec (job : IndexJob Raw) (chunks : List CodeChunk) (hfresh : ∀ id ∈ chunks.map (·.id), w₀.points id = none) :
    Spec (Early repoId target staging w₀) (embedChunks job chunks) (fun _ => Embedded repoId target staging w₀)
      fun _ => Early repoId target staging w₀ := by
  refine .bind (writeEmbeddings_spec chunks hfresh) fun ids => .modify ?_
  rintro w ⟨rfl, h⟩
  exact ⟨⟨h.committed, h.points, h.fresh, h.elsewhere, h.kept, h.swapped⟩, h.notReplaced⟩

/-! ## The swap of the checkout -/

/-- The checkout is out of the way: its contents, if it had any, are in the backup. -/
structure Aside (repoId target staging : String) (w₀ w : World Raw) : Prop where
  committed : SameIndex repoId w₀.committed w.committed
  points : ∀ id, id ∉ w.newPointIds → w.points id = w₀.points id
  fresh : ∀ id ∈ w.newPointIds, w₀.points id = none
  elsewhere : ∀ path, path ≠ target → path ≠ staging → path ≠ backupPath target →
    w.directories path = w₀.directories path
  notReplaced : w.workspaceReplaced = false
  backup : w.directories (backupPath target) = w₀.directories target

/-- It has left nothing in its place. -/
structure Vacant (repoId target staging : String) (w₀ w : World Raw) : Prop extends Aside repoId target staging w₀ w where
  vacant : w.directories target = none

theorem Embedded.of_directories (h : Embedded repoId target staging w₀ w) {directories : String → Option (Checkout Raw)}
    (htarget : directories target = w.directories target)
    (helse : ∀ path, path ≠ target → path ≠ staging → path ≠ backupPath target → directories path = w.directories path) :
    Embedded repoId target staging w₀ { w with directories := directories } :=
  ⟨⟨h.recoverable.committed, h.recoverable.points, h.recoverable.fresh,
    fun path h₁ h₂ h₃ => (helse path h₁ h₂ h₃).trans (h.recoverable.elsewhere path h₁ h₂ h₃),
    fun hnot => htarget.trans (h.recoverable.kept hnot), fun hyes => absurd hyes (by simp [h.notReplaced])⟩,
    h.notReplaced⟩

section Swap

variable (hstaging : staging ≠ target) (hbackup : backupPath target ≠ target) (hother : staging ≠ backupPath target)
include hstaging hbackup hother

/-- The checkout moves to the backup, which was removed before. -/
theorem Embedded.vacate (h : Embedded repoId target staging w₀ w) :
    Vacant repoId target staging w₀ { w with
      directories := renamed w.directories target (backupPath target) } := by
  refine ⟨⟨h.recoverable.committed, h.recoverable.points, h.recoverable.fresh, fun path h₁ h₂ h₃ => ?_, h.notReplaced,
    ?_⟩, renamed_self ..⟩
  · exact (renamed_ne h₁ h₃).trans (h.recoverable.elsewhere path h₁ h₂ h₃)
  · exact (renamed_new hbackup).trans (h.recoverable.kept h.notReplaced)

/-- The staging directory takes the place of the checkout. -/
theorem Vacant.swap (h : Vacant repoId target staging w₀ w) :
    Aside repoId target staging w₀ { w with
      directories := renamed w.directories staging target } := by
  refine ⟨h.committed, h.points, h.fresh, fun path h₁ h₂ h₃ => ?_, h.notReplaced, ?_⟩
  · exact (renamed_ne h₂ h₁).trans (h.elsewhere path h₁ h₂ h₃)
  · exact (renamed_ne hother.symm hbackup).trans h.backup

/-- The backup moves back, if there is one. -/
theorem Vacant.moveBack (h : Vacant repoId target staging w₀ w) :
    (w.directories (backupPath target) = none → Embedded repoId target staging w₀ w) ∧
    Embedded repoId target staging w₀ { w with
      directories := renamed w.directories (backupPath target) target } := by
  refine ⟨fun hnone => ?_, ⟨?_, h.notReplaced⟩⟩
  · refine ⟨⟨h.committed, h.points, h.fresh, h.elsewhere, fun _ => ?_, fun hyes => ?_⟩, h.notReplaced⟩
    · rw [h.vacant, ← h.backup, hnone]
    · exact absurd hyes (by simp [h.notReplaced])
  · refine ⟨h.committed, h.points, h.fresh, fun path h₁ h₂ h₃ => ?_, fun _ => ?_, fun hyes => ?_⟩
    · exact (renamed_ne h₃ h₁).trans (h.elsewhere path h₁ h₂ h₃)
    · exact (renamed_new hbackup.symm).trans h.backup
    · exact absurd hyes (by simp [h.notReplaced])

/-- The second rename, which moves the backup back where it fails. -/
theorem renameStaging_spec (job : IndexJob Raw) :
    Spec (Vacant repoId target staging w₀)
      (Effect.onError (do
          Effect.check (job.raises .renameStaging)
          renameDirectory staging target)
        (do
          let kept ← Effect.read fun w => (w.directories (backupPath target)).isSome
          if kept then renameDirectory (backupPath target) target) : Indexing Raw Unit)
      (fun _ => Aside repoId target staging w₀) fun _ => Embedded repoId target staging w₀ := by
  refine .onError (F := fun _ => Vacant repoId target staging w₀) (.seq (.check _) (.modify fun w h => ?_)) fun _ => ?_
  · exact h.swap hstaging hbackup hother
  · refine .bind (.read (Q := fun kept w => kept = (w.directories (backupPath target)).isSome ∧
      Vacant repoId target staging w₀ w) fun w h => ⟨rfl, h⟩) fun kept => ?_
    cases kept with
    | false =>
      refine .pure ?_
      rintro w ⟨hnone, h⟩
      exact (h.moveBack hstaging hbackup hother).1 (by simpa using hnone.symm)
    | true =>
      refine .modify ?_
      rintro w ⟨-, h⟩
      exact (h.moveBack hstaging hbackup hother).2

theorem replaceWorkspace_spec :
    Spec (Embedded repoId target staging w₀) (replaceWorkspace job staging target)
      (fun backup w => backup = (if (w.directories (backupPath target)).isSome then some (backupPath target) else none) ∧
        Aside repoId target staging w₀ w)
      fun _ => Embedded repoId target staging w₀ := by
  refine .seq (.check _) (.seq (I := fun w => w.directories (backupPath target) = none ∧
    Embedded repoId target staging w₀ w) (.modify fun w h => ?_) ?_)
  · refine ⟨Function.update_self .., h.of_directories ?_ fun path _ _ hpath => ?_⟩
    · exact Function.update_of_ne hbackup.symm ..
    · exact Function.update_of_ne hpath ..
  refine .seq ((Spec.check _).weaken (fun _ h => h) (fun _ _ h => h) fun _ _ h => h.2) ?_
  refine .bind (.read (Q := fun present w => present = (w.directories target).isSome ∧
    w.directories (backupPath target) = none ∧ Embedded repoId target staging w₀ w) fun w h => ⟨rfl, h⟩) fun present => ?_
  have hrest : Spec (Vacant repoId target staging w₀) (_ : Indexing Raw (Option String)) _ _ :=
    .seq (renameStaging_spec hstaging hbackup hother job)
      (.read (g := fun w => if (w.directories (backupPath target)).isSome then some (backupPath target) else none)
        (Q := fun backup w =>
          backup = (if (w.directories (backupPath target)).isSome then some (backupPath target) else none) ∧
            Aside repoId target staging w₀ w) fun w h => ⟨rfl, h⟩)
  cases present with
  | false =>
    refine Spec.of hrest ?_
    rintro w ⟨hnone, hback, h⟩
    have hvacant : w.directories target = none := by simpa using hnone.symm
    refine ⟨⟨h.recoverable.committed, h.recoverable.points, h.recoverable.fresh, h.recoverable.elsewhere,
      h.notReplaced, ?_⟩, hvacant⟩
    rw [hback, ← h.recoverable.kept h.notReplaced, hvacant]
  | true =>
    refine .seq ((Spec.check _).weaken (fun _ h => h.2.2) (fun _ _ h => h) fun _ _ h => h) (.seq (.modify fun w h => ?_) hrest)
    exact h.vacate hstaging hbackup hother

theorem swapWorkspace_spec (job : IndexJob Raw) :
    Spec (Embedded repoId target staging w₀) (swapWorkspace job staging target)
      (fun _ => Recoverable repoId target staging w₀) fun _ => Recoverable repoId target staging w₀ := by
  refine .bind ((replaceWorkspace_spec hstaging hbackup hother).weaken (fun _ h => h) (fun _ _ h => h)
    fun _ _ h => h.recoverable) fun backup => .modify ?_
  rintro w ⟨rfl, h⟩
  refine ⟨h.committed, h.points, h.fresh, h.elsewhere, nofun, fun _ => ?_⟩
  by_cases hpresent : (w₀.directories target).isSome
  · exact .inr ⟨if_pos (h.backup ▸ hpresent), hpresent, h.backup⟩
  · exact .inl ⟨if_neg (h.backup ▸ hpresent), by simpa using hpresent⟩

end Swap

/-! ## The exception handler -/

theorem change_recoverable (f : Tables → Tables) :
    Keeps (Recoverable repoId target staging w₀) (change f : Indexing Raw Unit) :=
  .modify fun _ h => ⟨h.committed, h.points, h.fresh, h.elsewhere, h.kept, h.swapped⟩

/-- The commit is the last thing that can raise. -/
theorem commitIndex_spec (scanned : List (ScannedCodeFile Raw)) (commitHash : Option String) (chunkCount : ℕ) :
    Spec (Recoverable repoId target staging w₀) (commitIndex job repoId target scanned commitHash chunkCount)
      (fun _ _ => True) fun _ => Recoverable repoId target staging w₀ :=
  .seq (change_recoverable _) (.seq (.check _) (.modify fun _ _ => trivial))

/-- What was written under the remembered ids is gone. -/
theorem Recoverable.points_eq (h : Recoverable repoId target staging w₀ w) :
    (fun id => if id ∈ w.newPointIds then none else w.points id) = w₀.points := by
  funext id
  by_cases hid : id ∈ w.newPointIds
  · rw [if_pos hid, h.fresh id hid]
  · rw [if_neg hid, h.points id hid]

/-- The handler leads back to the index as it was, by whether the checkout was swapped and had contents. -/
theorem undo_restores (hbackup : backupPath target ≠ target) (h : Recoverable repoId target staging w₀ w) :
    ∃ w', undo staging target w = (.ok (), w') ∧ Restored repoId target staging w₀ w' := by
  by_cases hreplaced : w.workspaceReplaced
  · rcases h.swapped hreplaced with ⟨hnone, htarget⟩ | ⟨hsome, hpresent, hback⟩
    · refine ⟨{ w with tables := w.committed, points := fun id => if id ∈ w.newPointIds then none else w.points id,
                       directories := Function.update w.directories target none }, ?_, h.committed, h.points_eq, ?_⟩
      · simp [undo, rollback, deleteVectorPoints, restoreWorkspace, setDirectory, Bind.bind, Effect.bind,
          Effect.modify, Effect.read, Pure.pure, Effect.pure, hreplaced, hnone]
      · intro path h₁ h₂
        by_cases hpath : path = target
        · rw [hpath, htarget]
          exact Function.update_self ..
        · exact (Function.update_of_ne hpath ..).trans (h.elsewhere path hpath h₁ h₂)
    · have hkept : (Function.update w.directories target none (backupPath target)).isSome = true := by
        rw [Function.update_of_ne hbackup, hback, hpresent]
      refine ⟨{ w with tables := w.committed, points := fun id => if id ∈ w.newPointIds then none else w.points id,
                       directories := renamed (Function.update w.directories target none) (backupPath target) target },
        ?_, h.committed, h.points_eq, ?_⟩
      · simp [undo, rollback, deleteVectorPoints, restoreWorkspace, setDirectory, renameDirectory, Bind.bind,
          Effect.bind, Effect.modify, Effect.read, hreplaced, hsome, hkept]
      · intro path h₁ h₂
        by_cases hpath : path = target
        · rw [hpath, ← hback]
          exact (renamed_new hbackup.symm).trans (Function.update_of_ne hbackup ..)
        · exact ((renamed_ne h₂ hpath).trans (Function.update_of_ne hpath ..)).trans (h.elsewhere path hpath h₁ h₂)
  · refine ⟨{ w with tables := w.committed, points := fun id => if id ∈ w.newPointIds then none else w.points id,
                     directories := Function.update w.directories staging none }, ?_, h.committed, h.points_eq, ?_⟩
    · simp [undo, rollback, deleteVectorPoints, setDirectory, Bind.bind, Effect.bind, Effect.modify, Effect.read,
        hreplaced]
    · intro path h₁ h₂
      refine (Function.update_of_ne h₁ ..).trans ?_
      by_cases hpath : path = target
      · rw [hpath]
        exact h.kept (by simpa using hreplaced)
      · exact h.elsewhere path hpath h₁ h₂

theorem undo_spec (hbackup : backupPath target ≠ target) :
    Spec (Recoverable repoId target staging w₀) (undo staging target : Indexing Raw Unit)
      (fun _ => Restored repoId target staging w₀) fun _ => Restored repoId target staging w₀ := by
  refine ⟨fun w h u w' hw' => ?_, fun w h e w' hw' => ?_⟩
  · obtain ⟨w'', hw'', hrestored⟩ := undo_restores hbackup h
    rw [hw''] at hw'
    obtain ⟨-, rfl⟩ := Prod.mk.inj hw'
    exact hrestored
  · obtain ⟨w'', hw'', -⟩ := undo_restores hbackup h
    rw [hw''] at hw'
    cases hw'

/-! ## Whole calls -/

/-- The old index is retired after the commit, and nothing raises any more. -/
theorem retire_spec (job : IndexJob Raw) {E : Failure → World Raw → Prop} (oldPointIds : List String) :
    Spec (fun _ => True) (retire job oldPointIds) (fun _ _ => True) E := by
  refine .bind (.read (Q := fun _ _ => True) fun _ _ => trivial) fun backup => .seq (I := fun _ => True) ?_
    (.modify fun _ _ => trivial)
  cases backup with
  | none => exact .pure fun _ _ => trivial
  | some backup =>
    rw [removePathBestEffort]
    split
    · exact .modify fun _ _ => trivial
    · exact .pure fun _ _ => trivial

section Calls

variable (hjob : ∀ i j, w₀.points (job.chunkId i j) = none) (hstaging : staging ≠ target)
  (hbackup : backupPath target ≠ target) (hother : staging ≠ backupPath target)
include hjob hstaging hbackup hother

/-- From the replaced rows on. -/
theorem storeIndex_spec {β : Type} (files : List (ScannedCodeFile Raw)) {rest : Indexing Raw β}
    (hrest : Spec (Recoverable repoId target staging w₀) rest (fun _ _ => True)
      fun _ => Recoverable repoId target staging w₀) :
    Spec (Early repoId target staging w₀)
      (do
        let chunks ← persistScannedFiles ix job repoId files
        embedChunks job chunks
        swapWorkspace job staging target
        rest)
      (fun _ _ => True) fun _ => Recoverable repoId target staging w₀ := by
  refine .bind ((persistScannedFiles_early files).weaken (fun _ h => h) (fun _ _ h => h)
    fun _ _ h => h.recoverable) fun chunks => ?_
  refine ⟨fun w h => ?_, fun w h => ?_⟩
  all_goals
    have hfresh : ∀ id ∈ chunks.map (·.id), w₀.points id = none := fun id hid => by
      obtain ⟨i, j, rfl⟩ := h.1 id hid
      exact hjob i j
    have hspec : Spec (Early repoId target staging w₀) _ (fun _ _ => True) fun _ => Recoverable repoId target staging w₀ :=
      .seq ((embedChunks_spec job chunks hfresh).weaken (fun _ h => h) (fun _ _ h => h)
        fun _ _ h => h.recoverable) (.seq (swapWorkspace_spec hstaging hbackup hother job) hrest)
  · exact hspec.returns w h.2
  · exact hspec.raises w h.2

theorem fullBody_spec :
    Spec (Quiet repoId target staging w₀) (fullBody ix job repoId staging target) (fun _ _ => True)
      fun _ => Recoverable repoId target staging w₀ := by
  refine .seq (fillDirectory_quiet hstaging _ _).loud (.bind (QuietStep.of_keeps readCommitHash_keeps).loud fun commitHash => ?_)
  refine .seq (updateRepository_quiet job _ _).loud (.bind (QuietStep.of_keeps scanDirectory_keeps).loud fun scanned => ?_)
  refine .seq (updateRepository_quiet job _ _).loud (.seq (QuietStep.of_keeps (.check _)).loud ?_)
  refine .bind (QuietStep.of_keeps (keeps_check_read _ _)).loud fun oldPointIds => ?_
  refine .seq (deleteIndexedFilesFromDb_quiet none) ?_
  exact storeIndex_spec hjob hstaging hbackup hother scanned
    (.seq (commitIndex_spec scanned commitHash _) (.pure fun _ _ => trivial))

theorem incrementalBody_spec :
    Spec (Quiet repoId target staging w₀) (incrementalBody ix job repoId staging target) (fun _ _ => True)
      fun _ => Recoverable repoId target staging w₀ := by
  refine .seq (copyTree_quiet hstaging).loud (.seq (fillDirectory_quiet hstaging _ _).loud ?_)
  refine .bind (QuietStep.of_keeps readCommitHash_keeps).loud fun commitHash => .seq (updateRepository_quiet job _ _).loud ?_
  refine .seq (QuietStep.of_keeps (.check _)).loud (.bind (QuietStep.of_keeps scanDirectory_keeps).loud fun scanned => ?_)
  refine .bind (QuietStep.of_keeps (keeps_check_read _ _)).loud fun existing => .seq (updateRepository_quiet job _ _).loud ?_
  refine .bind (QuietStep.of_keeps (keeps_check_read _ _)).loud fun oldPointIds => ?_
  refine .seq (deleteIndexedFilesFromDb_quiet _) ?_
  refine storeIndex_spec hjob hstaging hbackup hother _ (.bind (Q := fun _ => Recoverable repoId target staging w₀) ?_
    fun chunkCount => .seq (commitIndex_spec scanned commitHash chunkCount) (.pure fun _ _ => trivial))
  exact .seq (.check _) (keeps_read _)

end Calls

/-! ## Where the directories are -/

theorem stagingPath_eq (repoId : String) : stagingPath ix repoId = workspacePath ix repoId ++ ".staging" := by
  simp [stagingPath, workspacePath, String.append_assoc]

theorem append_ne_self {path suffix : String} (h : suffix ≠ "") : path ++ suffix ≠ path := by
  intro heq
  have := congrArg String.length heq
  rw [String.length_append] at this
  exact h (String.length_eq_zero_iff.mp (by omega))

theorem stagingPath_ne (repoId : String) : stagingPath ix repoId ≠ workspacePath ix repoId := by
  rw [stagingPath_eq]
  exact append_ne_self (by decide)

theorem backupPath_ne (target : String) : backupPath target ≠ target := append_ne_self (by decide)

theorem stagingPath_ne_backupPath (repoId : String) :
    stagingPath ix repoId ≠ backupPath (workspacePath ix repoId) := by
  rw [stagingPath_eq, backupPath]
  intro heq
  have := congrArg String.toList heq
  rw [String.toList_append, String.toList_append] at this
  exact absurd (List.append_cancel_left this) (by decide)

/-! ## A call that raises -/

/-- A call that raises has undone what it did: here for what the two indexes have in common. -/
theorem indexWith_spec {body : String → Indexing Raw (List String)}
    (hbody : Spec (Quiet repoId (workspacePath ix repoId) (stagingPath ix repoId) w₀) (body (stagingPath ix repoId))
      (fun _ _ => True) fun _ => Recoverable repoId (workspacePath ix repoId) (stagingPath ix repoId) w₀) :
    Spec (Quiet repoId (workspacePath ix repoId) (stagingPath ix repoId) w₀)
      (do
        let staging ← prepareStagingWorkspace ix job repoId
        updateRepository job repoId "cloning" (some none)
        let oldPointIds ← Effect.onError (body staging) (undo staging (workspacePath ix repoId))
        retire job oldPointIds)
      (fun _ _ => True) fun _ => Restored repoId (workspacePath ix repoId) (stagingPath ix repoId) w₀ := by
  have hprepare : Spec (Quiet repoId (workspacePath ix repoId) (stagingPath ix repoId) w₀)
      (prepareStagingWorkspace ix job repoId)
      (fun staging w => staging = stagingPath ix repoId ∧
        Quiet repoId (workspacePath ix repoId) (stagingPath ix repoId) w₀ w)
      fun _ => Early repoId (workspacePath ix repoId) (stagingPath ix repoId) w₀ :=
    .seq (QuietStep.of_keeps (.check _)) (.seq (setDirectory_staging (stagingPath_ne repoId) none)
      (.pure fun _ h => ⟨rfl, h⟩))
  refine .bind (hprepare.weaken (fun _ h => h) (fun _ _ h => h) fun _ _ h => h.restored) fun staging => ?_
  refine ⟨?_, ?_⟩
  all_goals
    rintro w ⟨rfl, h⟩
    have hspec : Spec (Quiet repoId (workspacePath ix repoId) (stagingPath ix repoId) w₀) _ (fun _ _ => True)
        fun _ => Restored repoId (workspacePath ix repoId) (stagingPath ix repoId) w₀ :=
      .seq ((updateRepository_quiet job "cloning" (some none)).weaken (fun _ h => h) (fun _ _ h => h)
        fun _ _ h => h.restored) (.bind (.onError hbody fun _ => undo_spec (backupPath_ne _))
          fun oldPointIds => retire_spec job oldPointIds)
  · exact hspec.returns w h
  · exact hspec.raises w h

/-- What either index has undone when it raises; the checkout of the repository is where the service puts it. -/
theorem indexChosen_spec (hjob : ∀ i j, w₀.points (job.chunkId i j) = none) (full : Bool) (hplaced : ∀ row target, w₀.committed.repositories repoId = some row →
      row.localPath = some target → target = workspacePath ix repoId) :
    Spec (· = w₀.enter) (indexChosen ix job repoId full) (fun _ _ => True)
      fun _ => Restored repoId (workspacePath ix repoId) (stagingPath ix repoId) w₀ := by
  have hquiet : Quiet repoId (workspacePath ix repoId) (stagingPath ix repoId) w₀ w₀.enter :=
    ⟨⟨⟨.refl _ _, fun _ _ => rfl, fun _ hid => (nomatch hid), fun _ _ _ _ => rfl, fun _ => rfl, nofun⟩, rfl, rfl⟩,
      .refl _ _⟩
  have hfull : Spec (· = w₀.enter) (indexFull ix job repoId) (fun _ _ => True)
      fun _ => Restored repoId (workspacePath ix repoId) (stagingPath ix repoId) w₀ :=
    Spec.of (indexWith_spec (fullBody_spec hjob (stagingPath_ne repoId) (backupPath_ne _)
      (stagingPath_ne_backupPath repoId))) fun w h => h ▸ hquiet
  have hincremental : Spec (· = w₀.enter) (indexIncremental ix job repoId (workspacePath ix repoId)) (fun _ _ => True)
      fun _ => Restored repoId (workspacePath ix repoId) (stagingPath ix repoId) w₀ :=
    Spec.of (indexWith_spec (incrementalBody_spec hjob (stagingPath_ne repoId) (backupPath_ne _)
      (stagingPath_ne_backupPath repoId))) fun w h => h ▸ hquiet
  have hchosen : Spec (· = w₀.enter) (do
      let present ← Effect.read fun w : World Raw => (w.directories (workspacePath ix repoId)).isSome
      if full ∨ ¬ present then indexFull ix job repoId else indexIncremental ix job repoId (workspacePath ix repoId))
      (fun _ _ => True) fun _ => Restored repoId (workspacePath ix repoId) (stagingPath ix repoId) w₀ := by
    refine .bind (.read (Q := fun _ w => w = w₀.enter) fun _ h => h) fun present => ?_
    split
    · exact hfull
    · exact hincremental
  refine .bind (.read (Q := fun checkout w => checkout = (w₀.committed.repositories repoId).bind (·.localPath) ∧
    w = w₀.enter) fun w h => ⟨h ▸ rfl, h⟩) fun checkout => ?_
  cases checkout with
  | none => exact Spec.of hfull fun w h => h.2
  | some target =>
    by_cases htarget : target = workspacePath ix repoId
    · subst htarget
      exact Spec.of hchosen fun w h => h.2
    · have hnot (w : World Raw) : ¬ (some target = (w₀.committed.repositories repoId).bind (·.localPath) ∧
          w = w₀.enter) := fun h => by
        obtain ⟨row, hrow, hpath⟩ := Option.bind_eq_some_iff.mp h.1.symm
        exact htarget (hplaced row target hrow hpath)
      exact ⟨fun w h => absurd h (hnot w), fun w h => absurd h (hnot w)⟩

/-- The status `failed`, and its message, are written over an index that is as it was. -/
theorem failed_spec (failure : Failure) :
    Keeps (Restored repoId target staging w₀) (do
      rollback
      updateRepository job repoId "failed" (some (some (safeIndexErrorMessage ix failure)))) := by
  refine .seq (I := fun w => Restored repoId target staging w₀ w ∧ SameIndex repoId w₀.committed w.tables)
    (.modify fun w h => ⟨⟨h.committed, h.points, h.directories⟩, h.committed⟩) ?_
  refine .seq (I := fun w => Restored repoId target staging w₀ w ∧ SameIndex repoId w₀.committed w.tables)
    (.modify fun w h => ?_) (.seq ((Spec.check _).weaken (fun _ h => h) (fun _ _ h => h) fun _ _ h => h.1)
      (.modify fun w h => ?_))
  · exact ⟨⟨h.1.committed, h.1.points, h.1.directories⟩, h.2.setRepository fun r => rfl⟩
  · exact ⟨h.2, h.1.points, h.1.directories⟩

/-- A repository that is not there is not indexed. -/
theorem indexRepository_none {full : Bool} (h : w.tables.repositories repoId = none) :
    indexRepository ix job repoId full w = (.ok (), w) := by
  simp [indexRepository, Bind.bind, Effect.bind, Effect.read, h, Pure.pure, Effect.pure]

theorem indexRepository_some {full : Bool} {row : Repository} (h : w.tables.repositories repoId = some row) :
    indexRepository ix job repoId full w = catching (indexChosen ix job repoId full) (fun failure => do
      rollback
      updateRepository job repoId "failed" (some (some (safeIndexErrorMessage ix failure)))) w := by
  simp [indexRepository, Bind.bind, Effect.bind, Effect.read, h]

/-- A call that raised leaves the index as it was. -/
theorem failed_restored {full : Bool} {failure : Failure} (hjob : ∀ i j, w₀.points (job.chunkId i j) = none)
    (hplaced : ∀ row target, w₀.committed.repositories repoId = some row →
      row.localPath = some target → target = workspacePath ix repoId)
    (hraised : indexChosen ix job repoId full w₀.enter = (.error failure, w)) :
    Restored repoId (workspacePath ix repoId) (stagingPath ix repoId) w₀
      (indexRepository ix job repoId full w₀.enter).2 := by
  rcases hrow : w₀.enter.tables.repositories repoId with _ | row
  · rw [indexRepository_none hrow]
    exact ⟨.refl _ _, rfl, fun _ _ _ => rfl⟩
  · have hrestored := (indexChosen_spec hjob full hplaced).raises _ rfl _ _ hraised
    rw [indexRepository_some hrow, catching_raised hraised]
    rcases hend : (do
        rollback
        updateRepository job repoId "failed" (some (some (safeIndexErrorMessage ix failure))) :
          Indexing Raw Unit) w with ⟨_ | u, w'⟩
    · exact (failed_spec failure).raises w hrestored _ w' hend
    · exact (failed_spec failure).returns w hrestored _ w' hend

end CodeMate.Indexing
