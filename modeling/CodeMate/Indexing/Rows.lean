import CodeMate.Indexing.Stores
import Mathlib.Data.List.Sigma

/-!
# The rows of an index

The rows and points of a repository are the index of the files of a scan
(`IndexOf`) when, but for ids and order, there is a row for each file and for
each of its chunks, each chunk belongs to the row of its file, and the points of
the repository are those of its chunks. Replacing the rows under some paths by
those of other files gives the index of the files that are then there
(`replaced_index`), and changes no other repository's (`replaced_other`).
-/

namespace CodeMate.Indexing

variable {Raw : Type} {ix : Indexer Raw} {job : IndexJob Raw} {repoId : String}

/-- The rows and points of a repository are the index of the scanned files. -/
structure IndexOf (ix : Indexer Raw) (repoId : String) (scanned : List (ScannedCodeFile Raw)) (t : Tables)
    (points : String → Option ChunkPoint) : Prop where
  files : ((t.filesOf repoId).map (·.toFileContents)).Perm (scanned.map (·.fileContents ix))
  chunks : ((t.chunksOf repoId).map (·.toChunkContents)).Perm (scanned.flatMap (·.chunkContents))
  linked : ∀ chunk ∈ t.chunksOf repoId,
    ∃ file ∈ t.filesOf repoId, file.id = chunk.fileId ∧ file.filePath = chunk.filePath
  embedded : ∀ chunk ∈ t.chunksOf repoId, chunk.embeddingId = some chunk.id
  points : ∀ id, (∃ point, points id = some point ∧ point.repoId = repoId) ↔ ∃ chunk ∈ t.chunksOf repoId, chunk.id = id

/-- Primary keys. -/
structure DistinctIds (t : Tables) : Prop where
  files : (t.files.map (·.id)).Nodup
  chunks : (t.chunks.map (·.id)).Nodup

/-! ## The new rows -/

theorem mem_newFiles {added : List (ScannedCodeFile Raw)} {file : CodeFile} :
    file ∈ newFiles ix job repoId added ↔ ∃ scanned i, added[i]? = some scanned ∧ fileRow ix job repoId scanned i = file := by
  rw [newFiles, List.mem_map]
  constructor
  · rintro ⟨⟨scanned, i⟩, hmem, rfl⟩
    exact ⟨scanned, i, List.mem_zipIdx_iff_getElem?.mp hmem, rfl⟩
  · rintro ⟨scanned, i, hmem, rfl⟩
    exact ⟨⟨scanned, i⟩, List.mem_zipIdx_iff_getElem?.mpr hmem, rfl⟩

theorem mem_newChunks {added : List (ScannedCodeFile Raw)} {chunk : CodeChunk} :
    chunk ∈ newChunks job repoId added ↔ ∃ (scanned : ScannedCodeFile Raw) (i : ℕ) (contents : ChunkContents) (j : ℕ),
      added[i]? = some scanned ∧
      scanned.chunkContents[j]? = some contents ∧ chunk = { contents with id := job.chunkId i j, repoId := repoId, fileId := job.fileId i } := by
  rw [newChunks, List.mem_flatMap]
  constructor
  · rintro ⟨⟨scanned, i⟩, hmem, hchunk⟩
    obtain ⟨⟨contents, j⟩, hcontents, rfl⟩ := List.mem_map.mp hchunk
    exact ⟨scanned, i, contents, j, List.mem_zipIdx_iff_getElem?.mp hmem, List.mem_zipIdx_iff_getElem?.mp hcontents, rfl⟩
  · rintro ⟨scanned, i, contents, j, hmem, hcontents, rfl⟩
    exact ⟨⟨scanned, i⟩, List.mem_zipIdx_iff_getElem?.mpr hmem,
      List.mem_map.mpr ⟨⟨contents, j⟩, List.mem_zipIdx_iff_getElem?.mpr hcontents, rfl⟩⟩

theorem newFiles_contents (added : List (ScannedCodeFile Raw)) :
    (newFiles ix job repoId added).map (·.toFileContents) = added.map (·.fileContents ix) := by
  have hrow : (fun file : CodeFile => file.toFileContents) ∘ (fun scanned : ScannedCodeFile Raw × ℕ =>
      fileRow ix job repoId scanned.1 scanned.2) = (·.fileContents ix) ∘ Prod.fst := rfl
  rw [newFiles, List.map_map, hrow, ← List.map_map, List.zipIdx_map_fst]

theorem newChunks_contents (added : List (ScannedCodeFile Raw)) :
    (newChunks job repoId added).map (·.toChunkContents) = added.flatMap (·.chunkContents) := by
  have hrow (scanned : ScannedCodeFile Raw) (i : ℕ) :
      (chunkRows job repoId scanned i).map (·.toChunkContents) = scanned.chunkContents := by
    rw [chunkRows, List.map_map]
    exact List.zipIdx_map_fst 0 scanned.chunkContents
  rw [newChunks, List.map_flatMap]
  simp only [hrow]
  rw [← List.flatMap_map, List.zipIdx_map_fst]

theorem newFiles_repo {added : List (ScannedCodeFile Raw)} : ∀ file ∈ newFiles ix job repoId added, file.repoId = repoId := by
  intro file hfile
  obtain ⟨scanned, i, -, rfl⟩ := mem_newFiles.mp hfile
  rfl

theorem newChunks_repo {added : List (ScannedCodeFile Raw)} : ∀ chunk ∈ newChunks job repoId added, chunk.repoId = repoId := by
  intro chunk hchunk
  obtain ⟨scanned, i, contents, j, -, -, rfl⟩ := mem_newChunks.mp hchunk
  rfl

theorem newFiles_nodup (h : Function.Injective job.fileId) (added : List (ScannedCodeFile Raw)) :
    ((newFiles ix job repoId added).map (·.id)).Nodup := by
  have hrow : (fun file : CodeFile => file.id) ∘ (fun scanned : ScannedCodeFile Raw × ℕ =>
      fileRow ix job repoId scanned.1 scanned.2) = job.fileId ∘ Prod.snd := rfl
  rw [newFiles, List.map_map, hrow, ← List.map_map]
  exact (List.nodup_zipIdx_map_snd added).map h

theorem newChunks_nodup (h : ∀ i j i' j', job.chunkId i j = job.chunkId i' j' → i = i' ∧ j = j')
    (added : List (ScannedCodeFile Raw)) : ((newChunks job repoId added).map (·.id)).Nodup := by
  have hrow (scanned : ScannedCodeFile Raw) (i : ℕ) : (chunkRows job repoId scanned i).map (·.id) =
      (scanned.chunkContents.zipIdx.map Prod.snd).map (job.chunkId i) := by
    rw [chunkRows, List.map_map, List.map_map]
    rfl
  rw [newChunks, List.map_flatMap, List.nodup_flatMap]
  refine ⟨fun scanned _ => ?_, ?_⟩
  · rw [hrow]
    exact (List.nodup_zipIdx_map_snd _).map fun j j' hj => (h _ _ _ _ hj).2
  · refine (List.pairwise_map.mp (List.nodup_zipIdx_map_snd added)).imp fun {x y} hne => ?_
    show List.Disjoint ((chunkRows job repoId x.1 x.2).map (·.id)) ((chunkRows job repoId y.1 y.2).map (·.id))
    rw [hrow, hrow]
    intro id hid hid'
    obtain ⟨j, -, rfl⟩ := List.mem_map.mp hid
    obtain ⟨j', -, hj⟩ := List.mem_map.mp hid'
    exact hne (h _ _ _ _ hj).1.symm

/-! ## Replacing rows -/

section Replace

variable (ix job repoId) (filePaths : Option (List String)) (added : List (ScannedCodeFile Raw))

/-- The rows of files after those under the paths are replaced. -/
def replacedFiles (t : Tables) : List CodeFile :=
  t.files.filter (fun file => ¬ (file.repoId = repoId ∧ Selected filePaths file.filePath)) ++ newFiles ix job repoId added

/-- The rows of chunks, with the new ones embedded. -/
def replacedChunks (t : Tables) : List CodeChunk :=
  markEmbedded ((newChunks job repoId added).map (·.id))
    (t.chunks.filter (fun chunk => ¬ (chunk.repoId = repoId ∧ Selected filePaths chunk.filePath)) ++
      newChunks job repoId added)

/-- The ids of the points that were under the paths. -/
def replacedIds (t : Tables) : List String :=
  ((t.chunksOf repoId).filter fun chunk => Selected filePaths chunk.filePath).map fun chunk =>
    chunk.embeddingId.getD chunk.id

/-- The points, with the new ones, and without those that were under the paths. -/
def replacedPoints (t : Tables) (points : String → Option ChunkPoint) : String → Option ChunkPoint := fun id =>
  if id ∈ replacedIds repoId filePaths t then none else upserted points (newChunks job repoId added) id

/-- The tables with the rows replaced. -/
def replacedTables (t : Tables) : Tables :=
  { t with files := replacedFiles ix job repoId filePaths added t, chunks := replacedChunks job repoId filePaths added t }

variable {ix job repoId filePaths added} {t : Tables} {points : String → Option ChunkPoint}

theorem filesOf_replaced_self : (replacedFiles ix job repoId filePaths added t).filter (·.repoId = repoId) =
    (t.filesOf repoId).filter (fun file => ¬ Selected filePaths file.filePath) ++ newFiles ix job repoId added := by
  have hnew : (newFiles ix job repoId added).filter (·.repoId = repoId) = newFiles ix job repoId added :=
    List.filter_eq_self.mpr fun file hfile => decide_eq_true (newFiles_repo file hfile)
  rw [replacedFiles, List.filter_append, hnew, List.filter_filter, Tables.filesOf, List.filter_filter]
  congr 1
  refine List.filter_congr fun file _ => ?_
  by_cases hrepo : file.repoId = repoId <;> simp [hrepo]

theorem filesOf_replaced_ne {other : String} (h : other ≠ repoId) :
    (replacedFiles ix job repoId filePaths added t).filter (·.repoId = other) = t.filesOf other := by
  have hnew : (newFiles ix job repoId added).filter (·.repoId = other) = [] :=
    List.filter_eq_nil_iff.mpr fun file hfile => by simp [newFiles_repo file hfile, h.symm]
  rw [replacedFiles, List.filter_append, hnew, List.append_nil, List.filter_filter, Tables.filesOf]
  refine List.filter_congr fun file _ => ?_
  by_cases hrepo : file.repoId = other
  · simp [hrepo, h]
  · simp [hrepo]

/-- The rows of chunks that a repository has after the replacement. -/
theorem mem_replacedChunks (hfresh : FreshIds t points job) {chunk : CodeChunk} :
    chunk ∈ replacedChunks job repoId filePaths added t ↔
      (chunk ∈ t.chunks ∧ ¬ (chunk.repoId = repoId ∧ Selected filePaths chunk.filePath)) ∨
      ∃ new ∈ newChunks job repoId added, chunk = { new with embeddingId := some new.id } := by
  have hnew {row : CodeChunk} (hrow : row ∈ newChunks job repoId added) :
      row.id ∈ (newChunks job repoId added).map (·.id) := List.mem_map.mpr ⟨row, hrow, rfl⟩
  have hold {row : CodeChunk} (hrow : row ∈ t.chunks) : row.id ∉ (newChunks job repoId added).map (·.id) := by
    intro hid
    obtain ⟨new, hnew, hid⟩ := List.mem_map.mp hid
    obtain ⟨scanned, i, contents, j, -, -, rfl⟩ := mem_newChunks.mp hnew
    exact hfresh.chunks i j row hrow hid.symm
  rw [replacedChunks, markEmbedded, List.mem_map]
  constructor
  · rintro ⟨row, hrow, rfl⟩
    rcases List.mem_append.mp hrow with hrow | hrow
    · obtain ⟨hmem, hkept⟩ := List.mem_filter.mp hrow
      rw [if_neg (hold hmem)]
      exact .inl ⟨hmem, of_decide_eq_true hkept⟩
    · rw [if_pos (hnew hrow)]
      exact .inr ⟨row, hrow, rfl⟩
  · rintro (⟨hmem, hkept⟩ | ⟨new, hmem, rfl⟩)
    · exact ⟨chunk, List.mem_append_left _ (List.mem_filter.mpr ⟨hmem, decide_eq_true hkept⟩), if_neg (hold hmem)⟩
    · exact ⟨new, List.mem_append_right _ hmem, if_pos (hnew hmem)⟩

theorem map_markEmbedded {β : Type} (f : CodeChunk → β) (hf : ∀ row id, f { row with embeddingId := id } = f row)
    (ids : List String) (chunks : List CodeChunk) : (markEmbedded ids chunks).map f = chunks.map f := by
  rw [markEmbedded, List.map_map]
  refine List.map_congr_left fun row _ => ?_
  show f (if row.id ∈ ids then _ else row) = f row
  split
  · exact hf row _
  · rfl

theorem filter_markEmbedded (other : String) (ids : List String) (chunks : List CodeChunk) :
    (markEmbedded ids chunks).filter (·.repoId = other) = markEmbedded ids (chunks.filter (·.repoId = other)) := by
  rw [markEmbedded, markEmbedded, List.filter_map]
  congr 1
  refine List.filter_congr fun row _ => ?_
  show decide ((if row.id ∈ ids then _ else row : CodeChunk).repoId = other) = _
  split <;> rfl

/-- The primary keys stay distinct. -/
theorem replaced_distinct (hids : DistinctIds t) (hfresh : FreshIds t points job) :
    DistinctIds (replacedTables ix job repoId filePaths added t) := by
  refine ⟨?_, ?_⟩
  · show ((replacedFiles ix job repoId filePaths added t).map (·.id)).Nodup
    rw [replacedFiles, List.map_append, List.nodup_append]
    refine ⟨hids.files.sublist (List.filter_sublist.map _), newFiles_nodup hfresh.fileIds added, fun id hid id' hid' => ?_⟩
    obtain ⟨file, hfile, rfl⟩ := List.mem_map.mp hid
    obtain ⟨new, hnew, rfl⟩ := List.mem_map.mp hid'
    obtain ⟨scanned, i, -, rfl⟩ := mem_newFiles.mp hnew
    exact hfresh.files i file (List.mem_filter.mp hfile).1
  · show ((replacedChunks job repoId filePaths added t).map (·.id)).Nodup
    rw [replacedChunks, map_markEmbedded (·.id) (fun _ _ => rfl), List.map_append, List.nodup_append]
    refine ⟨hids.chunks.sublist (List.filter_sublist.map _), newChunks_nodup hfresh.chunkIds added, fun id hid id' hid' => ?_⟩
    obtain ⟨chunk, hchunk, rfl⟩ := List.mem_map.mp hid
    obtain ⟨new, hnew, rfl⟩ := List.mem_map.mp hid'
    obtain ⟨scanned, i, contents, j, -, -, rfl⟩ := mem_newChunks.mp hnew
    exact hfresh.chunks i j chunk (List.mem_filter.mp hchunk).1

theorem chunkContents_path {scanned : ScannedCodeFile Raw} :
    ∀ contents ∈ scanned.chunkContents, contents.filePath = scanned.relativePath := by
  intro contents hcontents
  obtain ⟨chunk, -, rfl⟩ := List.mem_map.mp hcontents
  rfl

/-- The chunks of the files that are not under the paths. -/
theorem filter_chunkContents (p : String → Bool) (scanned : List (ScannedCodeFile Raw)) :
    (scanned.flatMap (·.chunkContents)).filter (fun contents => p contents.filePath) =
      (scanned.filter fun file => p file.relativePath).flatMap (·.chunkContents) := by
  induction scanned with
  | nil => rfl
  | cons file scanned ih =>
    rw [List.flatMap_cons, List.filter_append, ih, List.filter_cons]
    split
    next h =>
      rw [List.flatMap_cons, List.filter_eq_self.mpr fun contents hcontents => by
        rw [chunkContents_path contents hcontents]; exact h]
    next h =>
      rw [List.filter_eq_nil_iff.mpr fun contents hcontents => by
        rw [chunkContents_path contents hcontents]; exact h, List.nil_append]

theorem chunksOf_replaced_self : (replacedChunks job repoId filePaths added t).filter (·.repoId = repoId) =
    markEmbedded ((newChunks job repoId added).map (·.id))
      ((t.chunksOf repoId).filter (fun chunk => ¬ Selected filePaths chunk.filePath) ++ newChunks job repoId added) := by
  have hnew : (newChunks job repoId added).filter (·.repoId = repoId) = newChunks job repoId added :=
    List.filter_eq_self.mpr fun chunk hchunk => decide_eq_true (newChunks_repo chunk hchunk)
  rw [replacedChunks, filter_markEmbedded, List.filter_append, hnew, List.filter_filter, Tables.chunksOf,
    List.filter_filter]
  congr 2
  refine List.filter_congr fun chunk _ => ?_
  by_cases hrepo : chunk.repoId = repoId <;> simp [hrepo]

theorem chunksOf_replaced_ne {other : String} (h : other ≠ repoId) :
    (replacedChunks job repoId filePaths added t).filter (·.repoId = other) =
      markEmbedded ((newChunks job repoId added).map (·.id)) (t.chunksOf other) := by
  have hnew : (newChunks job repoId added).filter (·.repoId = other) = [] :=
    List.filter_eq_nil_iff.mpr fun chunk hchunk => by simp [newChunks_repo chunk hchunk, h.symm]
  rw [replacedChunks, filter_markEmbedded, List.filter_append, hnew, List.append_nil, List.filter_filter,
    Tables.chunksOf]
  congr 1
  refine List.filter_congr fun chunk _ => ?_
  by_cases hrepo : chunk.repoId = other
  · simp [hrepo, h]
  · simp [hrepo]

/-- The points under the ids of new chunks are theirs. -/
theorem upserted_new {chunks : List CodeChunk} {id : String} (h : id ∈ chunks.map (·.id)) :
    ∃ chunk ∈ chunks, chunk.id = id ∧ upserted points chunks id = some (makeChunkPoint chunk) := by
  induction chunks generalizing points with
  | nil => exact absurd h List.not_mem_nil
  | cons chunk chunks ih =>
    by_cases hrest : id ∈ chunks.map (·.id)
    · obtain ⟨found, hfound, hid, hpoint⟩ := @ih (Function.update points chunk.id (some (makeChunkPoint chunk))) hrest
      exact ⟨found, List.mem_cons_of_mem _ hfound, hid, hpoint⟩
    · rw [List.map_cons, List.mem_cons] at h
      obtain rfl := h.resolve_right hrest
      refine ⟨chunk, List.mem_cons_self, rfl, ?_⟩
      show upserted (Function.update points chunk.id _) chunks chunk.id = _
      rw [upserted_of_notMem hrest, Function.update_self]

/-- Which old chunks have lost their points. -/
theorem mem_replacedIds (hids : DistinctIds t) (hembedded : ∀ chunk ∈ t.chunksOf repoId, chunk.embeddingId = some chunk.id)
    {chunk : CodeChunk} (hchunk : chunk ∈ t.chunks) :
    chunk.id ∈ replacedIds repoId filePaths t ↔ chunk.repoId = repoId ∧ Selected filePaths chunk.filePath := by
  rw [replacedIds, List.mem_map]
  constructor
  · rintro ⟨other, hother, hid⟩
    obtain ⟨hmem, hselected⟩ := List.mem_filter.mp hother
    rw [hembedded other hmem] at hid
    obtain ⟨hmem, hrepo⟩ := List.mem_filter.mp hmem
    obtain rfl := List.inj_on_of_nodup_map hids.chunks hmem hchunk hid
    exact ⟨of_decide_eq_true hrepo, of_decide_eq_true hselected⟩
  · rintro ⟨hrepo, hselected⟩
    have hmem : chunk ∈ t.chunksOf repoId := List.mem_filter.mpr ⟨hchunk, decide_eq_true hrepo⟩
    refine ⟨chunk, List.mem_filter.mpr ⟨hmem, decide_eq_true hselected⟩, ?_⟩
    rw [hembedded chunk hmem]
    rfl

theorem mem_chunksOf_replaced (hfresh : FreshIds t points job) {chunk : CodeChunk} {other : String} :
    chunk ∈ (replacedTables ix job repoId filePaths added t).chunksOf other ↔
      (chunk ∈ t.chunksOf other ∧ ¬ (chunk.repoId = repoId ∧ Selected filePaths chunk.filePath)) ∨
      (other = repoId ∧ ∃ new ∈ newChunks job repoId added, chunk = { new with embeddingId := some new.id }) := by
  rw [Tables.chunksOf, List.mem_filter, decide_eq_true_iff]
  show chunk ∈ replacedChunks job repoId filePaths added t ∧ _ ↔ _
  rw [mem_replacedChunks hfresh, Tables.chunksOf, List.mem_filter, decide_eq_true_iff]
  constructor
  · rintro ⟨⟨hmem, hkept⟩ | ⟨new, hnew, rfl⟩, hrepo⟩
    · exact .inl ⟨⟨hmem, hrepo⟩, hkept⟩
    · exact .inr ⟨hrepo.symm.trans (newChunks_repo new hnew), new, hnew, rfl⟩
  · rintro (⟨⟨hmem, hrepo⟩, hkept⟩ | ⟨rfl, new, hnew, rfl⟩)
    · exact ⟨.inl ⟨hmem, hkept⟩, hrepo⟩
    · exact ⟨.inr ⟨new, hnew, rfl⟩, newChunks_repo new hnew⟩

/-- An id that was not made up in the call has the point it had, unless that was under the paths. -/
theorem replacedPoints_old {id : String} (h : id ∉ (newChunks job repoId added).map (·.id)) :
    replacedPoints job repoId filePaths added t points id =
      if id ∈ replacedIds repoId filePaths t then none else points id := by
  rw [replacedPoints, upserted_of_notMem h]

theorem id_fresh (hfresh : FreshIds t points job) {chunk : CodeChunk} (hchunk : chunk ∈ t.chunks) :
    chunk.id ∉ (newChunks job repoId added).map (·.id) := by
  intro hid
  obtain ⟨new, hnew, hid⟩ := List.mem_map.mp hid
  obtain ⟨scanned, i, contents, j, -, -, rfl⟩ := mem_newChunks.mp hnew
  exact hfresh.chunks i j chunk hchunk hid.symm

variable (filePaths) in
/-- A new chunk has its point. -/
theorem replacedPoints_new (hfresh : FreshIds t points job)
    (hembedded : ∀ chunk ∈ t.chunksOf repoId, chunk.embeddingId = some chunk.id) {id : String}
    (h : id ∈ (newChunks job repoId added).map (·.id)) :
    ∃ new ∈ newChunks job repoId added, new.id = id ∧
      replacedPoints job repoId filePaths added t points id = some (makeChunkPoint new) := by
  obtain ⟨new, hnew, rfl, hpoint⟩ := @upserted_new points _ _ h
  refine ⟨new, hnew, rfl, ?_⟩
  rw [replacedPoints, if_neg, hpoint]
  intro hid
  obtain ⟨old, hold, hid⟩ := List.mem_map.mp hid
  obtain ⟨hmem, -⟩ := List.mem_filter.mp hold
  rw [hembedded old hmem] at hid
  exact id_fresh hfresh (List.mem_filter.mp hmem).1 (List.mem_map.mpr ⟨new, hnew, hid.symm⟩)

/-- Replacing rows gives the index of the files that are then there. -/
theorem replaced_index {old scanned : List (ScannedCodeFile Raw)} (hindex : IndexOf ix repoId old t points)
    (hids : DistinctIds t) (hfresh : FreshIds t points job)
    (hperm : ((old.filter fun file => ¬ Selected filePaths file.relativePath) ++ added).Perm scanned) :
    IndexOf ix repoId scanned (replacedTables ix job repoId filePaths added t)
      (replacedPoints job repoId filePaths added t points) := by
  refine ⟨?_, ?_, fun chunk hchunk => ?_, fun chunk hchunk => ?_, fun id => ?_⟩
  · have hkept : (((t.filesOf repoId).filter fun file => ¬ Selected filePaths file.filePath).map (·.toFileContents)).Perm
        ((old.filter fun file => ¬ Selected filePaths file.relativePath).map (·.fileContents ix)) := by
      have := hindex.files.filter fun contents => ¬ Selected filePaths contents.filePath
      rw [List.filter_map, List.filter_map] at this
      exact this
    show (((replacedFiles ix job repoId filePaths added t).filter (·.repoId = repoId)).map (·.toFileContents)).Perm _
    rw [filesOf_replaced_self, List.map_append, newFiles_contents]
    refine (hkept.append_right _).trans ?_
    rw [← List.map_append]
    exact hperm.map _
  · have hkept : (((t.chunksOf repoId).filter fun chunk => ¬ Selected filePaths chunk.filePath).map
        (·.toChunkContents)).Perm
        ((old.filter fun file => ¬ Selected filePaths file.relativePath).flatMap (·.chunkContents)) := by
      have := hindex.chunks.filter fun contents => ¬ Selected filePaths contents.filePath
      rw [List.filter_map, filter_chunkContents fun path => ¬ Selected filePaths path] at this
      exact this
    show (((replacedChunks job repoId filePaths added t).filter (·.repoId = repoId)).map (·.toChunkContents)).Perm _
    rw [chunksOf_replaced_self, map_markEmbedded (·.toChunkContents) (fun _ _ => rfl), List.map_append,
      newChunks_contents]
    refine (hkept.append_right _).trans ?_
    rw [← List.flatMap_append]
    exact hperm.flatMap_right _
  · show ∃ file ∈ (replacedFiles ix job repoId filePaths added t).filter (·.repoId = repoId), _
    rw [filesOf_replaced_self]
    rcases (mem_chunksOf_replaced hfresh).mp hchunk with ⟨hmem, hkept⟩ | ⟨-, new, hnew, rfl⟩
    · obtain ⟨file, hfile, hid, hpath⟩ := hindex.linked chunk hmem
      have hrepo := of_decide_eq_true (List.mem_filter.mp hmem).2
      refine ⟨file, List.mem_append_left _ (List.mem_filter.mpr ⟨hfile, decide_eq_true ?_⟩), hid, hpath⟩
      rw [hpath]
      exact fun hselected => hkept ⟨hrepo, hselected⟩
    · obtain ⟨file, i, contents, j, hfile, hcontents, rfl⟩ := mem_newChunks.mp hnew
      refine ⟨fileRow ix job repoId file i, List.mem_append_right _ (mem_newFiles.mpr ⟨file, i, hfile, rfl⟩), rfl, ?_⟩
      exact (chunkContents_path contents (List.mem_of_getElem? hcontents)).symm
  · rcases (mem_chunksOf_replaced hfresh).mp hchunk with ⟨hmem, -⟩ | ⟨-, new, -, rfl⟩
    · exact hindex.embedded chunk hmem
    · rfl
  · by_cases hnew : id ∈ (newChunks job repoId added).map (·.id)
    · obtain ⟨new, hmem, rfl, hpoint⟩ := replacedPoints_new filePaths hfresh hindex.embedded hnew
      refine ⟨fun _ => ⟨{ new with embeddingId := some new.id }, ?_, rfl⟩, fun _ => ⟨_, hpoint, newChunks_repo new hmem⟩⟩
      exact (mem_chunksOf_replaced hfresh).mpr (.inr ⟨rfl, new, hmem, rfl⟩)
    · rw [replacedPoints_old hnew]
      constructor
      · rintro ⟨point, hpoint, hrepo⟩
        split at hpoint
        next => cases hpoint
        next hkept =>
          obtain ⟨chunk, hmem, rfl⟩ := (hindex.points id).mp ⟨point, hpoint, hrepo⟩
          rw [mem_replacedIds hids hindex.embedded (List.mem_filter.mp hmem).1] at hkept
          exact ⟨chunk, (mem_chunksOf_replaced hfresh).mpr (.inl ⟨hmem, hkept⟩), rfl⟩
      · rintro ⟨chunk, hmem, rfl⟩
        rcases (mem_chunksOf_replaced hfresh).mp hmem with ⟨hold, hkept⟩ | ⟨-, new, hadded, rfl⟩
        · rw [if_neg fun hid => hkept ((mem_replacedIds hids hindex.embedded (List.mem_filter.mp hold).1).mp hid)]
          exact (hindex.points _).mpr ⟨chunk, hold, rfl⟩
        · exact absurd (List.mem_map.mpr ⟨new, hadded, rfl⟩) hnew

/-- The index of another repository is the same. -/
theorem replaced_other {other : String} {old : List (ScannedCodeFile Raw)} (hother : other ≠ repoId)
    (hindex : IndexOf ix other old t points) (hids : DistinctIds t) (hfresh : FreshIds t points job)
    (hembedded : ∀ chunk ∈ t.chunksOf repoId, chunk.embeddingId = some chunk.id) :
    IndexOf ix other old (replacedTables ix job repoId filePaths added t)
      (replacedPoints job repoId filePaths added t points) := by
  have hfiles : (replacedTables ix job repoId filePaths added t).filesOf other = t.filesOf other :=
    filesOf_replaced_ne hother
  have hmem {chunk : CodeChunk} : chunk ∈ (replacedTables ix job repoId filePaths added t).chunksOf other ↔
      chunk ∈ t.chunksOf other := by
    rw [mem_chunksOf_replaced hfresh]
    refine ⟨fun h => ?_, fun h => .inl ⟨h, fun hrepo => ?_⟩⟩
    · rcases h with h | h
      · exact h.1
      · exact absurd h.1 hother
    · exact hother ((of_decide_eq_true (List.mem_filter.mp h).2).symm.trans hrepo.1)
  refine ⟨?_, ?_, fun chunk hchunk => ?_, fun chunk hchunk => hindex.embedded chunk (hmem.mp hchunk), fun id => ?_⟩
  · rw [hfiles]
    exact hindex.files
  · rw [show (replacedTables ix job repoId filePaths added t).chunksOf other = _ from chunksOf_replaced_ne hother,
      map_markEmbedded (·.toChunkContents) fun _ _ => rfl]
    exact hindex.chunks
  · rw [hfiles]
    exact hindex.linked chunk (hmem.mp hchunk)
  · have hchunks : (∃ chunk ∈ (replacedTables ix job repoId filePaths added t).chunksOf other, chunk.id = id) ↔
        ∃ chunk ∈ t.chunksOf other, chunk.id = id :=
      exists_congr fun chunk => and_congr_left' hmem
    rw [hchunks, ← hindex.points id]
    by_cases hnew : id ∈ (newChunks job repoId added).map (·.id)
    · obtain ⟨new, hadded, rfl, hpoint⟩ := replacedPoints_new filePaths hfresh hembedded hnew
      obtain ⟨scanned, i, contents, j, -, -, rfl⟩ := mem_newChunks.mp hadded
      constructor
      · rintro ⟨point, hfound, hrepo⟩
        rw [hpoint] at hfound
        obtain rfl := Option.some.inj hfound
        exact absurd hrepo.symm hother
      · rintro ⟨point, hfound, -⟩
        rw [hfresh.points i j] at hfound
        cases hfound
    · rw [replacedPoints_old hnew]
      by_cases hid : id ∈ replacedIds repoId filePaths t
      · rw [if_pos hid]
        constructor
        · rintro ⟨point, hfound, -⟩
          cases hfound
        · rintro hpoint
          -- the id is that of a chunk of both repositories
          obtain ⟨chunk, hchunk, rfl⟩ := (hindex.points id).mp hpoint
          obtain ⟨hchunk, hrepo⟩ := List.mem_filter.mp hchunk
          have hrepo' := ((mem_replacedIds hids hembedded hchunk).mp hid).1
          exact absurd ((of_decide_eq_true hrepo).symm.trans hrepo') hother
      · rw [if_neg hid]

end Replace

end CodeMate.Indexing
