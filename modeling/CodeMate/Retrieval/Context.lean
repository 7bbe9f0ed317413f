import CodeMate.Retrieval.Fusion

/-!
# Context expansion

`expandContext` puts behind each selected result chunks of the same file that
enclose it or lie next to it (`neighborChunks`), each id once and no more than
`retrieval_context_max_extra` in all. The loops carry the ids seen and the
number of extras: `addExtras_spec` is what one result adds, `expandResults_spec`
what all of them do, as blocks of a result and its extras, and
`retrieval_order` puts the fusion and the expansion together.
-/

namespace CodeMate.Retrieval

open Framework.Ranking

/-- The settings of the expansion. -/
structure ContextSettings where
  retrievalContextWindow : ℤ := 1
  retrievalContextMaxExtra : ℤ := 4

/-! ## The code -/

/-- `_contains_chunk`. -/
def containsChunk (parent child : CodeChunk) : Bool :=
  if parent.id = child.id then false
  else
    match parent.startLine, parent.endLine, child.startLine, child.endLine with
    | some start, some stop, some childStart, some childStop => start ≤ childStart ∧ childStop ≤ stop
    | _, _, _, _ => false

/-- `_unique_chunks`, from the ids in `seen` on. -/
def uniqueChunks : List CodeChunk → (seen : List String) → List CodeChunk
  | [], _ => []
  | chunk :: chunks, seen =>
    if chunk.id ∈ seen then uniqueChunks chunks seen else chunk :: uniqueChunks chunks (chunk.id :: seen)

/-- `chunks[start:stop]` with bounds that are not negative. -/
def slice (chunks : List CodeChunk) (start stop : ℤ) : List CodeChunk :=
  (chunks.take stop.toNat).drop start.toNat

/-- `_neighbor_chunks`. -/
def neighborChunks (window : ℤ) (seed : CodeChunk) (chunks : List CodeChunk) : List CodeChunk :=
  match chunks.findIdx? fun chunk => chunk.id = seed.id with
  | none => []
  | some index =>
    uniqueChunks
      (chunks.filter (fun chunk => containsChunk chunk seed) ++
        slice chunks (max (index - window) 0) index ++
        slice chunks (index + 1) (index + 1 + window)) []

/-- `ORDER BY file_id, start_line, end_line`; rows that agree in all three stay as the table has them. -/
def rowBefore (x y : CodeChunk) : Bool :=
  x.fileId < y.fileId ∨
    (x.fileId = y.fileId ∧ (x.startLine.getD 0 < y.startLine.getD 0 ∨
      (x.startLine.getD 0 = y.startLine.getD 0 ∧ x.endLine.getD 0 ≤ y.endLine.getD 0)))

/-- The rows of `_chunks_by_file`, in order. -/
def locatedChunks (rows : List CodeChunk) (repoIds fileIds : List String) : List CodeChunk :=
  let located := rows.filter fun chunk =>
    chunk.repoId ∈ repoIds ∧ chunk.fileId ∈ fileIds ∧ chunk.startLine.isSome ∧ chunk.endLine.isSome
  located.mergeSort rowBefore

/-- `chunks_by_file.get(file_id, [])`. -/
def chunksByFile (rows : List CodeChunk) (repoIds fileIds : List String) (fileId : String) : List CodeChunk :=
  (locatedChunks rows repoIds fileIds).filter fun chunk => chunk.fileId = fileId

/-- The extra result for a chunk next to a selected one. -/
def extra (result : RetrievalResult) (chunk : CodeChunk) : RetrievalResult :=
  { chunk := chunk, score := result.score * (65 / 100), source := result.source ++ "+expanded" }

/-- The inner loop: the extras of one result, with the ids seen and the count after them. -/
def addExtras (maxExtra : ℤ) (result : RetrievalResult) :
    List CodeChunk → (seenIds : List String) → (extraCount : ℤ) → List RetrievalResult × List String × ℤ
  | [], seenIds, extraCount => ([], seenIds, extraCount)
  | chunk :: chunks, seenIds, extraCount =>
    if chunk.id ∈ seenIds then addExtras maxExtra result chunks seenIds extraCount
    else if maxExtra ≤ extraCount + 1 then ([extra result chunk], chunk.id :: seenIds, extraCount + 1)
    else
      let (extras, seenIds, extraCount) := addExtras maxExtra result chunks (chunk.id :: seenIds) (extraCount + 1)
      (extra result chunk :: extras, seenIds, extraCount)

/-- The outer loop, over the selected results. -/
def expandResults (maxExtra : ℤ) (neighbors : CodeChunk → List CodeChunk) :
    List RetrievalResult → (seenIds : List String) → (extraCount : ℤ) → List RetrievalResult
  | [], _, _ => []
  | result :: results, seenIds, extraCount =>
    if maxExtra ≤ extraCount then result :: expandResults maxExtra neighbors results seenIds extraCount
    else
      let (extras, seenIds, extraCount) := addExtras maxExtra result (neighbors result.chunk) seenIds extraCount
      result :: extras ++ expandResults maxExtra neighbors results seenIds extraCount

/-- The chunks the expansion looks at for a selected one. -/
def neighborsOf (settings : ContextSettings) (rows : List CodeChunk) (repoIds : List String)
    (results : List RetrievalResult) (seed : CodeChunk) : List CodeChunk :=
  neighborChunks settings.retrievalContextWindow seed
    (chunksByFile rows repoIds (results.map (·.chunk.fileId)) seed.fileId)

/-- `_expand_context`. -/
def expandContext (settings : ContextSettings) (rows : List CodeChunk) (repoIds : List String)
    (results : List RetrievalResult) : List RetrievalResult :=
  if results = [] ∨ settings.retrievalContextWindow ≤ 0 then results
  else
    expandResults settings.retrievalContextMaxExtra (neighborsOf settings rows repoIds results) results
      (ids results) 0

/-! ## Neighbours -/

/-- The chunk stands at most `window` places before or after the seed's in the file's list. -/
def Adjacent (window : ℤ) (chunks : List CodeChunk) (seed chunk : CodeChunk) : Prop :=
  ∃ i j : ℕ, (chunks[i]?.map (·.id)) = some seed.id ∧ chunks[j]? = some chunk ∧
    (j : ℤ) ≤ i + window ∧ (i : ℤ) ≤ j + window

/-- What may be added to a selected chunk: a chunk of its file that encloses it or is adjacent to it. -/
structure Nearby (window : ℤ) (chunks : List CodeChunk) (seed chunk : CodeChunk) : Prop where
  file : chunk.fileId = seed.fileId
  near : containsChunk chunk seed = true ∨ Adjacent window chunks seed chunk

theorem mem_of_mem_uniqueChunks {chunk : CodeChunk} {chunks : List CodeChunk} {seen : List String}
    (h : chunk ∈ uniqueChunks chunks seen) : chunk ∈ chunks := by
  induction chunks generalizing seen with
  | nil => simp [uniqueChunks] at h
  | cons c chunks ih =>
    rw [uniqueChunks] at h
    split at h
    · exact List.mem_cons_of_mem _ (ih h)
    · rcases List.mem_cons.mp h with rfl | h
      · exact List.mem_cons_self ..
      · exact List.mem_cons_of_mem _ (ih h)

theorem mem_slice {chunk : CodeChunk} {chunks : List CodeChunk} {start stop : ℤ}
    (h : chunk ∈ slice chunks start stop) :
    ∃ j : ℕ, chunks[j]? = some chunk ∧ start ≤ j ∧ (j : ℤ) < stop := by
  obtain ⟨j, hj⟩ := List.getElem?_of_mem h
  rw [slice, List.getElem?_drop, List.getElem?_take] at hj
  split at hj
  · next hlt => exact ⟨start.toNat + j, hj, by omega, by omega⟩
  · simp at hj

/-- Everything that `_neighbor_chunks` selects encloses the seed or is adjacent to it. -/
theorem near_of_mem_neighborChunks {window : ℤ} (hw : 0 ≤ window) {seed chunk : CodeChunk}
    {chunks : List CodeChunk} (h : chunk ∈ neighborChunks window seed chunks) :
    chunk ∈ chunks ∧ (containsChunk chunk seed = true ∨ Adjacent window chunks seed chunk) := by
  rw [neighborChunks] at h
  split at h
  · simp at h
  · next index hindex =>
    have hseed : chunks[index]?.map (·.id) = some seed.id := by
      obtain ⟨hlt, heq, -⟩ := List.findIdx?_eq_some_iff_getElem.mp hindex
      rw [List.getElem?_eq_getElem hlt, Option.map_some, of_decide_eq_true heq]
    rcases List.mem_append.mp (mem_of_mem_uniqueChunks h) with h | h
    · rcases List.mem_append.mp h with h | h
      · obtain ⟨hmem, hcontains⟩ := List.mem_filter.mp h
        exact ⟨hmem, Or.inl hcontains⟩
      · obtain ⟨j, hj, hfrom, hto⟩ := mem_slice h
        exact ⟨List.mem_of_getElem? hj, Or.inr ⟨index, j, hseed, hj, by omega, by omega⟩⟩
    · obtain ⟨j, hj, hfrom, hto⟩ := mem_slice h
      exact ⟨List.mem_of_getElem? hj, Or.inr ⟨index, j, hseed, hj, by omega, by omega⟩⟩

/-! ## The loops -/

/-- What the inner loop adds: chunks it was given, with ids not seen before, each once, and no more
than the cap leaves room for. -/
theorem addExtras_spec {maxExtra : ℤ} (result : RetrievalResult) (chunks : List CodeChunk)
    {seenIds : List String} {extraCount : ℤ} (hroom : extraCount < maxExtra) {extras : List RetrievalResult}
    {seenIds' : List String} {extraCount' : ℤ}
    (h : addExtras maxExtra result chunks seenIds extraCount = (extras, seenIds', extraCount')) :
    (∀ x ∈ extras, x.chunk ∈ chunks) ∧ (ids extras).Nodup ∧
      (∀ id ∈ ids extras, id ∉ seenIds) ∧ (∀ id, id ∈ seenIds' ↔ id ∈ ids extras ∨ id ∈ seenIds) ∧
      extraCount' = extraCount + extras.length ∧ extraCount' ≤ maxExtra := by
  induction chunks generalizing seenIds extraCount extras seenIds' extraCount' with
  | nil =>
    simp only [addExtras, Prod.mk.injEq] at h
    obtain ⟨rfl, rfl, rfl⟩ := h
    simpa [ids] using hroom.le
  | cons chunk chunks ih =>
    rw [addExtras] at h
    split at h
    · obtain ⟨hmem, hrest⟩ := ih hroom h
      exact ⟨fun x hx => List.mem_cons_of_mem _ (hmem x hx), hrest⟩
    · next hnew =>
      split at h
      · simp only [Prod.mk.injEq] at h
        obtain ⟨rfl, rfl, rfl⟩ := h
        refine ⟨by simp [extra], by simp [ids], by simpa [ids, extra, RetrievalResult.id] using hnew, ?_, ?_, ?_⟩
        · simp [ids, extra, RetrievalResult.id]
        · simp
        · omega
      · next hmore =>
        obtain ⟨more, seen'', count'', hrec⟩ :
            ∃ more seen'' count'', addExtras maxExtra result chunks (chunk.id :: seenIds) (extraCount + 1) =
              (more, seen'', count'') := ⟨_, _, _, rfl⟩
        rw [hrec] at h
        simp only [Prod.mk.injEq] at h
        obtain ⟨rfl, rfl, rfl⟩ := h
        obtain ⟨hmem, hnodup, hfresh, hseen, hcount, hcap⟩ := ih (by omega) hrec
        have hid : (extra result chunk).id = chunk.id := rfl
        refine ⟨?_, ?_, ?_, ?_, ?_, hcap⟩
        · intro x hx
          rcases List.mem_cons.mp hx with rfl | hx
          · exact List.mem_cons_self ..
          · exact List.mem_cons_of_mem _ (hmem x hx)
        · refine List.nodup_cons.mpr ⟨fun hin => ?_, hnodup⟩
          exact hfresh _ hin (hid ▸ List.mem_cons_self ..)
        · intro id hin
          rcases List.mem_cons.mp hin with rfl | hin
          · exact hnew
          · exact fun hold => hfresh id hin (List.mem_cons_of_mem _ hold)
        · intro id
          rw [hseen id]
          simp only [ids, List.map_cons, List.mem_cons, hid]
          tauto
        · rw [hcount, List.length_cons]
          push_cast
          omega

/-- A selected result with the extras that follow it. -/
structure Block where
  result : RetrievalResult
  extras : List RetrievalResult

def Block.all (block : Block) : List RetrievalResult := block.result :: block.extras

/-- The extras of some blocks, in order. -/
def extrasOf (blocks : List Block) : List RetrievalResult := blocks.flatMap Block.extras

/-- The outer loop as blocks: the results in their order, each with chunks from its neighbours; the
extras have ids that nothing seen has, each once, and there are no more than the cap allows. -/
theorem expandResults_spec (maxExtra : ℤ) (neighbors : CodeChunk → List CodeChunk)
    (results : List RetrievalResult) (seenIds : List String) (extraCount : ℤ) :
    ∃ blocks : List Block, blocks.map Block.result = results ∧
      expandResults maxExtra neighbors results seenIds extraCount = blocks.flatMap Block.all ∧
      (∀ block ∈ blocks, ∀ x ∈ block.extras, x.chunk ∈ neighbors block.result.chunk) ∧
      (ids (extrasOf blocks)).Nodup ∧ (∀ id ∈ ids (extrasOf blocks), id ∉ seenIds) ∧
      ((extrasOf blocks).length : ℤ) ≤ max 0 (maxExtra - extraCount) := by
  induction results generalizing seenIds extraCount with
  | nil => exact ⟨[], rfl, rfl, by simp, by simp [extrasOf, ids], by simp [extrasOf, ids], by simp [extrasOf]⟩
  | cons result results ih =>
    rw [expandResults]
    split
    · obtain ⟨blocks, hresults, heq, hnear, hnodup, hfresh, hlength⟩ := ih seenIds extraCount
      refine ⟨⟨result, []⟩ :: blocks, by simp [hresults], by simp [heq, Block.all], ?_, ?_, ?_, ?_⟩
      · simpa using hnear
      · simpa [extrasOf] using hnodup
      · simpa [extrasOf] using hfresh
      · simpa [extrasOf] using hlength
    · next hroom =>
      obtain ⟨extras, seenIds', extraCount', hadd⟩ :
          ∃ extras seenIds' extraCount', addExtras maxExtra result (neighbors result.chunk) seenIds extraCount =
            (extras, seenIds', extraCount') := ⟨_, _, _, rfl⟩
      obtain ⟨hmem, hnodup₁, hfresh₁, hseen, hcount, hcap⟩ := addExtras_spec result _ (by omega) hadd
      obtain ⟨blocks, hresults, heq, hnear, hnodup, hfresh, hlength⟩ := ih seenIds' extraCount'
      have happend : extrasOf (⟨result, extras⟩ :: blocks) = extras ++ extrasOf blocks := by simp [extrasOf]
      refine ⟨⟨result, extras⟩ :: blocks, by simp [hresults], by simp [hadd, heq, Block.all], ?_, ?_, ?_, ?_⟩
      · intro block hblock
        rcases List.mem_cons.mp hblock with rfl | hblock
        · exact hmem
        · exact hnear block hblock
      · rw [happend, ids, List.map_append]
        refine List.nodup_append.mpr ⟨hnodup₁, hnodup, fun a ha b hb heq => ?_⟩
        exact hfresh b hb ((hseen b).mpr (Or.inl (heq ▸ ha)))
      · rw [happend, ids, List.map_append]
        intro id hid
        rcases List.mem_append.mp hid with hid | hid
        · exact hfresh₁ id hid
        · exact fun hold => hfresh id hid ((hseen id).mpr (Or.inr hold))
      · rw [happend, List.length_append]
        push_cast
        omega

theorem sublist_flatMap_all (blocks : List Block) :
    (blocks.map Block.result).Sublist (blocks.flatMap Block.all) := by
  induction blocks with
  | nil => simp
  | cons block blocks ih =>
    rw [List.map_cons, List.flatMap_cons, Block.all]
    exact (ih.trans (List.sublist_append_right _ _)).cons_cons _

/-- The results of the blocks and their extras, put side by side, are the blocks' contents. -/
theorem flatMap_all_perm (blocks : List Block) :
    (blocks.flatMap Block.all).Perm (blocks.map Block.result ++ extrasOf blocks) := by
  induction blocks with
  | nil => simp [extrasOf]
  | cons block blocks ih =>
    have happend : extrasOf (block :: blocks) = block.extras ++ extrasOf blocks := by simp [extrasOf]
    rw [List.flatMap_cons, List.map_cons, Block.all, happend, List.cons_append, List.cons_append]
    refine List.Perm.cons _ ((List.Perm.append_left _ ih).trans ?_)
    rw [← List.append_assoc, ← List.append_assoc]
    exact List.Perm.append_right _ List.perm_append_comm

/-! ## Fusion and expansion -/

theorem mem_chunksByFile_fileId {rows : List CodeChunk} {repoIds fileIds : List String} {fileId : String}
    {chunk : CodeChunk} (h : chunk ∈ chunksByFile rows repoIds fileIds fileId) : chunk.fileId = fileId :=
  of_decide_eq_true (List.mem_filter.mp h).2

/-- An expansion of selected results: each with extras behind it that are near it in its file. -/
structure Expands (settings : ContextSettings) (rows : List CodeChunk) (repoIds : List String)
    (results expanded : List RetrievalResult) (blocks : List Block) : Prop where
  results_eq : blocks.map Block.result = results
  expanded_eq : expanded = blocks.flatMap Block.all
  sublist : results.Sublist expanded
  extras_le : ((extrasOf blocks).length : ℤ) ≤ max 0 settings.retrievalContextMaxExtra
  nodup : (ids expanded).Nodup
  nearby : ∀ block ∈ blocks, ∀ x ∈ block.extras,
    Nearby settings.retrievalContextWindow
      (chunksByFile rows repoIds (results.map (·.chunk.fileId)) block.result.chunk.fileId)
      block.result.chunk x.chunk

/-- Every selection with distinct ids is expanded to one. -/
theorem expandContext_expands (settings : ContextSettings) (rows : List CodeChunk) (repoIds : List String)
    {results : List RetrievalResult} (hdistinct : (ids results).Nodup) :
    ∃ blocks, Expands settings rows repoIds results (expandContext settings rows repoIds results) blocks := by
  rw [expandContext]
  split
  · have hall : (results.map fun r => Block.mk r []).flatMap Block.all = results := by
      rw [List.flatMap_map]
      exact List.flatMap_singleton' results
    have hextras : extrasOf (results.map fun r => Block.mk r []) = [] := by simp [extrasOf]
    refine ⟨results.map fun r => ⟨r, []⟩, ?_, hall.symm, List.Sublist.refl _, ?_, hdistinct, ?_⟩
    · simp [Function.comp_def]
    · simp [hextras]
    · simp
  · next hrun =>
    obtain ⟨blocks, hresults, heq, hnear, hnodup, hfresh, hlength⟩ :=
      expandResults_spec settings.retrievalContextMaxExtra (neighborsOf settings rows repoIds results) results
        (ids results) 0
    refine ⟨blocks, hresults, heq, ?_, ?_, ?_, fun block hblock x hx => ?_⟩
    · rw [heq]
      exact hresults ▸ sublist_flatMap_all blocks
    · simpa using hlength
    · rw [heq]
      refine ((flatMap_all_perm blocks).map RetrievalResult.id).nodup_iff.mpr ?_
      rw [List.map_append, hresults]
      refine List.nodup_append.mpr ⟨hdistinct, hnodup, fun a ha b hb hab => ?_⟩
      exact hfresh b hb (hab ▸ ha)
    · obtain ⟨hmem, hnear⟩ := near_of_mem_neighborChunks (by omega) (hnear block hblock x hx)
      exact ⟨mem_chunksByFile_fileId hmem, hnear⟩

/-- The fusion of any two lists has the ids of both, each once, and keeps the order of any two
chunks that the lists agree on; the expansion of a selection with distinct ids keeps its results in
their order, repeats no id and adds, within the cap, chunks that are near the result before them. -/
theorem retrieval_order (keywordResults vectorResults : List RetrievalResult) (settings : ContextSettings)
    (rows : List CodeChunk) (repoIds : List String) (results : List RetrievalResult)
    (hdistinct : (ids results).Nodup) :
    ((ids (reciprocalRankFusion keywordResults vectorResults)).Nodup ∧
      (∀ id, id ∈ ids (reciprocalRankFusion keywordResults vectorResults) ↔
        id ∈ ids keywordResults ∨ id ∈ ids vectorResults) ∧
      ∀ a b, Dominates [ids keywordResults, ids vectorResults] a b →
        b ∈ ids keywordResults ∨ b ∈ ids vectorResults →
        (ids (reciprocalRankFusion keywordResults vectorResults)).idxOf a <
          (ids (reciprocalRankFusion keywordResults vectorResults)).idxOf b) ∧
    ∃ blocks, Expands settings rows repoIds results (expandContext settings rows repoIds results) blocks := by
  obtain ⟨hnodup, hids⟩ := reciprocalRankFusion_ids keywordResults vectorResults
  refine ⟨⟨hnodup, hids, fun a b hab hb => ?_⟩, expandContext_expands settings rows repoIds hdistinct⟩
  exact reciprocalRankFusion_precedes keywordResults vectorResults hab hb

/-- A class and two of its methods. -/
def sampleRows : List CodeChunk :=
  [⟨"class", "repo", "file", some 1, some 30⟩, ⟨"load", "repo", "file", some 2, some 9⟩,
    ⟨"save", "repo", "file", some 12, some 20⟩]

def sampleResults : List RetrievalResult := sampleRows.tail.map fun chunk => ⟨chunk, 1, "keyword"⟩

/-- The two methods, selected by both lists in opposite orders. -/
theorem retrieval_order_sample :
    (∃ blocks, Expands {} sampleRows ["repo"] sampleResults (expandContext {} sampleRows ["repo"] sampleResults)
      blocks) ∧ (ids (expandContext {} sampleRows ["repo"] sampleResults)).Nodup := by
  have h := (retrieval_order sampleResults sampleResults.reverse {} sampleRows ["repo"] sampleResults (by decide)).2
  exact ⟨h, h.elim fun _ hexpands => hexpands.nodup⟩

end CodeMate.Retrieval
