import CodeMate.Indexing.Built

/-!
# Incremental and full indexes agree

The files that an incremental index keeps are those whose path and hash are
unchanged, so with the changed ones they are the files of the new scan
(`kept_changed_perm`). With that, the rows and points of each repository are the
index of a scan in every state (`Sound`, by `Built.sound` for a call that returns
and `Restored.sound` for one that raises), and both indexes leave that of the
new checkout (`incremental_eq_full`). A call that raises leaves the index that was
in force (`failed_index_restored`).
-/

namespace CodeMate.Indexing

open Framework Effect

variable {Raw : Type} {ix : Indexer Raw} {job : IndexJob Raw} {repoId target : String} {w₀ w : World Raw}
  {bytes : Set Raw}

/-! ## Kept and changed files -/

/-- A lookup under distinct keys. -/
theorem lookup_iff_mem {entries : List (String × String)} (h : (entries.map (·.1)).Nodup) {key value : String} :
    entries.lookup key = some value ↔ (key, value) ∈ entries := by
  induction entries with
  | nil => simp
  | cons entry entries ih =>
    rw [List.map_cons, List.nodup_cons] at h
    rw [List.lookup_cons, List.mem_cons]
    by_cases hkey : key = entry.1
    · subst hkey
      have hnot : (entry.1, value) ∉ entries := fun hmem => h.1 (List.mem_map.mpr ⟨_, hmem, rfl⟩)
      simp only [beq_self_eq_true, Option.some.injEq, hnot, or_false]
      exact ⟨fun hvalue => by rw [← hvalue], fun hentry => congrArg Prod.snd hentry.symm⟩
    · rw [beq_eq_false_iff_ne.mpr hkey, ih h.2]
      exact ⟨.inr, fun hmem => hmem.resolve_left fun hentry => hkey (congrArg Prod.fst hentry)⟩

section Scans

variable {checkout checkout' : Checkout Raw} {old scanned : List (ScannedCodeFile Raw)}
  {existing : List (String × String)}

theorem mem_changedFiles {file : ScannedCodeFile Raw} :
    file ∈ changedFiles existing scanned ↔
      file ∈ scanned ∧ existing.lookup file.relativePath ≠ some file.contentHash := by
  rw [changedFiles, List.mem_filter, decide_eq_true_iff]

theorem mem_replacedPaths {path : String} :
    path ∈ replacedPaths existing scanned ↔
      (path ∈ existing.map (·.1) ∧ path ∉ scanned.map (·.relativePath)) ∨
      ∃ file ∈ changedFiles existing scanned, file.relativePath = path := by
  rw [replacedPaths, List.mem_append, deletedPaths, List.mem_filter, decide_eq_true_iff,
    List.mem_map (l := changedFiles existing scanned)]

/-- The files that are kept, and those that are indexed again, are the files of the new scan. -/
theorem kept_changed_perm (hsha : Set.InjOn ix.sha256 bytes) (hold : checkout.Within bytes)
    (hnew : checkout'.Within bytes) (hscanOld : scanSourceFiles ix checkout = .ok old)
    (hscan : scanSourceFiles ix checkout' = .ok scanned)
    (hexisting : existing.Perm (old.map fun file => (file.relativePath, file.contentHash))) :
    ((old.filter fun file => file.relativePath ∉ replacedPaths existing scanned) ++
      changedFiles existing scanned).Perm scanned := by
  have hkeys : (existing.map (·.1)).Perm (old.map (·.relativePath)) := by
    simpa [Function.comp_def] using hexisting.map Prod.fst
  have hnodup : (existing.map (·.1)).Nodup := hkeys.nodup_iff.mpr (scan_nodup hscanOld)
  have hlookup {path hash : String} : existing.lookup path = some hash ↔
      ∃ file ∈ old, file.relativePath = path ∧ file.contentHash = hash := by
    rw [lookup_iff_mem hnodup, hexisting.mem_iff, List.mem_map]
    exact exists_congr fun file => and_congr_right' Prod.mk_inj
  have hsame {file file' : ScannedCodeFile Raw} (hfile : file ∈ old) (hfile' : file' ∈ scanned)
      (hpath : file.relativePath = file'.relativePath) (hhash : file.contentHash = file'.contentHash) : file = file' :=
    scanned_determined hsha hold hnew hscanOld hscan hfile hfile' hpath hhash
  have hchanged : changedFiles existing scanned =
      scanned.filter fun file => !decide (existing.lookup file.relativePath = some file.contentHash) :=
    List.filter_congr fun file _ => by simp
  have hkept : (old.filter fun file => file.relativePath ∉ replacedPaths existing scanned).Perm
      (scanned.filter fun file => existing.lookup file.relativePath = some file.contentHash) := by
    refine (List.perm_ext_iff_of_nodup ((scan_nodup hscanOld).of_map.filter _)
      ((scan_nodup hscan).of_map.filter _)).mpr fun file => ?_
    rw [List.mem_filter, List.mem_filter, decide_eq_true_iff, decide_eq_true_iff, mem_replacedPaths, not_or]
    constructor
    · rintro ⟨hfile, hdeleted, hchanged⟩
      have hin : file.relativePath ∈ existing.map (·.1) := hkeys.mem_iff.mpr (List.mem_map.mpr ⟨file, hfile, rfl⟩)
      obtain ⟨file', hfile', hpath⟩ := List.mem_map.mp (not_not.mp fun hnot => hdeleted ⟨hin, hnot⟩)
      have hhash' : existing.lookup file'.relativePath = some file'.contentHash :=
        not_not.mp fun hne => hchanged ⟨file', mem_changedFiles.mpr ⟨hfile', hne⟩, hpath⟩
      have hhash : existing.lookup file.relativePath = some file.contentHash := hlookup.mpr ⟨file, hfile, rfl, rfl⟩
      rw [hpath, hhash] at hhash'
      obtain rfl := hsame hfile hfile' hpath.symm (Option.some.inj hhash')
      exact ⟨hfile', hhash⟩
    · rintro ⟨hfile, hhash⟩
      obtain ⟨file', hfile', hpath, hhash'⟩ := hlookup.mp hhash
      obtain rfl := hsame hfile' hfile hpath hhash'
      refine ⟨hfile', fun hdeleted => hdeleted.2 (List.mem_map.mpr ⟨file', hfile, rfl⟩), ?_⟩
      rintro ⟨other, hother, hpath⟩
      obtain ⟨hmem, hne⟩ := mem_changedFiles.mp hother
      obtain rfl := List.inj_on_of_nodup_map (scan_nodup hscan) hmem hfile hpath
      exact hne hhash
  rw [hchanged]
  exact (hkept.append_right _).trans (List.filter_append_perm _ _)

end Scans

/-! ## What a call can do -/

/-- The index is as it was, or that of the files scanned in the call, in one of the two ways. -/
inductive Outcome (ix : Indexer Raw) (job : IndexJob Raw) (repoId : String) (w₀ w : World Raw) : Prop
  | kept (hcommitted : SameIndex repoId w₀.committed w.committed) (hpoints : w.points = w₀.points)
  | full (scanned : List (ScannedCodeFile Raw)) (hscan : scanSourceFiles ix job.checkout = .ok scanned)
      (hbuilt : Built ix job repoId (workspacePath ix repoId) none scanned scanned
        (scannedChunkCount scanned) w₀ w)
  | incremental (target : String) (scanned : List (ScannedCodeFile Raw))
      (hpath : ∃ row, w₀.committed.repositories repoId = some row ∧ row.localPath = some target)
      (hscan : scanSourceFiles ix job.checkout = .ok scanned) (hbuilt : BuiltOn ix job repoId target scanned w₀ w)

theorem indexChosen_returns {full : Bool} {row : Repository} (hrow : w₀.committed.repositories repoId = some row)
    (h : indexChosen ix job repoId full w₀.enter = (.ok (), w)) :
    indexFull ix job repoId w₀.enter = (.ok (), w) ∨
      ∃ target, row.localPath = some target ∧ indexIncremental ix job repoId target w₀.enter = (.ok (), w) := by
  obtain ⟨checkout, w', hread, hrest⟩ := bind_returns h
  obtain ⟨hcheckout, rfl⟩ := Prod.mk.inj hread
  obtain rfl := Except.ok.inj hcheckout
  have hpath : (w₀.enter.tables.repositories repoId).bind (·.localPath) = row.localPath := by
    show (w₀.committed.repositories repoId).bind _ = _
    rw [hrow]
    rfl
  dsimp only at hrest
  rw [hpath] at hrest
  rcases htarget : row.localPath with _ | target
  · rw [htarget] at hrest
    exact .inl hrest
  · rw [htarget] at hrest
    obtain ⟨present, w', hread, hrest⟩ := bind_returns hrest
    obtain ⟨-, rfl⟩ := Prod.mk.inj hread
    split at hrest
    · exact .inl hrest
    · exact .inr ⟨target, rfl, hrest⟩

/-- What is under a key after one key was written. -/
theorem of_update_eq_some {β : Type} {f : String → Option β} {key id : String} {value found : β}
    (h : Function.update f key (some value) id = some found) :
    (id = key ∧ found = value) ∨ (id ≠ key ∧ f id = some found) := by
  by_cases hid : id = key
  · subst hid
    rw [Function.update_self] at h
    exact .inl ⟨rfl, (Option.some.inj h).symm⟩
  · rw [Function.update_of_ne hid] at h
    exact .inr ⟨hid, h⟩

/-- The checkout of a repository is where the service puts it. -/
def Placed (ix : Indexer Raw) (w : World Raw) : Prop :=
  ∀ repoId row target, w.committed.repositories repoId = some row → row.localPath = some target →
    target = workspacePath ix repoId

theorem indexRepository_outcome (repoId : String) (hplaced : Placed ix w₀) (hfresh : FreshIds w₀.committed w₀.points job)
    (full : Bool) : Outcome ix job repoId w₀ (indexRepository ix job repoId full w₀.enter).2 := by
  rcases hchosen : indexChosen ix job repoId full w₀.enter with ⟨failure | u, w⟩
  · have hrestored := failed_restored hfresh.points (hplaced repoId) hchosen
    exact .kept hrestored.committed hrestored.points
  · rcases hrow : w₀.committed.repositories repoId with _ | row
    · rw [indexRepository_none hrow]
      exact .kept (.refl _ _) rfl
    · rw [indexRepository_some hrow, catching_returned hchosen]
      rcases indexChosen_returns hrow hchosen with hfull | ⟨target, hpath, hincremental⟩
      · obtain ⟨scanned, hscan, hbuilt⟩ := (indexFull_built hrow).returns _ rfl _ _ hfull
        exact .full scanned hscan hbuilt
      · obtain ⟨scanned, hscan, hbuilt⟩ := (indexIncremental_built hrow).returns _ rfl _ _ hincremental
        exact .incremental target scanned ⟨row, hrow, hpath⟩ hscan hbuilt

theorem Built.placed {filePaths : Option (List String)} {added scanned : List (ScannedCodeFile Raw)} {chunkCount : ℕ}
    (h : Built ix job repoId target filePaths added scanned chunkCount w₀ w) (hplaced : Placed ix w₀)
    (htarget : target = workspacePath ix repoId) : Placed ix w := by
  intro id row path hrow hpath
  rw [h.committed] at hrow
  rcases of_update_eq_some hrow with ⟨rfl, rfl⟩ | ⟨-, hrow⟩
  · exact (Option.some.inj hpath).symm.trans htarget
  · exact hplaced id row path hrow hpath

theorem SameIndex.placed (h : SameIndex repoId w₀.committed w.committed) (hplaced : Placed ix w₀) : Placed ix w := by
  intro id row path hrow hpath
  by_cases hid : id = repoId
  · subst hid
    have hindex := h.repository
    rw [hrow] at hindex
    obtain ⟨row₀, hrow₀, heq⟩ := Option.map_eq_some_iff.mp hindex.symm
    exact hplaced id row₀ path hrow₀ ((congrArg Repository.localPath heq).trans hpath)
  · rw [h.others id hid] at hrow
    exact hplaced id row path hrow hpath

theorem placed_inductive : (indexing ix).Inductive (Placed ix) := by
  refine ⟨?_, fun {w₀ w e} hplaced he => ?_⟩
  · rintro w rfl
    exact fun _ _ _ hrow => nomatch hrow
  · cases he with
    | register repoId hnone =>
      intro id row path hrow hpath
      rcases of_update_eq_some hrow with ⟨-, rfl⟩ | ⟨-, hrow⟩
      · cases hpath
      · exact hplaced id row path hrow hpath
    | index repoId full job hfresh =>
      cases indexRepository_outcome repoId hplaced hfresh full with
      | kept hcommitted _ => exact hcommitted.placed hplaced
      | full scanned _ hbuilt => exact hbuilt.placed hplaced rfl
      | incremental target scanned hpath _ hbuilt =>
        obtain ⟨row, hrow, hpath⟩ := hpath
        exact hbuilt.placed hplaced (hplaced repoId row target hrow hpath)

/-! ## The index of a scan -/

theorem IndexOf.of_rows {scanned : List (ScannedCodeFile Raw)} {t t' : Tables} {points : String → Option ChunkPoint}
    (h : IndexOf ix repoId scanned t points) (hfiles : t'.files = t.files) (hchunks : t'.chunks = t.chunks) :
    IndexOf ix repoId scanned t' points := by
  have hfilesOf : t'.filesOf repoId = t.filesOf repoId := congrArg (List.filter _) hfiles
  have hchunksOf : t'.chunksOf repoId = t.chunksOf repoId := congrArg (List.filter _) hchunks
  refine ⟨?_, ?_, ?_, ?_, ?_⟩
  · rw [hfilesOf]
    exact h.files
  · rw [hchunksOf]
    exact h.chunks
  · rw [hfilesOf, hchunksOf]
    exact h.linked
  · rw [hchunksOf]
    exact h.embedded
  · rw [hchunksOf]
    exact h.points

/-- The rows and points of a repository are the index of a checkout of these bytes. -/
def Indexed (ix : Indexer Raw) (bytes : Set Raw) (repoId : String) (w : World Raw) : Prop :=
  ∃ (checkout : Checkout Raw) (scanned : List (ScannedCodeFile Raw)), checkout.Within bytes ∧
    scanSourceFiles ix checkout = .ok scanned ∧ IndexOf ix repoId scanned w.committed w.points

/-- So it is for each repository, registered or not. -/
structure Sound (ix : Indexer Raw) (bytes : Set Raw) (w : World Raw) : Prop where
  ids : DistinctIds w.committed
  indexed : ∀ repoId, Indexed ix bytes repoId w

/-- A call that returned has kept that, if the files kept and added are those of the scan. -/
theorem Built.sound {filePaths : Option (List String)} {added scanned : List (ScannedCodeFile Raw)} {chunkCount : ℕ}
    (h : Built ix job repoId target filePaths added scanned chunkCount w₀ w) (hsound : Sound ix bytes w₀)
    (hfresh : FreshIds w₀.committed w₀.points job) (hbytes : job.checkout.Within bytes)
    (hscan : scanSourceFiles ix job.checkout = .ok scanned) {old : List (ScannedCodeFile Raw)}
    (hindex : IndexOf ix repoId old w₀.committed w₀.points)
    (hperm : ((old.filter fun file => ¬ Selected filePaths file.relativePath) ++ added).Perm scanned) :
    Sound ix bytes w ∧ IndexOf ix repoId scanned w.committed w.points := by
  have hself : IndexOf ix repoId scanned w.committed w.points := by
    rw [h.committed, h.points]
    exact (replaced_index hindex hsound.ids hfresh hperm).of_rows rfl rfl
  refine ⟨⟨?_, fun id => ?_⟩, hself⟩
  · rw [h.committed]
    have hids : DistinctIds (replacedTables ix job repoId filePaths added w₀.committed) :=
      replaced_distinct hsound.ids hfresh
    exact ⟨hids.files, hids.chunks⟩
  · by_cases hid : id = repoId
    · subst hid
      exact ⟨_, scanned, hbytes, hscan, hself⟩
    · obtain ⟨checkout, other, hcheckout, hother, hindexOther⟩ := hsound.indexed id
      refine ⟨checkout, other, hcheckout, hother, ?_⟩
      rw [h.committed, h.points]
      exact (replaced_other hid hindexOther hsound.ids hfresh hindex.embedded).of_rows rfl rfl

/-- Each kept file is one with an unchanged hash. -/
theorem IndexOf.hashes_perm {scanned : List (ScannedCodeFile Raw)} {t : Tables} {points : String → Option ChunkPoint}
    (h : IndexOf ix repoId scanned t points) :
    (t.hashes repoId).Perm (scanned.map fun file => (file.relativePath, file.contentHash)) := by
  have := h.files.map fun contents => (contents.filePath, contents.contentHash)
  rw [List.map_map, List.map_map] at this
  exact this

/-- An incremental index leaves the index of the new checkout. -/
theorem BuiltOn.sound {scanned : List (ScannedCodeFile Raw)} (hsha : Set.InjOn ix.sha256 bytes)
    (h : BuiltOn ix job repoId target scanned w₀ w) (hsound : Sound ix bytes w₀)
    (hfresh : FreshIds w₀.committed w₀.points job) (hbytes : job.checkout.Within bytes)
    (hscan : scanSourceFiles ix job.checkout = .ok scanned) :
    Sound ix bytes w ∧ IndexOf ix repoId scanned w.committed w.points := by
  obtain ⟨checkout, old, hcheckout, hold, hindex⟩ := hsound.indexed repoId
  refine Built.sound h hsound hfresh hbytes hscan hindex ?_
  have hperm := kept_changed_perm hsha hcheckout hbytes hold hscan hindex.hashes_perm
  have hselected : (old.filter fun file => ¬ Selected (some (replacedPaths (w₀.committed.hashes repoId) scanned))
      file.relativePath) =
      old.filter fun file => file.relativePath ∉ replacedPaths (w₀.committed.hashes repoId) scanned :=
    List.filter_congr fun file _ => by simp [Selected]
  rw [hselected]
  exact hperm

/-- So does a full index. -/
theorem Built.sound_full {scanned : List (ScannedCodeFile Raw)} {chunkCount : ℕ}
    (h : Built ix job repoId target none scanned scanned chunkCount w₀ w) (hsound : Sound ix bytes w₀)
    (hfresh : FreshIds w₀.committed w₀.points job) (hbytes : job.checkout.Within bytes)
    (hscan : scanSourceFiles ix job.checkout = .ok scanned) :
    Sound ix bytes w ∧ IndexOf ix repoId scanned w.committed w.points := by
  obtain ⟨checkout, old, -, -, hindex⟩ := hsound.indexed repoId
  refine Built.sound h hsound hfresh hbytes hscan hindex ?_
  have hnone : (old.filter fun file => ¬ Selected none file.relativePath) = [] :=
    List.filter_eq_nil_iff.mpr fun file _ => by simp [Selected]
  rw [hnone]
  exact .refl _

theorem SameIndex.sound (h : SameIndex repoId w₀.committed w.committed) (hpoints : w.points = w₀.points)
    (hsound : Sound ix bytes w₀) : Sound ix bytes w := by
  refine ⟨⟨?_, ?_⟩, fun id => ?_⟩
  · rw [h.files]
    exact hsound.ids.files
  · rw [h.chunks]
    exact hsound.ids.chunks
  · obtain ⟨checkout, scanned, hcheckout, hscan, hindex⟩ := hsound.indexed id
    refine ⟨checkout, scanned, hcheckout, hscan, ?_⟩
    rw [hpoints]
    exact hindex.of_rows h.files h.chunks

/-! ## Every state -/

/-- The checkouts that are indexed have files of these bytes only. -/
def IndexEvent.Within (bytes : Set Raw) : IndexEvent Raw → Prop
  | .register _ => True
  | .index _ _ job => job.checkout.Within bytes

/-- Calls whose checkouts have files of these bytes. -/
abbrev indexingOf (ix : Indexer Raw) (bytes : Set Raw) : System (World Raw) (IndexEvent Raw) :=
  (indexing ix).only fun _ e => e.Within bytes

theorem sound_inductive (hsha : Set.InjOn ix.sha256 bytes) :
    (indexingOf ix bytes).Inductive fun w => Placed ix w ∧ Sound ix bytes w := by
  refine ⟨?_, fun {w₀ w e} h he => ⟨placed_inductive.step h.1 he.2, ?_⟩⟩
  · rintro w hw
    refine ⟨placed_inductive.start hw, ?_⟩
    obtain rfl : w = {} := hw
    refine ⟨⟨List.nodup_nil, List.nodup_nil⟩, fun repoId => ⟨⟨[], List.nodup_nil⟩, [], nofun, rfl, ?_⟩⟩
    exact ⟨.refl _, .refl _, nofun, nofun, fun id => ⟨nofun, nofun⟩⟩
  · obtain ⟨hplaced, hsound⟩ := h
    obtain ⟨hwithin, hstep⟩ := he
    cases hstep with
    | register repoId hnone =>
      refine ⟨⟨hsound.ids.files, hsound.ids.chunks⟩, fun id => ?_⟩
      obtain ⟨checkout, scanned, hcheckout, hscan, hindex⟩ := hsound.indexed id
      exact ⟨checkout, scanned, hcheckout, hscan, hindex.of_rows rfl rfl⟩
    | index repoId full job hfresh =>
      cases indexRepository_outcome repoId hplaced hfresh full with
      | kept hcommitted hpoints => exact hcommitted.sound hpoints hsound
      | full scanned hscan hbuilt => exact (hbuilt.sound_full hsound hfresh hwithin hscan).1
      | incremental target scanned _ hscan hbuilt => exact (hbuilt.sound hsha hsound hfresh hwithin hscan).1

/-! ## Incremental equals full -/

/-- The rows of a repository are the same up to ids, and so are its counts. -/
structure SameContents (repoId : String) (t t' : Tables) : Prop where
  files : ((t.filesOf repoId).map (·.toFileContents)).Perm ((t'.filesOf repoId).map (·.toFileContents))
  chunks : ((t.chunksOf repoId).map (·.toChunkContents)).Perm ((t'.chunksOf repoId).map (·.toChunkContents))
  row : ∃ row row', t.repositories repoId = some row ∧ t'.repositories repoId = some row' ∧
    row.fileCount = row'.fileCount ∧ row.chunkCount = row'.chunkCount ∧ row.languageSummary = row'.languageSummary

/-- Each chunk belongs to the row of its file. -/
def Linked (repoId : String) (t : Tables) : Prop :=
  ∀ chunk ∈ t.chunksOf repoId, ∃ file ∈ t.filesOf repoId, file.id = chunk.fileId ∧ file.filePath = chunk.filePath

theorem IndexOf.chunks_length {scanned : List (ScannedCodeFile Raw)} {t : Tables} {points : String → Option ChunkPoint}
    (h : IndexOf ix repoId scanned t points) :
    (t.chunksOf repoId).length = scannedChunkCount scanned := by
  have hcount (scanned : List (ScannedCodeFile Raw)) :
      (scanned.flatMap (·.chunkContents)).length = scannedChunkCount scanned := by
    induction scanned with
    | nil => rfl
    | cons file scanned ih =>
      rw [List.flatMap_cons, List.length_append, ih, scannedChunkCount, ScannedCodeFile.chunkContents, List.length_map]
  have hlength := h.chunks.length_eq
  rw [List.length_map] at hlength
  rw [hlength, hcount]

theorem Built.row {filePaths : Option (List String)} {added scanned : List (ScannedCodeFile Raw)} {chunkCount : ℕ}
    (h : Built ix job repoId target filePaths added scanned chunkCount w₀ w) :
    w.committed.repositories repoId = some (indexedRow job target scanned chunkCount) := by
  rw [h.committed]
  exact Function.update_self ..

/-- After an incremental index, the rows and counts of the repository are those that a full index of the
same checkout leaves, in this state or any other, and the ids of its points are those of its chunks. -/
theorem incremental_eq_full (hsha : Set.InjOn ix.sha256 bytes) {w w' w₁ w₂ : World Raw} {job' : IndexJob Raw}
    (hw : (indexingOf ix bytes).Reachable w) (hw' : (indexingOf ix bytes).Reachable w')
    (hfresh : FreshIds w.committed w.points job) (hfresh' : FreshIds w'.committed w'.points job')
    (hwithin : job.checkout.Within bytes) (hcheckout : job'.checkout = job.checkout)
    (hregistered : (w.committed.repositories repoId).isSome) (hregistered' : (w'.committed.repositories repoId).isSome)
    (hincremental : indexIncremental ix job repoId target w.enter = (.ok (), w₁))
    (hfull : indexFull ix job' repoId w'.enter = (.ok (), w₂)) :
    SameContents repoId w₁.committed w₂.committed ∧ Linked repoId w₁.committed ∧ Linked repoId w₂.committed ∧
      ∀ id, (∃ point, w₁.points id = some point ∧ point.repoId = repoId) ↔
        ∃ chunk ∈ w₁.committed.chunksOf repoId, chunk.id = id := by
  obtain ⟨-, hsound⟩ := (sound_inductive hsha).reachable hw
  obtain ⟨-, hsound'⟩ := (sound_inductive hsha).reachable hw'
  obtain ⟨row, hrow⟩ := Option.isSome_iff_exists.mp hregistered
  obtain ⟨row', hrow'⟩ := Option.isSome_iff_exists.mp hregistered'
  obtain ⟨scanned, hscan, hbuilt⟩ := (indexIncremental_built hrow).returns _ rfl _ _ hincremental
  obtain ⟨scanned', hscan', hbuilt'⟩ := (indexFull_built hrow').returns _ rfl _ _ hfull
  have hsame : scanned' = scanned := by
    rw [hcheckout, hscan] at hscan'
    exact (Except.ok.inj hscan').symm
  subst hsame
  obtain ⟨-, hindex⟩ := hbuilt.sound hsha hsound hfresh hwithin hscan
  obtain ⟨-, hindex'⟩ := hbuilt'.sound_full hsound' hfresh' (hcheckout ▸ hwithin) hscan'
  have hlength := hindex.chunks_length
  rw [hbuilt.committed] at hlength
  exact ⟨⟨hindex.files.trans hindex'.files.symm, hindex.chunks.trans hindex'.chunks.symm,
    _, _, hbuilt.row, hbuilt'.row, rfl, hlength, rfl⟩, hindex.linked, hindex'.linked, hindex.points⟩

namespace Sample

def first : String := "def f():\n    pass\n"

def second : String := "def g():\n    pass\n"

/-- The chunks and hashes of the two files. -/
def indexer : Indexer String where
  workspaceRoot := "/workspaces"
  maxFileSizeBytes := 1000
  size := String.length
  decode := id
  sha256 raw :=
    if raw = first then "16797664978a811647328d92f3a3ca9a3b3a4712db9abc1bd63416b30aca4fe0"
    else if raw = second then "a52628c9ec8f4a4299fdf27ac16cbdb13a737017442debf065be5df0fa569609"
    else ""
  lower := id
  strip := id
  parse _ _ content :=
    if content = first then
      .ok ⟨[], ["f"], [⟨"f", "function", 1, 2, "def f():\n    pass",
        "58b8ff3ff924b02c66c91368ec126913ff191a1ced8ef88c3a0b1b9236218fd1", [], ["f"]⟩]⟩
    else if content = second then
      .ok ⟨[], ["g"], [⟨"g", "function", 1, 2, "def g():\n    pass",
        "4076d62c021a54e9c7309d5d024b56309b06b4caa562c0316ea12a1936f6d24d", [], ["g"]⟩]⟩
    else .ok ⟨[], [], []⟩

/-- A call whose ids begin with a letter of its own. -/
def call (letter : Char) (checkout : Checkout String) : IndexJob String where
  checkout := checkout
  fileId i := String.ofList (letter :: List.replicate i 'f')
  chunkId i j := String.ofList (letter :: (List.replicate i 'c' ++ 'd' :: List.replicate j 'e'))

def old : Checkout String := ⟨[{ path := "a.py", raw := first }], by decide⟩

/-- One file has changed, and one is new. -/
def new : Checkout String := ⟨[{ path := "a.py", raw := second }, { path := "b.py", raw := first }], by decide⟩

def registered : World String :=
  { committed := { repositories := Function.update (fun _ => none) "r" (some {}) } }

def indexed : World String := (indexRepository indexer (call 'x' old) "r" true registered.enter).2

theorem call_fresh {bytes : Set String} {w : World String} {letter : Char} {checkout : Checkout String}
    (hsound : Sound indexer bytes w) (hfiles : ∀ file ∈ w.committed.files, file.id.toList.head? ≠ some letter)
    (hchunks : ∀ chunk ∈ w.committed.chunks, chunk.id.toList.head? ≠ some letter) :
    FreshIds w.committed w.points (call letter checkout) := by
  refine ⟨fun i file hfile hid => hfiles file hfile ?_, fun i j chunk hchunk hid => hchunks chunk hchunk ?_,
    fun i j => ?_, fun i i' hid => ?_, fun i j i' j' hid => ?_⟩
  · rw [hid]
    exact congrArg List.head? String.toList_ofList
  · rw [hid]
    exact congrArg List.head? String.toList_ofList
  · rcases hpoint : w.points ((call letter checkout).chunkId i j) with _ | point
    · rfl
    · obtain ⟨_, _, _, _, hindex⟩ := hsound.indexed point.repoId
      obtain ⟨chunk, hchunk, hid⟩ := (hindex.points _).mp ⟨point, hpoint, rfl⟩
      refine absurd ?_ (hchunks chunk (List.mem_filter.mp hchunk).1)
      rw [hid]
      exact congrArg List.head? String.toList_ofList
  · have := congrArg (List.count 'f') (List.cons.inj (String.ofList_injective hid)).2
    simpa using this
  · have htail := (List.cons.inj (String.ofList_injective hid)).2
    have hc := congrArg (List.count 'c') htail
    have he := congrArg (List.count 'e') htail
    simp [List.count_replicate] at hc he
    exact ⟨hc, he⟩

abbrev contents : Set String := {first, second}

theorem sha256_injOn : Set.InjOn indexer.sha256 contents := Set.injOn_pair.mpr (by decide)

theorem old_within : old.Within contents := by simp [Checkout.Within, old]

theorem new_within : new.Within contents := by simp [Checkout.Within, new]

theorem registered_reachable : (indexingOf indexer contents).Reachable registered :=
  System.Reachable.step (.start rfl) (e := .register "r") ⟨trivial, .register _ _ rfl⟩

theorem registered_fresh (letter : Char) (checkout : Checkout String) :
    FreshIds registered.committed registered.points (call letter checkout) :=
  call_fresh ((sound_inductive sha256_injOn).reachable registered_reachable).2 nofun nofun

theorem indexed_reachable : (indexingOf indexer contents).Reachable indexed :=
  registered_reachable.step (e := .index "r" true (call 'x' old)) ⟨old_within, .index _ _ _ _ (registered_fresh 'x' old)⟩

theorem indexed_fresh : FreshIds indexed.committed indexed.points (call 'y' new) := by
  refine call_fresh ((sound_inductive sha256_injOn).reachable indexed_reachable).2 ?_ ?_
  · decide +kernel
  · decide +kernel

end Sample

/-- One of two files is new and one has changed; the full index is of a repository that has none yet. -/
theorem incremental_eq_full_sample :
    ((indexIncremental Sample.indexer (Sample.call 'y' Sample.new) "r" "/workspaces/r" Sample.indexed.enter).2.committed.files.map
      (·.filePath) = ["a.py", "b.py"]) ∧
    SameContents "r"
      (indexIncremental Sample.indexer (Sample.call 'y' Sample.new) "r" "/workspaces/r" Sample.indexed.enter).2.committed
      (indexFull Sample.indexer (Sample.call 'z' Sample.new) "r" Sample.registered.enter).2.committed := by
  have hincremental : (indexIncremental Sample.indexer (Sample.call 'y' Sample.new) "r" "/workspaces/r"
      Sample.indexed.enter).1 = .ok () := by decide +kernel
  have hfull : (indexFull Sample.indexer (Sample.call 'z' Sample.new) "r" Sample.registered.enter).1 = .ok () := by
    decide +kernel
  refine ⟨by decide +kernel, ?_⟩
  exact (incremental_eq_full Sample.sha256_injOn Sample.indexed_reachable Sample.registered_reachable
    Sample.indexed_fresh (Sample.registered_fresh 'z' Sample.new) Sample.new_within rfl (by decide +kernel)
    (by decide +kernel) (Prod.ext hincremental rfl) (Prod.ext hfull rfl)).1

/-! ## A failed index -/

/-- A call that raises, at any step, leaves the index that was in force. -/
theorem failed_index_restored {full : Bool} {failure : Failure} (hw : (indexing ix).Reachable w₀)
    (hfresh : FreshIds w₀.committed w₀.points job)
    (hraised : indexChosen ix job repoId full w₀.enter = (.error failure, w)) :
    Restored repoId (workspacePath ix repoId) (stagingPath ix repoId) w₀
      (indexRepository ix job repoId full w₀.enter).2 :=
  failed_restored hfresh.points (placed_inductive.reachable hw repoId) hraised

namespace Sample

/-- The commit fails, once the points are written and the checkout is swapped. -/
def failing : IndexJob String :=
  { call 'y' new with raises := fun step => if step = .commit then some "connection lost" else none }

theorem failing_fresh : FreshIds indexed.committed indexed.points failing :=
  ⟨indexed_fresh.files, indexed_fresh.chunks, indexed_fresh.points, indexed_fresh.fileIds, indexed_fresh.chunkIds⟩

end Sample

theorem failed_index_restored_sample :
    (indexRepository Sample.indexer Sample.failing "r" false Sample.indexed.enter).2.committed.repositories "r" =
      some { localPath := some "/workspaces/r", status := "failed", languageSummary := [("python", 1)], fileCount := 1,
             chunkCount := 1, indexedAt := some "",
             errorMessage := some "Repository indexing failed. Check repository contents and configuration." } ∧
    Restored "r" "/workspaces/r" "/workspaces/r.staging" Sample.indexed
      (indexRepository Sample.indexer Sample.failing "r" false Sample.indexed.enter).2 := by
  have hraised : (indexChosen Sample.indexer Sample.failing "r" false Sample.indexed.enter).1 =
      .error "connection lost" := by decide +kernel
  obtain ⟨s, es, hs, hrun⟩ := Sample.indexed_reachable
  refine ⟨by decide +kernel, ?_⟩
  exact @failed_index_restored _ Sample.indexer Sample.failing "r" _ _ false _ ⟨s, es, hs, hrun.of_only⟩
    Sample.failing_fresh (Prod.ext hraised rfl)

end CodeMate.Indexing
