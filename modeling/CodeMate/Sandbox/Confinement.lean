import CodeMate.Sandbox.Archive
import CodeMate.Sandbox.Handlers

/-!
# The workspace of an execution

The plane joins the id of an execution to its workspace root, removes what is
there and extracts an archive into it; the Kubernetes backend joins it once
more. `StaysInside` says that a step of it changes nothing outside the root and
nothing of another execution. `workspace_confined_iff` says for which ids of
the request's shape that holds: those that are one name.
-/

namespace CodeMate.Sandbox

open Framework FileSystem

/-! ## Removal and creation -/

section Workspace

variable {Encoded Payload : Type} (formats : Formats Encoded Payload) (links newMode : ℕ)

/-- `root.resolve() / execution_id`, for the resolved root. -/
def workspaceOf (root : NamePath) (executionId : List Char) : List Name := joinName root executionId

/-- `if workspace.exists(): shutil.rmtree(workspace)`; a path with a null character does not exist. -/
def removeWorkspace (root : NamePath) (executionId : List Char) : Effect (Disk Bytes) OsError Unit := fun disk =>
  if '\x00' ∉ executionId ∧ disk.fs.pathExists links (workspaceOf root executionId) then
    Disk.rmtree links (workspaceOf root executionId) disk
  else (.ok (), disk)

/-- The extraction into the workspace; `mkdir` refuses a null character. -/
def extractWorkspace (root : NamePath) (executionId : List Char) (encoded : Encoded) (expectedSha256 : String)
    (maxBytes maxFiles : ℕ) : Effect (Disk Bytes) ArchiveError Unit := fun disk =>
  if '\x00' ∈ executionId then (.error .embeddedNull, disk)
  else
    extractArchive formats links newMode encoded (workspaceOf root executionId) expectedSha256 maxBytes maxFiles disk

/-- The beginning of `execute_kubernetes`. The plane's workspace is the expected path as it is written,
so after the removal there is nothing to move. -/
def placeWorkspace (root : NamePath) (executionId : List Char) : Effect (Disk Bytes) ArchiveError Unit := fun disk =>
  if '\x00' ∈ executionId then (.error .embeddedNull, disk)
  else
    match disk.fs.resolve links (workspaceOf root executionId) with
    | none => (.error .symlinkLoop, disk)
    | some resolved =>
      if resolved = workspaceOf root executionId then (.ok (), disk)
      else
        (do
          Effect.mapError .os (Disk.mkdirParents links true (workspaceOf root executionId).dropLast)
          Effect.mapError .os (removeWorkspace links root executionId)
          Effect.ofExcept (.error (.os .fileNotFound)) : Effect (Disk Bytes) ArchiveError Unit) disk

end Workspace

/-! ## Where a workspace is -/

/-- Where the workspace is when there are no links. -/
def workspacePath (root : NamePath) (executionId : List Char) : NamePath := collapse [] (workspaceOf root executionId)

/-- Strictly below every root. -/
def Confined (executionId : List Char) : Prop :=
  ∀ root : NamePath, dots ∉ root → root <+: workspacePath root executionId ∧ workspacePath root executionId ≠ root

/-- A change at or below a path, or of everything about it. -/
def Touches (change : Change Bytes) (path : NamePath) : Prop :=
  path <+: change.path ∨ ∃ top, change = .rmtree top ∧ top <+: path

/-- What was changed lies strictly below the root, and in no workspace of another request whose own is
confined. -/
def StaysInside (root : NamePath) (request : ExecutionRequest) (disk disk' : Disk Bytes) : Prop :=
  ∃ new, disk'.changes = new ++ disk.changes ∧ ∀ change ∈ new,
    (root <+: change.path ∧ change.path ≠ root) ∧
    ∀ other : ExecutionRequest, other.executionId ≠ request.executionId → Confined other.executionId.toList →
      ¬ Touches change (workspacePath root other.executionId.toList)

/-- An id that is one name, but for a slash at its end. -/
def SingleName (executionId : List Char) : Prop := '/' ∉ executionId.dropLast

/-! ## Ids that are one name -/

theorem names_single {executionId : List Char} (hlength : executionId.length = 36) (h : SingleName executionId) :
    ∃ name, names executionId = [name] ∧ isAbsolute executionId = false ∧ name ≠ dots ∧
      (executionId = name ∨ executionId = name ++ ['/']) := by
  rcases List.eq_nil_or_concat executionId with rfl | ⟨front, c, rfl⟩
  · simp at hlength
  · rw [List.concat_eq_append] at *
    rw [SingleName, List.dropLast_concat] at h
    rw [List.length_append, List.length_singleton] at hlength
    have hrelative (text : List Char) (htext : front <+: text) : isAbsolute text = false := by
      obtain ⟨rest, rfl⟩ := htext
      cases front with
      | nil => simp at hlength
      | cons first front =>
        have hfirst : first ≠ '/' := fun heq => h (heq ▸ List.mem_cons_self ..)
        simpa [isAbsolute] using hfirst
    have hlong (text : List Char) (hsize : 35 ≤ text.length) : text ≠ [] ∧ text ≠ ['.'] ∧ text ≠ dots := by
      refine ⟨?_, ?_, ?_⟩ <;> rintro rfl <;> simp [dots] at hsize
    by_cases hc : c = '/'
    · subst hc
      obtain ⟨hne, hhere, habove⟩ := hlong front (by omega)
      refine ⟨front, ?_, hrelative _ (List.prefix_append ..), habove, Or.inr rfl⟩
      rw [names, cut_append [] h]
      simp [cut, hne, hhere]
    · obtain ⟨hne, hhere, habove⟩ := hlong (front ++ [c]) (by simp; omega)
      refine ⟨front ++ [c], ?_, hrelative _ (List.prefix_append ..), habove, Or.inl rfl⟩
      have hslash : '/' ∉ front ++ [c] := by simp [h, Ne.symm hc]
      rw [names, cut_of_not_mem hslash, List.filter_singleton]
      simp [hhere]

/-! ## Other workspaces -/

theorem workspacePath_of_relative {root : NamePath} {executionId : List Char} (hroot : dots ∉ root)
    (h : isAbsolute executionId = false) : workspacePath root executionId = collapse root (names executionId) := by
  rw [workspacePath, workspaceOf, joinName, h, if_neg (by simp), collapse_append, collapse_of_down hroot,
    List.nil_append]

/-- What goes down by a name is below every root. -/
theorem confined_of_down {executionId : List Char} (h : isAbsolute executionId = false)
    (hne : names executionId ≠ []) (hdown : dots ∉ names executionId) : Confined executionId := by
  intro root hroot
  rw [workspacePath_of_relative hroot h, collapse_of_down hdown]
  exact ⟨List.prefix_append .., by simpa using hne⟩

/-- An absolute path is not below itself. -/
theorem Confined.relative {executionId : List Char} (h : Confined executionId) : isAbsolute executionId = false := by
  by_contra habsolute
  rw [Bool.not_eq_false] at habsolute
  have hpath (root : NamePath) : workspacePath root executionId = collapse [] (names executionId) := by
    rw [workspacePath, workspaceOf, joinName, if_pos habsolute]
  have hdots : dots ∉ collapse [] (names executionId) := dots_not_mem_collapse List.not_mem_nil
  exact (h _ hdots).2 (hpath _)

/-- The workspace of a single name and a confined one are apart. -/
theorem single_apart {executionId other : List Char} {root : NamePath} {name : Name} (hroot : dots ∉ root)
    (hid : executionId = name ∨ executionId = name ++ ['/']) (hlength : executionId.length = 36)
    (hother : other.length = 36) (hne : other ≠ executionId) (h : Confined other) :
    ¬ (workspacePath root other <+: root ++ [name] ∨ root ++ [name] <+: workspacePath root other) := by
  have hrelative := h.relative
  obtain ⟨⟨below, hbelow⟩, hstrict⟩ := h root hroot
  have hnil : below ≠ [] := by
    rintro rfl
    rw [List.append_nil] at hbelow
    exact hstrict hbelow.symm
  intro hcomparable
  -- the first name below the root is the single name, so it is one of the other's names
  have hhead : name ∈ below := by
    rw [← hbelow, List.prefix_append_right_inj, List.prefix_append_right_inj] at hcomparable
    rcases hcomparable with ⟨rest, hrest⟩ | ⟨rest, hrest⟩
    · cases below with
      | nil => exact absurd rfl hnil
      | cons first below =>
        obtain rfl : first = name := (List.cons.inj hrest).1
        exact List.mem_cons_self ..
    · rw [← hrest]
      exact List.mem_append_left _ (List.mem_singleton_self _)
  have hmem : name ∈ names other := by
    have hdrop : name ∈ (collapse root (names other)).drop root.length := by
      rw [← workspacePath_of_relative hroot hrelative, ← hbelow, List.drop_left]
      exact hhead
    rcases mem_drop_collapse hdrop with hnames | hroot
    · exact hnames
    · simp at hroot
  obtain ⟨hslash, before, after, htext, hbefore, hafter⟩ := mem_cut (List.mem_of_mem_filter hmem)
  have hsize : before.length + name.length + after.length = 36 := by
    rw [← hother, htext, List.length_append, List.length_append]
  have hname : 35 ≤ name.length := by
    rcases hid with rfl | rfl
    · omega
    · simp at hlength
      omega
  cases before with
  | cons c before =>
    have hlast : before = [] := List.length_eq_zero_iff.mp (by simp at hsize; omega)
    subst hlast
    have hc : c = '/' := (List.mem_singleton.mp (hbefore (by simp))).symm
    rw [htext, hc] at hrelative
    cases hrelative
  | nil =>
    cases after with
    | nil =>
      have hlong : name.length = 36 := by simpa using hsize
      rcases hid with rfl | rfl
      · exact hne (by simpa using htext)
      · simp at hlength
        omega
    | cons c after =>
      have hlast : after = [] := List.length_eq_zero_iff.mp (by simp at hsize; omega)
      subst hlast
      have hc : c = '/' := (List.mem_singleton.mp (hafter (by simp))).symm
      rcases hid with rfl | rfl
      · simp at hsize
        omega
      · exact hne (by simpa [hc] using htext)

/-! ## What a single name keeps apart -/

section Single

variable {Encoded Payload : Type} {formats : Formats Encoded Payload} {links newMode maxBytes maxFiles : ℕ}
  {root : NamePath} {name : Name} {disk disk' : Disk Bytes}

/-- Changes at or below the workspace of a single name. -/
theorem staysInside_of_below {request : ExecutionRequest} (hroot : dots ∉ root)
    (hid : request.executionId.toList = name ∨ request.executionId.toList = name ++ ['/'])
    (h : ∃ new, disk'.changes = new ++ disk.changes ∧ ∀ change ∈ new, root ++ [name] <+: change.path) :
    StaysInside root request disk disk' := by
  obtain ⟨new, hnew, hbelow⟩ := h
  refine ⟨new, hnew, fun change hmem => ⟨⟨(List.prefix_append ..).trans (hbelow change hmem), fun heq => ?_⟩,
    fun other hne hconfined htouches => ?_⟩⟩
  · have hlength := (hbelow change hmem).length_le
    rw [heq, List.length_append, List.length_singleton] at hlength
    omega
  · have hne' : other.executionId.toList ≠ request.executionId.toList := fun heq => hne (String.ext heq)
    have hlength (request : ExecutionRequest) : request.executionId.toList.length = 36 := by
      rw [String.length_toList]
      exact request.executionId_length
    refine single_apart hroot hid (hlength request) (hlength other) hne' hconfined ?_
    rcases htouches with hunder | ⟨top, rfl, hover⟩
    · exact List.prefix_or_prefix_of_prefix hunder (hbelow change hmem)
    · exact Or.inr ((hbelow _ hmem).trans hover)

theorem unchanged_below (disk : Disk Bytes) (path : NamePath) :
    ∃ new, disk.changes = new ++ disk.changes ∧ ∀ change ∈ new, path <+: change.path :=
  ⟨[], rfl, by simp⟩

/-- A removal of the name below the root. -/
theorem rmtree_below {result : Except OsError Unit} (hplain : disk.fs.Plain root) (hname : name ≠ dots)
    (h : Disk.rmtree links (root ++ [name]) disk = (result, disk')) :
    ∃ new, disk'.changes = new ++ disk.changes ∧ ∀ change ∈ new, root ++ [name] <+: change.path := by
  rcases Disk.rmtree_cases h with rfl | ⟨path, hlstat, hfollow, hchanges⟩
  · exact unchanged_below _ _
  · have hnode := (lstat_of_plain hplain hname).mp hlstat
    have hall : disk.fs.Plain (root ++ [name]) := hplain.concat hname (by simp [hnode])
    obtain rfl := follow_of_plain hall hfollow
    refine ⟨_ :: [], hchanges, fun change hmem => ?_⟩
    rw [List.mem_singleton.mp hmem]
    exact List.prefix_refl _

theorem removeWorkspace_below {executionId : List Char} (hplain : disk.fs.Plain root) (hname : name ≠ dots)
    (hjoin : workspaceOf root executionId = root ++ [name]) {result : Except OsError Unit}
    (h : removeWorkspace links root executionId disk = (result, disk')) :
    ∃ new, disk'.changes = new ++ disk.changes ∧ ∀ change ∈ new, root ++ [name] <+: change.path := by
  rw [removeWorkspace, hjoin] at h
  split at h
  · exact rmtree_below hplain hname h
  · cases h
    exact unchanged_below _ _

/-- An extraction to a name below the root, which is there. -/
theorem extractArchive_below {encoded : Encoded} {digest : String} (hplain : disk.fs.Plain root)
    (hdir : disk.fs.node root = some .dir) (hname : name ≠ dots) :
    ∃ new, (extractArchive formats links newMode encoded (root ++ [name]) digest maxBytes maxFiles disk).2.changes =
      new ++ disk.changes ∧ ∀ change ∈ new, root ++ [name] <+: change.path := by
  have hcontained :=
    contained_of_extractArchive formats links newMode encoded (root ++ [name]) digest maxBytes maxFiles disk
  by_cases hnode : disk.fs.node (root ++ [name]) = none
  · generalize (extractArchive formats links newMode encoded (root ++ [name]) digest maxBytes maxFiles disk).2 = disk'
      at hcontained ⊢
    have hthere (above : NamePath) (habove : above <+: root) : disk.fs.node above ≠ none := by
      obtain ⟨rest, hrest⟩ := habove
      have hroot : disk.fs.node (above ++ rest) ≠ none := by simp [hrest, hdir]
      exact node_of_below hroot
    have hsame (above : NamePath) (habove : above <+: root) : disk'.fs.node above = disk.fs.node above := by
      by_contra hne
      exact hthere above habove (hcontained.nodes above hne).1
    have hall : disk'.fs.Plain (root ++ [name]) := by
      refine Plain.concat ⟨hplain.down, fun above habove target => ?_⟩ hname fun target htarget => ?_
      · rw [hsame above habove]
        exact hplain.noLink above habove target
      · have hne : disk'.fs.node (root ++ [name]) ≠ disk.fs.node (root ++ [name]) := by simp [htarget, hnode]
        rcases (hcontained.nodes _ hne).2 with ⟨-, hmade | ⟨contents, mode, hmade⟩⟩ | ⟨-, hmade⟩ <;>
          cases htarget.symm.trans hmade
    obtain ⟨new, hnew, hpaths, -⟩ := hcontained.changes
    refine ⟨new, hnew, fun change hmem => ?_⟩
    rcases hpaths change hmem with ⟨top, hfollow, htop⟩ | ⟨-, hnone, k, hk, hfollow⟩
    · rw [← follow_of_plain hall hfollow]
      exact htop
    · -- what is above the destination is there already
      have htake : (root ++ [name]).take k <+: root := by
        rw [List.length_append, List.length_singleton] at hk
        rw [List.take_append_of_le_length (by omega)]
        exact List.take_prefix ..
      rw [follow_of_plain (hall.above (List.take_prefix ..)) hfollow] at hnone
      exact absurd hnone (hthere _ htake)
  · have hmkdir : Disk.mkdirParents links false (root ++ [name]) disk = (.error .fileExists, disk) :=
      Disk.mkdirParents_exists hplain hdir hnode
    have hsame : (extractArchive formats links newMode encoded (root ++ [name]) digest maxBytes maxFiles disk).2 =
        disk := by
      rcases extractArchive_cases formats links newMode encoded (root ++ [name]) digest maxBytes maxFiles disk with
        hsame | ⟨payload, -, -, hextract⟩
      · exact hsame
      · rw [hextract]
        simp only [Bind.bind, Effect.bind, Effect.mapError, hmkdir, Except.mapError]
    rw [hsame]
    exact unchanged_below _ _

theorem placeWorkspace_below {executionId : List Char} (hplain : disk.fs.Plain root)
    (hdir : disk.fs.node root = some .dir) (hname : name ≠ dots)
    (hjoin : workspaceOf root executionId = root ++ [name]) :
    ∃ new, (placeWorkspace links root executionId disk).2.changes = new ++ disk.changes ∧
      ∀ change ∈ new, root ++ [name] <+: change.path := by
  rw [placeWorkspace]
  split
  · exact unchanged_below _ _
  · split
    · exact unchanged_below _ _
    · split
      · exact unchanged_below _ _
      · have hmkdir : Disk.mkdirParents links true root disk = (.ok (), disk) := Disk.mkdirParents_dir hplain hdir
        rcases hremove : removeWorkspace links root executionId disk with ⟨result, disk'⟩
        have hbelow := removeWorkspace_below hplain hname hjoin hremove
        rw [hjoin, List.dropLast_concat]
        simp only [Bind.bind, Effect.bind, Effect.mapError, hmkdir, Except.mapError, hremove]
        cases result with
        | ok a => exact hbelow
        | error error => exact hbelow

end Single

/-! ## Other ids -/

section Other

variable {links : ℕ} {executionId : List Char}

/-- Where every path is a directory, the workspace is removed wherever it is. -/
theorem removeWorkspace_full (root : NamePath) (hnull : '\x00' ∉ executionId) :
    (removeWorkspace links root executionId ⟨FileSystem.full, []⟩).2.changes =
      [.rmtree (workspacePath root executionId)] := by
  have hstat (raw : List Name) : (FileSystem.full : FileSystem Bytes).stat links raw = .ok .dir := by
    rw [stat, follow_full]
    rfl
  have hlstat (raw : List Name) : (FileSystem.full : FileSystem Bytes).lstat links raw = .ok .dir := by
    rw [lstat]
    split
    · rfl
    · split
      · exact hstat raw
      · rw [follow_full]
        rfl
  have hexists (raw : List Name) : (FileSystem.full : FileSystem Bytes).pathExists links raw = true := by
    rw [pathExists, hstat]
  rw [removeWorkspace, if_pos ⟨hnull, hexists _⟩, Disk.rmtree, hlstat, follow_full]
  dsimp only
  split <;> rfl

theorem cut_slashes (k : ℕ) : cut (List.replicate k '/') = List.replicate (k + 1) [] := by
  induction k with
  | zero => rfl
  | succ k ih =>
    rw [List.replicate_succ, cut, if_pos rfl, ih]
    rfl

/-- A name with slashes after it. -/
theorem names_padded {name : Name} (hslash : '/' ∉ name) (hne : name ≠ []) (hhere : name ≠ ['.']) (k : ℕ) :
    names (name ++ List.replicate k '/') = [name] := by
  have hcut : cut (name ++ List.replicate k '/') = name :: List.replicate k [] := by
    cases k with
    | zero => rw [List.replicate_zero, List.append_nil, cut_of_not_mem hslash]; rfl
    | succ k => rw [List.replicate_succ, cut_append _ hslash, cut_slashes]
  rw [names, hcut, List.filter_cons_of_pos (by simp [hne, hhere]), List.filter_eq_nil_iff.mpr]
  intro other hother
  simp [List.eq_of_mem_replicate hother]

/-- A name below another. -/
theorem names_nested {name below : Name} (hslash : '/' ∉ name) (hne : name ≠ []) (hhere : name ≠ ['.'])
    (hslash' : '/' ∉ below) (hne' : below ≠ []) (hhere' : below ≠ ['.']) :
    names (name ++ '/' :: below) = [name, below] := by
  rw [names, cut_append _ hslash, cut_of_not_mem hslash', List.filter_cons_of_pos (by simp [hne, hhere]),
    List.filter_cons_of_pos (by simp [hne', hhere']), List.filter_nil]

theorem isAbsolute_append {name rest : List Char} (hslash : '/' ∉ name) (hne : name ≠ []) :
    isAbsolute (name ++ rest) = false := by
  cases name with
  | nil => exact absurd rfl hne
  | cons c name =>
    have hc : c ≠ '/' := fun heq => hslash (heq ▸ List.mem_cons_self ..)
    simpa [isAbsolute] using hc

/-- A confined id of more than one name overlaps the workspace of another one. -/
theorem exists_overlap (hlength : executionId.length = 36) (hconfined : Confined executionId)
    (hslashes : ¬ SingleName executionId) : ∃ other : List Char, other.length = 36 ∧ other ≠ executionId ∧
      Confined other ∧ (workspacePath [] other <+: workspacePath [] executionId ∨
        workspacePath [] executionId <+: workspacePath [] other) := by
  have hpath : workspacePath [] executionId = collapse [] (names executionId) :=
    workspacePath_of_relative List.not_mem_nil hconfined.relative
  have hdots : dots ∉ workspacePath [] executionId := hpath ▸ dots_not_mem_collapse List.not_mem_nil
  have hstrict := (hconfined [] List.not_mem_nil).2
  obtain ⟨name, rest, hnames⟩ : ∃ name rest, workspacePath [] executionId = name :: rest :=
    List.exists_cons_of_ne_nil hstrict
  have hname : name ≠ dots := fun heq => hdots (hnames ▸ heq ▸ List.mem_cons_self ..)
  have hmem : name ∈ names executionId := by
    have hdrop : name ∈ (collapse [] (names executionId)).drop 0 := by
      rw [← hpath, hnames]
      exact List.mem_cons_self ..
    rcases mem_drop_collapse hdrop with hmem | hmem
    · exact hmem
    · cases hmem
  obtain ⟨hne, hhere⟩ : name ≠ [] ∧ name ≠ ['.'] := by simpa using List.of_mem_filter hmem
  obtain ⟨hslash, before, after, htext, -, -⟩ := mem_cut (List.mem_of_mem_filter hmem)
  have hle : name.length ≤ 36 := by
    rw [← hlength, htext, List.length_append, List.length_append]
    omega
  have hpadded := names_padded hslash hne hhere (36 - name.length)
  have hrelative (rest : List Char) : isAbsolute (name ++ rest) = false := isAbsolute_append hslash hne
  by_cases hsame : name ++ List.replicate (36 - name.length) '/' = executionId
  · -- the id is the name with slashes after it; a name below it is another id
    have hlong : name.length ≤ 34 := by
      by_contra hshort
      refine hslashes ?_
      rw [SingleName, ← hsame]
      rcases (by omega : name.length = 35 ∨ name.length = 36) with hsize | hsize
      · rw [hsize, show 36 - 35 = 1 from rfl, List.replicate_one, List.dropLast_concat]
        exact hslash
      · rw [hsize, Nat.sub_self, List.replicate_zero, List.append_nil]
        exact fun hmem => hslash ((List.dropLast_sublist name).subset hmem)
    have hbelow : List.replicate (35 - name.length) 'x' ≠ [] ∧ List.replicate (35 - name.length) 'x' ≠ ['.'] ∧
        '/' ∉ List.replicate (35 - name.length) 'x' ∧ List.replicate (35 - name.length) 'x' ≠ dots := by
      refine ⟨by simp; omega, fun heq => ?_, by simp, fun heq => ?_⟩
      · have hdot : '.' ∈ List.replicate (35 - name.length) 'x' := by simp [heq]
        simp at hdot
      · have hdot : '.' ∈ List.replicate (35 - name.length) 'x' := by simp [heq, dots]
        simp at hdot
    have hnested := names_nested hslash hne hhere hbelow.2.2.1 hbelow.1 hbelow.2.1
    refine ⟨name ++ '/' :: List.replicate (35 - name.length) 'x', by simp; omega, fun heq => ?_,
      confined_of_down (hrelative _) (by simp [hnested]) (by simp [hnested, Ne.symm hname, Ne.symm hbelow.2.2.2]),
        Or.inr ?_⟩
    · rw [← hsame] at heq
      have hx : 'x' ∈ List.replicate (36 - name.length) '/' := by
        rw [← List.append_cancel_left heq]
        exact List.mem_cons_of_mem _ (List.mem_replicate.mpr ⟨by omega, rfl⟩)
      simp at hx
    · rw [hpath, ← hsame, hpadded, workspacePath_of_relative List.not_mem_nil (hrelative _), hnested,
        collapse_of_down (by simp [Ne.symm hname]), collapse_of_down (by simp [Ne.symm hname, Ne.symm hbelow.2.2.2])]
      exact List.prefix_append [name] _
  · refine ⟨name ++ List.replicate (36 - name.length) '/', by simp; omega, hsame,
      confined_of_down (hrelative _) (by simp [hpadded]) (by simp [hpadded, Ne.symm hname]), Or.inl ?_⟩
    rw [workspacePath_of_relative List.not_mem_nil (hrelative _), hpadded, collapse_of_down (by simp [Ne.symm hname]),
      hnames]
    exact List.prefix_append [name] rest

end Other

/-! ## Confined workspaces -/

/-- The removal of the workspace, the extraction into it and what the backend does with it change
nothing outside the root and nothing of another execution, for every root that is there and every
disk, exactly when the id is a single name (or is no path). -/
theorem workspace_confined_iff {Encoded Payload : Type} (formats : Formats Encoded Payload) (links newMode : ℕ)
    (request : ExecutionRequest) :
    (∀ (root : NamePath) (disk : Disk Bytes), disk.fs.Plain root → disk.fs.node root = some .dir →
      StaysInside root request disk (removeWorkspace links root request.executionId.toList disk).2 ∧
      (∀ encoded digest maxBytes maxFiles, StaysInside root request disk
        (extractWorkspace formats links newMode root request.executionId.toList encoded digest maxBytes maxFiles disk).2) ∧
      StaysInside root request disk (placeWorkspace links root request.executionId.toList disk).2) ↔
      SingleName request.executionId.toList ∨ '\x00' ∈ request.executionId.toList := by
  have hlength : request.executionId.toList.length = 36 := by
    rw [String.length_toList]
    exact request.executionId_length
  refine ⟨fun h => ?_, fun h root disk hplain hdir => ?_⟩
  · by_contra hbad
    obtain ⟨hslashes, hnull⟩ := not_or.mp hbad
    have hremove (root : NamePath) (hroot : dots ∉ root) :
        StaysInside root request ⟨FileSystem.full, []⟩
          (removeWorkspace links root request.executionId.toList ⟨FileSystem.full, []⟩).2 :=
      (h root ⟨FileSystem.full, []⟩ ⟨hroot, nofun⟩ rfl).1
    have hchange (root : NamePath) (hroot : dots ∉ root) :
        (root <+: workspacePath root request.executionId.toList ∧
          workspacePath root request.executionId.toList ≠ root) ∧
        ∀ other : ExecutionRequest, other.executionId ≠ request.executionId → Confined other.executionId.toList →
          ¬ Touches (.rmtree (workspacePath root request.executionId.toList))
            (workspacePath root other.executionId.toList) := by
      obtain ⟨new, hnew, hall⟩ := hremove root hroot
      rw [removeWorkspace_full root hnull, List.append_nil] at hnew
      exact hall _ (hnew ▸ List.mem_singleton_self _)
    obtain ⟨other, hother, hne, hconfined, hoverlap⟩ :=
      exists_overlap hlength (fun root hroot => (hchange root hroot).1) hslashes
    have hsize : (String.ofList other).length = 36 := by rw [String.length_ofList]; exact hother
    refine (hchange [] List.not_mem_nil).2
      { request with executionId := String.ofList other, executionId_length := hsize } (fun heq => hne ?_) ?_ ?_
    · show other = _
      rw [← heq, String.toList_ofList]
    · show Confined (String.ofList other).toList
      rwa [String.toList_ofList]
    · show Touches _ (workspacePath [] (String.ofList other).toList)
      rw [String.toList_ofList]
      exact hoverlap.imp_right fun hover => ⟨_, rfl, hover⟩
  · have hunchanged : StaysInside root request disk disk := ⟨[], rfl, by simp⟩
    by_cases hnull : '\x00' ∈ request.executionId.toList
    · rw [removeWorkspace, if_neg fun hexists => hexists.1 hnull, placeWorkspace, if_pos hnull]
      refine ⟨hunchanged, fun encoded digest maxBytes maxFiles => ?_, hunchanged⟩
      rw [extractWorkspace, if_pos hnull]
      exact hunchanged
    · obtain ⟨name, hnames, hrelative, hname, hid⟩ := names_single hlength (h.resolve_right hnull)
      have hjoin : workspaceOf root request.executionId.toList = root ++ [name] := by
        rw [workspaceOf, joinName, hrelative, hnames]
        rfl
      refine ⟨staysInside_of_below hplain.down hid (removeWorkspace_below hplain hname hjoin rfl),
        fun encoded digest maxBytes maxFiles => ?_,
        staysInside_of_below hplain.down hid (placeWorkspace_below hplain hdir hname hjoin)⟩
      rw [extractWorkspace, if_neg hnull, hjoin]
      exact staysInside_of_below hplain.down hid (extractArchive_below hplain hdir hname)

/-- Twelve steps up, in the shape of an id. -/
def stepsUp : ExecutionRequest where
  executionId := "../../../../../../../../../../../../"
  archiveBase64 := "H4sIAAAA"
  archiveSha256 := "e3b0c44298fc1c149afbf4c8996fb92427ae41e4649b934ca495991b7852b855"
  command := "pytest"
  shellCommand := "pytest"
  image := "codemate-sandbox-python"
  requestedRuntime := .docker
  timeoutSeconds := 60
  executionId_length := by decide
  timeoutSeconds_pos := by decide
  timeoutSeconds_le := by decide

/-- Its workspace is the root of the file system, and that is removed. -/
theorem workspace_confined_steps_up :
    ¬ ∀ (request : ExecutionRequest) (root : NamePath) (disk : Disk Bytes), disk.fs.Plain root →
      disk.fs.node root = some .dir →
      StaysInside root request disk (removeWorkspace 0 root request.executionId.toList disk).2 ∧
      (∀ encoded digest maxBytes maxFiles, StaysInside root request disk
        (extractWorkspace emptyFormats 0 0 root request.executionId.toList encoded digest maxBytes maxFiles disk).2) ∧
      StaysInside root request disk (placeWorkspace 0 root request.executionId.toList disk).2 := by
  intro h
  let disk : Disk Bytes := ⟨FileSystem.empty.put [] ['w'] .dir rfl nofun, []⟩
  have hnode (path : NamePath) : disk.fs.node path = if path = [['w']] then some .dir
      else if path = [] then some .dir else none := rfl
  have hplain : disk.fs.Plain [['w']] := by
    refine ⟨by decide, fun above _ target htarget => ?_⟩
    rw [hnode] at htarget
    split at htarget
    · cases htarget
    · split at htarget <;> cases htarget
  obtain ⟨new, hnew, hall⟩ := (h stepsUp [['w']] disk hplain rfl).1
  have hchanges : (removeWorkspace 0 [['w']] stepsUp.executionId.toList disk).2.changes = [.rmtree []] := rfl
  rw [hchanges, List.append_nil] at hnew
  obtain ⟨⟨hunder, -⟩, -⟩ := hall (.rmtree []) (hnew ▸ List.mem_singleton_self _)
  revert hunder
  decide

end CodeMate.Sandbox
