import CodeMate.Framework.Effect
import CodeMate.Framework.FileSystem

/-!
# A disk and its changes

A `Disk` is a file system with a log of what was changed, at the paths where
the changes took place. `mkdir`, `writeFile` and `chmod` are the calls of the
system, `mkdirParents` is `Path.mkdir` with its parents: `mkdirParents_made`
says what it can have made, and `mkdirParents_new` what it has made of a path
that must be new. `writeFile_of_plain` and `chmod_of_file` are the calls on a
path without links.
-/

namespace Framework

inductive Change (β : Type) where
  | mkdir (path : NamePath)
  | write (path : NamePath) (contents : β)
  | chmod (path : NamePath) (mode : ℕ)
  /-- With everything below it. -/
  | rmtree (path : NamePath)

def Change.path {β : Type} : Change β → NamePath
  | .mkdir path => path
  | .write path _ => path
  | .chmod path _ => path
  | .rmtree path => path

/-- What was written to files. -/
def Change.written {β : Type} : List (Change β) → List β
  | [] => []
  | .write _ contents :: changes => contents :: Change.written changes
  | _ :: changes => Change.written changes

theorem Change.written_append {β : Type} (new changes : List (Change β)) :
    Change.written (new ++ changes) = Change.written new ++ Change.written changes := by
  induction new with
  | nil => rfl
  | cons change new ih =>
    cases change with
    | write path contents => exact congrArg (contents :: ·) ih
    | mkdir path => exact ih
    | chmod path mode => exact ih
    | rmtree path => exact ih

/-- A file system and its changes, the last first. -/
structure Disk (β : Type) where
  fs : FileSystem β
  changes : List (Change β)

namespace Disk

open FileSystem

variable {β : Type} (links : ℕ)

/-! ## Calls -/

/-- `os.mkdir`. -/
def mkdir (raw : List Name) : Effect (Disk β) OsError Unit := fun disk =>
  match raw.getLast? with
  | none => (.error .fileExists, disk)
  | some name =>
    match disk.fs.follow links raw.dropLast with
    | .error error => (.error error, disk)
    | .ok path =>
      match hdir : disk.fs.node path, hnode : disk.fs.node (path ++ [name]) with
      | some .dir, none =>
        if name = dots then (.error .fileExists, disk)
        else
          (.ok (), { fs := disk.fs.put path name .dir hdir (by simp [hnode]),
                     changes := .mkdir (path ++ [name]) :: disk.changes })
      | some .dir, some _ => (.error .fileExists, disk)
      | _, _ => (.error .notADirectory, disk)

/-- `if not exist_ok or not self.is_dir(): raise`. -/
def tolerate (existOk : Bool) (raw : List Name) (error : OsError) : Effect (Disk β) OsError Unit := fun disk =>
  if existOk ∧ disk.fs.isDir links raw then (.ok (), disk) else (.error error, disk)

/-- `Path.mkdir` without parents. -/
def mkdirOne (existOk : Bool) (raw : List Name) : Effect (Disk β) OsError Unit :=
  Effect.catching (mkdir links raw) fun error =>
    if error = .fileNotFound then Effect.ofExcept (.error error) else tolerate links existOk raw error

/-- `Path.mkdir(parents=True)`, of a path with its last name first. -/
def mkdirUp (existOk : Bool) : List Name → Effect (Disk β) OsError Unit
  | [] => mkdirOne links existOk []
  | name :: above =>
    Effect.catching (mkdir links (name :: above).reverse) fun error =>
      if error = .fileNotFound then do
        mkdirUp true above
        mkdirOne links existOk (name :: above).reverse
      else tolerate links existOk (name :: above).reverse error

def mkdirParents (existOk : Bool) (raw : List Name) : Effect (Disk β) OsError Unit :=
  mkdirUp links existOk raw.reverse

/-- Where `open(path, "wb")` writes: what the path leads to, or the place of a new file, which for a
link to nothing is where the link points. -/
def locateFrom (fs : FileSystem β) : (links : ℕ) → NamePath → List Name → Except OsError NamePath
  | links, path, raw =>
    match fs.followFrom links path raw with
    | .error .fileNotFound =>
      match raw.getLast? with
      | none => .error .fileNotFound
      | some name =>
        match fs.followFrom links path raw.dropLast with
        | .error error => .error error
        | .ok dir =>
          match fs.node dir, fs.node (dir ++ [name]), links with
          | some .dir, none, _ => if name = dots then .error .fileNotFound else .ok (dir ++ [name])
          | some .dir, some (.link target), links + 1 =>
            locateFrom fs links (if isAbsolute target then [] else dir) (names target)
          | _, _, _ => .error .fileNotFound
    | found => found

/-- `open(path, "wb")` and a write; `newMode` is the mode of a new file. -/
def writeFile (newMode : ℕ) (raw : List Name) (contents : β) : Effect (Disk β) OsError Unit := fun disk =>
  match locateFrom disk.fs links [] raw with
  | .error error => (.error error, disk)
  | .ok path =>
    match path.getLast? with
    | none => (.error .isADirectory, disk)
    | some name =>
      match hdir : disk.fs.node path.dropLast, hnode : disk.fs.node (path.dropLast ++ [name]) with
      | some .dir, none =>
        (.ok (), { fs := disk.fs.put path.dropLast name (.file contents newMode) hdir (by simp [hnode]),
                   changes := .write path contents :: disk.changes })
      | some .dir, some (.file _ mode) =>
        (.ok (), { fs := disk.fs.put path.dropLast name (.file contents mode) hdir (by simp [hnode]),
                   changes := .write path contents :: disk.changes })
      | some .dir, some .dir => (.error .isADirectory, disk)
      | some .dir, some (.special _) => (.ok (), { disk with changes := .write path contents :: disk.changes })
      | _, _ => (.error .fileNotFound, disk)

/-- `os.chmod`; only files have modes here. -/
def chmod (raw : List Name) (mode : ℕ) : Effect (Disk β) OsError Unit := fun disk =>
  match disk.fs.follow links raw with
  | .error error => (.error error, disk)
  | .ok path =>
    match path.getLast? with
    | none => (.ok (), { disk with changes := .chmod path mode :: disk.changes })
    | some name =>
      match hdir : disk.fs.node path.dropLast, hnode : disk.fs.node (path.dropLast ++ [name]) with
      | some .dir, some (.file contents _) =>
        (.ok (), { fs := disk.fs.put path.dropLast name (.file contents mode) hdir (by simp [hnode]),
                   changes := .chmod path mode :: disk.changes })
      | _, _ => (.ok (), { disk with changes := .chmod path mode :: disk.changes })

/-- `shutil.rmtree`: a link is refused, and the directory itself stays when its path ends in `..` or is
the root. -/
def rmtree (raw : List Name) : Effect (Disk β) OsError Unit := fun disk =>
  match disk.fs.lstat links raw with
  | .error error => (.error error, disk)
  | .ok (.link _) => (.error .symbolicLink, disk)
  | .ok .dir =>
    match disk.fs.follow links raw with
    | .error error => (.error error, disk)
    | .ok path =>
      if h : path = [] ∨ raw.getLast? = some dots then
        (.error .notRemovable, { fs := disk.fs.clear path, changes := .rmtree path :: disk.changes })
      else
        (.ok (), { fs := disk.fs.remove path fun heq => h (Or.inl heq), changes := .rmtree path :: disk.changes })
  | .ok _ => (.error .notADirectory, disk)

/-! ## Directories -/

variable {links}

/-- A call of `mkdir` that returns has made one directory, in a directory; one that raises has done
nothing. -/
theorem mkdir_cases {raw : List Name} {disk disk' : Disk β} {result : Except OsError Unit}
    (h : mkdir links raw disk = (result, disk')) :
    (disk' = disk ∧ ∃ error, result = .error error) ∨
      result = .ok () ∧ ∃ path name, ∃ (hdir : disk.fs.node path = some .dir)
        (hnode : disk.fs.node (path ++ [name]) = none), raw = raw.dropLast ++ [name] ∧ name ≠ dots ∧
        disk.fs.follow links raw.dropLast = .ok path ∧
        disk' = { fs := disk.fs.put path name .dir hdir (by simp [hnode]),
                  changes := .mkdir (path ++ [name]) :: disk.changes } := by
  rw [mkdir] at h
  split at h
  · exact Or.inl ⟨(congrArg Prod.snd h).symm, _, (congrArg Prod.fst h).symm⟩
  · next name hlast =>
    split at h
    · exact Or.inl ⟨(congrArg Prod.snd h).symm, _, (congrArg Prod.fst h).symm⟩
    · next path hfollow =>
      split at h
      · next hdir hnode =>
        split at h
        · exact Or.inl ⟨(congrArg Prod.snd h).symm, _, (congrArg Prod.fst h).symm⟩
        · next hdots =>
          refine Or.inr ⟨(congrArg Prod.fst h).symm, path, name, hdir, hnode, ?_, hdots, hfollow,
            (congrArg Prod.snd h).symm⟩
          obtain ⟨rest, rfl⟩ := List.getLast?_eq_some_iff.mp hlast
          rw [List.dropLast_concat]
      · exact Or.inl ⟨(congrArg Prod.snd h).symm, _, (congrArg Prod.fst h).symm⟩
      · exact Or.inl ⟨(congrArg Prod.snd h).symm, _, (congrArg Prod.fst h).symm⟩

/-- What making the directories of a path may do: new directories where parts of the path lead. -/
structure Made (links : ℕ) (raw : List Name) (disk disk' : Disk β) : Prop where
  grows : Grows disk.fs disk'.fs
  nodes (path : NamePath) : disk'.fs.node path ≠ disk.fs.node path → disk.fs.node path = none ∧
    disk'.fs.node path = some .dir ∧ ∃ k ≤ raw.length, disk'.fs.follow links (raw.take k) = .ok path
  changes : ∃ new, disk'.changes = new ++ disk.changes ∧ ∀ change ∈ new, ∃ path, change = .mkdir path ∧
    disk.fs.node path = none ∧ ∃ k ≤ raw.length, disk'.fs.follow links (raw.take k) = .ok path

variable {raw : List Name} {disk disk' disk'' : Disk β}

theorem Made.refl (raw : List Name) (disk : Disk β) : Made links raw disk disk :=
  ⟨Grows.refl _, fun _ h => absurd rfl h, [], rfl, by simp⟩

/-- Where the first names of a path lead, as a part of the longer path and once more is made. -/
theorem leads_longer {above : List Name} (habove : above <+: raw) (hgrows : Grows disk.fs disk'.fs) {path : NamePath}
    (h : ∃ k ≤ above.length, disk.fs.follow links (above.take k) = .ok path) :
    ∃ k ≤ raw.length, disk'.fs.follow links (raw.take k) = .ok path := by
  obtain ⟨k, hk, hfollow⟩ := h
  obtain ⟨rest, rfl⟩ := habove
  refine ⟨k, hk.trans (by simp), ?_⟩
  rw [List.take_append_of_le_length hk]
  exact hgrows.follow hfollow

/-- Making some directories above, and then more of them. -/
theorem Made.trans {above : List Name} (h : Made links above disk disk') (habove : above <+: raw)
    (h' : Made links raw disk' disk'') : Made links raw disk disk'' where
  grows := h.grows.trans h'.grows
  nodes path hne := by
    by_cases heq : disk''.fs.node path = disk'.fs.node path
    · obtain ⟨hnone, hdir, hleads⟩ := h.nodes path (heq ▸ hne)
      exact ⟨hnone, heq.trans hdir, leads_longer habove h'.grows hleads⟩
    · obtain ⟨hnone, hdir, hleads⟩ := h'.nodes path heq
      exact ⟨h.grows.node_eq_none hnone, hdir, hleads⟩
  changes := by
    obtain ⟨new, hnew, hmade⟩ := h.changes
    obtain ⟨new', hnew', hmade'⟩ := h'.changes
    refine ⟨new' ++ new, by rw [hnew', hnew, List.append_assoc], fun change hmem => ?_⟩
    rcases List.mem_append.mp hmem with hmem | hmem
    · obtain ⟨path, rfl, hnone, hleads⟩ := hmade' change hmem
      exact ⟨path, rfl, h.grows.node_eq_none hnone, hleads⟩
    · obtain ⟨path, rfl, hnone, hleads⟩ := hmade change hmem
      exact ⟨path, rfl, hnone, leads_longer habove h'.grows hleads⟩

/-- What one call makes stands where the path now leads. -/
theorem mkdir_made {result : Except OsError Unit} (h : mkdir links raw disk = (result, disk')) :
    Made links raw disk disk' := by
  rcases mkdir_cases h with ⟨rfl, -⟩ | ⟨-, path, name, hdir, hnode, hraw, hdots, hfollow, rfl⟩
  · exact Made.refl _ _
  · have hgrows : Grows disk.fs (disk.fs.put path name .dir hdir (by simp [hnode])) :=
      grows_put hdir (by simp [hnode]) (by simp [hnode]) nofun
    have hself : (disk.fs.put path name .dir hdir (by simp [hnode])).node (path ++ [name]) = some .dir :=
      put_node_self ..
    have hleads : ∃ k ≤ raw.length, (disk.fs.put path name .dir hdir (by simp [hnode])).follow links (raw.take k) =
        .ok (path ++ [name]) := by
      refine ⟨raw.length, le_refl _, ?_⟩
      rw [List.take_length, hraw]
      exact followFrom_concat (hgrows.follow hfollow) (hgrows.dir _ hdir) hdots hself nofun
    refine ⟨hgrows, fun p hne => ?_, [.mkdir (path ++ [name])], rfl, fun change hmem => ?_⟩
    · by_cases heq : p = path ++ [name]
      · subst heq
        exact ⟨hnode, hself, hleads⟩
      · exact absurd (put_node_of_ne hdir (by simp [hnode]) heq) hne
    · exact ⟨path ++ [name], List.mem_singleton.mp hmem, hnode, hleads⟩

/-- A call that returns has made the directory that the path now leads to. -/
theorem mkdir_new (h : mkdir links raw disk = (.ok (), disk')) :
    ∃ root rest, disk'.changes = .mkdir root :: rest ∧ disk'.fs.follow links raw = .ok root ∧
      disk'.fs.node root = some .dir ∧ disk.fs.node root = none ∧
      ∀ p, root <+: p → p ≠ root → disk'.fs.node p = none := by
  rcases mkdir_cases h with ⟨-, error, herror⟩ | ⟨-, path, name, hdir, hnode, hraw, hdots, hfollow, rfl⟩
  · cases herror
  · have hgrows : Grows disk.fs (disk.fs.put path name .dir hdir (by simp [hnode])) :=
      grows_put hdir (by simp [hnode]) (by simp [hnode]) nofun
    have hself : (disk.fs.put path name .dir hdir (by simp [hnode])).node (path ++ [name]) = some .dir :=
      put_node_self ..
    refine ⟨path ++ [name], disk.changes, rfl, ?_, hself, hnode, fun p hp hne => ?_⟩
    · rw [hraw]
      exact followFrom_concat (hgrows.follow hfollow) (hgrows.dir _ hdir) hdots hself nofun
    · rw [put_node_of_ne hdir (by simp [hnode]) hne]
      obtain ⟨rest, rfl⟩ := hp
      by_contra hsome
      exact node_of_below hsome hnode

/-- What `catching` returns, by what the body did. -/
theorem catching_cases {ε α σ : Type} {x : Effect σ ε α} {handler : ε → Effect σ ε α} {s t : σ}
    {result : Except ε α} (h : Effect.catching x handler s = (result, t)) :
    (∃ a, x s = (.ok a, t) ∧ result = .ok a) ∨
      ∃ error u, x s = (.error error, u) ∧ handler error u = (result, t) := by
  rw [Effect.catching] at h
  split at h
  · next a u hx =>
    cases h
    exact Or.inl ⟨a, hx, rfl⟩
  · next error u hx => exact Or.inr ⟨error, u, hx, h⟩

theorem tolerate_same {existOk : Bool} {error : OsError} {result : Except OsError Unit}
    (h : tolerate links existOk raw error disk = (result, disk')) : disk' = disk := by
  rw [tolerate] at h
  split at h <;> exact (congrArg Prod.snd h).symm

theorem mkdirOne_made {existOk : Bool} {result : Except OsError Unit}
    (h : mkdirOne links existOk raw disk = (result, disk')) : Made links raw disk disk' := by
  rcases catching_cases h with ⟨a, hmkdir, -⟩ | ⟨error, disk₁, hmkdir, hraised⟩
  · exact mkdir_made hmkdir
  · obtain ⟨rfl, -⟩ | ⟨hok, -⟩ := mkdir_cases hmkdir
    · split at hraised
      · cases hraised
        exact Made.refl _ _
      · rw [tolerate_same hraised]
        exact Made.refl _ _
    · cases hok

theorem mkdirUp_made {existOk : Bool} {up : List Name} {result : Except OsError Unit}
    (h : mkdirUp links existOk up disk = (result, disk')) : Made links up.reverse disk disk' := by
  induction up generalizing existOk disk disk' result with
  | nil => exact mkdirOne_made h
  | cons name above ih =>
    rw [mkdirUp] at h
    rcases catching_cases h with ⟨a, hmkdir, -⟩ | ⟨error, disk₁, hmkdir, hraised⟩
    · exact mkdir_made hmkdir
    · obtain ⟨rfl, -⟩ | ⟨hok, -⟩ := mkdir_cases hmkdir
      · have habove : above.reverse <+: (name :: above).reverse := by simp
        split at hraised
        · rcases hup : mkdirUp links true above disk₁ with ⟨_ | _, disk₂⟩
          · simp only [Bind.bind, Effect.bind, hup] at hraised
            cases hraised
            exact (ih hup).trans habove (Made.refl _ _)
          · simp only [Bind.bind, Effect.bind, hup] at hraised
            exact (ih hup).trans habove (mkdirOne_made hraised)
        · rw [tolerate_same hraised]
          exact Made.refl _ _
      · cases hok

theorem mkdirParents_made {existOk : Bool} {result : Except OsError Unit}
    (h : mkdirParents links existOk raw disk = (result, disk')) : Made links raw disk disk' := by
  have := mkdirUp_made h
  rwa [List.reverse_reverse] at this

/-- A path that must be new is made by the last call. -/
theorem mkdirParents_new (h : mkdirParents links false raw disk = (.ok (), disk')) :
    ∃ disk₁, Made links raw disk disk₁ ∧ mkdir links raw disk₁ = (.ok (), disk') := by
  have htolerate {raw : List Name} {error : OsError} {disk : Disk β} :
      tolerate links false raw error disk ≠ (.ok (), disk') := by
    rw [tolerate, if_neg (by simp)]
    exact fun h => nomatch congrArg Prod.fst h
  have hone {raw : List Name} {disk : Disk β} (h : mkdirOne links false raw disk = (.ok (), disk')) :
      mkdir links raw disk = (.ok (), disk') := by
    rcases catching_cases h with ⟨a, hmkdir, -⟩ | ⟨error, disk₁, -, hraised⟩
    · exact hmkdir
    · split at hraised
      · cases hraised
      · exact absurd hraised htolerate
  rw [mkdirParents] at h
  cases hup : raw.reverse with
  | nil =>
    rw [hup, mkdirUp] at h
    obtain rfl := List.reverse_eq_nil_iff.mp hup
    exact ⟨disk, Made.refl _ _, hone h⟩
  | cons name above =>
    have hraw : (name :: above).reverse = raw := by rw [← hup, List.reverse_reverse]
    rw [hup, mkdirUp, hraw] at h
    rcases catching_cases h with ⟨a, hmkdir, -⟩ | ⟨error, disk₁, hmkdir, hraised⟩
    · exact ⟨disk, Made.refl _ _, hmkdir⟩
    · obtain ⟨rfl, -⟩ | ⟨hok, -⟩ := mkdir_cases hmkdir
      · have habove : above.reverse <+: raw := by simp [← hraw]
        split at hraised
        · rcases hparents : mkdirUp links true above disk₁ with ⟨_ | _, disk₂⟩
          · simp only [Bind.bind, Effect.bind, hparents] at hraised
            cases hraised
          · simp only [Bind.bind, Effect.bind, hparents] at hraised
            exact ⟨disk₂, (mkdirUp_made hparents).trans habove (Made.refl _ _), hone hraised⟩
        · exact absurd hraised htolerate
      · cases hok

/-- What is plain stays so when directories are made. -/
theorem Made.plain (h : Made links raw disk disk') {path : NamePath} (hpath : disk.fs.Plain path) :
    disk'.fs.Plain path := by
  refine ⟨hpath.down, fun above habove target htarget => ?_⟩
  by_cases heq : disk'.fs.node above = disk.fs.node above
  · exact hpath.noLink above habove target (heq.symm.trans htarget)
  · obtain ⟨-, hdir, -⟩ := h.nodes above heq
    cases htarget.symm.trans hdir

/-- On the way to a plain target below a directory, what is made is below that directory. -/
theorem Made.under {root target path : NamePath} (h : Made links raw disk disk') (htarget : disk.fs.Plain target)
    (hraw : raw <+: target) (hroot : root <+: target) (hthere : disk.fs.node root ≠ none)
    (hnone : disk.fs.node path = none) (hleads : ∃ k ≤ raw.length, disk'.fs.follow links (raw.take k) = .ok path) :
    root <+: path := by
  obtain ⟨k, -, hfollow⟩ := hleads
  have htake : raw.take k <+: target := (List.take_prefix k raw).trans hraw
  obtain rfl := follow_of_plain ((h.plain htarget).above htake) hfollow
  rcases List.prefix_or_prefix_of_prefix hroot htake with hunder | ⟨rest, hrest⟩
  · exact hunder
  · exact absurd hnone (node_of_below (hrest.symm ▸ hthere))

/-- Making directories writes to no file. -/
theorem Made.written (h : Made links raw disk disk') :
    ∃ new, disk'.changes = new ++ disk.changes ∧ Change.written new = [] ∧
      ∀ change ∈ new, ∃ path, change = .mkdir path ∧ disk.fs.node path = none ∧
        ∃ k ≤ raw.length, disk'.fs.follow links (raw.take k) = .ok path := by
  obtain ⟨new, hnew, hmade⟩ := h.changes
  refine ⟨new, hnew, ?_, hmade⟩
  clear hnew
  induction new with
  | nil => rfl
  | cons change new ih =>
    obtain ⟨path, rfl, -⟩ := hmade change (List.mem_cons_self ..)
    exact ih fun change hmem => hmade change (List.mem_cons_of_mem _ hmem)

/-- The directories of a path that is there already. -/
theorem mkdirParents_dir {path : NamePath} (h : disk.fs.Plain path) (hnode : disk.fs.node path = some .dir) :
    mkdirParents links true path disk = (.ok (), disk) := by
  have hisDir : disk.fs.isDir links path = true := by rw [isDir, (stat_of_plain h).mpr hnode]
  have htolerate (error : OsError) : tolerate links true path error disk = (.ok (), disk) := by
    rw [tolerate, if_pos ⟨rfl, hisDir⟩]
  have hmkdir : ∃ error, error ≠ .fileNotFound ∧ mkdir links path disk = (.error error, disk) := by
    rw [mkdir]
    split
    · exact ⟨_, by decide, rfl⟩
    · next name hlast =>
      obtain ⟨above, rfl⟩ := List.getLast?_eq_some_iff.mp hlast
      have habove := disk.fs.parent_dir above name (by simp [hnode])
      rw [List.dropLast_concat, follow_of_node (h.above (List.prefix_append ..)) (by simp [habove])]
      dsimp only
      split
      · next hnone => rw [hnode] at hnone; cases hnone
      · exact ⟨_, by decide, rfl⟩
      · next hnot hnot' => exact absurd hnode (hnot' _ habove)
  obtain ⟨error, hne, hmkdir⟩ := hmkdir
  rw [mkdirParents]
  cases hup : path.reverse with
  | nil =>
    obtain rfl := List.reverse_eq_nil_iff.mp hup
    rw [mkdirUp, mkdirOne, Effect.catching, hmkdir]
    dsimp only
    rw [if_neg hne, htolerate]
  | cons name above =>
    have hraw : (name :: above).reverse = path := by rw [← hup, List.reverse_reverse]
    rw [mkdirUp, hraw, Effect.catching, hmkdir]
    dsimp only
    rw [if_neg hne, htolerate]

/-- A directory in one that is there. -/
theorem mkdirParents_child {path : NamePath} {name : Name} (h : disk.fs.Plain path) (hname : name ≠ dots)
    (hdir : disk.fs.node path = some .dir) (hnode : disk.fs.node (path ++ [name]) = none) :
    mkdirParents links true (path ++ [name]) disk =
      (.ok (), { fs := disk.fs.put path name .dir hdir (by simp [hnode]),
                 changes := .mkdir (path ++ [name]) :: disk.changes }) := by
  have hmkdir : mkdir links (path ++ [name]) disk =
      (.ok (), { fs := disk.fs.put path name .dir hdir (by simp [hnode]),
                 changes := .mkdir (path ++ [name]) :: disk.changes }) := by
    rw [mkdir, List.getLast?_concat, List.dropLast_concat]
    dsimp only
    rw [follow_of_node h (by simp [hdir])]
    dsimp only
    split
    · next hdir' hnode' => rw [if_neg hname]
    · next hsome => rw [hnode] at hsome; cases hsome
    · next hnot hnot' => exact absurd hnode (hnot hdir)
  rw [mkdirParents, List.reverse_append, List.reverse_singleton, List.singleton_append, mkdirUp, List.reverse_cons,
    List.reverse_reverse, Effect.catching, hmkdir]

/-- A path that must be new, and is not. -/
theorem mkdirParents_exists {path : NamePath} {name : Name} (h : disk.fs.Plain path)
    (hdir : disk.fs.node path = some .dir)
    (hnode : disk.fs.node (path ++ [name]) ≠ none) :
    mkdirParents links false (path ++ [name]) disk = (.error .fileExists, disk) := by
  have hmkdir : mkdir links (path ++ [name]) disk = (.error .fileExists, disk) := by
    rw [mkdir, List.getLast?_concat, List.dropLast_concat]
    dsimp only
    rw [follow_of_node h (by simp [hdir])]
    dsimp only
    split
    · next hnone => exact absurd hnone hnode
    · rfl
    · next hnot hnot' =>
      obtain ⟨node, hsome⟩ := Option.ne_none_iff_exists'.mp hnode
      exact absurd hsome (hnot' node hdir)
  rw [mkdirParents, List.reverse_append, List.reverse_singleton, List.singleton_append, mkdirUp, List.reverse_cons,
    List.reverse_reverse, Effect.catching, hmkdir]
  dsimp only
  rw [if_neg (by decide), tolerate, if_neg (by simp)]

/-! ## Files -/

/-- A plain path to no link is written where it is named. -/
theorem locateFrom_of_plain {fs : FileSystem β} {path found : NamePath} {name : Name} (h : fs.Plain path)
    (hname : name ≠ dots) (hlink : ∀ target, fs.node (path ++ [name]) ≠ some (.link target))
    (hlocate : locateFrom fs links [] (path ++ [name]) = .ok found) : found = path ++ [name] := by
  have hall : fs.Plain (path ++ [name]) := h.concat hname hlink
  unfold locateFrom at hlocate
  split at hlocate
  · rw [List.getLast?_concat, List.dropLast_concat] at hlocate
    dsimp only at hlocate
    split at hlocate
    · cases hlocate
    · next dir hfollow =>
      obtain rfl := follow_of_plain h hfollow
      split at hlocate
      · rw [if_neg hname] at hlocate
        exact (Except.ok.inj hlocate).symm
      · next target _ _ htarget _ => exact absurd htarget (hlink target)
      · cases hlocate
  · exact follow_of_plain hall hlocate

theorem put_congr {fs : FileSystem β} {path path' : NamePath} {name : Name} (node : Node β) (heq : path = path')
    (hdir : fs.node path = some .dir) (hleaf : fs.node (path ++ [name]) ≠ some .dir) :
    ∃ (hdir' : fs.node path' = some .dir) (hleaf' : fs.node (path' ++ [name]) ≠ some .dir),
      fs.put path name node hdir hleaf = fs.put path' name node hdir' hleaf' := by
  subst heq
  exact ⟨hdir, hleaf, rfl⟩

/-- The last of a path is what was put at its end. -/
theorem eq_of_getLast?_concat {path : NamePath} {name last : Name} (h : (path ++ [name]).getLast? = some last) :
    last = name := by
  rw [List.getLast?_concat] at h
  exact (Option.some.inj h).symm

/-- At most a file was put at the target. -/
def Filed (target : NamePath) (fs fs' : FileSystem β) : Prop :=
  fs' = fs ∨ ∃ (path : NamePath) (name : Name) (contents : β) (mode : ℕ) (hdir : fs.node path = some .dir)
    (hleaf : fs.node (path ++ [name]) ≠ some .dir), target = path ++ [name] ∧
      fs' = fs.put path name (.file contents mode) hdir hleaf

theorem Filed.grows {target : NamePath} {fs fs' : FileSystem β} (h : Filed target fs fs')
    (htarget : fs.Plain target) :
    Grows fs fs' := by
  rcases h with rfl | ⟨path, name, contents, mode, hdir, hleaf, rfl, rfl⟩
  · exact Grows.refl _
  · exact grows_put hdir hleaf (htarget.noLink _ (List.prefix_refl _)) nofun

theorem Filed.plain {target path : NamePath} {fs fs' : FileSystem β} (h : Filed target fs fs')
    (hpath : fs.Plain path) :
    fs'.Plain path := by
  rcases h with rfl | ⟨_, name, contents, mode, hdir, hleaf, rfl, rfl⟩
  · exact hpath
  · exact hpath.put hdir hleaf nofun

theorem Filed.nodes {target p : NamePath} {fs fs' : FileSystem β} (h : Filed target fs fs')
    (hne : fs'.node p ≠ fs.node p) : p = target ∧ ∃ contents mode, fs'.node p = some (.file contents mode) := by
  rcases h with rfl | ⟨path, name, contents, mode, hdir, hleaf, rfl, rfl⟩
  · exact absurd rfl hne
  · by_cases heq : p = path ++ [name]
    · subst heq
      exact ⟨rfl, contents, mode, put_node_self hdir hleaf⟩
    · exact absurd (put_node_of_ne hdir hleaf heq) hne

/-- On a plain path a file is written where it is named: a new one, or in place of one that is there. -/
theorem writeFile_cases {newMode : ℕ} {target : NamePath} {contents : β} (h : disk.fs.Plain target)
    {result : Except OsError Unit} (hwrite : writeFile links newMode target contents disk = (result, disk')) :
    (disk' = disk ∧ ∃ error, result = .error error) ∨
      result = .ok () ∧ disk'.changes = .write target contents :: disk.changes ∧ Filed target disk.fs disk'.fs := by
  rcases List.eq_nil_or_concat target with rfl | ⟨path, name, rfl⟩
  · have hlocate : locateFrom disk.fs links [] [] = .ok [] := by
      unfold locateFrom
      cases links <;> rfl
    rw [writeFile, hlocate] at hwrite
    exact Or.inl ⟨(congrArg Prod.snd hwrite).symm, _, (congrArg Prod.fst hwrite).symm⟩
  rw [List.concat_eq_append] at *
  have hpath : disk.fs.Plain path := h.above (List.prefix_append ..)
  have hname : name ≠ dots := fun heq => h.down (by simp [heq])
  rw [writeFile] at hwrite
  split at hwrite
  · exact Or.inl ⟨(congrArg Prod.snd hwrite).symm, _, (congrArg Prod.fst hwrite).symm⟩
  · next found hlocate =>
    obtain rfl := locateFrom_of_plain hpath hname (h.noLink _ (List.prefix_refl _)) hlocate
    split at hwrite
    · exact Or.inl ⟨(congrArg Prod.snd hwrite).symm, _, (congrArg Prod.fst hwrite).symm⟩
    · next last hlast =>
      obtain rfl := eq_of_getLast?_concat hlast
      have hfiled (mode : ℕ) (hdir : disk.fs.node (path ++ [last]).dropLast = some .dir)
          (hleaf : disk.fs.node ((path ++ [last]).dropLast ++ [last]) ≠ some .dir) :
          Filed (path ++ [last]) disk.fs
            (disk.fs.put (path ++ [last]).dropLast last (.file contents mode) hdir hleaf) :=
        Or.inr ⟨_, last, contents, mode, hdir, hleaf, by rw [List.dropLast_concat], rfl⟩
      split at hwrite
      · next hdir hnode =>
        cases hwrite
        exact Or.inr ⟨rfl, rfl, hfiled newMode hdir (by rw [hnode]; simp)⟩
      · next mode hdir hnode =>
        cases hwrite
        exact Or.inr ⟨rfl, rfl, hfiled mode hdir (by rw [hnode]; simp)⟩
      · exact Or.inl ⟨(congrArg Prod.snd hwrite).symm, _, (congrArg Prod.fst hwrite).symm⟩
      · cases hwrite
        exact Or.inr ⟨rfl, rfl, Or.inl rfl⟩
      · exact Or.inl ⟨(congrArg Prod.snd hwrite).symm, _, (congrArg Prod.fst hwrite).symm⟩

/-- A new file in a directory. -/
theorem writeFile_new {newMode : ℕ} {path : NamePath} {name : Name} {contents : β} (h : disk.fs.Plain path)
    (hname : name ≠ dots) (hdir : disk.fs.node path = some .dir) (hnode : disk.fs.node (path ++ [name]) = none) :
    writeFile links newMode (path ++ [name]) contents disk =
      (.ok (), { fs := disk.fs.put path name (.file contents newMode) hdir (by simp [hnode]),
                 changes := .write (path ++ [name]) contents :: disk.changes }) := by
  have hfollow : disk.fs.follow links path = .ok path := follow_of_node h (by simp [hdir])
  have hlocate : locateFrom disk.fs links [] (path ++ [name]) = .ok (path ++ [name]) := by
    have hfound : disk.fs.followFrom links [] path = .ok path := hfollow
    unfold locateFrom
    rw [followFrom_missing hfound hdir hname hnode]
    dsimp only
    rw [List.getLast?_concat, List.dropLast_concat]
    dsimp only
    rw [hfound]
    dsimp only
    rw [hdir, hnode]
    dsimp only
    rw [if_neg hname]
  have hdir' : disk.fs.node (path ++ [name]).dropLast = some .dir := by rw [List.dropLast_concat, hdir]
  have hnode' : disk.fs.node ((path ++ [name]).dropLast ++ [name]) = none := by rw [List.dropLast_concat, hnode]
  rw [writeFile, hlocate]
  dsimp only
  split
  · next hlast => simp at hlast
  · next last hlast =>
    obtain rfl := eq_of_getLast?_concat hlast
    split
    · next hleaf =>
      obtain ⟨_, _, hput⟩ := put_congr (.file contents newMode) List.dropLast_concat hdir'
        (by rw [hleaf]; simp)
      rw [hput]
    · next hsome => cases hnode'.symm.trans hsome
    · next hsome => cases hnode'.symm.trans hsome
    · next hsome => cases hnode'.symm.trans hsome
    · next hnot _ _ _ => exact absurd hnode' (hnot hdir')

/-- `chmod` changes the mode of the file that a plain path leads to. -/
theorem chmod_cases {target : NamePath} {mode : ℕ} (h : disk.fs.Plain target) {result : Except OsError Unit}
    (hchmod : chmod links target mode disk = (result, disk')) :
    (disk' = disk ∧ ∃ error, result = .error error) ∨
      result = .ok () ∧ disk'.changes = .chmod target mode :: disk.changes ∧ Filed target disk.fs disk'.fs := by
  rw [chmod] at hchmod
  split at hchmod
  · exact Or.inl ⟨(congrArg Prod.snd hchmod).symm, _, (congrArg Prod.fst hchmod).symm⟩
  · next found hfollow =>
    obtain rfl := follow_of_plain h hfollow
    split at hchmod
    · cases hchmod
      exact Or.inr ⟨rfl, rfl, Or.inl rfl⟩
    · next name hlast =>
      obtain ⟨path, rfl⟩ := List.getLast?_eq_some_iff.mp hlast
      split at hchmod
      · next contents old hdir hnode =>
        cases hchmod
        exact Or.inr
          ⟨rfl, rfl, Or.inr ⟨_, name, contents, mode, hdir, by rw [hnode]; simp, by rw [List.dropLast_concat],
          rfl⟩⟩
      · cases hchmod
        exact Or.inr ⟨rfl, rfl, Or.inl rfl⟩

/-- On a file that is there, `chmod` returns. -/
theorem chmod_file {path : NamePath} {mode old : ℕ} {name : Name} {contents : β} (h : disk.fs.Plain (path ++ [name]))
    (hdir : disk.fs.node path = some .dir) (hnode : disk.fs.node (path ++ [name]) = some (.file contents old)) :
    chmod links (path ++ [name]) mode disk =
      (.ok (), { fs := disk.fs.put path name (.file contents mode) hdir (by simp [hnode]),
                 changes := .chmod (path ++ [name]) mode :: disk.changes }) := by
  have hdir' : disk.fs.node (path ++ [name]).dropLast = some .dir := by rw [List.dropLast_concat, hdir]
  have hnode' : disk.fs.node ((path ++ [name]).dropLast ++ [name]) = some (.file contents old) := by
    rw [List.dropLast_concat, hnode]
  rw [chmod, follow_of_node h (by simp [hnode])]
  dsimp only
  split
  · next hlast => simp at hlast
  · next last hlast =>
    obtain rfl := eq_of_getLast?_concat hlast
    split
    · next hleaf =>
      cases hnode'.symm.trans hleaf
      obtain ⟨_, _, hput⟩ := put_congr (.file contents mode) List.dropLast_concat hdir'
        (by rw [hleaf]; simp)
      rw [hput]
    · next hnot => exact absurd hnode' (hnot _ _ hdir')

/-! ## Removal -/

/-- What a removal has removed is the directory that the path leads to, and that is no link. -/
theorem rmtree_cases {result : Except OsError Unit} (h : rmtree links raw disk = (result, disk')) :
    disk' = disk ∨ ∃ path, disk.fs.lstat links raw = .ok .dir ∧ disk.fs.follow links raw = .ok path ∧
      disk'.changes = .rmtree path :: disk.changes := by
  rw [rmtree] at h
  split at h
  · exact Or.inl (congrArg Prod.snd h).symm
  · exact Or.inl (congrArg Prod.snd h).symm
  · next hlstat =>
    split at h
    · exact Or.inl (congrArg Prod.snd h).symm
    · next path hfollow =>
      refine Or.inr ⟨path, hlstat, hfollow, ?_⟩
      split at h <;> exact (congrArg (fun r => r.2.changes) h).symm
  · exact Or.inl (congrArg Prod.snd h).symm

end Disk

end Framework
