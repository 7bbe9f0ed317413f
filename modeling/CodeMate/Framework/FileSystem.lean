import Mathlib.Data.List.Infix

/-!
# File systems with links

A `FileSystem` has a node at each path, a path being the names from the root
down; whatever has a node lies in a directory. A path that a program is given
may lead through links and up again: `resolveFrom` goes along it as
`os.path.realpath` does, which takes what is missing as it is named, and
`followFrom` as the system does, which fails there. The number of links on the
way is limited.

A path is `Plain` when no link stands on it. `resolveFrom_plain` says that what
is resolved is plain, and `resolveFrom_of_plain` and `followFrom_of_plain` that
a plain path leads to itself. The state changes by `put`, below a directory.
-/

namespace Framework

abbrev Name := List Char

/-- The names from the root down. -/
abbrev NamePath := List Name

inductive Node (β : Type) where
  | dir
  | file (contents : β) (mode : ℕ)
  | link (target : List Char)
  /-- A device, a pipe or a socket, and what a read of it gives. -/
  | special (reads : Option β)

/-- The name of the directory above. -/
def dots : Name := ['.', '.']

/-- The parts of a text between slashes. -/
def cut : List Char → List Name
  | [] => [[]]
  | c :: cs =>
    if c = '/' then [] :: cut cs
    else
      match cut cs with
      | [] => [[c]]
      | name :: names => (c :: name) :: names

/-- The names of a path as it is written; empty ones and `.` are dropped. -/
def names (text : List Char) : List Name := (cut text).filter fun name => name ≠ [] ∧ name ≠ ['.']

def isAbsolute (text : List Char) : Bool := text.head? = some '/'

structure FileSystem (β : Type) where
  node : NamePath → Option (Node β)
  root_dir : node [] = some .dir
  parent_dir (path : NamePath) (name : Name) : node (path ++ [name]) ≠ none → node path = some .dir

/-- Nothing but the root. -/
def FileSystem.empty {β : Type} : FileSystem β where
  node path := if path = [] then some .dir else none
  root_dir := if_pos rfl
  parent_dir path name h := by simp at h

/-- A directory at every path. -/
def FileSystem.full {β : Type} : FileSystem β where
  node _ := some .dir
  root_dir := rfl
  parent_dir _ _ _ := rfl

inductive OsError
  | fileNotFound
  | notADirectory
  | isADirectory
  | fileExists
  | tooManyLinks
  | unreadable
  | symbolicLink
  | notRemovable
  deriving DecidableEq

/-- Where names below a path lead when there are no links. -/
def collapse : NamePath → List Name → NamePath
  | path, [] => path
  | path, name :: rest => if name = dots then collapse path.dropLast rest else collapse (path ++ [name]) rest

/-! ## Names joined by slashes -/

theorem cut_of_not_mem {name : List Char} (h : '/' ∉ name) : cut name = [name] := by
  induction name with
  | nil => rfl
  | cons c name ih =>
    have hc : c ≠ '/' := fun heq => h (heq ▸ List.mem_cons_self ..)
    rw [cut, if_neg hc, ih fun hmem => h (List.mem_cons_of_mem _ hmem)]

theorem cut_append {name : List Char} (rest : List Char) (h : '/' ∉ name) :
    cut (name ++ '/' :: rest) = name :: cut rest := by
  induction name with
  | nil => rw [List.nil_append, cut, if_pos rfl]
  | cons c name ih =>
    have hc : c ≠ '/' := fun heq => h (heq ▸ List.mem_cons_self ..)
    rw [List.cons_append, cut, if_neg hc, ih fun hmem => h (List.mem_cons_of_mem _ hmem)]

theorem cut_intercalate {path : List Name} (hne : path ≠ []) (h : ∀ name ∈ path, '/' ∉ name) :
    cut (List.intercalate ['/'] path) = path := by
  induction path with
  | nil => exact absurd rfl hne
  | cons name path ih =>
    have hname := h name (List.mem_cons_self ..)
    cases path with
    | nil => rw [List.intercalate_singleton, cut_of_not_mem hname]
    | cons next path =>
      rw [List.intercalate_cons_cons, List.append_assoc, List.singleton_append, cut_append _ hname,
        ih (by simp) fun other hmem => h other (List.mem_cons_of_mem _ hmem)]

/-- The parts of a text, and what stands about each: slashes, before all but the first. -/
theorem cut_shape (text : List Char) : ∃ first rest, cut text = first :: rest ∧ '/' ∉ first ∧
    (∃ after, text = first ++ after ∧ (after ≠ [] → '/' ∈ after)) ∧
    ∀ name ∈ rest, '/' ∉ name ∧ ∃ before after, text = before ++ name ++ after ∧ '/' ∈ before ∧
      (after ≠ [] → '/' ∈ after) := by
  induction text with
  | nil => exact ⟨[], [], rfl, List.not_mem_nil, ⟨[], rfl, fun h => absurd rfl h⟩, by simp⟩
  | cons c text ih =>
    obtain ⟨first, rest, hcut, hfirst, ⟨after, htext, hafter⟩, hrest⟩ := ih
    by_cases hc : c = '/'
    · subst hc
      refine ⟨[], first :: rest, by rw [cut, if_pos rfl, hcut], List.not_mem_nil, ⟨'/' :: text, rfl, by simp⟩, ?_⟩
      intro name hname
      rcases List.mem_cons.mp hname with rfl | hname
      · exact ⟨hfirst, ['/'], after, by rw [htext]; rfl, by simp, hafter⟩
      · obtain ⟨hslash, before, after', htext', -, hafter'⟩ := hrest name hname
        exact ⟨hslash, '/' :: before, after', by rw [htext']; rfl, by simp, hafter'⟩
    · refine ⟨c :: first, rest, by rw [cut, if_neg hc, hcut], by simp [hfirst, Ne.symm hc],
        ⟨after, by rw [htext]; rfl, hafter⟩, fun name hname => ?_⟩
      obtain ⟨hslash, before, after', htext', hbefore, hafter'⟩ := hrest name hname
      exact ⟨hslash, c :: before, after', by rw [htext']; rfl, List.mem_cons_of_mem _ hbefore, hafter'⟩

theorem mem_cut {text name : List Char} (h : name ∈ cut text) : '/' ∉ name ∧ ∃ before after,
    text = before ++ name ++ after ∧ (before ≠ [] → '/' ∈ before) ∧ (after ≠ [] → '/' ∈ after) := by
  obtain ⟨first, rest, hcut, hfirst, ⟨after, htext, hafter⟩, hrest⟩ := cut_shape text
  rw [hcut] at h
  rcases List.mem_cons.mp h with rfl | h
  · exact ⟨hfirst, [], after, by simpa using htext, fun h => absurd rfl h, hafter⟩
  · obtain ⟨hslash, before, after', htext', hbefore, hafter'⟩ := hrest name h
    exact ⟨hslash, before, after', htext', fun _ => hbefore, hafter'⟩

/-! ## Names without links -/

theorem collapse_append (path : NamePath) (ns ms : List Name) :
    collapse path (ns ++ ms) = collapse (collapse path ns) ms := by
  induction ns generalizing path with
  | nil => rfl
  | cons name ns ih =>
    rw [List.cons_append, collapse, collapse]
    split <;> exact ih _

theorem collapse_of_down {path : NamePath} {ns : List Name} (h : dots ∉ ns) : collapse path ns = path ++ ns := by
  induction ns generalizing path with
  | nil => rw [collapse, List.append_nil]
  | cons name ns ih =>
    have hname : name ≠ dots := fun heq => h (heq ▸ List.mem_cons_self ..)
    rw [collapse, if_neg hname, ih fun hmem => h (List.mem_cons_of_mem _ hmem), List.append_assoc,
      List.singleton_append]

theorem dots_not_mem_collapse {path : NamePath} {ns : List Name} (h : dots ∉ path) : dots ∉ collapse path ns := by
  induction ns generalizing path with
  | nil => exact h
  | cons name ns ih =>
    rw [collapse]
    split
    · exact ih fun hmem => h ((List.dropLast_sublist path).subset hmem)
    · next hname => exact ih (by simp [h, Ne.symm hname])

/-- What stands in the result below some depth is one of the names, or stood there already. -/
theorem mem_drop_collapse {path : NamePath} {ns : List Name} {k : ℕ} {name : Name}
    (h : name ∈ (collapse path ns).drop k) : name ∈ ns ∨ name ∈ path.drop k := by
  induction ns generalizing path with
  | nil => exact Or.inr h
  | cons first ns ih =>
    rw [collapse] at h
    split at h
    · rcases ih h with hns | hpath
      · exact Or.inl (List.mem_cons_of_mem _ hns)
      · exact Or.inr (((List.dropLast_sublist path).drop k).subset hpath)
    · rcases ih h with hns | hpath
      · exact Or.inl (List.mem_cons_of_mem _ hns)
      · rw [List.drop_append] at hpath
        rcases List.mem_append.mp hpath with hpath | hfirst
        · exact Or.inr hpath
        · exact Or.inl (List.mem_cons.mpr (Or.inl (List.mem_singleton.mp (List.mem_of_mem_drop hfirst))))

namespace FileSystem

variable {β : Type}

/-! ## Paths through links -/

section

variable (fs : FileSystem β)

/-- Along the names as far as the next link. -/
def walk (onLink : NamePath → List Name → Option NamePath) : NamePath → List Name → Option NamePath
  | path, [] => some path
  | path, name :: rest =>
    if name = dots then walk onLink path.dropLast rest
    else
      match fs.node (path ++ [name]) with
      | some (.link target) => onLink (if isAbsolute target then [] else path) (names target ++ rest)
      | _ => walk onLink (path ++ [name]) rest

/-- `os.path.realpath` of names below a path that is resolved; `none` when there are too many links. -/
def resolveFrom : (links : ℕ) → NamePath → List Name → Option NamePath
  | 0 => fs.walk fun _ _ => none
  | links + 1 => fs.walk (resolveFrom links)

/-- Along the names as far as the next link, each in a directory. -/
def enter (onLink : NamePath → List Name → Except OsError NamePath) : NamePath → List Name → Except OsError NamePath
  | path, [] => .ok path
  | path, name :: rest =>
    match fs.node path with
    | some .dir =>
      if name = dots then enter onLink path.dropLast rest
      else
        match fs.node (path ++ [name]) with
        | none => .error .fileNotFound
        | some (.link target) => onLink (if isAbsolute target then [] else path) (names target ++ rest)
        | some _ => enter onLink (path ++ [name]) rest
    | _ => .error .notADirectory

/-- Where the names below a path lead, for the system. -/
def followFrom : (links : ℕ) → NamePath → List Name → Except OsError NamePath
  | 0 => fs.enter fun _ _ => .error .tooManyLinks
  | links + 1 => fs.enter (followFrom links)

variable (links : ℕ)

def resolve (raw : List Name) : Option NamePath := fs.resolveFrom links [] raw

def follow (raw : List Name) : Except OsError NamePath := fs.followFrom links [] raw

/-- `os.stat`: what a path leads to. -/
def stat (raw : List Name) : Except OsError (Node β) := do
  let path ← fs.follow links raw
  match fs.node path with
  | some node => .ok node
  | none => .error .fileNotFound

/-- `os.lstat`: the last name is not followed. -/
def lstat (raw : List Name) : Except OsError (Node β) :=
  match raw.getLast? with
  | none => .ok .dir
  | some name =>
    if name = dots then fs.stat links raw
    else do
      let path ← fs.follow links raw.dropLast
      match fs.node path with
      | some .dir =>
        match fs.node (path ++ [name]) with
        | some node => .ok node
        | none => .error .fileNotFound
      | _ => .error .notADirectory

/-- `Path.is_symlink`. -/
def isSymlink (raw : List Name) : Bool :=
  match fs.lstat links raw with
  | .ok (.link _) => true
  | _ => false

/-- `Path.exists`. -/
def pathExists (raw : List Name) : Bool :=
  match fs.stat links raw with
  | .ok _ => true
  | .error _ => false

/-- `Path.is_dir`. -/
def isDir (raw : List Name) : Bool :=
  match fs.stat links raw with
  | .ok .dir => true
  | _ => false

/-- `Path.read_bytes`. -/
def readBytes (raw : List Name) : Except OsError β := do
  match ← fs.stat links raw with
  | .file contents _ => .ok contents
  | .special (some contents) => .ok contents
  | .dir => .error .isADirectory
  | _ => .error .unreadable

end

/-! ## Plain paths -/

/-- No link stands on the path, and it only goes down. -/
structure Plain (fs : FileSystem β) (path : NamePath) : Prop where
  down : dots ∉ path
  noLink (above : NamePath) : above <+: path → ∀ target, fs.node above ≠ some (.link target)

variable {fs : FileSystem β}

/-- What stands below a path stands in a directory there. -/
theorem node_of_below {path rest : NamePath} (h : fs.node (path ++ rest) ≠ none) : fs.node path ≠ none := by
  induction rest using List.reverseRecOn with
  | nil => simpa using h
  | append_singleton rest name ih =>
    rw [← List.append_assoc] at h
    refine ih ?_
    rw [fs.parent_dir _ _ h]
    exact Option.some_ne_none _

theorem plain_nil : fs.Plain [] := by
  refine ⟨List.not_mem_nil, fun above habove target h => ?_⟩
  rw [List.prefix_nil.mp habove, fs.root_dir] at h
  cases h

theorem Plain.above {path above : NamePath} (h : fs.Plain path) (habove : above <+: path) : fs.Plain above :=
  ⟨fun hmem => h.down (habove.subset hmem), fun upper hupper => h.noLink upper (hupper.trans habove)⟩

theorem Plain.dropLast {path : NamePath} (h : fs.Plain path) : fs.Plain path.dropLast :=
  h.above (List.dropLast_prefix path)

theorem Plain.concat {path : NamePath} (h : fs.Plain path) {name : Name} (hdots : name ≠ dots)
    (hname : ∀ target, fs.node (path ++ [name]) ≠ some (.link target)) : fs.Plain (path ++ [name]) := by
  refine ⟨fun hmem => ?_, fun above habove => ?_⟩
  · rcases List.mem_append.mp hmem with hmem | hmem
    · exact h.down hmem
    · exact hdots (List.mem_singleton.mp hmem).symm
  · rcases List.prefix_concat_iff.mp habove with rfl | habove
    · exact hname
    · exact h.noLink above habove

/-- A resolved path is plain. -/
theorem resolveFrom_plain {links : ℕ} {path resolved : NamePath} {rest : List Name} (hpath : fs.Plain path)
    (h : fs.resolveFrom links path rest = some resolved) : fs.Plain resolved := by
  have hwalk (onLink : NamePath → List Name → Option NamePath)
      (hlink : ∀ path rest resolved, fs.Plain path → onLink path rest = some resolved → fs.Plain resolved) :
      ∀ rest path resolved, fs.Plain path → fs.walk onLink path rest = some resolved → fs.Plain resolved := by
    intro rest
    induction rest with
    | nil =>
      intro path resolved hpath h
      obtain rfl := Option.some.inj h
      exact hpath
    | cons name rest ih =>
      intro path resolved hpath h
      rw [walk] at h
      split at h
      · exact ih _ _ hpath.dropLast h
      · next hdots =>
        split at h
        · next target htarget =>
          refine hlink _ _ _ ?_ h
          split
          · exact plain_nil
          · exact hpath
        · next hnode => exact ih _ _ (hpath.concat hdots fun target ht => hnode target ht) h
  induction links generalizing path rest resolved with
  | zero => exact hwalk _ (fun _ _ _ _ h => by cases h) _ _ _ hpath h
  | succ links ih => exact hwalk _ (fun _ _ _ hpath h => ih hpath h) _ _ _ hpath h

theorem resolve_plain {links : ℕ} {raw : List Name} {resolved : NamePath} (h : fs.resolve links raw = some resolved) :
    fs.Plain resolved := resolveFrom_plain plain_nil h

/-- The first name below a path that is plain down to `rest`. -/
theorem Plain.head {path : NamePath} {name : Name} {rest : List Name} (h : fs.Plain (path ++ name :: rest)) :
    name ≠ dots ∧ (∀ target, fs.node (path ++ [name]) ≠ some (.link target)) ∧
      fs.Plain ((path ++ [name]) ++ rest) := by
  have happend : path ++ name :: rest = (path ++ [name]) ++ rest := by simp
  refine ⟨fun heq => h.down (by simp [heq]), h.noLink _ ?_, happend ▸ h⟩
  rw [happend]
  exact List.prefix_append ..

/-- A plain path resolves to itself. -/
theorem resolveFrom_of_plain {links : ℕ} {path : NamePath} {rest : List Name} (h : fs.Plain (path ++ rest)) :
    fs.resolveFrom links path rest = some (path ++ rest) := by
  have hwalk (onLink : NamePath → List Name → Option NamePath) : ∀ rest path, fs.Plain (path ++ rest) →
      fs.walk onLink path rest = some (path ++ rest) := by
    intro rest
    induction rest with
    | nil =>
      intro path _
      rw [walk, List.append_nil]
    | cons name rest ih =>
      intro path h
      obtain ⟨hname, hlink, hrest⟩ := h.head
      rw [walk, if_neg hname]
      split
      · next target htarget => exact absurd htarget (hlink target)
      · rw [ih _ hrest]
        simp
  cases links with
  | zero => exact hwalk _ _ _ h
  | succ links => exact hwalk _ _ _ h

/-- Where a plain path leads, if it leads anywhere. -/
theorem followFrom_of_plain {links : ℕ} {path followed : NamePath} {rest : List Name} (h : fs.Plain (path ++ rest))
    (hfollow : fs.followFrom links path rest = .ok followed) : followed = path ++ rest := by
  have henter (onLink : NamePath → List Name → Except OsError NamePath) : ∀ rest path,
      fs.Plain (path ++ rest) → fs.enter onLink path rest = .ok followed → followed = path ++ rest := by
    intro rest
    induction rest with
    | nil =>
      intro path _ h
      rw [List.append_nil]
      exact (Except.ok.inj h).symm
    | cons name rest ih =>
      intro path h hfollow
      obtain ⟨hname, hlink, hrest⟩ := h.head
      rw [enter] at hfollow
      split at hfollow
      · rw [if_neg hname] at hfollow
        split at hfollow
        · cases hfollow
        · next target htarget => exact absurd htarget (hlink target)
        · rw [ih _ hrest hfollow]
          simp
      · cases hfollow
  cases links with
  | zero => exact henter _ _ _ h hfollow
  | succ links => exact henter _ _ _ h hfollow

/-- A plain path to something leads there. -/
theorem followFrom_of_node {links : ℕ} {path : NamePath} {rest : List Name} (h : fs.Plain (path ++ rest))
    (hnode : fs.node (path ++ rest) ≠ none) : fs.followFrom links path rest = .ok (path ++ rest) := by
  have henter (onLink : NamePath → List Name → Except OsError NamePath) : ∀ rest path,
      fs.Plain (path ++ rest) → fs.node (path ++ rest) ≠ none → fs.enter onLink path rest = .ok (path ++ rest) := by
    intro rest
    induction rest with
    | nil =>
      intro path _ _
      rw [enter, List.append_nil]
    | cons name rest ih =>
      intro path h hnode
      obtain ⟨hname, hlink, hrest⟩ := h.head
      have happend : path ++ name :: rest = (path ++ [name]) ++ rest := by simp
      rw [happend] at hnode ⊢
      have hstep : fs.node (path ++ [name]) ≠ none := node_of_below hnode
      rw [enter, fs.parent_dir _ _ hstep]
      dsimp only
      rw [if_neg hname]
      split
      · next hnone => exact absurd hnone hstep
      · next target htarget => exact absurd htarget (hlink target)
      · exact ih _ hrest hnode
  cases links with
  | zero => exact henter _ _ _ h hnode
  | succ links => exact henter _ _ _ h hnode

variable {links : ℕ}

theorem resolve_of_plain {path : NamePath} (h : fs.Plain path) : fs.resolve links path = some path := by
  rw [← List.nil_append path] at h
  exact resolveFrom_of_plain h

theorem follow_of_plain {path followed : NamePath} (h : fs.Plain path)
    (hfollow : fs.follow links path = .ok followed) :
    followed = path := by
  rw [← List.nil_append path] at h hfollow ⊢
  exact followFrom_of_plain h hfollow

theorem follow_of_node {path : NamePath} (h : fs.Plain path) (hnode : fs.node path ≠ none) :
    fs.follow links path = .ok path := by
  rw [← List.nil_append path] at h hnode
  exact followFrom_of_node h hnode

/-- On a plain path the system finds what stands there. -/
theorem stat_of_plain {path : NamePath} {node : Node β} (h : fs.Plain path) :
    fs.stat links path = .ok node ↔ fs.node path = some node := by
  refine ⟨fun hstat => ?_, fun hnode => ?_⟩
  · rw [stat] at hstat
    cases hfollow : fs.follow links path with
    | error e =>
      rw [hfollow] at hstat
      cases hstat
    | ok followed =>
      obtain rfl : followed = path := follow_of_plain h hfollow
      rw [hfollow] at hstat
      simp only [bind, Except.bind] at hstat
      split at hstat
      · next hnode => rw [hnode, Except.ok.inj hstat]
      · cases hstat
  · have hfollow : fs.follow links path = .ok path :=
      follow_of_node h (by simp [hnode])
    rw [stat, hfollow]
    simp [bind, Except.bind, hnode]

theorem lstat_of_plain {path : NamePath} {name : Name} {node : Node β} (h : fs.Plain path) (hname : name ≠ dots) :
    fs.lstat links (path ++ [name]) = .ok node ↔ fs.node (path ++ [name]) = some node := by
  rw [lstat, List.getLast?_concat]
  dsimp only
  rw [if_neg hname, List.dropLast_concat]
  refine ⟨fun hlstat => ?_, fun hnode => ?_⟩
  · cases hfollow : fs.follow links path with
    | error e =>
      rw [hfollow] at hlstat
      cases hlstat
    | ok followed =>
      obtain rfl : followed = path := follow_of_plain h hfollow
      rw [hfollow] at hlstat
      simp only [bind, Except.bind] at hlstat
      split at hlstat
      · split at hlstat
        · next hnode => rw [hnode, Except.ok.inj hlstat]
        · cases hlstat
      · cases hlstat
  · have hdir := fs.parent_dir path name (by simp [hnode])
    have hfollow : fs.follow links path = .ok path :=
      follow_of_node h (by simp [hdir])
    rw [hfollow]
    simp [bind, Except.bind, hdir, hnode]

/-- A name is seen as a link exactly when one stands there. -/
theorem isSymlink_of_plain {path : NamePath} {name : Name} (h : fs.Plain path) (hname : name ≠ dots) :
    fs.isSymlink links (path ++ [name]) = true ↔ ∃ target, fs.node (path ++ [name]) = some (.link target) := by
  rw [isSymlink]
  refine ⟨fun hlink => ?_, fun ⟨target, htarget⟩ => ?_⟩
  · split at hlink
    · next target hlstat => exact ⟨target, (lstat_of_plain h hname).mp hlstat⟩
    · cases hlink
  · rw [(lstat_of_plain h hname).mpr htarget]

/-- What a read of a node gives. -/
def Node.Reads (node : Node β) (contents : β) : Prop :=
  (∃ mode, node = .file contents mode) ∨ node = .special (some contents)

theorem readBytes_of_plain {path : NamePath} {contents : β} (h : fs.Plain path) :
    fs.readBytes links path = .ok contents ↔ ∃ node, fs.node path = some node ∧ Node.Reads node contents := by
  rw [readBytes]
  refine ⟨fun hread => ?_, fun ⟨node, hnode, hreads⟩ => ?_⟩
  · cases hstat : fs.stat links path with
    | error e =>
      rw [hstat] at hread
      cases hread
    | ok node =>
      refine ⟨node, (stat_of_plain h).mp hstat, ?_⟩
      rw [hstat] at hread
      simp only [bind, Except.bind] at hread
      split at hread
      · next mode => exact Or.inl ⟨mode, by rw [Except.ok.inj hread]⟩
      · exact Or.inr (by rw [Except.ok.inj hread])
      · cases hread
      · cases hread
  · rw [(stat_of_plain h).mpr hnode]
    rcases hreads with ⟨mode, rfl⟩ | rfl <;> rfl

/-! ## Where the system arrives -/

/-- Where the system arrives it arrives at something, over a plain path, and `realpath` agrees. -/
theorem followFrom_ok {path followed : NamePath} {rest : List Name} (hpath : fs.Plain path)
    (hnode : fs.node path ≠ none)
    (h : fs.followFrom links path rest = .ok followed) :
    fs.Plain followed ∧ fs.node followed ≠ none ∧ fs.resolveFrom links path rest = some followed := by
  have henter (onFollow : NamePath → List Name → Except OsError NamePath)
      (onLink : NamePath → List Name → Option NamePath)
      (hlink : ∀ path rest, fs.Plain path → fs.node path ≠ none → onFollow path rest = .ok followed →
        fs.Plain followed ∧ fs.node followed ≠ none ∧ onLink path rest = some followed) :
      ∀ rest path, fs.Plain path → fs.node path ≠ none → fs.enter onFollow path rest = .ok followed →
        fs.Plain followed ∧ fs.node followed ≠ none ∧ fs.walk onLink path rest = some followed := by
    intro rest
    induction rest with
    | nil =>
      intro path hpath hnode h
      obtain rfl := Except.ok.inj h
      exact ⟨hpath, hnode, rfl⟩
    | cons name rest ih =>
      intro path hpath hnode h
      rw [enter] at h
      split at h
      · next hdir =>
        rw [walk]
        split at h
        · next hdots =>
          rw [if_pos hdots]
          refine ih _ hpath.dropLast ?_ h
          obtain ⟨rest', hrest'⟩ := List.dropLast_prefix path
          exact node_of_below (hrest'.symm ▸ hnode)
        · next hdots =>
          rw [if_neg hdots]
          split at h
          · cases h
          · next target htarget =>
            rw [htarget]
            refine hlink _ _ ?_ ?_ h
            · split
              · exact plain_nil
              · exact hpath
            · split
              · rw [fs.root_dir]
                exact Option.some_ne_none _
              · exact hnode
          · next hnotLink hsome =>
            have := ih _ (hpath.concat hdots fun target ht => hnotLink target (Option.some.inj (hsome.symm.trans ht)))
              (by simp [hsome]) h
            split
            · next target htarget => exact absurd (Option.some.inj (hsome.symm.trans htarget)) (hnotLink target)
            · exact this
      · cases h
  induction links generalizing path rest with
  | zero =>
    refine henter (fun _ _ => .error .tooManyLinks) (fun _ _ => none) (fun _ _ _ _ h => ?_) _ _ hpath hnode h
    cases h
  | succ links ih => exact henter _ _ (fun _ _ hpath hnode h => ih hpath hnode h) _ _ hpath hnode h

theorem follow_ok {raw : List Name} {followed : NamePath} (h : fs.follow links raw = .ok followed) :
    fs.Plain followed ∧ fs.node followed ≠ none ∧ fs.resolve links raw = some followed :=
  followFrom_ok plain_nil (by simp [fs.root_dir]) h

/-- What follows where the system arrives, when it takes no links. -/
theorem followFrom_append {path dir : NamePath} {rest more : List Name} {result : Except OsError NamePath}
    (h : fs.followFrom links path rest = .ok dir) (hmore : ∀ links, fs.followFrom links dir more = result) :
    fs.followFrom links path (rest ++ more) = result := by
  have henter (onLink : NamePath → List Name → Except OsError NamePath) (hmore : fs.enter onLink dir more = result)
      (honLink : ∀ path rest, onLink path rest = .ok dir → onLink path (rest ++ more) = result) :
      ∀ rest path, fs.enter onLink path rest = .ok dir → fs.enter onLink path (rest ++ more) = result := by
    intro rest
    induction rest with
    | nil =>
      intro path h
      obtain rfl := Except.ok.inj h
      exact hmore
    | cons first rest ih =>
      intro path h
      rw [List.cons_append]
      rw [enter] at h ⊢
      split at h
      · split at h
        · next heq =>
          rw [if_pos heq]
          exact ih _ h
        · next hne =>
          rw [if_neg hne]
          split at h
          · cases h
          · rw [← List.append_assoc]
            exact honLink _ _ h
          · exact ih _ h
      · cases h
  induction links generalizing path rest with
  | zero =>
    refine henter (fun _ _ => .error .tooManyLinks) (hmore 0) (fun _ _ h => ?_) _ _ h
    cases h
  | succ links ih => exact henter _ (hmore (links + 1)) (fun _ _ h => ih h) _ _ h

/-- One name below a directory. -/
theorem followFrom_singleton {dir : NamePath} {name : Name} (hdir : fs.node dir = some .dir) (hdots : name ≠ dots)
    (hlink : ∀ target, fs.node (dir ++ [name]) ≠ some (.link target)) :
    fs.followFrom links dir [name] =
      if fs.node (dir ++ [name]) = none then .error .fileNotFound else .ok (dir ++ [name]) := by
  have henter (onLink : NamePath → List Name → Except OsError NamePath) : fs.enter onLink dir [name] =
      if fs.node (dir ++ [name]) = none then .error .fileNotFound else .ok (dir ++ [name]) := by
    rw [enter, hdir]
    dsimp only
    rw [if_neg hdots]
    split
    · next hnone => rw [if_pos hnone]
    · next target htarget => exact absurd htarget (hlink target)
    · next hsome =>
      rw [if_neg (by simp [hsome])]
      rfl
  cases links with
  | zero => exact henter _
  | succ links => exact henter _

/-- One more name, in a directory and not a link. -/
theorem followFrom_concat {path dir : NamePath} {rest : List Name} {name : Name} {node : Node β}
    (h : fs.followFrom links path rest = .ok dir) (hdir : fs.node dir = some .dir) (hdots : name ≠ dots)
    (hnode : fs.node (dir ++ [name]) = some node) (hlink : ∀ target, node ≠ .link target) :
    fs.followFrom links path (rest ++ [name]) = .ok (dir ++ [name]) := by
  refine followFrom_append h fun links => ?_
  rw [followFrom_singleton hdir hdots (by simpa [hnode] using hlink), if_neg (by simp [hnode])]

/-- One more name that is missing in a directory. -/
theorem followFrom_missing {path dir : NamePath} {rest : List Name} {name : Name}
    (h : fs.followFrom links path rest = .ok dir) (hdir : fs.node dir = some .dir) (hdots : name ≠ dots)
    (hnode : fs.node (dir ++ [name]) = none) : fs.followFrom links path (rest ++ [name]) = .error .fileNotFound := by
  refine followFrom_append h fun links => ?_
  rw [followFrom_singleton hdir hdots (by simp [hnode]), if_pos hnode]

/-! ## Changes -/

/-- A node at a path whose parent is a directory, where no directory stands. -/
def put (fs : FileSystem β) (path : NamePath) (name : Name) (node : Node β) (hdir : fs.node path = some .dir)
    (hleaf : fs.node (path ++ [name]) ≠ some .dir) : FileSystem β where
  node p := if p = path ++ [name] then some node else fs.node p
  root_dir := by
    rw [if_neg (by simp)]
    exact fs.root_dir
  parent_dir p n h := by
    have hne : path ≠ path ++ [name] := by simp
    by_cases heq : p ++ [n] = path ++ [name]
    · obtain ⟨rfl, -⟩ := List.append_inj' heq rfl
      rw [if_neg hne]
      exact hdir
    · rw [if_neg heq] at h
      have hparent := fs.parent_dir p n h
      have hp : p ≠ path ++ [name] := fun hp => hleaf (hp ▸ hparent)
      rw [if_neg hp]
      exact hparent

/-- Without what stands below a path. -/
def clear (fs : FileSystem β) (path : NamePath) : FileSystem β where
  node p := if path <+: p ∧ p ≠ path then none else fs.node p
  root_dir := by
    rw [if_neg fun h => h.2 (List.prefix_nil.mp h.1).symm]
    exact fs.root_dir
  parent_dir p name h := by
    by_cases hbelow : path <+: p ∧ p ≠ path
    · have hp : path <+: p ++ [name] ∧ p ++ [name] ≠ path := by
        refine ⟨hbelow.1.trans (List.prefix_append ..), fun heq => ?_⟩
        have := hbelow.1.length_le
        rw [← heq, List.length_append, List.length_singleton] at this
        omega
      rw [if_pos hp] at h
      exact absurd rfl h
    · rw [if_neg hbelow]
      split at h
      · exact absurd rfl h
      · exact fs.parent_dir p name h

/-- Without a path and what stands below it. -/
def remove (fs : FileSystem β) (path : NamePath) (hne : path ≠ []) : FileSystem β where
  node p := if path <+: p then none else fs.node p
  root_dir := by
    rw [if_neg fun h => hne (List.prefix_nil.mp h)]
    exact fs.root_dir
  parent_dir p name h := by
    by_cases hbelow : path <+: p
    · rw [if_pos (hbelow.trans (List.prefix_append ..))] at h
      exact absurd rfl h
    · rw [if_neg hbelow]
      split at h
      · exact absurd rfl h
      · exact fs.parent_dir p name h

/-- Nothing goes: directories and links stay as they are, files and devices stay something of the kind. -/
structure Grows (fs fs' : FileSystem β) : Prop where
  dir (path : NamePath) : fs.node path = some .dir → fs'.node path = some .dir
  link (path : NamePath) (target : List Char) : fs.node path = some (.link target) →
    fs'.node path = some (.link target)
  leaf (path : NamePath) (node : Node β) : fs.node path = some node → (∀ target, node ≠ .link target) →
    ∃ node', fs'.node path = some node' ∧ ∀ target, node' ≠ .link target

variable {fs' fs'' : FileSystem β}

theorem Grows.refl (fs : FileSystem β) : Grows fs fs :=
  ⟨fun _ h => h, fun _ _ h => h, fun _ node h hlink => ⟨node, h, hlink⟩⟩

theorem Grows.trans (h : Grows fs fs') (h' : Grows fs' fs'') : Grows fs fs'' where
  dir path hdir := h'.dir path (h.dir path hdir)
  link path target hlink := h'.link path target (h.link path target hlink)
  leaf path node hnode hlink := by
    obtain ⟨node', hnode', hlink'⟩ := h.leaf path node hnode hlink
    exact h'.leaf path node' hnode' hlink'

/-- Nothing that stood somewhere is gone. -/
theorem Grows.node_eq_none (h : Grows fs fs') {path : NamePath} (hnone : fs'.node path = none) :
    fs.node path = none := by
  cases hnode : fs.node path with
  | none => rfl
  | some node =>
    by_cases hlink : ∃ target, node = .link target
    · obtain ⟨target, rfl⟩ := hlink
      cases hnone.symm.trans (h.link path target hnode)
    · obtain ⟨node', hnode', -⟩ := h.leaf path node hnode fun target heq => hlink ⟨target, heq⟩
      cases hnone.symm.trans hnode'

@[simp] theorem put_node_self {path : NamePath} {name : Name} {node : Node β} (hdir : fs.node path = some .dir)
    (hleaf : fs.node (path ++ [name]) ≠ some .dir) :
    (fs.put path name node hdir hleaf).node (path ++ [name]) = some node := if_pos rfl

theorem put_node_of_ne {path : NamePath} {name : Name} {node : Node β} (hdir : fs.node path = some .dir)
    (hleaf : fs.node (path ++ [name]) ≠ some .dir) {p : NamePath} (h : p ≠ path ++ [name]) :
    (fs.put path name node hdir hleaf).node p = fs.node p := if_neg h

theorem Plain.put {p path : NamePath} {name : Name} {node : Node β} (h : fs.Plain p) (hdir : fs.node path = some .dir)
    (hleaf : fs.node (path ++ [name]) ≠ some .dir) (hnew : ∀ target, node ≠ .link target) :
    (fs.put path name node hdir hleaf).Plain p := by
  refine ⟨h.down, fun above habove target htarget => ?_⟩
  by_cases heq : above = path ++ [name]
  · subst heq
    rw [put_node_self] at htarget
    exact hnew target (Option.some.inj htarget)
  · rw [put_node_of_ne hdir hleaf heq] at htarget
    exact h.noLink above habove target htarget

/-- A new entry, or one in place of a file. -/
theorem grows_put {path : NamePath} {name : Name} {node : Node β} (hdir : fs.node path = some .dir)
    (hleaf : fs.node (path ++ [name]) ≠ some .dir) (hold : ∀ target, fs.node (path ++ [name]) ≠ some (.link target))
    (hnew : ∀ target, node ≠ .link target) : Grows fs (fs.put path name node hdir hleaf) where
  dir p hp := by
    show (if p = path ++ [name] then some node else fs.node p) = _
    have hne : p ≠ path ++ [name] := fun heq => hleaf (heq ▸ hp)
    rw [if_neg hne]
    exact hp
  link p target hp := by
    show (if p = path ++ [name] then some node else fs.node p) = _
    have hne : p ≠ path ++ [name] := fun heq => hold target (heq ▸ hp)
    rw [if_neg hne]
    exact hp
  leaf p node' hp hlink := by
    show ∃ node', (if p = path ++ [name] then some node else fs.node p) = _ ∧ _
    by_cases heq : p = path ++ [name]
    · rw [if_pos heq]
      exact ⟨node, rfl, hnew⟩
    · rw [if_neg heq]
      exact ⟨node', hp, hlink⟩

/-- Where every path is a directory, each leads as it is written. -/
theorem follow_full (links : ℕ) (raw : List Name) :
    (full : FileSystem β).follow links raw = .ok (collapse [] raw) := by
  have henter (onLink : NamePath → List Name → Except OsError NamePath) : ∀ (rest : List Name) (path : NamePath),
      (full : FileSystem β).enter onLink path rest = .ok (collapse path rest) := by
    intro rest
    induction rest with
    | nil => exact fun path => rfl
    | cons name rest ih =>
      intro path
      rw [enter, collapse]
      show (if name = dots then _ else _) = _
      split
      · exact ih _
      · exact ih _
  cases links with
  | zero => exact henter _ raw []
  | succ links => exact henter _ raw []

/-- A path that led somewhere still leads there. -/
theorem Grows.follow (h : Grows fs fs') {raw : List Name} {followed : NamePath}
    (hfollow : fs.follow links raw = .ok followed) : fs'.follow links raw = .ok followed := by
  have henter (onLink onLink' : NamePath → List Name → Except OsError NamePath)
      (honLink : ∀ path rest, onLink path rest = .ok followed → onLink' path rest = .ok followed) :
      ∀ rest path, fs.enter onLink path rest = .ok followed → fs'.enter onLink' path rest = .ok followed := by
    intro rest
    induction rest with
    | nil =>
      intro path hfollow
      exact hfollow
    | cons name rest ih =>
      intro path hfollow
      rw [enter] at hfollow ⊢
      split at hfollow
      · next hdir =>
        rw [h.dir path hdir]
        dsimp only
        split at hfollow
        · next heq =>
          rw [if_pos heq]
          exact ih _ hfollow
        · next hne =>
          rw [if_neg hne]
          split at hfollow
          · cases hfollow
          · next target htarget =>
            rw [h.link _ target htarget]
            exact honLink _ _ hfollow
          · next node hnotLink hsome =>
            obtain ⟨node', hnode', hlink'⟩ := h.leaf _ node hsome hnotLink
            rw [hnode']
            split
            · next heq => cases heq
            · next target heq => exact absurd (Option.some.inj heq) (hlink' target)
            · exact ih _ hfollow
      · cases hfollow
  have hlinks : ∀ links path rest, fs.followFrom links path rest = .ok followed →
      fs'.followFrom links path rest = .ok followed := by
    intro links
    induction links with
    | zero =>
      intro path rest
      refine henter (fun _ _ => .error .tooManyLinks) (fun _ _ => .error .tooManyLinks) (fun _ _ h => ?_) rest path
      cases h
    | succ links ih => exact fun path rest => henter _ _ ih rest path
  exact hlinks links [] raw hfollow

/-- What is plain and there stays so. -/
theorem Plain.grows {path : NamePath} (h : fs.Plain path) (hnode : fs.node path ≠ none) (hgrows : Grows fs fs') :
    fs'.Plain path ∧ fs'.node path ≠ none := by
  have hfollow : fs.follow 0 path = .ok path := follow_of_node h hnode
  obtain ⟨hplain, hthere, -⟩ := follow_ok (hgrows.follow hfollow)
  exact ⟨hplain, hthere⟩

end FileSystem

end Framework
