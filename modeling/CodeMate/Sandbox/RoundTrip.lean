import CodeMate.Sandbox.Packing
import Mathlib.Data.List.Pairwise

/-!
# Reading back what was written

An archive of a workspace is read into a new destination. `Filled` is what
holds there when some of the entries were made: `extractMember_filled` makes
one more, and `extractMembers_filled` all of them, parents first.
`extract_create_iff` says exactly which workspaces come back: those without two
names of one file, since the reader refuses links.
-/

namespace CodeMate.Sandbox

open Framework FileSystem

/-! ## Names -/

theorem cut_arcname {path : NamePath} (hne : path ≠ []) (h : ∀ name ∈ path, ProperName name) :
    cut (arcname path) = path :=
  cut_intercalate hne fun name hmem => (h name hmem).noSlash

theorem names_arcname {path : NamePath} (hne : path ≠ []) (h : ∀ name ∈ path, ProperName name) :
    names (arcname path) = path := by
  rw [names, cut_arcname hne h, List.filter_eq_self]
  intro name hmem
  simpa using ⟨(h name hmem).nonempty, (h name hmem).notHere⟩

theorem arcname_relative {path : NamePath} (hne : path ≠ []) (h : ∀ name ∈ path, ProperName name) :
    isAbsolute (arcname path) = false := by
  cases path with
  | nil => exact absurd rfl hne
  | cons name path =>
    have hname := h name (List.mem_cons_self ..)
    cases name with
    | nil => exact absurd rfl hname.nonempty
    | cons c name =>
      have hc : c ≠ '/' := fun heq => hname.noSlash (heq ▸ List.mem_cons_self ..)
      have hhead : (arcname ((c :: name) :: path)).head? = some c := by
        cases path with
        | nil => rfl
        | cons next path => rw [arcname, List.intercalate_cons_cons]; rfl
      rw [isAbsolute, hhead]
      simpa using hc

theorem null_not_mem_arcname {path : NamePath} (h : ∀ name ∈ path, ProperName name) : '\x00' ∉ arcname path := by
  induction path with
  | nil => exact List.not_mem_nil
  | cons name path ih =>
    have hname := (h name (List.mem_cons_self ..)).noNull
    have hrest := ih fun other hmem => h other (List.mem_cons_of_mem _ hmem)
    cases path with
    | nil => rwa [arcname, List.intercalate_singleton]
    | cons next path =>
      rw [arcname, List.intercalate_cons_cons, List.append_assoc]
      intro hmem
      rcases List.mem_append.mp hmem with hmem | hmem
      · exact hname hmem
      · rcases List.mem_append.mp hmem with hmem | hmem
        · cases List.mem_singleton.mp hmem
        · exact hrest hmem

theorem joinName_arcname {root path : NamePath} (hne : path ≠ []) (h : ∀ name ∈ path, ProperName name) :
    joinName root (arcname path) = root ++ path := by
  rw [joinName, arcname_relative hne h, names_arcname hne h]
  rfl

/-! ## Parents first -/

theorem nameLe_linear : Linear nameLe := by
  refine lexLe_linear ⟨fun a b => ?_, fun a b c hab hbc => ?_, fun a b hab hba => ?_⟩
  · rcases Nat.le_total a.toNat b.toNat with hle | hle <;> simp [hle]
  · exact decide_eq_true ((of_decide_eq_true hab).trans (of_decide_eq_true hbc))
  · exact Char.toNat_inj.mp (Nat.le_antisymm (of_decide_eq_true hab) (of_decide_eq_true hba))

theorem pathLe_linear : Linear pathLe := lexLe_linear nameLe_linear

/-- The directory of each entry comes before it. -/
def ParentsFirst (entries : List (NamePath × PathEntry)) : Prop :=
  ∀ before after path name entry, entries = before ++ (path ++ [name], entry) :: after →
    path = [] ∨ ∃ mode, (path, .dir mode) ∈ before

namespace WorkspaceTree

variable (workspace : WorkspaceTree)

theorem mem_sorted {entry : NamePath × PathEntry} : entry ∈ workspace.sorted ↔ entry ∈ workspace.entries :=
  (List.mergeSort_perm ..).mem_iff

theorem mem_kept {entry : NamePath × PathEntry} :
    entry ∈ workspace.kept ↔ entry ∈ workspace.entries ∧ gitName ∉ entry.1 := by
  rw [kept, keptEntries, List.mem_filter, mem_sorted, decide_eq_true_iff]

theorem kept_nodup : (workspace.kept.map Prod.fst).Nodup := by
  have hsorted : (workspace.sorted.map Prod.fst).Nodup :=
    ((List.mergeSort_perm ..).map Prod.fst).nodup_iff.mpr workspace.nodup
  exact hsorted.sublist (List.filter_sublist.map Prod.fst)

theorem kept_pairwise : workspace.kept.Pairwise fun a b => pathLe a.1 b.1 := by
  have hsorted : workspace.sorted.Pairwise fun a b => pathLe a.1 b.1 :=
    List.pairwise_mergeSort (fun a b c => pathLe_linear.trans a.1 b.1 c.1) (fun a b => pathLe_linear.total a.1 b.1) _
  exact hsorted.sublist List.filter_sublist

theorem kept_parentsFirst : ParentsFirst workspace.kept := by
  intro before after path name entry hsplit
  have hmem : (path ++ [name], entry) ∈ workspace.kept := by simp [hsplit]
  obtain ⟨hentry, hgit⟩ := (mem_kept workspace).mp hmem
  rcases workspace.parent path name entry hentry with hnil | ⟨mode, hparent⟩
  · exact Or.inl hnil
  · refine Or.inr ⟨mode, ?_⟩
    have hkept : (path, PathEntry.dir mode) ∈ workspace.kept :=
      (mem_kept workspace).mpr ⟨hparent, fun h => hgit (List.mem_append_left _ h)⟩
    have hpairwise := workspace.kept_pairwise
    rw [hsplit] at hkept hpairwise
    rcases List.mem_append.mp hkept with hbefore | hafter
    · exact hbefore
    · rcases List.mem_cons.mp hafter with heq | hafter
      · exact absurd (congrArg (fun e => e.1.length) heq) (by simp)
      · -- after its own child it would be both below and above it in the order
        have hle := (List.pairwise_cons.mp (List.pairwise_append.mp hpairwise).2.1).1 _ hafter
        have heq := pathLe_linear.antisymm _ _ hle (lexLe_extends (List.prefix_append path [name]))
        exact absurd (congrArg List.length heq) (by simp)

end WorkspaceTree

/-! ## Filling the destination -/

/-- What comes of an entry. -/
def PathEntry.node : PathEntry → Option (Node Bytes)
  | dir _ => some .dir
  | file _ contents mode => some (.file contents (mode &&& 0o755))
  | _ => none

/-- A directory that holds what some entries name, and nothing else. -/
structure Filled (root : NamePath) (done : List (NamePath × PathEntry)) (fs : FileSystem Bytes) : Prop where
  plain : fs.Plain root
  dir : fs.node root = some .dir
  made : ∀ entry ∈ done, fs.node (root ++ entry.1) = entry.2.node
  rest (path : NamePath) : path ≠ [] → path ∉ done.map Prod.fst → fs.node (root ++ path) = none

section Filled

variable {root path : NamePath} {name : Name} {done : List (NamePath × PathEntry)} {fs fs' : FileSystem Bytes}

theorem Fresh.filled (h : Fresh root fs) : Filled root [] fs :=
  ⟨h.plain, h.dir, by simp, fun path hne _ => h.empty _ (List.prefix_append ..) (by simpa using hne)⟩

theorem Filled.noLink (h : Filled root done fs) (path : NamePath) (target : List Char) :
    fs.node (root ++ path) ≠ some (.link target) := by
  intro hlink
  by_cases hnil : path = []
  · rw [hnil, List.append_nil, h.dir] at hlink
    cases hlink
  · by_cases hmem : path ∈ done.map Prod.fst
    · obtain ⟨⟨_, entry⟩, hentry, rfl⟩ := List.mem_map.mp hmem
      rw [h.made _ hentry] at hlink
      cases entry <;> cases hlink
    · rw [h.rest path hnil hmem] at hlink
      cases hlink

/-- What goes down from the destination is plain. -/
theorem Filled.plain_below (h : Filled root done fs) (hdown : dots ∉ path) : fs.Plain (root ++ path) := by
  refine ⟨fun hmem => ?_, fun above habove target => ?_⟩
  · rcases List.mem_append.mp hmem with hmem | hmem
    · exact h.plain.down hmem
    · exact hdown hmem
  · rcases List.prefix_or_prefix_of_prefix habove (List.prefix_append root path) with hupper | ⟨below, rfl⟩
    · exact h.plain.noLink above hupper target
    · exact h.noLink below target

/-- One more entry, and the rest as it was. -/
theorem Filled.add (h : Filled root done fs) {entry : PathEntry} (hne : path ≠ [])
    (hnew : path ∉ done.map Prod.fst) (hnode : fs'.node (root ++ path) = entry.node)
    (hsame : ∀ p, p ≠ root ++ path → fs'.node p = fs.node p) : Filled root (done ++ [(path, entry)]) fs' := by
  have hother (p : NamePath) (hp : p ≠ path) : fs'.node (root ++ p) = fs.node (root ++ p) :=
    hsame _ fun heq => hp (List.append_cancel_left heq)
  have hroot (p : NamePath) (hp : p <+: root) : fs'.node p = fs.node p := by
    refine hsame p fun heq => hne ?_
    have hlength := hp.length_le
    rw [heq, List.length_append] at hlength
    exact List.length_eq_zero_iff.mp (by omega)
  refine ⟨⟨h.plain.down, fun above habove target => ?_⟩, ?_, fun e he => ?_, fun p hp hpath => ?_⟩
  · rw [hroot above habove]
    exact h.plain.noLink above habove target
  · rw [hroot root (List.prefix_refl _)]
    exact h.dir
  · rcases List.mem_append.mp he with he | he
    · rw [hother e.1 fun heq => hnew (heq ▸ List.mem_map_of_mem he)]
      exact h.made e he
    · rw [List.mem_singleton.mp he]
      exact hnode
  · rw [List.map_append, List.mem_append, not_or] at hpath
    rw [hother p fun heq => hpath.2 (by simp [heq])]
    exact h.rest p hp hpath.1

end Filled

section Extraction

variable {root parent : NamePath} {name : Name} {member : TarInfo} {disk : Disk Bytes} {links newMode : ℕ}

/-- A directory's member makes it in its parent. -/
theorem extractMember_dir (hplain : disk.fs.Plain parent) (hname : ProperName name)
    (hjoin : joinName root member.name = parent ++ [name]) (hroot : root <+: parent ++ [name])
    (hnull : '\x00' ∉ member.name) (htype : member.type = .directory) (hdir : disk.fs.node parent = some .dir)
    (hnode : disk.fs.node (parent ++ [name]) = none) :
    ∃ disk', extractMember links newMode root member disk = (.ok (), disk') ∧
      disk'.fs.node (parent ++ [name]) = some .dir ∧
      ∀ p, p ≠ parent ++ [name] → disk'.fs.node p = disk.fs.node p := by
  have hleaf : disk.fs.node (parent ++ [name]) ≠ some .dir := by simp [hnode]
  have hall : disk.fs.Plain (parent ++ [name]) := hplain.concat hname.notAbove (by simp [hnode])
  have hmkdir : Disk.mkdirParents links true (parent ++ [name]) disk =
      (.ok (), { fs := disk.fs.put parent name .dir hdir hleaf,
                 changes := .mkdir (parent ++ [name]) :: disk.changes }) :=
    Disk.mkdirParents_child hplain hname.notAbove hdir hnode
  rw [extractMember, if_neg (by simp [htype]), if_neg hnull, hjoin]
  simp only [Bind.bind, Effect.bind, resolvePath, resolve_of_plain hall]
  rw [if_neg (by simpa using hroot), if_pos htype, Effect.mapError, hmkdir]
  exact ⟨_, rfl, put_node_self hdir hleaf, fun p hp => put_node_of_ne hdir hleaf hp⟩

/-- A file's member writes it in its parent. -/
theorem extractMember_file (hplain : disk.fs.Plain parent) (hname : ProperName name)
    (hjoin : joinName root member.name = parent ++ [name]) (hroot : root <+: parent ++ [name])
    (hnull : '\x00' ∉ member.name) (htype : member.type = .regular) (hdir : disk.fs.node parent = some .dir)
    (hnode : disk.fs.node (parent ++ [name]) = none) :
    ∃ disk', extractMember links newMode root member disk = (.ok (), disk') ∧
      disk'.fs.node (parent ++ [name]) = some (.file member.data (member.mode &&& 0o755)) ∧
      ∀ p, p ≠ parent ++ [name] → disk'.fs.node p = disk.fs.node p := by
  have hleaf : disk.fs.node (parent ++ [name]) ≠ some .dir := by simp [hnode]
  have hall : disk.fs.Plain (parent ++ [name]) := hplain.concat hname.notAbove (by simp [hnode])
  let written : Disk Bytes :=
    { fs := disk.fs.put parent name (.file member.data newMode) hdir hleaf,
      changes := .write (parent ++ [name]) member.data :: disk.changes }
  have hsame (p : NamePath) (hp : p ≠ parent ++ [name]) : written.fs.node p = disk.fs.node p :=
    put_node_of_ne hdir hleaf hp
  have hdir' : written.fs.node parent = some .dir := (hsame parent (by simp)).trans hdir
  have hnode' : written.fs.node (parent ++ [name]) = some (.file member.data newMode) := put_node_self hdir hleaf
  have hleaf' : written.fs.node (parent ++ [name]) ≠ some .dir := by simp [hnode']
  have hall' : written.fs.Plain (parent ++ [name]) := hall.put hdir hleaf nofun
  have hmkdir : Disk.mkdirParents links true parent disk = (.ok (), disk) := Disk.mkdirParents_dir hplain hdir
  have hwrite : Disk.writeFile links newMode (parent ++ [name]) member.data disk = (.ok (), written) :=
    Disk.writeFile_new hplain hname.notAbove hdir hnode
  have hchmod : Disk.chmod links (parent ++ [name]) (member.mode &&& 0o755) written =
      (.ok (), { fs := written.fs.put parent name (.file member.data (member.mode &&& 0o755)) hdir' hleaf',
                 changes := .chmod (parent ++ [name]) (member.mode &&& 0o755) :: written.changes }) :=
    Disk.chmod_file hall' hdir' hnode'
  rw [extractMember, if_neg (by simp [htype]), if_neg hnull, hjoin]
  simp only [Bind.bind, Effect.bind, resolvePath, resolve_of_plain hall]
  rw [if_neg (by simpa using hroot), if_neg (by simp [htype]), List.dropLast_concat]
  simp only [Effect.bind, Effect.mapError, hmkdir, Except.mapError, TarInfo.extractfile, if_pos htype, hwrite, hchmod]
  refine ⟨_, rfl, put_node_self hdir' hleaf', fun p hp => ?_⟩
  exact (put_node_of_ne hdir' hleaf' hp).trans (hsame p hp)

end Extraction

/-! ## All members -/

theorem mode_masked (mode : ℕ) : mode &&& 0o7777 &&& 0o755 = mode &&& 0o755 := by
  rw [Nat.and_assoc]
  rfl

theorem gettarinfo_name (inodes : List (ℕ × List Char)) (relative : NamePath) (entry : PathEntry) :
    (gettarinfo inodes relative entry).1.name = arcname relative := by
  cases entry with
  | file inode contents mode =>
    rw [gettarinfo]
    split <;> rfl
  | dir mode => rfl
  | symlink => rfl
  | special => rfl

section Members

variable {root path : NamePath} {name : Name} {done : List (NamePath × PathEntry)} {disk : Disk Bytes}
  {links newMode : ℕ}
  {inodes : List (ℕ × List Char)}

/-- An entry's member makes it, where its parent was made and it is no further name of a file. -/
theorem extractMember_filled {entry : PathEntry} (h : Filled root done disk.fs)
    (hproper : ∀ n ∈ path ++ [name], ProperName n) (hparent : path = [] ∨ ∃ mode, (path, .dir mode) ∈ done)
    (hnew : path ++ [name] ∉ done.map Prod.fst) (hkind : entry.isFile ∨ entry.isDir)
    (hlink : (gettarinfo inodes (path ++ [name]) entry).1.type ≠ .hardlink) :
    ∃ disk', extractMember links newMode root (gettarinfo inodes (path ++ [name]) entry).1 disk = (.ok (), disk') ∧
      Filled root (done ++ [(path ++ [name], entry)]) disk'.fs := by
  have hne : path ++ [name] ≠ [] := by simp
  have hname : ProperName name := hproper name (by simp)
  have hdown : dots ∉ path := fun hmem => (hproper dots (List.mem_append_left _ hmem)).notAbove rfl
  have happend : root ++ (path ++ [name]) = root ++ path ++ [name] := (List.append_assoc ..).symm
  have hplain : disk.fs.Plain (root ++ path) := h.plain_below hdown
  have hroot : root <+: root ++ path ++ [name] := by
    rw [List.append_assoc]
    exact List.prefix_append ..
  have hdir : disk.fs.node (root ++ path) = some .dir := by
    rcases hparent with rfl | ⟨mode, hmem⟩
    · rw [List.append_nil]
      exact h.dir
    · exact h.made _ hmem
  have hnode : disk.fs.node (root ++ path ++ [name]) = none := by
    rw [← happend]
    exact h.rest _ hne hnew
  have hjoin : joinName root (gettarinfo inodes (path ++ [name]) entry).1.name = root ++ path ++ [name] := by
    rw [gettarinfo_name, joinName_arcname hne hproper, happend]
  have hnull : '\x00' ∉ (gettarinfo inodes (path ++ [name]) entry).1.name := by
    rw [gettarinfo_name]
    exact null_not_mem_arcname hproper
  cases entry with
  | dir mode =>
    obtain ⟨disk', hrun, hmade, hsame⟩ := extractMember_dir hplain hname hjoin hroot hnull rfl hdir hnode
    rw [← happend] at hmade hsame
    exact ⟨disk', hrun, h.add hne hnew hmade hsame⟩
  | file inode contents mode =>
    have hlookup : inodes.lookup inode = none := by
      cases hlookup : inodes.lookup inode with
      | none => rfl
      | some linkname =>
        rw [gettarinfo, hlookup] at hlink
        exact absurd rfl hlink
    rw [gettarinfo, hlookup] at hjoin hnull ⊢
    obtain ⟨disk', hrun, hmade, hsame⟩ := extractMember_file hplain hname hjoin hroot hnull rfl hdir hnode
    rw [← happend] at hmade hsame
    rw [mode_masked] at hmade
    exact ⟨disk', hrun, h.add hne hnew hmade hsame⟩
  | symlink => simp [PathEntry.isFile, PathEntry.isDir] at hkind
  | special => simp [PathEntry.isFile, PathEntry.isDir] at hkind

/-- Entries that can be made one after the other. -/
structure Makeable (entries : List (NamePath × PathEntry)) : Prop where
  nodup : (entries.map Prod.fst).Nodup
  parentsFirst : ParentsFirst entries
  proper : ∀ entry ∈ entries, entry.1 ≠ [] ∧ ∀ name ∈ entry.1, ProperName name
  kinds : ∀ entry ∈ entries, entry.2.isFile ∨ entry.2.isDir

/-- The members of the entries that are left, by induction on them. -/
theorem extractMembers_filled {todo : List (NamePath × PathEntry)} (hall : Makeable (done ++ todo))
    (h : Filled root done disk.fs) (hlinks : ∀ member ∈ tarinfos inodes todo, member.type ≠ .hardlink) :
    ∃ disk', extractMembers links newMode root (tarinfos inodes todo) disk = (.ok (), disk') ∧
      Filled root (done ++ todo) disk'.fs := by
  induction todo generalizing done disk inodes with
  | nil => exact ⟨disk, rfl, by rwa [List.append_nil]⟩
  | cons first todo ih =>
    obtain ⟨relative, entry⟩ := first
    have hmem : (relative, entry) ∈ done ++ (relative, entry) :: todo := by simp
    obtain ⟨hne, hproper⟩ := hall.proper _ hmem
    obtain ⟨path, name, rfl⟩ : ∃ path name, relative = path ++ [name] := by
      rcases List.eq_nil_or_concat relative with hnil | ⟨path, name, hconcat⟩
      · exact absurd hnil hne
      · exact ⟨path, name, by rw [hconcat, List.concat_eq_append]⟩
    have hnew : path ++ [name] ∉ done.map Prod.fst := by
      have hnodup := hall.nodup
      rw [List.map_append, List.map_cons] at hnodup
      exact fun hin => (List.nodup_append.mp hnodup).2.2 _ hin _ (List.mem_cons_self ..) rfl
    obtain ⟨disk₁, hfirst, hfilled⟩ : ∃ disk₁,
        extractMember links newMode root (gettarinfo inodes (path ++ [name]) entry).1 disk = (.ok (), disk₁) ∧
          Filled root (done ++ [(path ++ [name], entry)]) disk₁.fs :=
      extractMember_filled h hproper (hall.parentsFirst _ _ _ _ _ rfl) hnew (hall.kinds _ hmem)
        (hlinks _ (List.mem_cons_self ..))
    have happend : done ++ (path ++ [name], entry) :: todo = done ++ [(path ++ [name], entry)] ++ todo := by simp
    rw [happend] at hall ⊢
    obtain ⟨disk', hrest, hfilled'⟩ := ih hall hfilled fun member hmember =>
      hlinks member (List.mem_cons_of_mem _ hmember)
    refine ⟨disk', ?_, hfilled'⟩
    rw [tarinfos, extractMembers]
    simp only [Bind.bind, Effect.bind, hfirst, hrest]

end Members

/-! ## Two names of one file -/

def PathEntry.inode : PathEntry → Option ℕ
  | file inode _ _ => some inode
  | _ => none

/-- The reader refuses links. -/
theorem extractMembers_noLink {root : NamePath} {members : List TarInfo} {disk disk' : Disk Bytes} {links newMode : ℕ}
    (h : extractMembers links newMode root members disk = (.ok (), disk')) :
    ∀ member ∈ members, member.type ≠ .hardlink := by
  induction members generalizing disk with
  | nil => simp
  | cons first members ih =>
    obtain ⟨_, disk₁, hfirst, hrest⟩ := Effect.bind_returns h
    intro member hmem htype
    rcases List.mem_cons.mp hmem with rfl | hmem
    · rw [extractMember, if_pos (Or.inr (Or.inl htype))] at hfirst
      cases hfirst
    · exact ih hrest member hmem htype

/-- Two entries are no names of one file. -/
def Apart (a b : NamePath × PathEntry) : Prop := ∀ inode, a.2.inode = some inode → b.2.inode ≠ some inode

/-- A link is stored exactly for a file that has a name already. -/
theorem tarinfos_noLink_iff {inodes : List (ℕ × List Char)} {entries : List (NamePath × PathEntry)} :
    (∀ member ∈ tarinfos inodes entries, member.type ≠ .hardlink) ↔
      (∀ entry ∈ entries, ∀ inode, entry.2.inode = some inode → inodes.lookup inode = none) ∧
        entries.Pairwise Apart := by
  induction entries generalizing inodes with
  | nil => simp [tarinfos]
  | cons first entries ih =>
    obtain ⟨relative, entry⟩ := first
    have hother (hinode : entry.inode = none) (htype : (gettarinfo inodes relative entry).1.type ≠ .hardlink)
        (hsame : (gettarinfo inodes relative entry).2 = inodes) :
        (∀ member ∈ tarinfos inodes ((relative, entry) :: entries), member.type ≠ .hardlink) ↔
          (∀ e ∈ (relative, entry) :: entries, ∀ inode, e.2.inode = some inode → inodes.lookup inode = none) ∧
            ((relative, entry) :: entries).Pairwise Apart := by
      rw [tarinfos, List.forall_mem_cons, hsame, ih, List.forall_mem_cons, List.pairwise_cons]
      have hfirst : ∀ inode, entry.inode = some inode → inodes.lookup inode = none := by simp [hinode]
      have hapart : ∀ e ∈ entries, Apart (relative, entry) e := fun e _ inode heq => by simp [hinode] at heq
      exact ⟨fun h => ⟨⟨hfirst, h.2.1⟩, hapart, h.2.2⟩, fun h => ⟨htype, h.1.2, h.2.2⟩⟩
    cases entry with
    | file inode contents mode =>
      rw [tarinfos, List.forall_mem_cons, List.forall_mem_cons, List.pairwise_cons]
      cases hlookup : inodes.lookup inode with
      | some linkname =>
        rw [gettarinfo, hlookup]
        refine ⟨fun h => absurd rfl h.1, fun h => ?_⟩
        cases hlookup.symm.trans (h.1.1 inode rfl)
      | none =>
        rw [gettarinfo, hlookup]
        dsimp only
        rw [ih]
        have hlookup' (i : ℕ) : ((inode, arcname relative) :: inodes).lookup i = none ↔
            inode ≠ i ∧ inodes.lookup i = none := by
          rw [List.lookup_cons]
          by_cases heq : i = inode
          · simp [heq]
          · rw [beq_false_of_ne heq]
            simp [Ne.symm heq]
        refine ⟨fun h =>
          ⟨⟨fun i hi => ?_, fun e he i hi => ((hlookup' i).mp (h.2.1 e he i hi)).2⟩, fun e he i hi hi' => ?_,
          h.2.2⟩, fun h => ⟨by simp, fun e he i hi => (hlookup' i).mpr ⟨fun heq => ?_, h.1.2 e he i hi⟩, h.2.2⟩⟩
        · rw [← Option.some.inj hi]
          exact hlookup
        · exact ((hlookup' i).mp (h.2.1 e he i hi')).1 (Option.some.inj hi)
        · exact h.2.1 e he inode rfl (heq ▸ hi)
    | dir mode => exact hother rfl (by simp [gettarinfo]) rfl
    | symlink => exact hother rfl (by simp [gettarinfo]) rfl
    | special => exact hother rfl (by simp [gettarinfo]) rfl

/-- The kept files have one name each. -/
def WorkspaceTree.OneName (workspace : WorkspaceTree) : Prop :=
  ∀ entry ∈ workspace.entries, ∀ other ∈ workspace.entries, gitName ∉ entry.1 → gitName ∉ other.1 →
    entry.1 ≠ other.1 → ∀ inode, entry.2.inode = some inode → other.2.inode ≠ some inode

theorem WorkspaceTree.oneName_iff (workspace : WorkspaceTree) :
    workspace.OneName ↔ ∀ member ∈ tarinfos [] workspace.kept, member.type ≠ .hardlink := by
  have hnodup : workspace.kept.Pairwise fun a b => a.1 ≠ b.1 := List.pairwise_map.mp workspace.kept_nodup
  rw [tarinfos_noLink_iff]
  refine ⟨fun h => ⟨fun _ _ _ _ => rfl, ?_⟩, fun h entry hentry other hother hgit hgit' hne => ?_⟩
  · refine List.Pairwise.imp_of_mem (fun ha hb hne => ?_) hnodup
    obtain ⟨ha, hgit⟩ := (workspace.mem_kept).mp ha
    obtain ⟨hb, hgit'⟩ := (workspace.mem_kept).mp hb
    exact h _ ha _ hb hgit hgit' hne
  · have hsymm : Std.Symm Apart := ⟨fun a b h i hi hi' => h i hi' hi⟩
    have hall := h.2.forall
    exact hall ((workspace.mem_kept).mpr ⟨hentry, hgit⟩) ((workspace.mem_kept).mpr ⟨hother, hgit'⟩)
      fun heq => hne (congrArg Prod.fst heq)

/-! ## The round trip -/

/-- A member as the writer makes them: no empty name in its path and no null character, a kind that is
stored, the bits of a mode, and data for files only. -/
structure TarInfo.Stored (member : TarInfo) : Prop where
  name : ∀ part ∈ cut member.name, part ≠ []
  noNull : '\x00' ∉ member.name
  type : member.type = .regular ∨ member.type = .directory ∨ member.type = .hardlink
  mode : member.mode < 0o10000
  data : member.type ≠ .regular → member.data = []

/-- What is encoded and packed is read again. -/
structure Formats.Faithful {Encoded Payload : Type} (formats : Formats Encoded Payload) : Prop where
  b64decode (payload : Payload) : formats.b64decode (formats.b64encode payload) = some payload
  getmembers (members : List TarInfo) : (∀ member ∈ members, member.Stored) →
    formats.getmembers (formats.pack members) = some members

theorem tarinfos_stored {inodes : List (ℕ × List Char)} {entries : List (NamePath × PathEntry)}
    (hproper : ∀ entry ∈ entries, entry.1 ≠ [] ∧ ∀ name ∈ entry.1, ProperName name)
    (hkinds : ∀ entry ∈ entries, entry.2.isFile ∨ entry.2.isDir) :
    ∀ member ∈ tarinfos inodes entries, member.Stored := by
  induction entries generalizing inodes with
  | nil => simp [tarinfos]
  | cons first entries ih =>
    obtain ⟨relative, entry⟩ := first
    obtain ⟨hne, hnames⟩ := hproper _ (List.mem_cons_self ..)
    have hmode (mode : ℕ) : mode &&& 0o7777 < 0o10000 := Nat.lt_of_le_of_lt Nat.and_le_right (by decide)
    have hname : ∀ part ∈ cut (arcname relative), part ≠ [] := fun part hpart =>
      (hnames part (cut_arcname hne hnames ▸ hpart)).nonempty
    have hnull := null_not_mem_arcname hnames
    have hkind := hkinds _ (List.mem_cons_self ..)
    rw [tarinfos, List.forall_mem_cons]
    refine ⟨?_, ih (fun e he => hproper e (List.mem_cons_of_mem _ he))
      fun e he => hkinds e (List.mem_cons_of_mem _ he)⟩
    cases entry with
    | file inode contents mode =>
      rw [gettarinfo]
      split
      · exact ⟨hname, hnull, Or.inr (Or.inr rfl), hmode mode, fun _ => rfl⟩
      · exact ⟨hname, hnull, Or.inl rfl, hmode mode, fun h => absurd rfl h⟩
    | dir mode => exact ⟨hname, hnull, Or.inr (Or.inl rfl), hmode mode, fun _ => rfl⟩
    | symlink => simp [PathEntry.isFile, PathEntry.isDir] at hkind
    | special => simp [PathEntry.isFile, PathEntry.isDir] at hkind

/-- The reader counts no more bytes than the writer. -/
theorem expandedSize_le {inodes : List (ℕ × List Char)} {entries : List (NamePath × PathEntry)} :
    expandedSize (tarinfos inodes entries) ≤ contentSize entries := by
  induction entries generalizing inodes with
  | nil => exact le_refl _
  | cons first entries ih =>
    obtain ⟨relative, entry⟩ := first
    have hrest : expandedSize (tarinfos (gettarinfo inodes relative entry).2 entries) ≤ contentSize entries := ih
    have hfirst : (gettarinfo inodes relative entry).1.fileSize ≤ entry.size := by
      cases entry with
      | file inode contents mode =>
        rw [gettarinfo]
        split
        · exact Nat.zero_le _
        · exact le_refl _
      | dir mode => exact le_refl _
      | symlink => exact le_refl _
      | special => exact le_refl _
    rw [tarinfos, expandedSize, contentSize]
    omega

theorem length_tarinfos {inodes : List (ℕ × List Char)} {entries : List (NamePath × PathEntry)} :
    (tarinfos inodes entries).length = entries.length := by
  induction entries generalizing inodes with
  | nil => rfl
  | cons first entries ih => rw [tarinfos, List.length_cons, List.length_cons, ih]

/-- The destination holds the directories and files outside `.git`, with the contents and the masked
modes, and nothing else. -/
structure Recreated (workspace : WorkspaceTree) (root : NamePath) (fs : FileSystem Bytes) : Prop where
  dir : fs.node root = some .dir
  entries : ∀ entry ∈ workspace.entries, gitName ∉ entry.1 → fs.node (root ++ entry.1) = entry.2.node
  nothingElse (path : NamePath) : path ≠ [] → (∀ entry ∈ workspace.entries, entry.1 = path → gitName ∈ path) →
    fs.node (root ++ path) = none

section Main

variable {Encoded Payload : Type} {formats : Formats Encoded Payload} {links newMode maxBytes maxFiles : ℕ}
  {workspace : WorkspaceTree} {encoded : Encoded} {digest : String} {destination : List Name} {disk : Disk Bytes}

theorem WorkspaceTree.kept_makeable (workspace : WorkspaceTree)
    (hkinds : ∀ entry ∈ workspace.kept, entry.2.isFile ∨ entry.2.isDir) : Makeable workspace.kept where
  nodup := workspace.kept_nodup
  parentsFirst := workspace.kept_parentsFirst
  proper entry hentry := workspace.proper entry ((workspace.mem_kept).mp hentry).1
  kinds := hkinds

/-- What was written passes every check of the reader, down to its members. -/
theorem extract_create_eq (hfaithful : formats.Faithful)
    (hcreate : createArchive formats maxBytes maxFiles workspace = .ok (encoded, digest))
    (hnew : (Disk.mkdirParents links false destination disk).1 = .ok ()) :
    ∃ root start, Fresh root start.fs ∧ start.fs.follow links destination = .ok root ∧
      extractArchive formats links newMode encoded destination digest maxBytes maxFiles disk =
        extractMembers links newMode root (tarinfos [] workspace.kept) start := by
  obtain ⟨hkinds, hcount, hsize, hlength, rfl, rfl⟩ := createArchive_ok hcreate
  obtain ⟨start, hmkdir⟩ : ∃ start, Disk.mkdirParents links false destination disk = (.ok (), start) :=
    ⟨_, Prod.ext hnew rfl⟩
  obtain ⟨disk₁, -, hlast⟩ := Disk.mkdirParents_new hmkdir
  obtain ⟨root, rest, -, hfollow, hdir, hnone, hempty⟩ := Disk.mkdir_new hlast
  obtain ⟨hplain, -, hresolve⟩ := follow_ok hfollow
  have hmembers : formats.getmembers (formats.pack (tarinfos [] workspace.kept)) =
      some (tarinfos [] workspace.kept) :=
    hfaithful.getmembers _ (tarinfos_stored (workspace.kept_makeable hkinds).proper hkinds)
  have hexpanded : expandedSize (tarinfos [] workspace.kept) ≤ maxBytes := expandedSize_le.trans hsize
  refine ⟨root, start, ⟨hplain, hdir, hempty⟩, hfollow, ?_⟩
  rw [extractArchive, hfaithful.b64decode]
  dsimp only
  rw [if_neg (by omega), if_neg (by simp)]
  simp only [Bind.bind, Effect.bind, Effect.mapError, hmkdir, Except.mapError, resolvePath, hresolve]
  rw [extractPayload, hmembers]
  dsimp only
  rw [if_neg (by rw [length_tarinfos]; omega), if_neg (by omega)]

/-- An archive that was written is read into a new destination, and the workspace is there again,
exactly when no file has two names in it. -/
theorem extract_create_iff (hfaithful : formats.Faithful)
    (hcreate : createArchive formats maxBytes maxFiles workspace = .ok (encoded, digest))
    (hnew : (Disk.mkdirParents links false destination disk).1 = .ok ()) :
    ((extractArchive formats links newMode encoded destination digest maxBytes maxFiles disk).1 = .ok () ∧
      ∃ root,
        (extractArchive formats links newMode encoded destination digest maxBytes maxFiles disk).2.fs.follow links
          destination = .ok root ∧
        Recreated workspace root
          (extractArchive formats links newMode encoded destination digest maxBytes maxFiles disk).2.fs) ↔
      workspace.OneName := by
  have hkinds := (createArchive_ok hcreate).1
  obtain ⟨root, start, hfresh, hfollow, hextract⟩ : ∃ root start, Fresh root start.fs ∧
      start.fs.follow links destination = .ok root ∧
      extractArchive formats links newMode encoded destination digest maxBytes maxFiles disk =
        extractMembers links newMode root (tarinfos [] workspace.kept) start :=
    extract_create_eq hfaithful hcreate hnew
  rw [hextract, workspace.oneName_iff]
  refine ⟨fun h => extractMembers_noLink (Prod.ext h.1 rfl), fun hlinks => ?_⟩
  obtain ⟨disk', hrun, hfilled⟩ : ∃ disk',
      extractMembers links newMode root (tarinfos [] workspace.kept) start = (.ok (), disk') ∧
        Filled root ([] ++ workspace.kept) disk'.fs :=
    extractMembers_filled (workspace.kept_makeable hkinds) hfresh.filled hlinks
  have hgrows : Grows start.fs disk'.fs :=
    ((extractMembers_spec (tarinfos [] workspace.kept) hfresh).returns start (Extracted.refl root start) () disk'
      hrun).grows
  rw [hrun]
  refine ⟨rfl, root, hgrows.follow hfollow, hfilled.dir, fun entry hentry hgit => ?_, fun path hne hother => ?_⟩
  · exact hfilled.made entry ((workspace.mem_kept).mpr ⟨hentry, hgit⟩)
  · refine hfilled.rest path hne fun hmem => ?_
    obtain ⟨entry, hentry, rfl⟩ := List.mem_map.mp hmem
    obtain ⟨hentry, hgit⟩ := (workspace.mem_kept).mp hentry
    exact hgit (hother entry hentry rfl)

end Main

/-- Formats that keep the members as they are. -/
def listFormats : Formats (List TarInfo) (List TarInfo) where
  b64encode members := members
  b64decode encoded := some encoded
  length := List.length
  sha256 _ := ""
  pack members := members
  getmembers members := some members
  tell := List.length

theorem listFormats_faithful : listFormats.Faithful := ⟨fun _ => rfl, fun _ _ => rfl⟩

theorem properName_a : ProperName ['a'] := ⟨by decide, by decide, by decide, by decide, by decide⟩

theorem properName_b : ProperName ['b'] := ⟨by decide, by decide, by decide, by decide, by decide⟩

/-- A file `a/b` in a directory. -/
def oneName : WorkspaceTree where
  entries := [([['a']], .dir 0o755), ([['a'], ['b']], .file 7 [1, 2] 0o644)]
  nodup := by decide
  proper := by simp [properName_a, properName_b]
  parent path name entry h := by
    have hlist : path ++ [name] = [['a']] ∨ path ++ [name] = [['a'], ['b']] := by
      rcases List.mem_cons.mp h with heq | h
      · exact Or.inl (congrArg Prod.fst heq)
      · exact Or.inr (congrArg Prod.fst (List.mem_singleton.mp h))
    rcases hlist with heq | heq
    · exact Or.inl (List.append_inj_left' (heq : path ++ [name] = [] ++ [['a']]) rfl)
    · obtain rfl : path = [['a']] := List.append_inj_left' (heq : path ++ [name] = [['a']] ++ [['b']]) rfl
      exact Or.inr ⟨0o755, List.mem_cons_self ..⟩

/-- The names `a` and `b` of one file. -/
def twoNames : WorkspaceTree where
  entries := [([['a']], .file 7 [1, 2] 0o644), ([['b']], .file 7 [1, 2] 0o644)]
  nodup := by decide
  proper := by simp [properName_a, properName_b]
  parent path name entry h := by
    refine Or.inl (List.length_eq_zero_iff.mp ?_)
    rcases List.mem_cons.mp h with heq | h
    · simpa using congrArg (fun e => e.1.length) heq
    · simpa using congrArg (fun e => e.1.length) (List.mem_singleton.mp h)

theorem oneName_created : createArchive listFormats 9 9 oneName = .ok (tarinfos [] oneName.entries, "") := by
  rw [createArchive, List.mergeSort_of_pairwise (by decide)]
  rfl

theorem twoNames_created : createArchive listFormats 9 9 twoNames = .ok (tarinfos [] twoNames.entries, "") := by
  rw [createArchive, List.mergeSort_of_pairwise (by decide)]
  rfl

theorem extract_create_sample :
    (extractArchive listFormats 0 0o644 (tarinfos [] oneName.entries) [['w']] "" 9 9 ⟨FileSystem.empty, []⟩).1 =
        .ok () ∧
      ∃ root, (extractArchive listFormats 0 0o644 (tarinfos [] oneName.entries) [['w']] "" 9 9
          ⟨FileSystem.empty, []⟩).2.fs.follow 0 [['w']] = .ok root ∧
        Recreated oneName root (extractArchive listFormats 0 0o644 (tarinfos [] oneName.entries) [['w']] "" 9 9
          ⟨FileSystem.empty, []⟩).2.fs :=
  (extract_create_iff listFormats_faithful oneName_created rfl).mpr (by
    intro entry hentry other hother _ _ hne inode hinode hinode'
    simp only [oneName, List.mem_cons, List.not_mem_nil, or_false] at hentry hother
    rcases hentry with rfl | rfl
    · cases hinode
    · rcases hother with rfl | rfl
      · cases hinode'
      · exact hne rfl)

/-- The two names of one file are archived, and the archive is refused. -/
theorem extract_create_two_names :
    ¬ ∀ (formats : Formats (List TarInfo) (List TarInfo)) (links newMode maxBytes maxFiles : ℕ)
      (workspace : WorkspaceTree) (encoded : List TarInfo) (digest : String) (destination : List Name)
      (disk : Disk Bytes), formats.Faithful →
      createArchive formats maxBytes maxFiles workspace = .ok (encoded, digest) →
      (Disk.mkdirParents links false destination disk).1 = .ok () →
      (extractArchive formats links newMode encoded destination digest maxBytes maxFiles disk).1 = .ok () ∧
        ∃ root,
          (extractArchive formats links newMode encoded destination digest maxBytes maxFiles disk).2.fs.follow links
            destination = .ok root ∧
          Recreated workspace root
            (extractArchive formats links newMode encoded destination digest maxBytes maxFiles disk).2.fs := by
  intro h
  obtain ⟨hok, -⟩ := h listFormats 0 0o644 9 9 twoNames _ _ [['w']] ⟨FileSystem.empty, []⟩ listFormats_faithful
    twoNames_created rfl
  cases hok

end CodeMate.Sandbox
