import CodeMate.Framework.Lex
import CodeMate.Sandbox.Archive

/-!
# Writing a workspace archive

`createArchive` goes over the entries of a workspace in the order of their
paths and adds those outside `.git` as members, as `gettarinfo` makes them: a
further name of a file that was added is stored as a link. `createArchive_ok`
is what an archive that was written makes sure of: its members are `tarinfos`
of the kept entries, and they are within the limits.
-/

namespace CodeMate.Sandbox

open Framework FileSystem

/-- An entry of a workspace. The inode is a device and a number. -/
inductive PathEntry
  | dir (mode : ℕ)
  | file (inode : ℕ) (contents : Bytes) (mode : ℕ)
  | symlink
  | special

namespace PathEntry

def isSymlink : PathEntry → Bool
  | symlink => true
  | _ => false

def isDir : PathEntry → Bool
  | dir _ => true
  | _ => false

def isFile : PathEntry → Bool
  | file .. => true
  | _ => false

/-- `st_size`, of a file. -/
def size : PathEntry → ℕ
  | file _ contents _ => contents.length
  | _ => 0

end PathEntry

/-- What a name may be on a disk. -/
structure ProperName (name : Name) : Prop where
  nonempty : name ≠ []
  noSlash : '/' ∉ name
  noNull : '\x00' ∉ name
  notHere : name ≠ ['.']
  notAbove : name ≠ dots

/-- The entries below a workspace, with their paths relative to it, in the order in which
`workspace.rglob("*")` lists them. -/
structure WorkspaceTree where
  entries : List (NamePath × PathEntry)
  nodup : (entries.map Prod.fst).Nodup
  proper : ∀ entry ∈ entries, entry.1 ≠ [] ∧ ∀ name ∈ entry.1, ProperName name
  parent : ∀ (path : NamePath) (name : Name) (entry : PathEntry), (path ++ [name], entry) ∈ entries →
    path = [] ∨ ∃ mode, (path, .dir mode) ∈ entries

def nameLe : Name → Name → Bool := lexLe fun c d => c.toNat ≤ d.toNat

/-- The order of paths, by their parts. -/
def pathLe : NamePath → NamePath → Bool := lexLe nameLe

def gitName : Name := ".git".toList

/-- `relative.as_posix()`. -/
def arcname (relative : NamePath) : List Char := List.intercalate ['/'] relative

/-- `archive.add`: the member for an entry, and the inodes that were added with their names. -/
def gettarinfo (inodes : List (ℕ × List Char)) (relative : NamePath) : PathEntry → TarInfo × List (ℕ × List Char)
  | .file inode contents mode =>
    match inodes.lookup inode with
    | some linkname =>
      ({ name := arcname relative, type := .hardlink, mode := mode &&& 0o7777, linkname := linkname, data := [] },
        inodes)
    | none =>
      ({ name := arcname relative, type := .regular, mode := mode &&& 0o7777, linkname := [], data := contents },
        (inode, arcname relative) :: inodes)
  | .dir mode =>
    ({ name := arcname relative, type := .directory, mode := mode &&& 0o7777, linkname := [], data := [] }, inodes)
  | _ => ({ name := arcname relative, type := .other, mode := 0, linkname := [], data := [] }, inodes)

/-- The variables of the loop. -/
structure Packing where
  count : ℕ
  totalSize : ℕ
  inodes : List (ℕ × List Char)
  members : List TarInfo

section Create

variable {Encoded Payload : Type} (formats : Formats Encoded Payload) (maxBytes maxFiles : ℕ)

/-- A turn of the loop over the paths. -/
def packEntry (packing : Packing) (relative : NamePath) (entry : PathEntry) : Except ArchiveError Packing :=
  if entry.isSymlink then
    .error (.archive ("Workspace symlink is forbidden: " ++ String.ofList (relative.getLast?.getD [])))
  else if gitName ∈ relative then .ok packing
  else if ¬ (entry.isFile ∨ entry.isDir) then
    .error (.archive ("Unsupported workspace entry: " ++ String.ofList (arcname relative)))
  else if maxFiles < packing.count + 1 then .error (.archive "Workspace contains too many entries")
  else if entry.isFile ∧ maxBytes < packing.totalSize + entry.size then
    .error (.archive "Workspace content exceeds the size limit")
  else
    let (member, inodes) := gettarinfo packing.inodes relative entry
    let members := packing.members ++ [member]
    if maxBytes < formats.tell members then .error (.archive "Workspace archive exceeds the size limit")
    else
      .ok { count := packing.count + 1, totalSize := packing.totalSize + entry.size, inodes := inodes,
            members := members }

def packEntries : Packing → List (NamePath × PathEntry) → Except ArchiveError Packing
  | packing, [] => .ok packing
  | packing, (relative, entry) :: entries =>
    match packEntry formats maxBytes maxFiles packing relative entry with
    | .error error => .error error
    | .ok packing => packEntries packing entries

/-- `create_archive`. -/
def createArchive (workspace : WorkspaceTree) : Except ArchiveError (Encoded × String) :=
  match packEntries formats maxBytes maxFiles ⟨0, 0, [], []⟩
      (workspace.entries.mergeSort fun a b => pathLe a.1 b.1) with
  | .error error => .error error
  | .ok packing =>
    let payload := formats.pack packing.members
    if maxBytes < formats.length payload then .error (.archive "Workspace archive exceeds the size limit")
    else .ok (formats.b64encode payload, formats.sha256 payload)

end Create

/-! ## What the writer makes sure of -/

/-- The members of some entries, in their order. -/
def tarinfos (inodes : List (ℕ × List Char)) : List (NamePath × PathEntry) → List TarInfo
  | [] => []
  | (relative, entry) :: entries =>
    (gettarinfo inodes relative entry).1 :: tarinfos (gettarinfo inodes relative entry).2 entries

def contentSize : List (NamePath × PathEntry) → ℕ
  | [] => 0
  | (_, entry) :: entries => entry.size + contentSize entries

/-- The entries that are not in a `.git`. -/
def keptEntries (entries : List (NamePath × PathEntry)) : List (NamePath × PathEntry) :=
  entries.filter fun entry => gitName ∉ entry.1

section Writer

variable {Encoded Payload : Type} {formats : Formats Encoded Payload} {maxBytes maxFiles : ℕ}

/-- What a loop has done that kept some entries. -/
structure Packs (maxBytes maxFiles : ℕ) (packing packing' : Packing) (kept : List (NamePath × PathEntry)) : Prop where
  kinds : ∀ entry ∈ kept, entry.2.isFile ∨ entry.2.isDir
  members : packing'.members = packing.members ++ tarinfos packing.inodes kept
  count_eq : packing'.count = packing.count + kept.length
  size_eq : packing'.totalSize = packing.totalSize + contentSize kept
  count_le : packing.count ≤ maxFiles → packing'.count ≤ maxFiles
  size_le : packing.totalSize ≤ maxBytes → packing'.totalSize ≤ maxBytes

/-- A turn of the loop that goes on, for an entry that is kept. -/
theorem packEntry_ok {packing packing' : Packing} {relative : NamePath} {entry : PathEntry}
    (hgit : gitName ∉ relative)
    (h : packEntry formats maxBytes maxFiles packing relative entry = .ok packing') :
    (entry.isFile ∨ entry.isDir) ∧ packing.count + 1 ≤ maxFiles ∧
      (packing.totalSize ≤ maxBytes → packing.totalSize + entry.size ≤ maxBytes) ∧
      packing' = { count := packing.count + 1, totalSize := packing.totalSize + entry.size,
                   inodes := (gettarinfo packing.inodes relative entry).2,
                   members := packing.members ++ [(gettarinfo packing.inodes relative entry).1] } := by
  rw [packEntry] at h
  split at h
  · cases h
  · split at h
    · cases h
    · next hkind =>
      split at h
      · cases h
      · next hcount =>
        split at h
        · cases h
        · next hsize =>
          dsimp only at h
          split at h
          · cases h
          · refine ⟨not_not.mp hkind, by omega, fun hle => ?_, (Except.ok.inj h).symm⟩
            cases entry with
            | file inode contents mode =>
              have := not_and.mp hsize rfl
              omega
            | dir mode => exact hle
            | symlink => exact hle
            | special => exact hle

theorem packEntries_ok {packing packing' : Packing} {entries : List (NamePath × PathEntry)}
    (h : packEntries formats maxBytes maxFiles packing entries = .ok packing') :
    Packs maxBytes maxFiles packing packing' (keptEntries entries) := by
  induction entries generalizing packing with
  | nil =>
    obtain rfl := Except.ok.inj h
    exact ⟨by simp [keptEntries], (List.append_nil _).symm, rfl, rfl, fun h => h, fun h => h⟩
  | cons first entries ih =>
    obtain ⟨relative, entry⟩ := first
    rw [packEntries] at h
    split at h
    · cases h
    · next next hentry =>
      have hrest := ih h
      by_cases hgit : gitName ∈ relative
      · have hkept : keptEntries ((relative, entry) :: entries) = keptEntries entries :=
          List.filter_cons_of_neg (by simpa using hgit)
        have hsame : next = packing := by
          rw [packEntry] at hentry
          split at hentry
          · cases hentry
          · exact (Except.ok.inj hentry).symm
        subst hsame
        rw [hkept]
        exact hrest
      · have hkept : keptEntries ((relative, entry) :: entries) = (relative, entry) :: keptEntries entries :=
          List.filter_cons_of_pos (by simpa using hgit)
        obtain ⟨hkind, hcount, hsize, rfl⟩ := packEntry_ok hgit hentry
        have hmembers := hrest.members
        have hcounts := hrest.count_eq
        have hsizes := hrest.size_eq
        dsimp only at hmembers hcounts hsizes
        rw [hkept]
        refine ⟨fun e he => ?_, ?_, ?_, ?_, fun _ => hrest.count_le hcount, fun hle => hrest.size_le (hsize hle)⟩
        · rcases List.mem_cons.mp he with rfl | he
          · exact hkind
          · exact hrest.kinds e he
        · rw [hmembers, tarinfos, List.append_assoc, List.singleton_append]
        · rw [hcounts, List.length_cons]
          omega
        · rw [hsizes, contentSize]
          omega

/-- The entries that the writer adds, in its order. -/
def WorkspaceTree.sorted (workspace : WorkspaceTree) : List (NamePath × PathEntry) :=
  workspace.entries.mergeSort fun a b => pathLe a.1 b.1

def WorkspaceTree.kept (workspace : WorkspaceTree) : List (NamePath × PathEntry) := keptEntries workspace.sorted

/-- An archive that was written holds the kept entries, within the limits. -/
theorem createArchive_ok {workspace : WorkspaceTree} {encoded : Encoded} {digest : String}
    (h : createArchive formats maxBytes maxFiles workspace = .ok (encoded, digest)) :
    (∀ entry ∈ workspace.kept, entry.2.isFile ∨ entry.2.isDir) ∧ workspace.kept.length ≤ maxFiles ∧
      contentSize workspace.kept ≤ maxBytes ∧ formats.length (formats.pack (tarinfos [] workspace.kept)) ≤ maxBytes ∧
      encoded = formats.b64encode (formats.pack (tarinfos [] workspace.kept)) ∧
      digest = formats.sha256 (formats.pack (tarinfos [] workspace.kept)) := by
  rw [createArchive] at h
  split at h
  · cases h
  · next packing hpack =>
    have hpacks := packEntries_ok hpack
    have hmembers : packing.members = tarinfos [] workspace.kept := hpacks.members
    have hcount : packing.count = 0 + workspace.kept.length := hpacks.count_eq
    have hsize : packing.totalSize = 0 + contentSize workspace.kept := hpacks.size_eq
    have hcount' := hpacks.count_le (Nat.zero_le _)
    have hsize' := hpacks.size_le (Nat.zero_le _)
    dsimp only at h
    rw [hmembers] at h
    split at h
    · cases h
    · next hlength =>
      cases h
      exact ⟨hpacks.kinds, by omega, by omega, by omega, rfl, rfl⟩

end Writer

end CodeMate.Sandbox
