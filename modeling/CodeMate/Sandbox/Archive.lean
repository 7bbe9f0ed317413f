import CodeMate.Framework.Disk

/-!
# Reading a workspace archive

`extractArchive` checks a payload, makes the destination and writes its members
there one by one, each where its name resolves to at that moment. `Extracted`
is what holds between the members, for every list of them: `extractMember_spec`
is the step and `extractMembers_spec` the run. `extractArchive_contained` says
what an extraction can have changed on the disk.
-/

namespace CodeMate.Sandbox

open Framework FileSystem

abbrev Bytes := List UInt8

inductive TarType
  | regular
  | directory
  | symlink
  | hardlink
  /-- A device, a pipe or something unknown. -/
  | other
  deriving DecidableEq

/-- A member of an archive, as `tarfile` lists it; its size is that of its data. -/
structure TarInfo where
  name : List Char
  type : TarType
  mode : ℕ
  linkname : List Char
  data : Bytes

/-- What `create_archive` and `extract_archive` raise. -/
inductive ArchiveError
  /-- `WorkspaceArchiveError`. -/
  | archive (text : String)
  | os (error : OsError)
  | symlinkLoop
  | embeddedNull
  /-- `tarfile.ReadError`. -/
  | tar
  deriving DecidableEq

/-- The formats around the members: base64, the digest and the packed archive. -/
structure Formats (Encoded Payload : Type) where
  b64encode : Payload → Encoded
  b64decode : Encoded → Option Payload
  length : Payload → ℕ
  sha256 : Payload → String
  pack : List TarInfo → Payload
  getmembers : Payload → Option (List TarInfo)
  /-- `stream.tell()` when the members so far were added. -/
  tell : List TarInfo → ℕ

/-- `path / name` for a name as it is written. -/
def joinName (path : NamePath) (name : List Char) : List Name :=
  if isAbsolute name then names name else path ++ names name

namespace TarInfo

/-- `archive.extractfile(member)`. -/
def extractfile (member : TarInfo) : Option Bytes :=
  if member.type = .regular then some member.data else none

/-- `member.size`, of a file. -/
def fileSize (member : TarInfo) : ℕ :=
  if member.type = .regular then member.data.length else 0

end TarInfo

/-- `sum(member.size for member in members if member.isfile())`. -/
def expandedSize : List TarInfo → ℕ
  | [] => 0
  | member :: members => member.fileSize + expandedSize members

section Extract

variable {Encoded Payload : Type} (formats : Formats Encoded Payload) (links newMode : ℕ)

/-- `path.resolve()`. -/
def resolvePath (raw : List Name) : Effect (Disk Bytes) ArchiveError NamePath := fun disk =>
  match disk.fs.resolve links raw with
  | none => (.error .symlinkLoop, disk)
  | some path => (.ok path, disk)

def raiseArchive (text : String) : Effect (Disk Bytes) ArchiveError Unit :=
  Effect.ofExcept (.error (.archive text))

/-- One member of the loop. -/
def extractMember (root : NamePath) (member : TarInfo) : Effect (Disk Bytes) ArchiveError Unit :=
  if member.type = .symlink ∨ member.type = .hardlink ∨ ¬ (member.type = .regular ∨ member.type = .directory) then
    raiseArchive "Workspace archive contains an unsafe entry"
  else if '\x00' ∈ member.name then Effect.ofExcept (.error .embeddedNull)
  else do
    let target ← resolvePath links (joinName root member.name)
    if ¬ root.isPrefixOf target then raiseArchive "Workspace archive path escapes its root"
    else if member.type = .directory then Effect.mapError .os (Disk.mkdirParents links true target)
    else do
      Effect.mapError .os (Disk.mkdirParents links true target.dropLast)
      match member.extractfile with
      | none => raiseArchive "Workspace archive file is unreadable"
      | some source => do
        Effect.mapError .os (Disk.writeFile links newMode target source)
        Effect.mapError .os (Disk.chmod links target (member.mode &&& 0o755))

def extractMembers (root : NamePath) : List TarInfo → Effect (Disk Bytes) ArchiveError Unit
  | [] => Effect.pure ()
  | member :: members => do
    extractMember links newMode root member
    extractMembers root members

/-- The members of a payload, below the resolved destination. -/
def extractPayload (root : NamePath) (payload : Payload) (maxBytes maxFiles : ℕ) :
    Effect (Disk Bytes) ArchiveError Unit :=
  match formats.getmembers payload with
  | none => Effect.ofExcept (.error .tar)
  | some members =>
    if maxFiles < members.length then raiseArchive "Workspace archive contains too many entries"
    else if maxBytes < expandedSize members then raiseArchive "Workspace archive expands beyond the size limit"
    else extractMembers links newMode root members

/-- `extract_archive`, into a destination given by the names of its path; `newMode` is the mode of a
new file. -/
def extractArchive (encoded : Encoded) (destination : List Name) (expectedSha256 : String) (maxBytes maxFiles : ℕ) :
    Effect (Disk Bytes) ArchiveError Unit :=
  match formats.b64decode encoded with
  | none => raiseArchive "Workspace archive is not valid base64"
  | some payload =>
    if maxBytes < formats.length payload then raiseArchive "Workspace archive exceeds the size limit"
    else if formats.sha256 payload ≠ expectedSha256 then raiseArchive "Workspace archive digest mismatch"
    else do
      Effect.mapError .os (Disk.mkdirParents links false destination)
      let root ← resolvePath links destination
      extractPayload formats links newMode root payload maxBytes maxFiles

end Extract

/-! ## Between the members -/

/-- The bytes of several writes. -/
def totalSize : List Bytes → ℕ
  | [] => 0
  | data :: rest => data.length + totalSize rest

/-- A directory with nothing in it. -/
structure Fresh (root : NamePath) (fs : FileSystem Bytes) : Prop where
  plain : fs.Plain root
  dir : fs.node root = some .dir
  empty (path : NamePath) : root <+: path → path ≠ root → fs.node path = none

/-- What members may have done since the root was new: directories and files were made below it, and
at most so many files and bytes were written. -/
structure Extracted (root : NamePath) (start : Disk Bytes) (files bytes : ℕ) (disk : Disk Bytes) : Prop where
  grows : Grows start.fs disk.fs
  nodes (path : NamePath) : disk.fs.node path ≠ start.fs.node path →
    root <+: path ∧ (disk.fs.node path = some .dir ∨ ∃ contents mode, disk.fs.node path = some (.file contents mode))
  changes : ∃ new, disk.changes = new ++ start.changes ∧ (∀ change ∈ new, root <+: change.path) ∧
    (Change.written new).length ≤ files ∧ totalSize (Change.written new) ≤ bytes

section Contained

variable {root : NamePath} {start disk disk' : Disk Bytes} {files bytes : ℕ} {links newMode : ℕ}

theorem Extracted.refl (root : NamePath) (start : Disk Bytes) : Extracted root start 0 0 start :=
  ⟨Grows.refl _, fun _ h => absurd rfl h, [], rfl, by simp, le_refl _, le_refl _⟩

theorem Extracted.mono (h : Extracted root start files bytes disk) {files' bytes' : ℕ} (hfiles : files ≤ files')
    (hbytes : bytes ≤ bytes') : Extracted root start files' bytes' disk := by
  obtain ⟨new, hnew, hunder, hlength, hsize⟩ := h.changes
  exact ⟨h.grows, h.nodes, new, hnew, hunder, hlength.trans hfiles, hsize.trans hbytes⟩

/-- The root is still there. -/
theorem Extracted.there (h : Extracted root start files bytes disk) (hfresh : Fresh root start.fs) :
    disk.fs.node root ≠ none := by
  rw [h.grows.dir root hfresh.dir]
  exact Option.some_ne_none _

/-- Directories on the way to a target below the root. -/
theorem Extracted.made (h : Extracted root start files bytes disk) (hfresh : Fresh root start.fs)
    {raw : List Name} {target : NamePath} (htarget : disk.fs.Plain target) (hraw : raw <+: target)
    (hroot : root <+: target) (hmade : Disk.Made links raw disk disk') : Extracted root start files bytes disk' where
  grows := h.grows.trans hmade.grows
  nodes path hne := by
    by_cases heq : disk'.fs.node path = disk.fs.node path
    · rw [heq] at hne ⊢
      exact h.nodes path hne
    · obtain ⟨hnone, hdir, hleads⟩ := hmade.nodes path heq
      exact ⟨hmade.under htarget hraw hroot (h.there hfresh) hnone hleads, Or.inl hdir⟩
  changes := by
    obtain ⟨new, hnew, hunder, hlength, hsize⟩ := h.changes
    obtain ⟨new', hnew', hwritten, hdirs⟩ := hmade.written
    refine ⟨new' ++ new, by rw [hnew', hnew, List.append_assoc], fun change hmem => ?_, ?_⟩
    · rcases List.mem_append.mp hmem with hmem | hmem
      · obtain ⟨path, rfl, hnone, hleads⟩ := hdirs change hmem
        exact hmade.under htarget hraw hroot (h.there hfresh) hnone hleads
      · exact hunder change hmem
    · rw [Change.written_append, hwritten]
      exact ⟨hlength, hsize⟩

theorem totalSize_append (first rest : List Bytes) :
    totalSize (first ++ rest) = totalSize first + totalSize rest := by
  induction first with
  | nil => exact (Nat.zero_add _).symm
  | cons data first ih =>
    show data.length + totalSize (first ++ rest) = data.length + totalSize first + totalSize rest
    omega

/-- A call on a target below the root that leaves a file there. -/
theorem Extracted.call (h : Extracted root start files bytes disk) {target : NamePath}
    (htarget : disk.fs.Plain target)
    (hroot : root <+: target) (hfiled : Disk.Filed target disk.fs disk'.fs) {change : Change Bytes}
    (hchanges : disk'.changes = change :: disk.changes) (hchange : change.path = target) :
    Extracted root start (files + (Change.written [change]).length)
      (bytes + totalSize (Change.written [change])) disk'
    where
  grows := h.grows.trans (hfiled.grows htarget)
  nodes p hne := by
    by_cases heq : disk'.fs.node p = disk.fs.node p
    · rw [heq] at hne ⊢
      exact h.nodes p hne
    · obtain ⟨rfl, hfile⟩ := hfiled.nodes heq
      exact ⟨hroot, Or.inr hfile⟩
  changes := by
    obtain ⟨new, hnew, hunder, hlength, hsize⟩ := h.changes
    refine ⟨[change] ++ new, by rw [hchanges, hnew, List.singleton_append, List.cons_append], fun c hmem => ?_,
      ?_, ?_⟩
    · rcases List.mem_append.mp hmem with hmem | hmem
      · rw [List.mem_singleton.mp hmem, hchange]
        exact hroot
      · exact hunder c hmem
    · rw [Change.written_append, List.length_append]
      omega
    · rw [Change.written_append, totalSize_append]
      omega

/-- A target below the root, with no link on the way. -/
structure Below (root : NamePath) (start : Disk Bytes) (target : NamePath) (files bytes : ℕ) (disk : Disk Bytes) :
    Prop where
  extracted : Extracted root start files bytes disk
  plain : disk.fs.Plain target
  under : root <+: target

open Effect

theorem resolvePath_spec (P : Disk Bytes → Prop) (raw : List Name) :
    Spec P (resolvePath links raw)
      (fun target disk => disk.fs.resolve links raw = some target ∧ P disk) fun _ => P := by
  refine ⟨fun disk hdisk target disk' h => ?_, fun disk hdisk error disk' h => ?_⟩
  · rw [resolvePath] at h
    split at h
    · cases h
    · next hresolve =>
      cases h
      exact ⟨hresolve, hdisk⟩
  · rw [resolvePath] at h
    split at h
    · cases h
      exact hdisk
    · cases h

theorem mkdirParents_spec {raw target : NamePath} (hfresh : Fresh root start.fs) (hraw : raw <+: target) :
    Keeps (Below root start target files bytes) (Disk.mkdirParents links true raw) := by
  have hkeep {disk disk' : Disk Bytes} {result : Except OsError Unit} (h : Below root start target files bytes disk)
      (hmkdir : Disk.mkdirParents links true raw disk = (result, disk')) :
      Below root start target files bytes disk' := by
    have hmade := Disk.mkdirParents_made hmkdir
    exact ⟨h.extracted.made hfresh h.plain hraw h.under hmade, hmade.plain h.plain, h.under⟩
  exact ⟨fun _ h _ _ hmkdir => hkeep h hmkdir, fun _ h _ _ hmkdir => hkeep h hmkdir⟩

/-- A call that leaves a file at the target, or raises and does nothing. -/
theorem call_spec {target : NamePath} {call : Effect (Disk Bytes) OsError Unit} (change : Change Bytes)
    (hchange : change.path = target)
    (hcall : ∀ disk disk' result, disk.fs.Plain target → call disk = (result, disk') →
      (disk' = disk ∧ ∃ error, result = .error error) ∨
        result = .ok () ∧ disk'.changes = change :: disk.changes ∧ Disk.Filed target disk.fs disk'.fs) :
    Spec (Below root start target files bytes) call
      (fun _ => Below root start target (files + (Change.written [change]).length)
        (bytes + totalSize (Change.written [change])))
      fun _ => Below root start target files bytes := by
  refine ⟨fun disk h a disk' hrun => ?_, fun disk h error disk' hrun => ?_⟩
  · rcases hcall disk disk' _ h.plain hrun with ⟨-, error, herror⟩ | ⟨-, hchanges, hfiled⟩
    · cases herror
    · exact ⟨h.extracted.call h.plain h.under hfiled hchanges hchange, hfiled.plain h.plain, h.under⟩
  · rcases hcall disk disk' _ h.plain hrun with ⟨rfl, -⟩ | ⟨hok, -⟩
    · exact h
    · cases hok

/-- A member of the loop changes the disk below the root only, and writes at most its own data. -/
theorem extractMember_spec (member : TarInfo) (hfresh : Fresh root start.fs) :
    Spec (Extracted root start files bytes) (extractMember links newMode root member)
      (fun _ => Extracted root start (files + 1) (bytes + member.fileSize))
      fun _ => Extracted root start (files + 1) (bytes + member.fileSize) := by
  have hmore {disk : Disk Bytes} (h : Extracted root start files bytes disk) :
      Extracted root start (files + 1) (bytes + member.fileSize) disk := h.mono (by omega) (by omega)
  have hraise (error : ArchiveError) {P : Disk Bytes → Prop}
      (hP : ∀ disk, P disk → Extracted root start files bytes disk) :
      Spec P (Effect.ofExcept (.error error) : Effect (Disk Bytes) ArchiveError Unit)
        (fun _ => Extracted root start (files + 1) (bytes + member.fileSize))
        fun _ => Extracted root start (files + 1) (bytes + member.fileSize) :=
    .ofExcept (fun _ _ h => nomatch h) fun _ disk h => hmore (hP disk h)
  rw [extractMember]
  split
  · exact hraise _ fun _ h => h
  split
  · exact hraise _ fun _ h => h
  · refine .bind ((resolvePath_spec (Extracted root start files bytes) _).weaken (fun _ h => h) (fun _ _ h => h)
      fun _ _ h => hmore h) fun target => ?_
    split
    · exact hraise _ fun _ h => h.2
    · next hunder =>
      have hbelow (disk : Disk Bytes) (h : disk.fs.resolve links (joinName root member.name) = some target ∧
          Extracted root start files bytes disk) : Below root start target files bytes disk :=
        ⟨h.2, resolve_plain h.1, by simpa using hunder⟩
      split
      · exact .mapError ((mkdirParents_spec hfresh (List.prefix_refl _)).weaken hbelow
          (fun _ _ h => hmore h.extracted) fun _ _ h => hmore h.extracted)
      · refine .bind (.mapError ((mkdirParents_spec hfresh (List.dropLast_prefix target)).weaken hbelow
          (fun _ _ h => h) fun _ _ h => hmore h.extracted)) fun _ => ?_
        rw [TarInfo.extractfile]
        by_cases hregular : member.type = .regular
        · have hsize : member.fileSize = member.data.length := if_pos hregular
          have hwrite : Spec (Below root start target files bytes) (Disk.writeFile links newMode target member.data)
              (fun _ => Below root start target (files + 1) (bytes + (member.data.length + 0)))
              fun _ => Below root start target files bytes :=
            call_spec (.write target member.data) rfl fun _ _ _ h hrun => Disk.writeFile_cases h hrun
          have hchmod : Spec (Below root start target (files + 1) (bytes + (member.data.length + 0)))
              (Disk.chmod links target (member.mode &&& 0o755))
              (fun _ => Below root start target (files + 1 + 0) (bytes + (member.data.length + 0) + 0))
              fun _ => Below root start target (files + 1) (bytes + (member.data.length + 0)) :=
            call_spec (.chmod target _) rfl fun _ _ _ h hrun => Disk.chmod_cases h hrun
          rw [if_pos hregular]
          refine .bind
            (.mapError (hwrite.weaken (fun _ h => h) (fun _ _ h => h) fun _ _ h => hmore h.extracted)) fun _ => ?_
          exact .mapError (hchmod.weaken (fun _ h => h) (fun _ _ h => h.extracted.mono (by omega) (by omega))
            fun _ _ h => h.extracted.mono (by omega) (by omega))
        · rw [if_neg hregular]
          exact hraise _ fun _ h => h.extracted

/-- All members, by induction on their list. -/
theorem extractMembers_spec (members : List TarInfo) (hfresh : Fresh root start.fs) :
    Spec (Extracted root start files bytes) (extractMembers links newMode root members)
      (fun _ => Extracted root start (files + members.length) (bytes + expandedSize members))
      fun _ => Extracted root start (files + members.length) (bytes + expandedSize members) := by
  induction members generalizing files bytes with
  | nil => exact .pure fun _ h => h
  | cons member members ih =>
    have hadd (disk : Disk Bytes) (h : Extracted root start (files + 1 + members.length)
        (bytes + member.fileSize + expandedSize members) disk) :
        Extracted root start (files + (member :: members).length) (bytes + expandedSize (member :: members)) disk :=
      h.mono (by rw [List.length_cons]; omega) (by rw [expandedSize]; omega)
    rw [extractMembers]
    refine .bind ((extractMember_spec member hfresh).weaken (fun _ h => h) (fun _ _ h => h) fun _ disk h => ?_)
      fun _ => ih.weaken (fun _ h => h) (fun _ disk h => hadd disk h) fun _ disk h => hadd disk h
    exact hadd disk (h.mono (by omega) (by omega))

/-! ## What an extraction changes -/

/-- Where the destination leads is on the way to the path. -/
def AtOrUnder (fs : FileSystem Bytes) (links : ℕ) (destination : List Name) (path : NamePath) : Prop :=
  ∃ root, fs.follow links destination = .ok root ∧ root <+: path

/-- A part of the destination's path leads there. -/
def AboveDestination (fs : FileSystem Bytes) (links : ℕ) (destination : List Name) (path : NamePath) : Prop :=
  ∃ k < destination.length, fs.follow links (destination.take k) = .ok path

/-- What was created or written lies at or under the destination, but for the directories above it that
were missing; it is directories and files where nothing was, and no more files and bytes than allowed. -/
structure Contained (links : ℕ) (destination : List Name) (maxBytes maxFiles : ℕ) (disk disk' : Disk Bytes) :
    Prop where
  nodes (path : NamePath) : disk'.fs.node path ≠ disk.fs.node path → disk.fs.node path = none ∧
    (AtOrUnder disk'.fs links destination path ∧
        (disk'.fs.node path = some .dir ∨ ∃ contents mode, disk'.fs.node path = some (.file contents mode)) ∨
      AboveDestination disk'.fs links destination path ∧ disk'.fs.node path = some .dir)
  changes : ∃ new, disk'.changes = new ++ disk.changes ∧
    (∀ change ∈ new, AtOrUnder disk'.fs links destination change.path ∨
      change = .mkdir change.path ∧ disk.fs.node change.path = none ∧
        AboveDestination disk'.fs links destination change.path) ∧
    (Change.written new).length ≤ maxFiles ∧ totalSize (Change.written new) ≤ maxBytes

variable {destination : List Name} {maxBytes maxFiles : ℕ}

theorem Contained.refl (disk : Disk Bytes) : Contained links destination maxBytes maxFiles disk disk :=
  ⟨fun _ h => absurd rfl h, [], rfl, by simp, Nat.zero_le _, Nat.zero_le _⟩

/-- Where the first names of the destination lead. -/
theorem atOrUnder_or_above {fs : FileSystem Bytes} {path : NamePath}
    (h : ∃ k ≤ destination.length, fs.follow links (destination.take k) = .ok path) :
    AtOrUnder fs links destination path ∨ AboveDestination fs links destination path := by
  obtain ⟨k, hk, hfollow⟩ := h
  rcases Nat.lt_or_eq_of_le hk with hlt | rfl
  · exact Or.inr ⟨k, hlt, hfollow⟩
  · rw [List.take_length] at hfollow
    exact Or.inl ⟨path, hfollow, List.prefix_refl _⟩

/-- The destination's directories alone. -/
theorem contained_of_made (h : Disk.Made links destination disk disk') :
    Contained links destination maxBytes maxFiles disk disk' where
  nodes path hne := by
    obtain ⟨hnone, hdir, hleads⟩ := h.nodes path hne
    refine ⟨hnone, ?_⟩
    rcases atOrUnder_or_above hleads with hunder | habove
    · exact Or.inl ⟨hunder, Or.inl hdir⟩
    · exact Or.inr ⟨habove, hdir⟩
  changes := by
    obtain ⟨new, hnew, hwritten, hdirs⟩ := h.written
    refine ⟨new, hnew, fun change hmem => ?_, by simp [hwritten], by simp [hwritten, totalSize]⟩
    obtain ⟨path, rfl, hnone, hleads⟩ := hdirs change hmem
    exact (atOrUnder_or_above hleads).imp_right fun habove => ⟨rfl, hnone, habove⟩

/-- The destination's directories and then members in it. -/
theorem Contained.extracted (h : Contained links destination 0 0 disk start)
    (hroot : start.fs.follow links destination = .ok root) (hnone : disk.fs.node root = none)
    (hextracted : Extracted root start maxFiles maxBytes disk') :
    Contained links destination maxBytes maxFiles disk disk' := by
  have hunder {path : NamePath} (hpath : AtOrUnder start.fs links destination path) :
      AtOrUnder disk'.fs links destination path := by
    obtain ⟨top, hfollow, htop⟩ := hpath
    exact ⟨top, hextracted.grows.follow hfollow, htop⟩
  have habove {path : NamePath} (hpath : AboveDestination start.fs links destination path) :
      AboveDestination disk'.fs links destination path := by
    obtain ⟨k, hk, hfollow⟩ := hpath
    exact ⟨k, hk, hextracted.grows.follow hfollow⟩
  refine ⟨fun path hne => ?_, ?_⟩
  · by_cases heq : disk'.fs.node path = start.fs.node path
    · rw [heq] at hne ⊢
      obtain ⟨hmissing, hnode⟩ := h.nodes path hne
      exact ⟨hmissing, hnode.imp (fun hnode => ⟨hunder hnode.1, hnode.2⟩) fun hnode => ⟨habove hnode.1, hnode.2⟩⟩
    · obtain ⟨hpath, hnode⟩ := hextracted.nodes path heq
      refine ⟨?_, Or.inl ⟨⟨root, hextracted.grows.follow hroot, hpath⟩, hnode⟩⟩
      obtain ⟨rest, rfl⟩ := hpath
      by_contra hsome
      exact node_of_below hsome hnone
  · obtain ⟨new, hnew, hpaths, hfiles, hbytes⟩ := h.changes
    obtain ⟨new', hnew', hpaths', hfiles', hbytes'⟩ := hextracted.changes
    refine ⟨new' ++ new, by rw [hnew', hnew, List.append_assoc], fun change hmem => ?_, ?_, ?_⟩
    · rcases List.mem_append.mp hmem with hmem | hmem
      · exact Or.inl ⟨root, hextracted.grows.follow hroot, hpaths' change hmem⟩
      · exact (hpaths change hmem).imp hunder fun hchange => ⟨hchange.1, hchange.2.1, habove hchange.2.2⟩
    · rw [Change.written_append, List.length_append]
      omega
    · rw [Change.written_append, totalSize_append]
      omega

end Contained

section Main

open Effect

variable {Encoded Payload : Type} {formats : Formats Encoded Payload} {links newMode maxBytes maxFiles : ℕ}
  {destination : List Name} {root : NamePath} {start disk disk' : Disk Bytes}

/-- The limits are checked before a member is written. -/
theorem extractPayload_spec (payload : Payload) (hfresh : Fresh root start.fs) :
    Spec (fun disk => disk = start) (extractPayload formats links newMode root payload maxBytes maxFiles)
      (fun _ => Extracted root start maxFiles maxBytes) fun _ => Extracted root start maxFiles maxBytes := by
  have hstart (disk : Disk Bytes) (h : disk = start) : Extracted root start 0 0 disk := by
    rw [h]
    exact Extracted.refl root start
  have hraise (error : ArchiveError) : Spec (fun disk => disk = start)
      (Effect.ofExcept (.error error) : Effect (Disk Bytes) ArchiveError Unit)
      (fun _ => Extracted root start maxFiles maxBytes) fun _ => Extracted root start maxFiles maxBytes :=
    .ofExcept (fun _ _ h => nomatch h) fun _ disk h => (hstart disk h).mono (Nat.zero_le _) (Nat.zero_le _)
  rw [extractPayload]
  split
  · exact hraise _
  · next members _ =>
    split
    · exact hraise _
    · split
      · exact hraise _
      · exact (extractMembers_spec members hfresh).weaken hstart (fun _ _ h => h.mono (by omega) (by omega))
          fun _ _ h => h.mono (by omega) (by omega)

/-- An extraction whose payload has the digest makes the destination, and then the members in it. -/
theorem extractInto_contained {payload : Payload} {result : Except ArchiveError Unit}
    (h : (do
      Effect.mapError ArchiveError.os (Disk.mkdirParents links false destination)
      let root ← resolvePath links destination
      extractPayload formats links newMode root payload maxBytes maxFiles) disk = (result, disk')) :
    Contained links destination maxBytes maxFiles disk disk' := by
  rcases hmkdir : Disk.mkdirParents links false destination disk with ⟨error | _, start⟩
  · simp only [Bind.bind, Effect.bind, Effect.mapError, hmkdir, Except.mapError] at h
    cases h
    exact contained_of_made (Disk.mkdirParents_made hmkdir)
  · obtain ⟨disk₁, hmade, hnew⟩ := Disk.mkdirParents_new hmkdir
    obtain ⟨root, rest, -, hfollow, hdir, hnone, hempty⟩ := Disk.mkdir_new hnew
    obtain ⟨hplain, -, hresolve⟩ := follow_ok hfollow
    have hfresh : Fresh root start.fs := ⟨hplain, hdir, hempty⟩
    have hspec : Spec (fun disk => disk = start) (do
        let root ← resolvePath links destination
        extractPayload formats links newMode root payload maxBytes maxFiles)
        (fun _ => Extracted root start maxFiles maxBytes) fun _ => Extracted root start maxFiles maxBytes := by
      refine .bind ((resolvePath_spec (fun disk => disk = start) destination).weaken (fun _ h => h)
        (fun target disk h => (⟨?_, h.2⟩ : target = root ∧ disk = start)) fun _ disk h => ?_) fun target => ?_
      · rw [h.2, hresolve] at h
        exact (Option.some.inj h.1).symm
      · rw [h]
        exact (Extracted.refl root start).mono (Nat.zero_le _) (Nat.zero_le _)
      · refine .assuming fun heq => ?_
        rw [heq]
        exact extractPayload_spec payload hfresh
    have hextracted : Extracted root start maxFiles maxBytes disk' := by
      simp only [Bind.bind, Effect.bind, Effect.mapError, hmkdir, Except.mapError] at h
      cases result with
      | ok a => exact hspec.returns start rfl a disk' h
      | error error => exact hspec.raises start rfl error disk' h
    exact (contained_of_made (Disk.mkdirParents_made hmkdir)).extracted hfollow
      (hmade.grows.node_eq_none hnone) hextracted

/-- An extraction is refused before it begins, or begins with the destination. -/
theorem extractArchive_cases (formats : Formats Encoded Payload) (links newMode : ℕ) (encoded : Encoded)
    (destination : List Name) (expectedSha256 : String) (maxBytes maxFiles : ℕ) (disk : Disk Bytes) :
    (extractArchive formats links newMode encoded destination expectedSha256 maxBytes maxFiles disk).2 = disk ∨
      ∃ payload, formats.b64decode encoded = some payload ∧ formats.sha256 payload = expectedSha256 ∧
        extractArchive formats links newMode encoded destination expectedSha256 maxBytes maxFiles disk = (do
          Effect.mapError ArchiveError.os (Disk.mkdirParents links false destination)
          let root ← resolvePath links destination
          extractPayload formats links newMode root payload maxBytes maxFiles) disk := by
  rw [extractArchive]
  cases hdecode : formats.b64decode encoded with
  | none => exact Or.inl rfl
  | some payload =>
    dsimp only
    by_cases hsize : maxBytes < formats.length payload
    · rw [if_pos hsize]
      exact Or.inl rfl
    · rw [if_neg hsize]
      by_cases hdigest : formats.sha256 payload ≠ expectedSha256
      · rw [if_pos hdigest]
        exact Or.inl rfl
      · rw [if_neg hdigest]
        exact Or.inr ⟨payload, rfl, not_not.mp hdigest, rfl⟩

theorem contained_of_extractArchive (formats : Formats Encoded Payload) (links newMode : ℕ) (encoded : Encoded)
    (destination : List Name) (expectedSha256 : String) (maxBytes maxFiles : ℕ) (disk : Disk Bytes) :
    Contained links destination maxBytes maxFiles disk
      (extractArchive formats links newMode encoded destination expectedSha256 maxBytes maxFiles disk).2 := by
  rcases extractArchive_cases formats links newMode encoded destination expectedSha256 maxBytes maxFiles disk with
    hsame | ⟨payload, -, -, hextract⟩
  · rw [hsame]
    exact Contained.refl disk
  · rw [hextract]
    exact extractInto_contained rfl

/-- Whatever the payload is, an extraction changes nothing but missing directories above the destination,
and directories and files at or under it, within the limits; with another digest it changes nothing. -/
theorem extractArchive_contained (formats : Formats Encoded Payload) (links newMode : ℕ) (encoded : Encoded)
    (destination : List Name) (expectedSha256 : String) (maxBytes maxFiles : ℕ) (disk : Disk Bytes) :
    Contained links destination maxBytes maxFiles disk
      (extractArchive formats links newMode encoded destination expectedSha256 maxBytes maxFiles disk).2 ∧
    ∀ payload, formats.b64decode encoded = some payload → formats.sha256 payload ≠ expectedSha256 →
      (extractArchive formats links newMode encoded destination expectedSha256 maxBytes maxFiles disk).2 = disk := by
  refine ⟨contained_of_extractArchive .., fun payload hpayload hdigest => ?_⟩
  rcases extractArchive_cases formats links newMode encoded destination expectedSha256 maxBytes maxFiles disk with
    hsame | ⟨other, hother, heq, -⟩
  · exact hsame
  · obtain rfl := Option.some.inj (hpayload.symm.trans hother)
    exact absurd heq hdigest

/-- Formats on the empty payload, which is no packed archive. -/
def emptyFormats : Formats (List Char) Bytes where
  b64encode _ := []
  b64decode encoded := if encoded = [] then some [] else none
  length := List.length
  sha256 _ := "e3b0c44298fc1c149afbf4c8996fb92427ae41e4649b934ca495991b7852b855"
  pack _ := []
  getmembers _ := none
  tell _ := 0

/-- On an empty disk the destination `/a/b` needs `/a`, which is not under it. -/
theorem extractArchive_makes_parents :
    ¬ ∀ (formats : Formats (List Char) Bytes) (links newMode : ℕ) (encoded : List Char) (destination : List Name)
      (expectedSha256 : String) (maxBytes maxFiles : ℕ) (disk : Disk Bytes),
      disk.fs.pathExists links destination = false → ∀ path,
        (extractArchive formats links newMode encoded destination expectedSha256 maxBytes maxFiles disk).2.fs.node path ≠
          disk.fs.node path →
        AtOrUnder (extractArchive formats links newMode encoded destination expectedSha256 maxBytes maxFiles disk).2.fs
          links destination path := by
  intro h
  obtain ⟨root, hfollow, hunder⟩ := h emptyFormats 0 0 [] [['a'], ['b']]
    "e3b0c44298fc1c149afbf4c8996fb92427ae41e4649b934ca495991b7852b855" 0 0 ⟨FileSystem.empty, []⟩ rfl [['a']] nofun
  obtain rfl : [['a'], ['b']] = root := Except.ok.inj hfollow
  revert hunder
  decide

end Main
end CodeMate.Sandbox
