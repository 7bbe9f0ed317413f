import Mathlib.Data.List.Nodup
import Mathlib.Data.List.Sort
import Mathlib.Data.Set.Function
import Mathlib.Data.String.Basic

/-!
# Scanning a checkout

Which files of a checkout are indexed (`iterSourceFiles`), and what is read off
each: its language, its hash and what the chunker makes of it
(`scanSourceFiles`). A scan has one file at a path (`scan_nodup`), and its path
and hash determine it (`scanned_determined`), so a file with the hash it had
before is the file it was.
-/

namespace CodeMate.Indexing

/-- The text of an exception. -/
abbrev Failure := String

/-- One symbol of a file, as a chunker gives it. -/
structure ChunkData where
  symbolName : String
  symbolType : String
  startLine : Nat
  endLine : Nat
  content : String
  contentHash : String
  imports : List String := []
  exports : List String := []
  deriving DecidableEq

structure ParsedFile where
  imports : List String
  exports : List String
  chunks : List ChunkData
  deriving DecidableEq

/-- A regular file or a symbolic link to one. -/
structure Entry (Raw : Type) where
  path : String
  symlink : Bool := false
  raw : Raw

/-- The files of a checkout, one at a path. -/
structure Checkout (Raw : Type) where
  entries : List (Entry Raw)
  nodup : (entries.map (·.path)).Nodup

/-- The settings and libraries an index depends on; `Raw` is the type of the bytes of a file. -/
structure Indexer (Raw : Type) where
  workspaceRoot : String
  maxFileSizeBytes : Nat
  size : Raw → Nat
  decode : Raw → String
  sha256 : Raw → String
  lower : String → String
  strip : String → String
  parse : String → String → String → Except Failure ParsedFile

variable {Raw : Type} (ix : Indexer Raw)

/-! ## Which files -/

def ignoredDirs : List String := ["node_modules", "dist", "build", ".next", "coverage", ".git"]

def ignoredSuffixes : List String :=
  [".png", ".jpg", ".jpeg", ".gif", ".webp", ".svg", ".ico", ".mp4", ".mov", ".avi", ".mkv", ".mp3", ".wav", ".pdf",
    ".zip", ".tar", ".gz", ".7z", ".lock"]

def languageBySuffix : List (String × String) :=
  [(".ts", "typescript"), (".tsx", "typescript"), (".js", "javascript"), (".jsx", "javascript"), (".py", "python"),
    (".vue", "vue")]

/-- `PurePath.parts`. -/
def parts (path : String) : List String := (path.toList.splitOn '/').map String.ofList

/-- `PurePath.name`. -/
def fileName (path : String) : String := (parts path).getLast?.getD ""

/-- `PurePath.suffix`: from the last dot on, if there is something before and after it. -/
def suffix (path : String) : String :=
  let reversed := (fileName path).toList.reverse
  let extension := reversed.takeWhile (· ≠ '.')
  match reversed.drop extension.length with
  | [] => ""
  | _ :: stem => if extension = [] ∨ stem = [] then "" else String.ofList ('.' :: extension.reverse)

def detectLanguage (path : String) : Option String := languageBySuffix.lookup (ix.lower (suffix path))

def shouldIgnorePath (entry : Entry Raw) : Bool :=
  (parts entry.path).any (· ∈ ignoredDirs) || fileName entry.path = ".env" ||
    (fileName entry.path).toList.take 5 = ".env.".toList || ix.lower (suffix entry.path) ∈ ignoredSuffixes ||
    ix.maxFileSizeBytes < ix.size entry.raw

/-- `iter_source_files`, in the order of paths. -/
def iterSourceFiles (checkout : Checkout Raw) : List (Entry Raw) :=
  (checkout.entries.filter fun entry => ¬ shouldIgnorePath ix entry ∧ (detectLanguage ix entry.path).isSome).insertionSort
    fun x y => parts x.path ≤ parts y.path

/-! ## What is read off them -/

structure ScannedCodeFile (Raw : Type) where
  relativePath : String
  language : String
  raw : Raw
  content : String
  contentHash : String
  parsedFile : ParsedFile

/-- One turn of the loop of `_scan_source_files`; links are passed over. -/
def scanEntry (entry : Entry Raw) : Except Failure (Option (ScannedCodeFile Raw)) :=
  if entry.symlink then .ok none
  else
    match detectLanguage ix entry.path with
    | none => .ok none
    | some language =>
      (ix.parse language entry.path (ix.decode entry.raw)).map fun parsedFile =>
        some { relativePath := entry.path, language := language, raw := entry.raw, content := ix.decode entry.raw,
               contentHash := ix.sha256 entry.raw, parsedFile := parsedFile }

def scanEntries : List (Entry Raw) → Except Failure (List (ScannedCodeFile Raw))
  | [] => .ok []
  | entry :: entries =>
    match scanEntry ix entry, scanEntries entries with
    | .error failure, _ => .error failure
    | .ok _, .error failure => .error failure
    | .ok scanned, .ok rest => .ok (scanned.toList ++ rest)

/-- `_scan_source_files`. -/
def scanSourceFiles (checkout : Checkout Raw) : Except Failure (List (ScannedCodeFile Raw)) :=
  scanEntries ix (iterSourceFiles ix checkout)

variable {ix} {entry : Entry Raw} {entries : List (Entry Raw)} {scanned : List (ScannedCodeFile Raw)}
  {file : ScannedCodeFile Raw} {checkout : Checkout Raw}

/-- What is scanned is a function of the path and the bytes. -/
theorem scanEntry_eq {found : Option (ScannedCodeFile Raw)} (h : scanEntry ix entry = .ok found) (hfile : found = some file) :
    file.relativePath = entry.path ∧ file.raw = entry.raw ∧ file.contentHash = ix.sha256 entry.raw ∧
      detectLanguage ix entry.path = some file.language ∧ file.content = ix.decode entry.raw ∧
      ix.parse file.language entry.path (ix.decode entry.raw) = .ok file.parsedFile := by
  subst hfile
  rw [scanEntry] at h
  split at h
  next => cases h
  next =>
    split at h
    next => cases h
    next language hlanguage =>
      rcases hparse : ix.parse language entry.path (ix.decode entry.raw) with failure | parsedFile
      · rw [hparse] at h
        cases h
      · rw [hparse] at h
        cases h
        exact ⟨rfl, rfl, rfl, hlanguage, rfl, hparse⟩

/-- By induction on the entries, in the order they are scanned. -/
theorem scanEntries_spec (h : scanEntries ix entries = .ok scanned) :
    (scanned.map (·.relativePath)).Sublist (entries.map (·.path)) ∧
      ∀ file ∈ scanned, ∃ entry ∈ entries, scanEntry ix entry = .ok (some file) := by
  induction entries generalizing scanned with
  | nil => cases h; exact ⟨List.Sublist.refl _, fun _ hfile => nomatch hfile⟩
  | cons entry entries ih =>
    rw [scanEntries] at h
    split at h
    next => cases h
    next => cases h
    next found rest hfound hrest =>
      cases h
      obtain ⟨hsub, hmem⟩ := ih hrest
      refine ⟨?_, fun file hfile => ?_⟩
      · rcases found with _ | file
        · exact hsub.cons _
        · rw [List.map_cons, ← (scanEntry_eq hfound rfl).1]
          exact hsub.cons_cons _
      · rcases List.mem_append.mp hfile with hfile | hfile
        · rw [Option.mem_toList] at hfile
          exact ⟨entry, List.mem_cons_self, hfile ▸ hfound⟩
        · obtain ⟨entry', hentry, hscan⟩ := hmem file hfile
          exact ⟨entry', List.mem_cons_of_mem _ hentry, hscan⟩

theorem iterSourceFiles_nodup : ((iterSourceFiles ix checkout).map (·.path)).Nodup := by
  have hperm := (List.perm_insertionSort (fun x y : Entry Raw => parts x.path ≤ parts y.path)
    (checkout.entries.filter fun entry => ¬ shouldIgnorePath ix entry ∧ (detectLanguage ix entry.path).isSome)).map
      (·.path)
  exact hperm.nodup_iff.mpr (checkout.nodup.sublist (List.filter_sublist.map _))

/-- A scan has one file at a path. -/
theorem scan_nodup (h : scanSourceFiles ix checkout = .ok scanned) : (scanned.map (·.relativePath)).Nodup :=
  iterSourceFiles_nodup.sublist (scanEntries_spec h).1

theorem mem_of_mem_iterSourceFiles (h : entry ∈ iterSourceFiles ix checkout) : entry ∈ checkout.entries :=
  (List.mem_filter.mp ((List.mem_insertionSort _).mp h)).1

/-- The bytes of the files are among these. -/
def Checkout.Within (bytes : Set Raw) (checkout : Checkout Raw) : Prop := ∀ entry ∈ checkout.entries, entry.raw ∈ bytes

/-- Two scans that have a file with one path and one hash have the same file there, if the hash does
not collide on the bytes of their files. -/
theorem scanned_determined {bytes : Set Raw} (hsha : Set.InjOn ix.sha256 bytes) {checkout' : Checkout Raw}
    {scanned' : List (ScannedCodeFile Raw)} {file' : ScannedCodeFile Raw}
    (hbytes : checkout.Within bytes) (hbytes' : checkout'.Within bytes)
    (h : scanSourceFiles ix checkout = .ok scanned) (h' : scanSourceFiles ix checkout' = .ok scanned')
    (hfile : file ∈ scanned) (hfile' : file' ∈ scanned') (hpath : file.relativePath = file'.relativePath)
    (hhash : file.contentHash = file'.contentHash) : file = file' := by
  obtain ⟨entry, hmem, hentry⟩ := (scanEntries_spec h).2 file hfile
  obtain ⟨entry', hmem', hentry'⟩ := (scanEntries_spec h').2 file' hfile'
  obtain ⟨hp, hraw, hh, hlanguage, hcontent, hparsed⟩ := scanEntry_eq hentry rfl
  obtain ⟨hp', hraw', hh', hlanguage', hcontent', hparsed'⟩ := scanEntry_eq hentry' rfl
  have hpaths : entry.path = entry'.path := hp.symm.trans (hpath.trans hp')
  have hraws : entry.raw = entry'.raw :=
    hsha (hbytes entry (mem_of_mem_iterSourceFiles hmem)) (hbytes' entry' (mem_of_mem_iterSourceFiles hmem'))
      (hh.symm.trans (hhash.trans hh'))
  rw [hpaths, hlanguage'] at hlanguage
  have hlang : file'.language = file.language := Option.some.inj hlanguage
  rw [hpaths, hraws, ← hlang, hparsed'] at hparsed
  have hparse : file'.parsedFile = file.parsedFile := Except.ok.inj hparsed
  cases file
  cases file'
  simp_all

end CodeMate.Indexing
