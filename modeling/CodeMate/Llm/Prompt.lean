import Mathlib.Data.Int.Order.Basic
import Mathlib.Data.List.Basic

/-!
# The context of a prompt

`_truncate` and the blocks of files and of retrieved contexts that are put into
a prompt, up to a limit of characters. A text is the list of its characters.

`truncate_bounded` says for which limits a text is cut to the limit. The blocks
are built by one loop (`blocks`), which does not count what it writes between
them: `blocks_le` says when their text stays within the limit all the same, and
`formatFiles_le` and `formatContexts_le` say it of the lengths of the paths and
the contents.
-/

namespace CodeMate.Llm

abbrev Text := List Char

def truncationMarker : Text := "\n...<truncated>...\n".toList

/-- `text[-half:]`; all of it where `half` is 0. -/
def lastChars (half : Nat) (text : Text) : Text := if half = 0 then text else text.drop (text.length - half)

/-- `_truncate`. -/
def truncate (text : Text) (limit : Int) : Text :=
  if limit ≤ 0 then []
  else if text.length ≤ limit then text
  else if limit ≤ 32 then text.take limit.toNat
  else
    let half := (max ((limit - 32) / 2) 0).toNat
    text.take half ++ truncationMarker ++ lastChars half text

/-- The loop of `_format_files` and `_format_contexts`: `render` writes an item where some characters are left. -/
def blocks {α : Type*} (render : α → Int → Text) : (remaining : Int) → List α → List Text
  | _, [] => []
  | remaining, item :: items =>
    if remaining ≤ 0 then []
    else
      let block := render item remaining
      block :: blocks render (remaining - block.length) items

/-- `"\n\n".join(blocks)`. -/
def joinBlocks (texts : List Text) : Text := "\n\n".toList.intercalate texts

/-- The block of a file: its path and its content. -/
def fileBlock (file : Text × Text) (remaining : Int) : Text :=
  let header := "<file path=\"".toList ++ file.1 ++ "\">".toList
  let footer := "</file>".toList
  let body := truncate file.2 (max 0 (remaining - header.length - footer.length - 16))
  header ++ "\n".toList ++ body ++ "\n".toList ++ footer

/-- `_format_files`. -/
def formatFiles (maxContextChars : Int) (files : List (Text × Text)) : Text :=
  joinBlocks (blocks fileBlock maxContextChars files)

/-- `LLMContext`, without the ids that the prompt does not show. -/
structure LLMContext where
  filePath : Text
  symbolName : Option Text
  symbolType : Option Text
  startLine : Option Int
  endLine : Option Int
  content : Text
  repoName : Option Text

/-- `_context_path`. -/
def contextPath (context : LLMContext) : Text :=
  match context.repoName with
  | none | some [] => context.filePath
  | some repoName => repoName ++ "/".toList ++ context.filePath

/-- `_line_range`. -/
def lineRange (context : LLMContext) : Text :=
  match context.startLine, context.endLine with
  | some startLine, some endLine => (toString startLine).toList ++ "-".toList ++ (toString endLine).toList
  | _, _ => "unknown".toList

/-- A part of a header that is left out where the value is missing or empty. -/
def labelled (label : String) (value : Option Text) : Text :=
  match value with
  | none | some [] => []
  | some value => label.toList ++ value

def contextHeader (index : Nat) (context : LLMContext) : Text :=
  "[".toList ++ (toString index).toList ++ "] ".toList ++ contextPath context ++ ":".toList ++ lineRange context ++
    labelled " symbol=" context.symbolName ++ labelled " type=" context.symbolType

/-- The block of a context with its place in the list, from 1. -/
def contextBlock (item : LLMContext × Nat) (remaining : Int) : Text :=
  contextHeader item.2 item.1 ++ "\n```text\n".toList ++ truncate item.1.content (min remaining 4000) ++
    "\n```".toList

/-- `_format_contexts`. -/
def formatContexts (maxContextChars : Int) (contexts : List LLMContext) : Text :=
  joinBlocks (blocks contextBlock maxContextChars ((contexts.take 8).zipIdx 1))

/-! ## Truncation -/

theorem length_lastChars (half : Nat) (text : Text) (h : half ≤ text.length) :
    (lastChars half text).length = if half = 0 then text.length else half := by
  unfold lastChars
  split
  · rfl
  · rw [List.length_drop]
    omega

/-- The length of what is left of a text that is cut. -/
theorem length_truncate_cut {text : Text} {limit : Int} (hcut : limit < text.length) :
    ((truncate text limit).length : Int) =
      if limit ≤ 0 then 0
      else if limit ≤ 32 then limit
      else if limit = 33 then text.length + 19
      else limit - 13 - limit % 2 := by
  unfold truncate
  split
  · rfl
  next hpos =>
    rw [if_neg (by omega)]
    split
    · rw [List.length_take]
      omega
    next hlong =>
      have hhalf : (max ((limit - 32) / 2) 0).toNat ≤ text.length := by omega
      have hmarker : truncationMarker.length = 19 := rfl
      simp only [List.length_append, List.length_take, length_lastChars _ _ hhalf, hmarker]
      split
      · rw [if_pos (by omega)]
        omega
      · rw [if_neg (by omega)]
        omega

theorem truncate_fits {text : Text} {limit : Int} (h : text.length ≤ limit) : truncate text limit = text := by
  unfold truncate
  split
  · exact (List.length_eq_zero_iff.mp (by omega)).symm
  · rfl

/-- A text is cut to the limit, except where the two halves that are kept are empty. -/
theorem truncate_bounded (text : Text) (limit : Int) :
    (((truncate text limit).length : Int) ≤ max limit 0 ∧ (text.length ≤ limit → truncate text limit = text)) ↔
      ¬ (limit = 33 ∧ limit < text.length) := by
  by_cases hfits : text.length ≤ limit
  · rw [truncate_fits hfits]
    refine ⟨fun _ hcut => ?_, fun _ => ⟨?_, fun _ => rfl⟩⟩ <;> omega
  · have hlength := length_truncate_cut (lt_of_not_ge hfits)
    refine ⟨fun h hcut => ?_, fun h => ⟨?_, fun hle => absurd hle hfits⟩⟩
    · rw [hcut.1] at h hlength
      have hbound := h.1
      rw [hlength] at hbound
      simp at hbound
      omega
    · rw [hlength]
      split
      · omega
      · split
        · omega
        · split <;> omega

/-! ## The blocks of a prompt -/

section

variable {α : Type*}

/-- Every item that is taken up finds room for its block, after the separators before it. -/
def AllFit (render : α → Int → Text) : (remaining separators : Int) → List α → Prop
  | _, _, [] => True
  | remaining, separators, item :: items =>
    remaining ≤ 0 ∨ ((render item remaining).length + separators ≤ remaining ∧
      AllFit render (remaining - (render item remaining).length) (separators + 2) items)

theorem length_joinBlocks_cons (text : Text) (texts : List Text) :
    (joinBlocks (text :: texts)).length =
      text.length + if texts = [] then 0 else 2 + (joinBlocks texts).length := by
  cases texts with
  | nil => simp [joinBlocks]
  | cons next rest =>
    simp [joinBlocks, List.intercalate]
    omega

/-- The blocks stay within what is left, less the separators before them, if every one finds room. -/
theorem blocks_le (render : α → Int → Text) {remaining separators : Int} (hsep : 0 ≤ separators) (items : List α) :
    (blocks render remaining items = [] ∨
        (joinBlocks (blocks render remaining items)).length + separators ≤ remaining) ↔
      AllFit render remaining separators items := by
  induction items generalizing remaining separators with
  | nil => simp [blocks, AllFit]
  | cons item items ih =>
    unfold blocks AllFit
    by_cases hempty : remaining ≤ 0
    · simp [hempty]
    · rw [if_neg hempty, ← ih (by omega)]
      simp only [reduceCtorEq, false_or, hempty, length_joinBlocks_cons]
      split
      · next hnil => simp [hnil]
      · next hcons =>
        simp only [hcons, false_or]
        omega

theorem joinBlocks_le {render : α → Int → Text} {limit : Int} {items : List α} :
    ((joinBlocks (blocks render limit items)).length : Int) ≤ limit ↔ 0 ≤ limit ∧ AllFit render limit 0 items := by
  rw [← blocks_le render (le_refl 0)]
  by_cases hnil : blocks render limit items = []
  · simp [hnil, joinBlocks]
  · simp only [hnil, false_or, Int.add_zero]
    omega

end

/-! ## Files -/

/-- Whether what is written of the files finds room, where `remaining` characters are left and `separators` are
written between the blocks: each file has its path and 23 characters around it, and 14 more are kept free where its
content is cut. -/
def FilesFit : (remaining separators : Int) → List (Text × Text) → Prop
  | _, _, [] => True
  | remaining, separators, (path, content) :: files =>
    remaining ≤ 0 ∨
    if content = [] ∨ remaining ≤ path.length + 37 then
      path.length + 23 + separators ≤ remaining ∧ FilesFit (remaining - (path.length + 23)) (separators + 2) files
    else if path.length + content.length + 37 ≤ remaining then
      path.length + content.length + 23 + separators ≤ remaining ∧
        FilesFit (remaining - (path.length + content.length + 23)) (separators + 2) files
    else if remaining ≤ path.length + 69 then separators ≤ 14 ∧ files = []
    else
      remaining ≠ path.length + 70 ∧ separators ≤ 27 + (remaining - path.length - 37) % 2 ∧
        FilesFit (27 + (remaining - path.length - 37) % 2) (separators + 2) files

theorem length_fileBlock (path content : Text) (remaining : Int) :
    ((fileBlock (path, content) remaining).length : Int) =
      path.length + 23 + (truncate content (max 0 (remaining - path.length - 37))).length := by
  have hlimit : remaining - ("<file path=\"".toList ++ path ++ "\">".toList).length - ("</file>".toList).length - 16 =
      remaining - path.length - 37 := by
    simp
    omega
  unfold fileBlock
  dsimp only
  rw [hlimit]
  simp
  omega

/-- After a content that is cut to at most 32 characters, no file finds room. -/
theorem allFit_after_cut {separators : Int} (hsep : 0 ≤ separators) (files : List (Text × Text)) :
    AllFit fileBlock 14 separators files ↔ files = [] := by
  cases files with
  | nil => simp [AllFit]
  | cons file files =>
    obtain ⟨path, content⟩ := file
    have hlength := length_fileBlock path content 14
    simp only [AllFit, reduceCtorEq, iff_false]
    omega

theorem allFit_files {remaining separators : Int} (hsep : 0 ≤ separators) (files : List (Text × Text)) :
    AllFit fileBlock remaining separators files ↔ FilesFit remaining separators files := by
  induction files generalizing remaining separators with
  | nil => simp [AllFit, FilesFit]
  | cons file files ih =>
    obtain ⟨path, content⟩ := file
    have hlength := length_fileBlock path content remaining
    unfold AllFit FilesFit
    refine or_congr_right' fun hpos => ?_
    have hempty (hbody : (truncate content (max 0 (remaining - path.length - 37))).length = 0) :
        ((fileBlock (path, content) remaining).length : Int) = path.length + 23 := by omega
    split
    · next hnone =>
      have hbody : (truncate content (max 0 (remaining - path.length - 37))).length = 0 := by
        rcases hnone with rfl | hroom
        · rw [truncate_fits (by rw [List.length_nil]; omega), List.length_nil]
        · rw [max_eq_left (by omega)]
          rfl
      rw [hempty hbody, ih (by omega)]
    next hsome =>
    obtain ⟨hcontent, hroom⟩ := not_or.mp hsome
    rw [max_eq_right (by omega)] at hlength
    split
    · next hfits =>
      rw [truncate_fits (by omega)] at hlength
      rw [hlength, show (path.length + 23 + content.length : Int) = path.length + content.length + 23 by omega,
        ih (by omega)]
    next hcut =>
    rw [length_truncate_cut (by omega), if_neg (by omega)] at hlength
    split
    · next hshort =>
      rw [if_pos (by omega)] at hlength
      rw [hlength, show remaining - (path.length + 23 + (remaining - path.length - 37)) = 14 by omega,
        allFit_after_cut (by omega)]
      exact and_congr_left' (by omega)
    next hlong =>
    rw [if_neg (by omega)] at hlength
    split at hlength
    · next hmiddle =>
      rw [hlength]
      constructor <;> intro h <;> omega
    · next hmiddle =>
      rw [hlength, show remaining - (path.length + 23 + (remaining - path.length - 37 - 13 -
        (remaining - path.length - 37) % 2)) = 27 + (remaining - path.length - 37) % 2 by omega, ih (by omega)]
      constructor
      · rintro ⟨hle, hrest⟩
        exact ⟨by omega, by omega, hrest⟩
      · rintro ⟨-, hle, hrest⟩
        exact ⟨by omega, hrest⟩

theorem formatFiles_le (maxContextChars : Int) (files : List (Text × Text)) :
    ((formatFiles maxContextChars files).length : Int) ≤ maxContextChars ↔
      0 ≤ maxContextChars ∧ FilesFit maxContextChars 0 files := by
  rw [formatFiles, joinBlocks_le, allFit_files (le_refl 0)]

/-! ## Contexts -/

/-- The characters of a context's block; of a long content, 3987 are written. -/
def contextSize (item : LLMContext × Nat) : Int :=
  (contextHeader item.2 item.1).length + 13 + if item.1.content.length ≤ 4000 then item.1.content.length else 3987

/-- The characters of the blocks, with two more after each. -/
def contextsSize : List (LLMContext × Nat) → Int
  | [] => 0
  | item :: items => contextSize item + 2 + contextsSize items

/-- The contexts that are shown, with their places. -/
def numbered (contexts : List LLMContext) : List (LLMContext × Nat) := (contexts.take 8).zipIdx 1

theorem length_contextHeader (index : Nat) (context : LLMContext) : 2 ≤ (contextHeader index context).length := by
  simp [contextHeader]
  omega

/-- A block finds room where the context does: a content that is cut to what is left leaves none for the header. -/
theorem contextBlock_le {item : LLMContext × Nat} {remaining separators : Int} (hpos : 0 < remaining)
    (hsep : 0 ≤ separators) :
    ((contextBlock item remaining).length + separators ≤ remaining ↔ contextSize item + separators ≤ remaining) ∧
      (contextSize item + separators ≤ remaining → (contextBlock item remaining).length = contextSize item) := by
  have hheader := length_contextHeader item.2 item.1
  have hlength : ((contextBlock item remaining).length : Int) = (contextHeader item.2 item.1).length + 13 +
      (truncate item.1.content (min remaining 4000)).length := by
    simp [contextBlock]
    omega
  unfold contextSize
  rw [hlength]
  by_cases hfits : item.1.content.length ≤ min remaining 4000
  · rw [truncate_fits hfits, if_pos (by omega)]
    exact ⟨Iff.rfl, fun _ => rfl⟩
  · rw [length_truncate_cut (by omega), if_neg (by omega)]
    by_cases hlong : 4000 ≤ remaining
    · rw [min_eq_right hlong, if_neg (by decide), if_neg (by decide), if_neg (by omega)]
      exact ⟨Iff.rfl, fun _ => rfl⟩
    · rw [min_eq_left (by omega)]
      have hnone : ¬ ((contextHeader item.2 item.1).length + 13 +
          ((if item.1.content.length ≤ 4000 then item.1.content.length else 3987 : Nat) : Int) + separators ≤
          remaining) := by
        split <;> omega
      refine ⟨⟨fun h => absurd h ?_, fun h => absurd h hnone⟩, fun h => absurd h hnone⟩
      split
      · omega
      · split <;> omega

theorem contextSize_pos (item : LLMContext × Nat) : 0 < contextSize item := by
  unfold contextSize
  split <;> omega

theorem contextsSize_nonneg (items : List (LLMContext × Nat)) : 0 ≤ contextsSize items := by
  induction items with
  | nil => exact Int.le_refl 0
  | cons item items ih =>
    have hpos := contextSize_pos item
    unfold contextsSize
    omega

/-- The contexts find room if all their blocks do, or if the first one fills it to the last character. -/
theorem allFit_contexts {remaining separators : Int} (hsep : 0 ≤ separators) (items : List (LLMContext × Nat)) :
    AllFit contextBlock remaining separators items ↔
      items = [] ∨ remaining ≤ 0 ∨ contextsSize items + separators ≤ remaining + 2 ∨
        separators = 0 ∧ ∃ item ∈ items.head?, contextSize item = remaining := by
  induction items generalizing remaining separators with
  | nil => simp [AllFit]
  | cons item items ih =>
    unfold AllFit contextsSize
    simp only [reduceCtorEq, false_or, List.head?_cons, Option.mem_some_iff, exists_eq_left']
    refine or_congr_right' fun hleft => ?_
    obtain ⟨hle, hsize⟩ := @contextBlock_le item remaining separators (by omega) hsep
    have hnonneg := contextsSize_nonneg items
    rw [hle]
    by_cases hroom : contextSize item + separators ≤ remaining
    · rw [hsize hroom, ih (by omega)]
      cases items with
      | nil =>
        simp only [hroom, contextsSize, true_or, true_and, true_iff]
        omega
      | cons next rest =>
        have hpos := contextSize_pos next
        have hrest := contextsSize_nonneg rest
        simp only [hroom, true_and, reduceCtorEq, false_or, contextsSize] at hnonneg ⊢
        omega
    · simp only [hroom, false_and, false_iff]
      omega

theorem formatContexts_le (maxContextChars : Int) (contexts : List LLMContext) :
    ((formatContexts maxContextChars contexts).length : Int) ≤ maxContextChars ↔
      0 ≤ maxContextChars ∧ (maxContextChars = 0 ∨ contextsSize (numbered contexts) ≤ maxContextChars + 2 ∨
        ∃ item ∈ (numbered contexts).head?, contextSize item = maxContextChars) := by
  rw [formatContexts, joinBlocks_le, allFit_contexts (Int.le_refl 0)]
  refine and_congr_right fun hnonneg => ?_
  by_cases hnil : numbered contexts = []
  · have hitems : (contexts.take 8).zipIdx 1 = [] := hnil
    simp [hnil, hitems, contextsSize]
    omega
  · have hitems : (contexts.take 8).zipIdx 1 ≠ [] := hnil
    simp only [hitems, false_or, Int.add_zero, true_and]
    exact or_congr (by omega) Iff.rfl

/-! ## The bound -/

/-- For which inputs the texts stay within their limits. -/
theorem prompt_bound (text : Text) (limit maxContextChars : Int) (files : List (Text × Text))
    (contexts : List LLMContext) :
    ((((truncate text limit).length : Int) ≤ max limit 0 ∧ (text.length ≤ limit → truncate text limit = text)) ↔
        ¬ (limit = 33 ∧ limit < text.length)) ∧
      (((formatFiles maxContextChars files).length : Int) ≤ maxContextChars ↔
        0 ≤ maxContextChars ∧ FilesFit maxContextChars 0 files) ∧
      (((formatContexts maxContextChars contexts).length : Int) ≤ maxContextChars ↔
        0 ≤ maxContextChars ∧ (maxContextChars = 0 ∨ contextsSize (numbered contexts) ≤ maxContextChars + 2 ∨
          ∃ item ∈ (numbered contexts).head?, contextSize item = maxContextChars)) :=
  ⟨truncate_bounded text limit, formatFiles_le maxContextChars files, formatContexts_le maxContextChars contexts⟩

/-- A text of 34 characters is cut to 53, and two files, or one context, exceed the characters they are given. -/
theorem prompt_exceeded :
    ¬ ((truncate (List.replicate 34 'a') 33).length : Int) ≤ max 33 0 ∧
    ¬ ((formatFiles 100 [("a.py".toList, List.replicate 80 'a'), ("b.py".toList, "b".toList)]).length : Int) ≤ 100 ∧
    ¬ ((formatContexts 100
      [⟨"a.py".toList, none, none, some 1, some 9, List.replicate 200 'a', none⟩]).length : Int) ≤ 100 := by
  decide +kernel

end CodeMate.Llm
