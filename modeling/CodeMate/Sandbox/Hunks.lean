import Mathlib.Data.List.DropRight
import Mathlib.Data.List.Forall2
import Mathlib.Data.List.TakeWhile
import CodeMate.Framework.Fallible
import CodeMate.Sandbox.Lines

/-!
# Repaired hunks

What `normalizeLines` makes of the lines of a diff (`Normalized`) and what holds
of the result:

* `Normalized.edited`: a line that changes is a hunk header before and after;
* `Normalized.counted`: every hunk header carries the counts of its body;
* `Normalized.again`: a second pass changes nothing.

`normalize_repairs` puts them together for a text.
-/

namespace CodeMate.Sandbox

open Framework

/-! ## Counting -/

def startsHunk (line : Line) : Bool := "@@ ".toList.isPrefixOf line

/-- Whether a line of a hunk is in the old file. -/
def isOld (line : Line) : Bool := " ".toList.isPrefixOf line || "-".toList.isPrefixOf line

/-- Whether a line of a hunk is in the new file. -/
def isNew (line : Line) : Bool := " ".toList.isPrefixOf line || "+".toList.isPrefixOf line

def isHunkLine (line : Line) : Bool :=
  isOld line || isNew line || "\\ No newline at end of file".toList.isPrefixOf line

theorem countHunkLines_ok {body : List Line} {start counts : HunkCounts}
    (h : countHunkLines body start = .ok counts) :
    (∀ line ∈ body, isHunkLine line) ∧ counts.old = start.old + body.countP isOld ∧
      counts.new = start.new + body.countP isNew := by
  induction body generalizing start with
  | nil =>
    obtain rfl := Except.ok.inj h
    exact ⟨nofun, rfl, rfl⟩
  | cons line rest ih =>
    unfold countHunkLines at h
    split at h
    · obtain ⟨hlines, hold, hnew⟩ := ih h
      refine ⟨fun l hl => (List.mem_cons.mp hl).elim (fun heq => heq ▸ rfl) (hlines l), ?_, ?_⟩
      · rw [hold, List.countP_cons_of_pos rfl]
        show start.old + 1 + _ = _
        omega
      · rw [hnew, List.countP_cons_of_pos rfl]
        show start.new + 1 + _ = _
        omega
    · obtain ⟨hlines, hold, hnew⟩ := ih h
      refine ⟨fun l hl => (List.mem_cons.mp hl).elim (fun heq => heq ▸ rfl) (hlines l), ?_, ?_⟩
      · rw [hold, List.countP_cons_of_pos rfl]
        show start.old + 1 + _ = _
        omega
      · rw [hnew, List.countP_cons_of_neg (Bool.false_ne_true)]
    · obtain ⟨hlines, hold, hnew⟩ := ih h
      refine ⟨fun l hl => (List.mem_cons.mp hl).elim (fun heq => heq ▸ rfl) (hlines l), ?_, ?_⟩
      · rw [hold, List.countP_cons_of_neg (Bool.false_ne_true)]
      · rw [hnew, List.countP_cons_of_pos rfl]
        show start.new + 1 + _ = _
        omega
    · split at h
      · next hmarker =>
        obtain ⟨tail, rfl⟩ := List.isPrefixOf_iff_prefix.mp hmarker
        obtain ⟨hlines, hold, hnew⟩ := ih h
        refine ⟨fun l hl => (List.mem_cons.mp hl).elim (fun heq => heq ▸ ?_) (hlines l), ?_, ?_⟩
        · rfl
        · rw [hold, List.countP_cons_of_neg (Bool.false_ne_true)]
        · rw [hnew, List.countP_cons_of_neg (Bool.false_ne_true)]
      · exact nomatch h

theorem countHunkLines_of_lines {body : List Line} (h : ∀ line ∈ body, isHunkLine line) (start : HunkCounts) :
    ∃ counts, countHunkLines body start = .ok counts := by
  induction body generalizing start with
  | nil => exact ⟨start, rfl⟩
  | cons line rest ih =>
    have hrest := fun l hl => h l (List.mem_cons_of_mem line hl)
    unfold countHunkLines
    split
    · exact ih hrest _
    · exact ih hrest _
    · exact ih hrest _
    · next hblank hminus hplus =>
      have hmarker : "\\ No newline at end of file".toList.isPrefixOf line = true := by
        have hline := h line List.mem_cons_self
        by_contra hmarker
        rw [isHunkLine, eq_false_of_ne_true hmarker, Bool.or_false, isOld, isNew] at hline
        cases line with
        | nil => exact absurd hline (by decide)
        | cons c tail =>
          simp [List.isPrefixOf] at hline
          rcases hline with (rfl | rfl) | rfl | rfl
          · exact hblank tail rfl
          · exact hminus tail rfl
          · exact hblank tail rfl
          · exact hplus tail rfl
      rw [if_pos hmarker]
      exact ih hrest _

/-- The counts that a header declares. -/
def HunkHeader.declared (header : HunkHeader) : Nat × Nat :=
  (intOf (header.oldCount.getD ['1']), intOf (header.newCount.getD ['1']))

/-- The numbers of old and new lines. -/
def sizes (body : List Line) : Nat × Nat := (body.countP isOld, body.countP isNew)

/-- A header that declares the counts of its body. -/
def Counts (line : Line) (body : List Line) : Prop :=
  ∃ header, matchHunkHeader (rstripLine line) = some header ∧ (∀ l ∈ body, isHunkLine l) ∧
    header.declared = sizes body

/-- Each line that starts a hunk declares the counts of the lines up to the next hunk or file. -/
def Counted : List Line → Prop
  | [] => True
  | line :: rest => (startsHunk line → Counts line (hunkBody rest)) ∧ Counted rest

/-! ## Headers of lines -/

theorem rstripLine_append (line : Line) :
    ∃ tail, line = rstripLine line ++ tail ∧ ∀ c ∈ tail, c = '\r' ∨ c = '\n' := by
  refine ⟨(line.reverse.takeWhile fun c => c = '\r' || c = '\n').reverse, ?_, fun c hc => ?_⟩
  · rw [rstripLine, ← List.reverse_append, List.takeWhile_append_dropWhile, List.reverse_reverse]
  · have h := List.mem_takeWhile_imp (p := fun c => c = '\r' || c = '\n') (List.mem_reverse.mp hc)
    simpa using h

theorem rstripLine_of_unbroken {text tail : List Char} (htext : Unbroken text)
    (htail : ∀ c ∈ tail, c = '\r' ∨ c = '\n') : rstripLine (text ++ tail) = text := by
  have hstrip : (text.reverse.dropWhile fun c => c = '\r' || c = '\n') = text.reverse := by
    cases hrev : text.reverse with
    | nil => rfl
    | cons c rest =>
      have hc := htext c (List.mem_reverse.mp (hrev ▸ List.mem_cons_self))
      refine List.dropWhile_cons_of_neg fun hbreak => ?_
      rcases (by simpa using hbreak : c = '\r' ∨ c = '\n') with rfl | rfl
      · exact absurd hc (by decide)
      · exact absurd hc (by decide)
  rw [rstripLine, List.reverse_append, List.dropWhile_append_of_pos, hstrip, List.reverse_reverse]
  intro c hc
  simpa using htail c (List.mem_reverse.mp hc)

/-- A prefix without line breaks is one of the stripped line. -/
theorem isPrefixOf_rstripLine {mark : List Char} (hmark : Unbroken mark) (line : Line) :
    mark.isPrefixOf (rstripLine line) = mark.isPrefixOf line := by
  obtain ⟨tail, hline, htail⟩ := rstripLine_append line
  rw [Bool.eq_iff_iff, List.isPrefixOf_iff_prefix, List.isPrefixOf_iff_prefix]
  refine ⟨fun h => h.trans ⟨tail, hline.symm⟩, fun h => ?_⟩
  obtain ⟨rest, heq⟩ := h
  rw [hline] at heq
  rcases List.append_eq_append_iff.mp heq with ⟨more, hmore, -⟩ | ⟨more, hmore, htails⟩
  · exact ⟨more, hmore.symm⟩
  · cases more with
    | nil => exact ⟨[], by rw [hmore, List.append_nil, List.append_nil]⟩
    | cons c more =>
      have hunbroken := hmark c (by rw [hmore]; exact List.mem_append_right _ List.mem_cons_self)
      rcases htail c (by rw [htails]; exact List.mem_cons_self) with rfl | rfl
      · exact absurd hunbroken (by decide)
      · exact absurd hunbroken (by decide)

theorem headerNewline_eq_nil {line : Line} (h : ¬ "\n".toList <:+ line) : headerNewline line = [] := by
  unfold headerNewline
  rw [if_neg fun hcrlf => h ?_, if_neg fun hnewline => h (List.isSuffixOf_iff_suffix.mp hnewline)]
  exact (show "\n".toList <:+ "\r\n".toList from ⟨['\r'], rfl⟩).trans (List.isSuffixOf_iff_suffix.mp hcrlf)

/-- The line break at the end of a line, where carriage returns stand before newlines only. -/
theorem rstripLine_headerNewline {line : Line} (h : Terminated line ∨ Unbroken line) :
    line = rstripLine line ++ headerNewline line := by
  rcases h with ⟨text, terminator, htext, hterminator, rfl⟩ | hline
  · cases hterminator with
    | crlf =>
      rw [rstripLine_of_unbroken htext (by simp), headerNewline, if_pos]
      · rfl
      · exact List.isSuffixOf_iff_suffix.mpr ⟨text, rfl⟩
    | @single c hbreak hcr =>
      by_cases hc : c = '\n'
      · subst hc
        rw [rstripLine_of_unbroken htext (by simp), headerNewline, if_neg, if_pos]
        · rfl
        · exact List.isSuffixOf_iff_suffix.mpr ⟨text, rfl⟩
        · intro hsuffix
          obtain ⟨front, hfront⟩ := List.isSuffixOf_iff_suffix.mp hsuffix
          have hlast : (front ++ ['\r']) ++ ['\n'] = text ++ ['\n'] := by simpa using hfront
          have htext' := (List.append_inj' hlast rfl).1
          exact absurd (htext '\r' (by rw [← htext']; simp)) (by decide)
      · have hstrip : rstripLine (text ++ [c]) = text ++ [c] := by
          simp [rstripLine, hc, hcr]
        rw [hstrip, headerNewline_eq_nil, List.append_nil]
        rintro ⟨front, hfront⟩
        exact hc (List.cons.inj (List.append_inj' hfront rfl).2).1.symm
  · have hstrip : rstripLine (line ++ []) = line := rstripLine_of_unbroken hline nofun
    rw [List.append_nil] at hstrip
    rw [hstrip, headerNewline_eq_nil, List.append_nil]
    rintro ⟨front, rfl⟩
    exact absurd (hline '\n' (by simp)) (by decide)

/-! ## The pass -/

theorem startsHunk_rstripLine (line : Line) : "@@ ".toList.isPrefixOf (rstripLine line) = startsHunk line :=
  isPrefixOf_rstripLine (by decide) line

/-- No line starts a hunk and a file. -/
theorem not_file_of_startsHunk {line : Line} (h : startsHunk line = true) (rest : List Line) :
    (startsDiff line || startsFileHeader (line :: rest)) = false := by
  obtain ⟨tail, rfl⟩ := List.isPrefixOf_iff_prefix.mp h
  cases rest <;> rfl

/-- A header with other counts. -/
def HunkHeader.counted (header : HunkHeader) (sizes : Nat × Nat) : HunkHeader :=
  { header with oldCount := some (toString sizes.1).toList, newCount := some (toString sizes.2).toList }

theorem HunkHeader.Numbered.counted {header : HunkHeader} (h : header.Numbered) (sizes : Nat × Nat) :
    (header.counted sizes).Numbered where
  oldStart := h.oldStart
  oldCount := by rintro _ ⟨⟩; exact digits_toString _
  newStart := h.newStart
  newCount := by rintro _ ⟨⟩; exact digits_toString _

theorem declared_counted (header : HunkHeader) (sizes : Nat × Nat) : (header.counted sizes).declared = sizes := by
  show (intOf _, intOf _) = sizes
  rw [HunkHeader.counted, Option.getD_some, Option.getD_some, intOf_toString, intOf_toString]

/-- What is written for the header of a hunk. -/
theorem normalizeHeader_ok {line line' : Line} {header : HunkHeader} {body : List Line} {repaired : Bool}
    (h : normalizeHeader line header body = .ok (line', repaired)) :
    (∀ l ∈ body, isHunkLine l) ∧
      (header.declared = sizes body ∧ line' = line ∧ repaired = false ∨
        header.declared ≠ sizes body ∧ body ≠ [] ∧
          line' = (header.counted (sizes body)).text ++ headerNewline line ∧ repaired = true) := by
  obtain ⟨counts, hcounts, h⟩ := bind_ok h
  obtain ⟨hlines, hold, hnew⟩ := countHunkLines_ok hcounts
  have hsizes : (counts.old, counts.new) = sizes body := by
    rw [hold, hnew, Nat.zero_add, Nat.zero_add]
    rfl
  refine ⟨hlines, ?_⟩
  simp only at h
  split at h
  · next hright =>
    obtain ⟨rfl, rfl⟩ := Prod.mk.inj (Except.ok.inj h)
    exact .inl ⟨hright.trans hsizes, rfl, rfl⟩
  · next hwrong =>
    split at h
    · exact nomatch h
    · next trailing hlast =>
      split at h
      · exact nomatch h
      · obtain ⟨rfl, rfl⟩ := Prod.mk.inj (Except.ok.inj h)
        refine .inr ⟨fun hright => hwrong (hright.trans hsizes.symm), ?_, ?_, rfl⟩
        · rintro rfl
          obtain rfl := Except.ok.inj hcounts
          exact absurd hlast.symm (Option.some_ne_none trailing)
        · rw [← hsizes]
          simp [HunkHeader.text, HunkHeader.front, HunkHeader.counted, rangeText]

theorem normalizeHeader_of_counts {line : Line} {header : HunkHeader} {body : List Line}
    (hlines : ∀ l ∈ body, isHunkLine l) (hright : header.declared = sizes body) :
    normalizeHeader line header body = .ok (line, false) := by
  obtain ⟨counts, hcounts⟩ := countHunkLines_of_lines hlines ⟨0, 0, none⟩
  obtain ⟨-, hold, hnew⟩ := countHunkLines_ok hcounts
  have hsizes : (counts.old, counts.new) = sizes body := by
    rw [hold, hnew, Nat.zero_add, Nat.zero_add]
    rfl
  unfold normalizeHeader
  rw [hcounts]
  exact if_pos (hright.trans hsizes.symm)

/-- What `normalizeLines` makes of the lines of a diff. -/
inductive Normalized : Nat → List Line → Bool → List Line → Nat → Prop
  | done {skip : Nat} {saw : Bool} : Normalized skip [] saw [] 0
  | body {skip : Nat} {line : Line} {rest rest' : List Line} {saw : Bool} {n : Nat} :
    Normalized skip rest saw rest' n → Normalized (skip + 1) (line :: rest) saw (line :: rest') n
  | file {line : Line} {rest rest' : List Line} {saw : Bool} {n : Nat} :
    (startsDiff line || startsFileHeader (line :: rest)) = true → Normalized 0 rest true rest' n →
    Normalized 0 (line :: rest) saw (line :: rest') n
  | other {line : Line} {rest rest' : List Line} {saw : Bool} {n : Nat} :
    (startsDiff line || startsFileHeader (line :: rest)) = false → startsHunk line = false →
    Normalized 0 rest saw rest' n → Normalized 0 (line :: rest) saw (line :: rest') n
  | hunk {line : Line} {rest rest' : List Line} {n : Nat} : startsHunk line = true →
    Counts line (hunkBody rest) → Normalized (hunkBody rest).length rest true rest' n →
    Normalized 0 (line :: rest) true (line :: rest') n
  | repaired {line : Line} {rest rest' : List Line} {n : Nat} {header : HunkHeader} : startsHunk line = true →
    matchHunkHeader (rstripLine line) = some header → (∀ l ∈ hunkBody rest, isHunkLine l) →
    header.declared ≠ sizes (hunkBody rest) → hunkBody rest ≠ [] →
    Normalized (hunkBody rest).length rest true rest' n →
    Normalized 0 (line :: rest) true
      (((header.counted (sizes (hunkBody rest))).text ++ headerNewline line) :: rest') (n + 1)

theorem normalizeLines_ok {skip : Nat} {lines lines' : List Line} {saw : Bool} {n : Nat}
    (h : normalizeLines skip lines saw = .ok (lines', n)) : Normalized skip lines saw lines' n := by
  induction lines generalizing skip saw lines' n with
  | nil =>
    obtain ⟨rfl, rfl⟩ : [] = lines' ∧ 0 = n := by
      cases skip <;> exact Prod.mk.inj (Except.ok.inj h)
    exact .done
  | cons line rest ih =>
    cases skip with
    | succ skip =>
      obtain ⟨⟨rest', m⟩, hrest, h⟩ := bind_ok h
      obtain ⟨rfl, rfl⟩ := Prod.mk.inj (Except.ok.inj h)
      exact .body (ih hrest)
    | zero =>
      unfold normalizeLines at h
      simp only [startsHunk_rstripLine] at h
      split at h
      · next hfile =>
        obtain ⟨⟨rest', m⟩, hrest, h⟩ := bind_ok h
        obtain ⟨rfl, rfl⟩ := Prod.mk.inj (Except.ok.inj h)
        exact .file hfile (ih hrest)
      next hfile =>
      split at h
      · next hhunk =>
        obtain ⟨⟨rest', m⟩, hrest, h⟩ := bind_ok h
        obtain ⟨rfl, rfl⟩ := Prod.mk.inj (Except.ok.inj h)
        exact .other (eq_false_of_ne_true hfile) (by simpa using hhunk) (ih hrest)
      next hhunk =>
      split at h
      · exact nomatch h
      next hsaw =>
      obtain rfl : saw = true := by simpa using hsaw
      split at h
      · exact nomatch h
      next header hheader =>
      obtain ⟨⟨line', repaired⟩, hline, h⟩ := bind_ok h
      obtain ⟨⟨rest', m⟩, hrest, h⟩ := bind_ok h
      obtain ⟨rfl, rfl⟩ := Prod.mk.inj (Except.ok.inj h)
      have hstarts : startsHunk line = true := by simpa using hhunk
      rcases normalizeHeader_ok hline with ⟨hlines, ⟨hright, rfl, rfl⟩ | ⟨hwrong, hbody, rfl, rfl⟩⟩
      · exact .hunk hstarts ⟨header, hheader, hlines, hright⟩ (ih hrest)
      · exact .repaired hstarts hheader hlines hwrong hbody (ih hrest)

/-! ## What changes -/

/-- Nothing to strip: the last character is no carriage return and no newline. -/
theorem rstripLine_eq_self {text : List Char} :
    rstripLine text = text ↔ ∀ c ∈ text.getLast?, c ≠ '\r' ∧ c ≠ '\n' := by
  rw [← List.head?_reverse, rstripLine, ← List.reverse_inj, List.reverse_reverse]
  cases text.reverse with
  | nil => simp
  | cons c rest =>
    by_cases hc : c = '\r' ∨ c = '\n'
    · rw [List.dropWhile_cons_of_pos (by simpa using hc)]
      refine ⟨fun h => ?_, fun h => ?_⟩
      · have hlength := congrArg List.length h
        have hle := (List.dropWhile_sublist (fun c => decide (c = '\r') || decide (c = '\n')) (l := rest)).length_le
        rw [List.length_cons] at hlength
        omega
      · have := h c rfl
        tauto
    · rw [List.dropWhile_cons_of_neg (by simpa using hc)]
      refine ⟨fun _ d hd => ?_, fun _ => rfl⟩
      obtain rfl : c = d := Option.some.inj hd
      tauto

theorem rstripLine_rstripLine (line : Line) : rstripLine (rstripLine line) = rstripLine line := by
  unfold rstripLine
  rw [List.reverse_reverse, List.dropWhile_idempotent]

theorem headerNewline_mem {line : Line} {c : Char} (h : c ∈ headerNewline line) : c = '\r' ∨ c = '\n' := by
  unfold headerNewline at h
  split at h
  · simpa using h
  · split at h
    · exact .inr (by simpa using h)
    · exact absurd h List.not_mem_nil

theorem getLast?_text (header : HunkHeader) :
    header.text.getLast? = some (header.suffix.getLast?.getD '@') := by
  have hfront : header.front.getLast? = some '@' := by
    rw [HunkHeader.front, ← List.append_assoc, ← List.append_assoc, ← List.append_assoc, List.getLast?_append]
    rfl
  rw [HunkHeader.text, List.getLast?_append, hfront]
  cases header.suffix.getLast? <;> rfl

/-- The header that is written anew is read with its counts. -/
theorem matchHunkHeader_counted {line : Line} {header : HunkHeader}
    (h : matchHunkHeader (rstripLine line) = some header) (sizes : Nat × Nat) :
    matchHunkHeader (rstripLine ((header.counted sizes).text ++ headerNewline line)) =
      some (header.counted sizes) := by
  obtain ⟨hnumbered, htext⟩ := matchHunkHeader_some h
  have hlast : rstripLine (header.counted sizes).text = (header.counted sizes).text := by
    rw [rstripLine_eq_self, getLast?_text]
    show ∀ c ∈ some (header.suffix.getLast?.getD '@'), _
    rw [← getLast?_text, ← htext, ← rstripLine_eq_self, rstripLine_rstripLine]
  have hstrip : rstripLine ((header.counted sizes).text ++ headerNewline line) = (header.counted sizes).text := by
    rw [rstripLine, List.reverse_append, List.dropWhile_append_of_pos, ← rstripLine, hlast]
    intro c hc
    simpa using headerNewline_mem (List.mem_reverse.mp hc)
  rw [hstrip, matchHunkHeader_text (hnumbered.counted sizes)]

/-- A line that stays, or the header of a hunk with other counts. -/
def Edited (line line' : Line) : Prop :=
  line' = line ∨ startsHunk line = true ∧ ∃ header sizes, matchHunkHeader (rstripLine line) = some header ∧
    header.declared ≠ sizes ∧ line' = (header.counted sizes).text ++ headerNewline line

theorem Edited.header {line line' : Line} (h : Edited line line') (hne : line' ≠ line) :
    ∃ header header', matchHunkHeader (rstripLine line) = some header ∧
      matchHunkHeader (rstripLine line') = some header' := by
  rcases h with rfl | ⟨-, header, sizes, hheader, -, rfl⟩
  · exact absurd rfl hne
  · exact ⟨header, _, hheader, matchHunkHeader_counted hheader sizes⟩

theorem ne_of_declared {line : Line} {header : HunkHeader} {sizes : Nat × Nat}
    (h : matchHunkHeader (rstripLine line) = some header) (hwrong : header.declared ≠ sizes) :
    (header.counted sizes).text ++ headerNewline line ≠ line := by
  intro heq
  have hcounted := matchHunkHeader_counted h sizes
  rw [heq, h] at hcounted
  rw [Option.some.inj hcounted, declared_counted] at hwrong
  exact hwrong rfl

theorem Normalized.edited {skip : Nat} {lines lines' : List Line} {saw : Bool} {n : Nat}
    (h : Normalized skip lines saw lines' n) : List.Forall₂ Edited lines lines' := by
  induction h with
  | done => exact .nil
  | body _ ih | file _ _ ih | other _ _ _ ih | hunk _ _ _ ih => exact .cons (.inl rfl) ih
  | repaired hstarts hheader _ hwrong _ _ ih => exact .cons (.inr ⟨hstarts, _, _, hheader, hwrong, rfl⟩) ih

/-- The number of repairs is the number of lines that changed. -/
theorem Normalized.changed {skip : Nat} {lines lines' : List Line} {saw : Bool} {n : Nat}
    (h : Normalized skip lines saw lines' n) : (lines.zip lines').countP (fun p => p.2 ≠ p.1) = n := by
  induction h with
  | done => rfl
  | body _ ih | file _ _ ih | other _ _ _ ih | hunk _ _ _ ih =>
    rw [List.zip_cons_cons, List.countP_cons_of_neg (by simp), ih]
  | repaired _ hheader _ hwrong _ _ ih =>
    rw [List.zip_cons_cons, List.countP_cons_of_pos (by simpa using ne_of_declared hheader hwrong), ih]

/-! ## What stays -/

theorem Edited.startsHunk {line line' : Line} (h : Edited line line') :
    startsHunk line' = Sandbox.startsHunk line := by
  rcases h with rfl | ⟨hstarts, header, sizes, -, -, rfl⟩
  · rfl
  · rw [hstarts]
    rfl

/-- A line that changes starts neither a file nor its header. -/
theorem Edited.isPrefixOf {line line' : Line} (h : Edited line line') {c : Char} (hc : c ≠ '@') (mark : List Char) :
    (c :: mark).isPrefixOf line' = (c :: mark).isPrefixOf line := by
  rcases h with rfl | ⟨hstarts, header, sizes, -, -, rfl⟩
  · rfl
  · obtain ⟨tail, rfl⟩ := List.isPrefixOf_iff_prefix.mp hstarts
    have hne : (c == '@') = false := by simpa using hc
    show ((c == '@') && _) = ((c == '@') && _)
    rw [hne]
    rfl

theorem startsFileHeader_edited {lines lines' : List Line} (h : List.Forall₂ Edited lines lines') :
    startsFileHeader lines' = startsFileHeader lines := by
  cases h with
  | nil => rfl
  | cons hline hrest =>
    cases hrest with
    | nil => rfl
    | cons hnext _ =>
      exact congrArg₂ (· && ·) (hline.isPrefixOf (c := '-') (by decide) "-- ".toList)
        (hnext.isPrefixOf (c := '+') (by decide) "++ ".toList)

theorem startsDiff_edited {line line' : Line} (h : Edited line line') : startsDiff line' = startsDiff line :=
  h.isPrefixOf (by decide) _

theorem hunkBody_edited {lines lines' : List Line} (h : List.Forall₂ Edited lines lines') :
    hunkBody lines' = hunkBody lines := by
  induction h with
  | nil => rfl
  | @cons line line' rest rest' hline hrest ih =>
    have hstart : "@@ ".toList.isPrefixOf line' = "@@ ".toList.isPrefixOf line := hline.startsHunk
    unfold hunkBody
    rw [startsDiff_edited hline, startsFileHeader_edited (.cons hline hrest), hstart, ih]
    split
    · rfl
    · next hcut =>
      rcases hline with rfl | ⟨hstarts, -⟩
      · rfl
      · exact absurd (show "@@ ".toList.isPrefixOf line = true from hstarts) (by simp_all)

theorem hunkBody_prefixed (lines : List Line) : hunkBody lines <+: lines := by
  induction lines with
  | nil => exact List.prefix_refl []
  | cons line rest ih =>
    unfold hunkBody
    split
    · exact List.nil_prefix
    · exact List.prefix_cons_inj line |>.mpr ih

theorem not_startsHunk_of_mem_hunkBody {lines : List Line} : ∀ line ∈ hunkBody lines, startsHunk line = false := by
  induction lines with
  | nil => nofun
  | cons line rest ih =>
    unfold hunkBody
    split
    · nofun
    · next hcut =>
      intro l hl
      rcases List.mem_cons.mp hl with rfl | hl
      · by_contra hstarts
        have hstarts : "@@ ".toList.isPrefixOf l = true := eq_true_of_ne_false hstarts
        exact hcut (by rw [hstarts]; simp)
      · exact ih l hl

theorem not_startsHunk_take (rest : List Line) :
    ∀ line ∈ rest.take (hunkBody rest).length, startsHunk line = false := by
  rw [← List.prefix_iff_eq_take.mp (hunkBody_prefixed rest)]
  exact not_startsHunk_of_mem_hunkBody

/-- The headers of the result carry the counts of their bodies. -/
theorem Normalized.counted {skip : Nat} {lines lines' : List Line} {saw : Bool} {n : Nat}
    (h : Normalized skip lines saw lines' n) (hskip : ∀ line ∈ lines.take skip, Sandbox.startsHunk line = false) :
    Counted lines' := by
  induction h with
  | done => trivial
  | body _ ih =>
    refine ⟨fun hstarts => ?_, ih fun l hl => hskip l (List.mem_cons_of_mem _ hl)⟩
    rw [hskip _ List.mem_cons_self] at hstarts
    exact absurd hstarts Bool.false_ne_true
  | @file line rest _ _ _ hfile _ ih =>
    refine ⟨fun hstarts => ?_, ih nofun⟩
    rw [not_file_of_startsHunk hstarts rest] at hfile
    exact absurd hfile Bool.false_ne_true
  | other _ hhunk _ ih =>
    refine ⟨fun hstarts => ?_, ih nofun⟩
    rw [hhunk] at hstarts
    exact absurd hstarts Bool.false_ne_true
  | hunk _ hcounts hrest ih =>
    refine ⟨fun _ => ?_, ih (not_startsHunk_take _)⟩
    rw [hunkBody_edited hrest.edited]
    exact hcounts
  | @repaired line rest _ _ header _ hheader hlines _ _ hrest ih =>
    refine ⟨fun _ => ?_, ih (not_startsHunk_take _)⟩
    rw [hunkBody_edited hrest.edited]
    exact ⟨header.counted (sizes (hunkBody rest)), matchHunkHeader_counted hheader _, hlines,
      declared_counted header _⟩

/-- A second pass repairs nothing. -/
theorem Normalized.again {skip : Nat} {lines lines' : List Line} {saw : Bool} {n : Nat}
    (h : Normalized skip lines saw lines' n) : normalizeLines skip lines' saw = .ok (lines', 0) := by
  have hunk {line : Line} {rest rest' : List Line} {m : Nat} (hstarts : Sandbox.startsHunk line = true)
      (hrest : Normalized (hunkBody rest).length rest true rest' m) (hcounts : Counts line (hunkBody rest))
      (ih : normalizeLines (hunkBody rest).length rest' true = .ok (rest', 0)) :
      normalizeLines 0 (line :: rest') true = .ok (line :: rest', 0) := by
    obtain ⟨header, hheader, hlines, hright⟩ := hcounts
    have hbody := hunkBody_edited hrest.edited
    unfold normalizeLines
    simp only [startsHunk_rstripLine, not_file_of_startsHunk hstarts, hstarts, hheader, hbody,
      normalizeHeader_of_counts hlines hright, Bool.not_true, Bool.false_eq_true, if_false]
    show (normalizeLines _ rest' true >>= _) = _
    rw [ih]
    rfl
  induction h with
  | @done skip => cases skip <;> rfl
  | body _ ih =>
    unfold normalizeLines
    rw [ih]
    rfl
  | @file line _ _ _ _ hfile hrest ih =>
    have hfile' : (startsDiff line || startsFileHeader (line :: _)) = true :=
      (congrArg (startsDiff line || ·) (startsFileHeader_edited (.cons (.inl rfl) hrest.edited))).trans hfile
    unfold normalizeLines
    rw [if_pos hfile', ih]
    rfl
  | @other line _ _ _ _ hfile hhunk hrest ih =>
    have hfile' : (startsDiff line || startsFileHeader (line :: _)) = false :=
      (congrArg (startsDiff line || ·) (startsFileHeader_edited (.cons (.inl rfl) hrest.edited))).trans hfile
    unfold normalizeLines
    simp only [startsHunk_rstripLine, hfile', hhunk, Bool.not_false, Bool.false_eq_true, if_false, if_true, ih]
    rfl
  | hunk hstarts hcounts hrest ih => exact hunk hstarts hrest hcounts ih
  | repaired hstarts hheader hlines _ _ hrest ih =>
    exact hunk rfl hrest ⟨_, matchHunkHeader_counted hheader _, hlines, declared_counted _ _⟩ ih

/-- The newline of a header is kept, and there is no other in it. -/
theorem count_headerNewline {line body tail : List Char} (hbody : Unbroken body) (hline : line = body ++ tail)
    (htail : tail = [] ∨ (∃ c, isLineBreak c = true ∧ tail = [c]) ∨ tail = ['\r', '\n']) :
    '\n' ∉ rstripLine line ∧ (headerNewline line).count '\n' = line.count '\n' := by
  have hnone : '\n' ∉ body := fun h => absurd (hbody _ h) (by decide)
  by_cases hmem : '\n' ∈ line
  · have hends : tail = ['\n'] ∨ tail = ['\r', '\n'] := by
      have htailmem : '\n' ∈ tail := (List.mem_append.mp (hline ▸ hmem)).resolve_left hnone
      rcases htail with rfl | ⟨c, -, rfl⟩ | rfl
      · exact absurd htailmem List.not_mem_nil
      · exact .inl (by rw [List.mem_singleton.mp htailmem])
      · exact .inr rfl
    have hbreak : ∀ c ∈ tail, c = '\r' ∨ c = '\n' := by
      rcases hends with rfl | rfl <;> simp
    have hsuffix : "\n".toList.isSuffixOf line = true := List.isSuffixOf_iff_suffix.mpr (by
      rw [hline]
      rcases hends with rfl | rfl
      · exact ⟨body, rfl⟩
      · exact ⟨body ++ ['\r'], List.append_assoc _ _ _⟩)
    have hcount : (headerNewline line).count '\n' = 1 := by
      unfold headerNewline
      rw [if_pos hsuffix]
      split <;> decide
    rw [hcount, hline, rstripLine_of_unbroken hbody hbreak, List.count_append, List.count_eq_zero.mpr hnone]
    refine ⟨hnone, ?_⟩
    rcases hends with rfl | rfl <;> rfl
  · refine ⟨fun h => hmem ?_, ?_⟩
    · obtain ⟨rest, heq, -⟩ := rstripLine_append line
      rw [heq]
      exact List.mem_append_left _ h
    · rw [headerNewline_eq_nil fun hsuffix => hmem (hsuffix.subset (by decide)), List.count_eq_zero.mpr hmem]
      rfl

/-- The result has the newlines of the diff. -/
theorem count_edited {lines lines' : List Line} (h : List.Forall₂ Edited lines lines')
    (hshape : ∀ line ∈ lines, ∃ body tail, Unbroken body ∧ line = body ++ tail ∧ line ≠ [] ∧
      (tail = [] ∨ (∃ c, isLineBreak c = true ∧ tail = [c]) ∨ tail = ['\r', '\n'])) :
    lines'.flatten.count '\n' = lines.flatten.count '\n' := by
  induction h with
  | nil => rfl
  | @cons line line' rest rest' hline _ ih =>
    have hrest := ih fun l hl => hshape l (List.mem_cons_of_mem line hl)
    have hsame : line'.count '\n' = line.count '\n' := by
      rcases hline with rfl | ⟨-, header, sizes, hheader, -, rfl⟩
      · rfl
      · obtain ⟨body, tail, hbody, hparts, -, htail⟩ := hshape line List.mem_cons_self
        obtain ⟨hnone, hcount⟩ := count_headerNewline hbody hparts htail
        obtain ⟨hnumbered, htext⟩ := matchHunkHeader_some hheader
        have htext' : '\n' ∉ (header.counted sizes).text := fun hmem => by
          rcases List.mem_append.mp hmem with hmem | hmem
          · exact absurd ((hnumbered.counted sizes).unbroken _ hmem) (by decide)
          · exact hnone (htext ▸ List.mem_append_right _ hmem)
        rw [List.count_append, List.count_eq_zero.mpr htext', Nat.zero_add, hcount]
    rw [List.flatten_cons, List.flatten_cons, List.count_append, List.count_append, hsame, hrest]

/-- Two headers with what follows them differ before their end. -/
theorem front_not_prefix {header : HunkHeader} (hnumbered : header.Numbered) {sizes : Nat × Nat}
    (hwrong : header.declared ≠ sizes) (more : List Char) :
    ¬ header.front <+: (header.counted sizes).front ++ more := by
  rintro ⟨rest, heq⟩
  have hleft := @matchHunkHeader_text { header with suffix := rest }
    ⟨hnumbered.1, hnumbered.2, hnumbered.3, hnumbered.4⟩
  have hright := @matchHunkHeader_text { header.counted sizes with suffix := more }
    ⟨hnumbered.1, (hnumbered.counted sizes).2, hnumbered.3, (hnumbered.counted sizes).4⟩
  have htext : { header with suffix := rest : HunkHeader }.text =
      { header.counted sizes with suffix := more : HunkHeader }.text := heq
  rw [htext, hright] at hleft
  have hdeclared := congrArg HunkHeader.declared (Option.some.inj hleft)
  exact hwrong (hdeclared.symm.trans (declared_counted header sizes))

/-- Where the result begins as the diff without its last character does, nothing was repaired. -/
theorem Normalized.unrepaired {skip : Nat} {lines lines' : List Line} {saw : Bool} {n : Nat}
    (h : Normalized skip lines saw lines' n) (hne : ∀ line ∈ lines, line ≠ []) {text : List Char} {last : Char}
    (hflat : lines.flatten = text ++ [last]) (hpre : text <+: lines'.flatten) : n = 0 := by
  have hcut {line : Line} {rest : List Line} (hrest : rest ≠ []) (hne : ∀ l ∈ rest, l ≠ []) {text : List Char}
      (hflat : (line :: rest).flatten = text ++ [last]) :
      ∃ more, text = line ++ more ∧ rest.flatten = more ++ [last] := by
    rw [List.flatten_cons] at hflat
    rcases List.append_eq_append_iff.mp hflat with ⟨more, htext, hmore⟩ | ⟨more, hline, hlast⟩
    · exact ⟨more, htext, hmore⟩
    · cases more with
      | nil => exact ⟨[], by rw [hline, List.append_nil, List.append_nil], hlast.symm⟩
      | cons c more =>
        obtain ⟨-, hnil⟩ := List.cons.inj hlast
        obtain ⟨-, hflatten⟩ := List.append_eq_nil_iff.mp hnil.symm
        cases rest with
        | nil => exact absurd rfl hrest
        | cons l rest =>
          rw [List.flatten_cons] at hflatten
          exact absurd (List.append_eq_nil_iff.mp hflatten).1 (hne l List.mem_cons_self)
  have hkeep {line : Line} {rest rest' : List Line} {skip : Nat} {saw : Bool} {n : Nat}
      (hrest : Normalized skip rest saw rest' n) (hne : ∀ l ∈ line :: rest, l ≠ [])
      (ih : (∀ l ∈ rest, l ≠ []) →
        ∀ {text : List Char}, rest.flatten = text ++ [last] → text <+: rest'.flatten → n = 0)
      {text : List Char} (hflat : (line :: rest).flatten = text ++ [last])
      (hpre : text <+: (line :: rest').flatten) : n = 0 := by
    by_cases hnil : rest = []
    · subst hnil
      cases hrest
      rfl
    · have hne' := fun l hl => hne l (List.mem_cons_of_mem line hl)
      obtain ⟨more, rfl, hmore⟩ := hcut hnil hne' hflat
      exact ih hne' hmore ((List.prefix_append_right_inj line).mp hpre)
  induction h generalizing text with
  | done => rfl
  | body hrest ih | file _ hrest ih | other _ _ hrest ih | hunk _ _ hrest ih => exact hkeep hrest hne ih hflat hpre
  | @repaired line rest rest' n header hstarts hheader _ hwrong hbody hrest ih =>
    exfalso
    have hnil : rest ≠ [] := by
      rintro rfl
      exact hbody rfl
    obtain ⟨more, rfl, -⟩ := hcut hnil (fun l hl => hne l (List.mem_cons_of_mem line hl)) hflat
    obtain ⟨hnumbered, htext⟩ := matchHunkHeader_some hheader
    obtain ⟨tail, hline, -⟩ := rstripLine_append line
    have hfront : header.front <+: line := ⟨header.suffix ++ tail, by
      conv_rhs => rw [hline, htext, HunkHeader.text]
      exact (List.append_assoc _ _ _).symm⟩
    have hwhole := hfront.trans ((List.prefix_append line more).trans hpre)
    rw [List.flatten_cons, HunkHeader.text, List.append_assoc, List.append_assoc] at hwhole
    exact front_not_prefix hnumbered hwrong _ hwhole

/-- Lines that are counted are left as they are. -/
theorem normalizeLines_of_counted {skip : Nat} {lines : List Line} (h : Counted lines) :
    normalizeLines skip lines true = .ok (lines, 0) := by
  induction lines generalizing skip with
  | nil => cases skip <;> rfl
  | cons line rest ih =>
    obtain ⟨hline, hrest⟩ := h
    cases skip with
    | succ skip =>
      unfold normalizeLines
      rw [ih hrest]
      rfl
    | zero =>
      unfold normalizeLines
      simp only [startsHunk_rstripLine]
      by_cases hstarts : startsHunk line = true
      · obtain ⟨header, hheader, hlines, hright⟩ := hline hstarts
        simp only [not_file_of_startsHunk hstarts, hstarts, hheader, normalizeHeader_of_counts hlines hright,
          Bool.not_true, Bool.false_eq_true, if_false]
        show (normalizeLines _ rest true >>= _) = _
        rw [ih hrest]
        rfl
      · simp only [eq_false_of_ne_true hstarts, Bool.not_false, if_true]
        split
        · rw [ih hrest]
          rfl
        · rw [ih hrest]
          rfl

/-- Where nothing is repaired, nothing changes. -/
theorem Normalized.unchanged {skip : Nat} {lines lines' : List Line} {saw : Bool} {n : Nat}
    (h : Normalized skip lines saw lines' n) (hn : n = 0) : lines' = lines := by
  induction h with
  | done => rfl
  | body _ ih | file _ _ ih | other _ _ _ ih | hunk _ _ _ ih => rw [ih hn]
  | repaired => exact absurd hn (Nat.succ_ne_zero _)

/-- A diff whose first line starts a file is left as it is exactly when its lines are counted. -/
theorem normalize_eq_iff {diff : String} (h : (splitLines diff.toList).head?.all startsDiff = true) :
    normalizeUnifiedDiffHunks diff = .ok { content := diff, repairedHunks := 0 } ↔
      Counted (splitLines diff.toList) := by
  have hsaw : normalizeLines 0 (splitLines diff.toList) false = normalizeLines 0 (splitLines diff.toList) true := by
    cases hlines : splitLines diff.toList with
    | nil => rfl
    | cons line rest =>
      rw [hlines] at h
      have hfile : (startsDiff line || startsFileHeader (line :: rest)) = true := by
        rw [show startsDiff line = true from h, Bool.true_or]
      unfold normalizeLines
      rw [if_pos hfile, if_pos hfile]
  refine ⟨fun hok => ?_, fun hcounted => ?_⟩
  · obtain ⟨⟨lines, n⟩, hlines, hok⟩ := bind_ok hok
    obtain ⟨-, rfl⟩ := NormalizedPatch.mk.inj (Except.ok.inj hok)
    rw [hsaw] at hlines
    have hnormalized := normalizeLines_ok hlines
    rw [← hnormalized.unchanged rfl]
    exact hnormalized.counted nofun
  · unfold normalizeUnifiedDiffHunks
    rw [hsaw, normalizeLines_of_counted hcounted]
    show Except.ok (NormalizedPatch.mk (String.ofList (splitLines diff.toList).flatten) 0) = _
    rw [splitLines_flatten, String.ofList_toList]

/-- The newlines of an accepted diff stay. -/
theorem normalize_newlines {diff : String} {patch : NormalizedPatch}
    (h : normalizeUnifiedDiffHunks diff = .ok patch) :
    patch.content.toList.count '\n' = diff.toList.count '\n' := by
  obtain ⟨⟨lines, n⟩, hlines, h⟩ := bind_ok h
  obtain rfl := Except.ok.inj h
  have hcount := count_edited (normalizeLines_ok hlines).edited splitLines_shape
  rw [splitLines_flatten] at hcount
  rw [String.toList_ofList]
  exact hcount

/-- A result that begins as the diff without its last character does is the diff. -/
theorem normalize_prefix {diff : String} {patch : NormalizedPatch} (h : normalizeUnifiedDiffHunks diff = .ok patch)
    {text : List Char} {last : Char} (hdiff : diff.toList = text ++ [last])
    (hpre : text <+: patch.content.toList) :
    patch = { content := diff, repairedHunks := 0 } := by
  obtain ⟨⟨lines, n⟩, hlines, h⟩ := bind_ok h
  obtain rfl := Except.ok.inj h
  have hnormalized := normalizeLines_ok hlines
  have hne : ∀ line ∈ splitLines diff.toList, line ≠ [] := fun line hline => by
    obtain ⟨_, _, _, _, hne, _⟩ := splitLines_shape line hline
    exact hne
  have hzero : n = 0 := by
    rw [String.toList_ofList] at hpre
    exact hnormalized.unrepaired hne ((splitLines_flatten _).trans hdiff) hpre
  show NormalizedPatch.mk (String.ofList lines.flatten) n = _
  rw [hnormalized.unchanged hzero, splitLines_flatten, String.ofList_toList, hzero]

/-! ## Texts -/

theorem Terminated.of_append {front tail : List Char} (hfront : Unbroken front) (h : Terminated (front ++ tail)) :
    Terminated tail := by
  obtain ⟨text, terminator, htext, hterminator, heq⟩ := h
  rcases List.append_eq_append_iff.mp heq with ⟨more, rfl, htail⟩ | ⟨more, rfl, hmore⟩
  · exact ⟨more, terminator, fun c hc => htext c (List.mem_append_right _ hc), hterminator, htail⟩
  · cases more with
    | nil => exact ⟨[], terminator, nofun, hterminator, hmore.symm⟩
    | cons c more =>
      have hbreak : isLineBreak c = true := by
        cases hterminator with
        | crlf =>
          obtain ⟨rfl, -⟩ := List.cons.inj hmore
          decide
        | single hbreak =>
          obtain ⟨rfl, -⟩ := List.cons.inj hmore
          exact hbreak
      rw [hfront c (by simp)] at hbreak
      exact absurd hbreak Bool.false_ne_true

theorem Terminated.append {front tail : List Char} (hfront : Unbroken front) (h : Terminated tail) :
    Terminated (front ++ tail) := by
  obtain ⟨text, terminator, htext, hterminator, rfl⟩ := h
  refine ⟨front ++ text, terminator, fun c hc => ?_, hterminator, (List.append_assoc _ _ _).symm⟩
  exact (List.mem_append.mp hc).elim (hfront c) (htext c)

/-- Lines stay lines: a header written anew ends as the one before it did. -/
theorem areLines_edited {lines lines' : List Line} (h : List.Forall₂ Edited lines lines') (hlines : AreLines lines) :
    AreLines lines' := by
  induction h with
  | nil => trivial
  | @cons line line' rest rest' hline hrest ih =>
    rcases hline with rfl | ⟨-, header, sizes, hheader, -, rfl⟩
    · rcases hlines with ⟨hterminated, hlines⟩ | ⟨rfl, hne, hunbroken⟩
      · exact .inl ⟨hterminated, ih hlines⟩
      · cases hrest
        exact .inr ⟨rfl, hne, hunbroken⟩
    · obtain ⟨hnumbered, htext⟩ := matchHunkHeader_some hheader
      have hfront := (hnumbered.counted sizes).unbroken
      have hline : line = header.front ++ (header.suffix ++ headerNewline line) := by
        have hwhole : line = rstripLine line ++ headerNewline line :=
          rstripLine_headerNewline (hlines.imp (·.1) (·.2.2))
        rw [htext, HunkHeader.text, List.append_assoc] at hwhole
        exact hwhole
      have hline' : (header.counted sizes).text ++ headerNewline line =
          (header.counted sizes).front ++ (header.suffix ++ headerNewline line) := List.append_assoc _ _ _
      rw [hline']
      rcases hlines with ⟨hterminated, hlines⟩ | ⟨rfl, hne, hunbroken⟩
      · rw [hline] at hterminated
        exact .inl ⟨.append hfront (.of_append hnumbered.unbroken hterminated), ih hlines⟩
      · cases hrest
        refine .inr ⟨rfl, List.append_ne_nil_of_left_ne_nil (List.cons_ne_nil _ _) _, fun c hc => ?_⟩
        rw [hline] at hunbroken
        exact (List.mem_append.mp hc).elim (hfront c) fun hc => hunbroken c (List.mem_append_right _ hc)

/-- What is accepted differs from the diff in hunk headers only, and the headers carry the counts of
their bodies; a second pass changes nothing. -/
theorem normalize_repairs {diff : String} {patch : NormalizedPatch} (hcrlf : CrlfOnly diff.toList)
    (h : normalizeUnifiedDiffHunks diff = .ok patch) :
    List.Forall₂ (fun line line' => line' ≠ line → ∃ header header',
        matchHunkHeader (rstripLine line) = some header ∧ matchHunkHeader (rstripLine line') = some header')
      (splitLines diff.toList) (splitLines patch.content.toList) ∧
    Counted (splitLines patch.content.toList) ∧
    patch.repairedHunks =
      ((splitLines diff.toList).zip (splitLines patch.content.toList)).countP (fun p => p.2 ≠ p.1) ∧
    normalizeUnifiedDiffHunks patch.content = .ok { content := patch.content, repairedHunks := 0 } := by
  obtain ⟨⟨lines, n⟩, hlines, h⟩ := bind_ok h
  obtain rfl := Except.ok.inj h
  have hnormalized := normalizeLines_ok hlines
  have hsplit : splitLines (String.ofList lines.flatten).toList = lines := by
    rw [String.toList_ofList]
    exact splitLines_of_lines (areLines_edited hnormalized.edited (splitLines_lines hcrlf))
  refine ⟨?_, ?_, ?_, ?_⟩
  · rw [hsplit]
    exact hnormalized.edited.imp fun _ _ hline hne => hline.header hne
  · rw [hsplit]
    exact hnormalized.counted nofun
  · rw [hsplit]
    exact hnormalized.changed.symm
  · unfold normalizeUnifiedDiffHunks
    rw [hsplit, hnormalized.again]
    rfl

theorem crlfOnly_of_not_mem {text : List Char} (h : '\r' ∉ text) : CrlfOnly text := by
  rintro before after rfl
  exact absurd (List.mem_append_right before List.mem_cons_self) h

/-- A diff with a stale count, a count left out and no newline at the end of the file. -/
def staleDiff : String :=
  "--- a/app.py\n+++ b/app.py\n@@ -1,9 +1 @@ def main():\n-old\n+new\n same\n\\ No newline at end of file\n"

def freshDiff : String :=
  "--- a/app.py\n+++ b/app.py\n@@ -1,2 +1,2 @@ def main():\n-old\n+new\n same\n\\ No newline at end of file\n"

theorem normalize_repairs_sample :
    Counted (splitLines freshDiff.toList) ∧
      normalizeUnifiedDiffHunks freshDiff = .ok { content := freshDiff, repairedHunks := 0 } := by
  have hnormalized : normalizeUnifiedDiffHunks staleDiff = .ok { content := freshDiff, repairedHunks := 1 } := by
    decide +kernel
  obtain ⟨-, hcounted, -, hagain⟩ := normalize_repairs (crlfOnly_of_not_mem (by decide +kernel)) hnormalized
  exact ⟨hcounted, hagain⟩

end CodeMate.Sandbox
