import CodeMate.Indexing.Fallback
import CodeMate.Sandbox.Lines

/-!
# Two numberings of lines

A parser ends a line at a newline, `splitlines` also at other line breaks.
`slice_iff` says when a range of lines is the same text in both.
-/

namespace CodeMate.Indexing

open Framework
open Sandbox
  (isLineBreak splitLines splitlines splitLines_newline splitLines_append splitLines_flatten Unbroken prepend)

/-- The lines of a text as a parser counts them. -/
def newlineLines (content : List Char) : List (List Char) := content.splitOn '\n'

/-- How many lines a text has: what follows its last newline is one if it is not empty. -/
def lineCount (content : List Char) : ℕ := content.count '\n' + if content.getLast?.all (· = '\n') then 0 else 1

/-- The text of the lines before a line, as a parser counts them. -/
def front (content : List Char) (startLine : ℕ) : List Char :=
  ((newlineLines content).take (startLine - 1)).flatMap (· ++ ['\n'])

/-- How many line breaks that are no newlines stand before a line. -/
def shift (content : List Char) (startLine : ℕ) : ℕ := (splitlines (front content startLine)).length - (startLine - 1)

/-- The lines of a range hold no line break, and no other than newlines stands before them: a range is moved by the
`shift` of those, and shows the same text only where the file repeats itself at that distance. -/
structure Aligned (content : List Char) (startLine endLine : ℕ) : Prop where
  unbroken : ∀ line ∈ ((newlineLines content).take endLine).drop (startLine - 1), Unbroken line
  unmoved : shift content startLine = 0 ∨ lineSlice (splitlines content) startLine endLine =
    lineSlice (splitlines content) (startLine + shift content startLine) (endLine + shift content startLine)

/-! ## All lines -/

theorem splitlines_newline (text rest : List Char) :
    splitlines (text ++ '\n' :: rest) = splitlines (text ++ ['\n']) ++ splitlines rest := by
  rw [splitlines, splitLines_newline, List.map_append]
  rfl

theorem splitlines_unbroken {line : List Char} (h : Unbroken line) : splitlines (line ++ ['\n']) = [line] := by
  have hlines : splitLines (line ++ ['\n']) = [line ++ ['\n']] := by
    rw [splitLines_append h]
    rfl
  rw [splitlines, hlines, List.map_singleton, List.takeWhile_append_of_pos fun c hc => by rw [h c hc]; rfl]
  exact congrArg (fun last => [line ++ last]) (List.takeWhile_cons_of_neg (by decide)) |>.trans
    (by rw [List.append_nil])

/-- A property of texts by their lines: of one line, and of a line with others after it. -/
theorem newlineLines_induction {P : List Char → List (List Char) → Prop}
    (one : ∀ line, '\n' ∉ line → P line [line])
    (more : ∀ line rest, '\n' ∉ line → P rest (newlineLines rest) →
      P (line ++ '\n' :: rest) (line :: newlineLines rest))
    (content : List Char) : P content (newlineLines content) := by
  generalize hlines : newlineLines content = lines
  induction lines generalizing content with
  | nil => exact absurd hlines (List.splitOn_ne_nil _ _)
  | cons line lines ih =>
    cases lines with
    | nil =>
      obtain ⟨hline, rfl⟩ := Text.of_splitOn_singleton hlines
      exact one _ hline
    | cons next lines =>
      obtain ⟨hline, rest, rfl, hrest⟩ := Text.of_splitOn_cons hlines
      have hmore := more line rest hline
      rw [show newlineLines rest = _ from hrest] at hmore
      exact hmore (ih rest hrest)

theorem lineCount_newline (line rest : List Char) :
    lineCount (line ++ '\n' :: rest) = line.count '\n' + lineCount rest + 1 := by
  have hlast : (line ++ '\n' :: rest).getLast?.all (· = '\n') = rest.getLast?.all (· = '\n') := by
    rw [List.getLast?_append, List.getLast?_cons]
    cases rest.getLast? <;> rfl
  rw [lineCount, lineCount, hlast, List.count_append, List.count_cons_self]
  omega

theorem lineCount_line {line : List Char} (h : '\n' ∉ line) : lineCount line = if line = [] then 0 else 1 := by
  rw [lineCount, List.count_eq_zero.mpr h, Nat.zero_add]
  cases hlast : line.getLast? with
  | none => rw [List.getLast?_eq_none_iff.mp hlast]; rfl
  | some c =>
    have hmem := List.mem_of_getLast? hlast
    have hnewline : c ≠ '\n' := by
      rintro rfl
      exact h hmem
    rw [if_neg (List.ne_nil_of_mem hmem), if_neg (by simpa using hnewline)]

/-- A text that goes on after a part has more lines than the part has newlines. -/
theorem count_lt_lineCount {closing : List Char} (h : closing ≠ []) (before : List Char) :
    before.count '\n' < lineCount (before ++ closing) := by
  rw [lineCount, List.getLast?_append, List.getLast?_eq_some_getLast h, Option.some_or, List.count_append]
  split
  · next hlast =>
    have hmem : '\n' ∈ closing := by
      have hnewline : closing.getLast h = '\n' := by simpa using hlast
      exact hnewline ▸ List.getLast_mem h
    have := List.count_pos_iff.mpr hmem
    omega
  · omega

/-- The text has the lines before the last newline, and what follows that if it is not empty. -/
theorem newlineLines_parts (content : List Char) : ∃ init last, newlineLines content = init ++ [last] ∧
    lineCount content = init.length + (if last = [] then 0 else 1) ∧
    splitlines content = init.flatMap (fun line => splitlines (line ++ ['\n'])) ++ splitlines last := by
  refine newlineLines_induction (P := fun content lines => ∃ init last, lines = init ++ [last] ∧
    lineCount content = init.length + (if last = [] then 0 else 1) ∧
    splitlines content = init.flatMap (fun line => splitlines (line ++ ['\n'])) ++ splitlines last)
    (fun line h => ⟨[], line, rfl, ?_, rfl⟩) (fun line rest h ih => ?_) content
  · rw [lineCount_line h, List.length_nil, Nat.zero_add]
  · obtain ⟨init, last, hlines, hcount, hsplit⟩ := ih
    refine ⟨line :: init, last, by rw [hlines]; rfl, ?_, ?_⟩
    · rw [lineCount_newline, hcount, List.count_eq_zero.mpr h, List.length_cons]
      omega
    · rw [splitlines_newline, hsplit, List.flatMap_cons, List.append_assoc]

theorem newline_not_mem_newlineLines {content : List Char} : ∀ line ∈ newlineLines content, '\n' ∉ line := by
  refine newlineLines_induction (P := fun _ lines => ∀ line ∈ lines, '\n' ∉ line) (fun line h => ?_)
    (fun line rest h ih => ?_) content
  · exact List.forall_mem_singleton.mpr h
  · exact List.forall_mem_cons.mpr ⟨h, ih⟩

theorem splitlines_front (content : List Char) (startLine : ℕ) :
    splitlines (front content startLine) =
      ((newlineLines content).take (startLine - 1)).flatMap fun line => splitlines (line ++ ['\n']) := by
  rw [front]
  generalize (newlineLines content).take (startLine - 1) = lines
  induction lines with
  | nil => rfl
  | cons line lines ih =>
    rw [List.flatMap_cons, List.flatMap_cons, List.append_assoc, List.singleton_append, splitlines_newline, ih]

theorem mem_splitlines {text line : List Char} (h : line ∈ splitlines text) : Unbroken line := by
  obtain ⟨whole, -, rfl⟩ := List.mem_map.mp h
  intro c hc
  have hkept := List.mem_takeWhile_imp hc
  simpa using hkept

theorem mem_intercalate {lines : List (List Char)} {line : List Char} {c : Char} (h : line ∈ lines) (hc : c ∈ line) :
    c ∈ List.intercalate ['\n'] lines := by
  induction lines with
  | nil => cases h
  | cons first lines ih =>
    cases lines with
    | nil =>
      rw [List.mem_singleton.mp h] at hc
      simpa using hc
    | cons next lines =>
      rw [List.intercalate_cons_cons, List.append_assoc]
      rcases List.mem_cons.mp h with rfl | h
      · exact List.mem_append_left _ hc
      · exact List.mem_append_right _ (List.mem_append_right _ (ih h))

theorem mem_of_mem_intercalate {lines : List (List Char)} {c : Char} (h : c ∈ List.intercalate ['\n'] lines) :
    c = '\n' ∨ ∃ line ∈ lines, c ∈ line := by
  induction lines with
  | nil => cases h
  | cons first lines ih =>
    cases lines with
    | nil => exact .inr ⟨first, List.mem_singleton_self _, by simpa using h⟩
    | cons next lines =>
      rw [List.intercalate_cons_cons, List.append_assoc] at h
      rcases List.mem_append.mp h with h | h
      · exact .inr ⟨first, List.mem_cons_self, h⟩
      · rcases List.mem_append.mp h with h | h
        · exact .inl (List.mem_singleton.mp h)
        · exact (ih h).imp_right fun ⟨line, hline, hc⟩ => ⟨line, List.mem_cons_of_mem _ hline, hc⟩

/-! ## Ranges -/

variable {content : List Char} {startLine endLine : ℕ}

theorem splitlines_terminated_ne_nil (line : List Char) : splitlines (line ++ ['\n']) ≠ [] := by
  intro h
  have := Sandbox.splitLines_eq_nil (List.map_eq_nil_iff.mp h)
  simp at this

theorem length_le_flatMap (lines : List (List Char)) :
    lines.length ≤ (lines.flatMap fun line => splitlines (line ++ ['\n'])).length := by
  induction lines with
  | nil => exact Nat.le_refl 0
  | cons line lines ih =>
    have := List.length_pos_iff.mpr (splitlines_terminated_ne_nil line)
    rw [List.flatMap_cons, List.length_append, List.length_cons]
    omega

theorem splitlines_line {line : List Char} (h : Unbroken line) (hne : line ≠ []) : splitlines line = [line] := by
  have hlines : splitLines line = [line] := by
    have happend := splitLines_append h []
    rw [List.append_nil] at happend
    rw [happend]
    exact if_neg hne
  rw [splitlines, hlines, List.map_singleton, List.takeWhile_eq_self_iff.mpr fun c hc => by rw [h c hc]; rfl]

/-- In the other numbering the lines up to the end of a range come first, if its last line has no line break. -/
theorem splitlines_prefix (hend : endLine ≤ lineCount content)
    (h : ∀ line ∈ (newlineLines content).take endLine, endLine = (newlineLines content).length →
      (newlineLines content).getLast? = some line → Unbroken line) :
    ∃ rest, splitlines content =
      ((newlineLines content).take endLine).flatMap (fun line => splitlines (line ++ ['\n'])) ++ rest := by
  obtain ⟨init, last, hlines, hcount, hsplit⟩ := newlineLines_parts content
  rw [hsplit, hlines]
  rcases Nat.lt_or_ge init.length endLine with hlt | hle
  · have hne : last ≠ [] := by
      rintro rfl
      rw [hcount, if_pos rfl] at hend
      omega
    have heq : endLine = (init ++ [last]).length := by
      rw [hcount, if_neg hne] at hend
      rw [List.length_append, List.length_singleton]
      omega
    have hunbroken : Unbroken last := by
      refine h last ?_ (heq.trans (by rw [hlines])) (by rw [hlines, List.getLast?_concat])
      rw [hlines, heq, List.take_length]
      exact List.mem_append_right _ (List.mem_singleton_self _)
    refine ⟨[], ?_⟩
    rw [heq, List.take_length, List.append_nil, List.flatMap_append, List.flatMap_singleton,
      splitlines_line hunbroken hne, splitlines_unbroken hunbroken]
  · refine ⟨(init.drop endLine).flatMap (fun line => splitlines (line ++ ['\n'])) ++ splitlines last, ?_⟩
    rw [List.take_append_of_le_length hle, ← List.append_assoc, ← List.flatMap_append, List.take_append_drop]

/-- The lines of a range without line breaks, where they stand in the other numbering. -/
theorem slice_shifted (hstart : 1 ≤ startLine) (hle : startLine ≤ endLine) (hend : endLine ≤ lineCount content)
    (h : ∀ line ∈ ((newlineLines content).take endLine).drop (startLine - 1), Unbroken line) :
    lineSlice (splitlines content) (startLine + shift content startLine) (endLine + shift content startLine) =
      lineSlice (newlineLines content) startLine endLine := by
  have hlast : endLine ≤ (newlineLines content).length := by
    obtain ⟨init, last, hlines, hcount, -⟩ := newlineLines_parts content
    rw [hlines, List.length_append, List.length_singleton]
    split at hcount <;> omega
  obtain ⟨rest, hsplit⟩ := splitlines_prefix hend fun line _ heq hline => h line <| by
    rw [heq, List.take_length]
    obtain ⟨init, hinit⟩ := List.getLast?_eq_some_iff.mp hline
    rw [hinit] at heq ⊢
    rw [List.length_append, List.length_singleton] at heq
    rw [List.drop_append_of_le_length (by omega)]
    exact List.mem_append_right _ (List.mem_singleton_self _)
  have hparts : (newlineLines content).take endLine = (newlineLines content).take (startLine - 1) ++
      ((newlineLines content).take endLine).drop (startLine - 1) := by
    rw [show (newlineLines content).take (startLine - 1) =
      ((newlineLines content).take endLine).take (startLine - 1) by
      rw [List.take_take, min_eq_left (by omega)], List.take_append_drop]
  have hmid : (((newlineLines content).take endLine).drop (startLine - 1)).flatMap
      (fun line => splitlines (line ++ ['\n'])) = ((newlineLines content).take endLine).drop (startLine - 1) := by
    refine (List.flatMap_congr fun line hline => splitlines_unbroken (h line hline)).trans ?_
    exact List.flatMap_singleton' _
  rw [hparts, List.flatMap_append, hmid, ← splitlines_front] at hsplit
  have hfront : startLine - 1 ≤ (splitlines (front content startLine)).length := by
    have hle := length_le_flatMap ((newlineLines content).take (startLine - 1))
    rw [← splitlines_front, List.length_take, min_eq_left (by omega)] at hle
    exact hle
  have hfirst : startLine + shift content startLine - 1 = (splitlines (front content startLine)).length := by
    rw [shift]
    omega
  have hlength : endLine + shift content startLine = (splitlines (front content startLine)).length +
      (((newlineLines content).take endLine).drop (startLine - 1)).length := by
    rw [List.length_drop, List.length_take, shift]
    omega
  rw [lineSlice, lineSlice, hsplit, hfirst, hlength,
    List.take_append_of_le_length (by rw [List.length_append]), List.take_of_length_le (by rw [List.length_append]),
    List.drop_left]

/-- A range of lines is the same text in both numberings exactly if it is aligned. -/
theorem slice_iff (hstart : 1 ≤ startLine) (hle : startLine ≤ endLine) (hend : endLine ≤ lineCount content) :
    lineSlice (splitlines content) startLine endLine = lineSlice (newlineLines content) startLine endLine ↔
      Aligned content startLine endLine := by
  constructor
  · intro h
    have hunbroken : ∀ line ∈ ((newlineLines content).take endLine).drop (startLine - 1), Unbroken line := by
      intro line hline c hc
      have hnewline := newline_not_mem_newlineLines line (List.mem_of_mem_take (List.mem_of_mem_drop hline))
      have hmem : c ∈ lineSlice (splitlines content) startLine endLine := h ▸ mem_intercalate hline hc
      rcases mem_of_mem_intercalate hmem with rfl | ⟨other, hother, hc⟩
      · exact absurd hc hnewline
      · exact mem_splitlines (List.mem_of_mem_take (List.mem_of_mem_drop hother)) c hc
    exact ⟨hunbroken, .inr (h.trans (slice_shifted hstart hle hend hunbroken).symm)⟩
  · intro h
    have hshifted := slice_shifted hstart hle hend h.unbroken
    rcases h.unmoved with hzero | hsame
    · rw [hzero] at hshifted
      exact hshifted
    · exact hsame.trans hshifted

end CodeMate.Indexing
