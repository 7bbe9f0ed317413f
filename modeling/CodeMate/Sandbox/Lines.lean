import Mathlib.Data.List.TakeWhile
import CodeMate.Sandbox.Patches

/-!
# Lines and hunk headers

What `splitLines` and `matchHunkHeader` read:

* `splitLines_flatten`: the lines of a text are all of it;
* `splitLines_newline`: a newline ends a line, whatever stands before it;
* `splitLines_of_lines`: texts that are lines are split into themselves;
* `matchHunkHeader_header`: a header written with two ranges is read back.
-/

namespace CodeMate.Sandbox

/-! ## Lines -/

/-- No line break. -/
def Unbroken (text : List Char) : Prop := ∀ c ∈ text, isLineBreak c = false

instance (text : List Char) : Decidable (Unbroken text) := List.decidableBAll _ text

/-- A text in front of the first line. -/
def prepend (text : List Char) : List Line → List Line
  | [] => if text = [] then [] else [text]
  | line :: lines => (text ++ line) :: lines

theorem flatten_prepend (text : List Char) (lines : List Line) :
    (prepend text lines).flatten = text ++ lines.flatten := by
  unfold prepend
  split
  · split <;> simp_all
  · simp

theorem splitLines_crlf (rest : List Char) :
    splitLines ('\r' :: '\n' :: rest) = ['\r', '\n'] :: splitLines rest := by
  rw [splitLines]

/-- What ends a line where carriage returns stand before newlines only. -/
inductive Terminator : List Char → Prop
  | crlf : Terminator ['\r', '\n']
  | single {c : Char} : isLineBreak c = true → c ≠ '\r' → Terminator [c]

theorem splitLines_break {c : Char} {rest : List Char} (hbreak : isLineBreak c = true)
    (hcrlf : c = '\r' → ∀ tail, rest ≠ '\n' :: tail) : splitLines (c :: rest) = [c] :: splitLines rest := by
  rw [splitLines, if_pos hbreak]
  exact fun tail hc hrest => hcrlf hc tail hrest

theorem splitLines_cons {c : Char} (rest : List Char) (hbreak : isLineBreak c = false) :
    splitLines (c :: rest) = prepend [c] (splitLines rest) := by
  rw [splitLines, if_neg (by simp [hbreak])]
  · cases splitLines rest <;> rfl
  · rintro tail rfl rfl
    exact absurd hbreak (by decide)

theorem splitLines_append {text : List Char} (h : Unbroken text) (rest : List Char) :
    splitLines (text ++ rest) = prepend text (splitLines rest) := by
  induction text with
  | nil =>
    rw [List.nil_append]
    cases splitLines rest <;> rfl
  | cons c text ih =>
    rw [List.cons_append, splitLines_cons _ (h c List.mem_cons_self),
      ih fun d hd => h d (List.mem_cons_of_mem c hd)]
    cases splitLines rest with
    | nil =>
      show prepend [c] (if text = [] then [] else [text]) = [c :: text]
      split
      · next heq => rw [heq]; rfl
      · rfl
    | cons line lines => rfl

theorem splitLines_flatten (text : List Char) : (splitLines text).flatten = text := by
  fun_induction splitLines text with
  | case1 => rfl
  | case2 rest ih => simp [ih]
  | case3 c rest _ _ ih => simp [ih]
  | case4 c rest _ _ hnil ih =>
    rw [hnil] at ih
    simp [← ih]
  | case5 c rest _ _ line lines hlines ih =>
    rw [hlines] at ih
    simp [← ih]

/-- A line holds no line break but at its end. -/
theorem splitLines_shape {text : List Char} : ∀ line ∈ splitLines text, ∃ body tail, Unbroken body ∧
    line = body ++ tail ∧ line ≠ [] ∧
      (tail = [] ∨ (∃ c, isLineBreak c = true ∧ tail = [c]) ∨ tail = ['\r', '\n']) := by
  have hcons {c : Char} {body : List Char} (hc : isLineBreak c = false) (hbody : Unbroken body) :
      Unbroken (c :: body) := fun d hd => (List.mem_cons.mp hd).elim (fun heq => heq ▸ hc) (hbody d)
  fun_induction splitLines text with
  | case1 => nofun
  | case2 rest ih =>
    refine List.forall_mem_cons.mpr ⟨⟨[], ['\r', '\n'], nofun, rfl, nofun, .inr (.inr rfl)⟩, ih⟩
  | case3 c rest _ hbreak ih =>
    exact List.forall_mem_cons.mpr ⟨⟨[], [c], nofun, rfl, nofun, .inr (.inl ⟨c, hbreak, rfl⟩)⟩, ih⟩
  | case4 c rest _ hbreak _ ih =>
    have hc : isLineBreak c = false := eq_false_of_ne_true hbreak
    exact List.forall_mem_singleton.mpr ⟨[c], [], hcons hc nofun, rfl, nofun, .inl rfl⟩
  | case5 c rest _ hbreak line lines hlines ih =>
    have hc : isLineBreak c = false := eq_false_of_ne_true hbreak
    rw [hlines] at ih
    obtain ⟨⟨body, tail, hbody, rfl, -, htail⟩, hrest⟩ := List.forall_mem_cons.mp ih
    exact List.forall_mem_cons.mpr ⟨⟨c :: body, tail, hcons hc hbody, rfl, nofun, htail⟩, hrest⟩

theorem splitLines_eq_nil {text : List Char} (h : splitLines text = []) : text = [] := by
  rw [← splitLines_flatten text, h]
  rfl

/-- A newline ends a line. -/
theorem splitLines_newline (text rest : List Char) :
    splitLines (text ++ '\n' :: rest) = splitLines (text ++ ['\n']) ++ splitLines rest := by
  have hnewline : isLineBreak '\n' = true := by decide
  fun_induction splitLines text with
  | case1 =>
    rw [List.nil_append, List.nil_append, splitLines_break hnewline (by simp), splitLines_break hnewline (by simp)]
    rfl
  | case2 tail ih =>
    simp only [List.cons_append]
    rw [splitLines_crlf, splitLines_crlf, ih]
    rfl
  | case3 c tail hcrlf hbreak ih =>
    simp only [List.cons_append]
    by_cases hlast : c = '\r' ∧ tail = []
    · obtain ⟨rfl, rfl⟩ := hlast
      rw [List.nil_append, List.nil_append, splitLines_crlf, splitLines_crlf]
      rfl
    · have hne (more : List Char) : c = '\r' → ∀ tail', tail ++ '\n' :: more ≠ '\n' :: tail' := by
        rintro rfl tail' heq
        cases tail with
        | nil => exact hlast ⟨rfl, rfl⟩
        | cons d tail =>
          obtain ⟨rfl, -⟩ := List.cons.inj heq
          exact hcrlf tail rfl rfl
      rw [splitLines_break hbreak (hne rest), splitLines_break hbreak (hne []), ih]
      rfl
  | case4 c tail _ hbreak _ ih | case5 c tail _ hbreak _ _ _ ih =>
    simp only [List.cons_append]
    have hbreak : isLineBreak c = false := by simpa using hbreak
    rw [splitLines_cons _ hbreak, splitLines_cons _ hbreak, ih]
    cases hlines : splitLines (tail ++ ['\n']) with
    | nil => simpa using splitLines_eq_nil hlines
    | cons line lines => rfl

theorem splitLines_flatten_newline {lines : List Line} (h : ∀ line ∈ lines, ∃ text, line = text ++ ['\n'])
    (rest : List Char) : splitLines (lines.flatten ++ rest) = lines.flatMap splitLines ++ splitLines rest := by
  induction lines with
  | nil => rfl
  | cons line lines ih =>
    obtain ⟨text, rfl⟩ := h _ List.mem_cons_self
    rw [List.flatten_cons, List.append_assoc, List.append_assoc, List.singleton_append, splitLines_newline,
      ih fun l hl => h l (List.mem_cons_of_mem _ hl), List.flatMap_cons, List.append_assoc]

/-! ## Texts that are lines -/

/-- One line with its line break. -/
def Terminated (line : Line) : Prop :=
  ∃ text terminator, Unbroken text ∧ Terminator terminator ∧ line = text ++ terminator

theorem splitLines_terminated {line : Line} (h : Terminated line) (rest : List Char) :
    splitLines (line ++ rest) = line :: splitLines rest := by
  obtain ⟨text, terminator, htext, hterminator, rfl⟩ := h
  rw [List.append_assoc, splitLines_append htext]
  cases hterminator with
  | crlf => rw [List.cons_append, List.singleton_append, splitLines_crlf]; rfl
  | single hbreak hcr => rw [List.singleton_append, splitLines_break hbreak (fun h => absurd h hcr)]; rfl

/-- Lines with their line breaks; the last may be without one. -/
def AreLines : List Line → Prop
  | [] => True
  | line :: lines => Terminated line ∧ AreLines lines ∨ lines = [] ∧ line ≠ [] ∧ Unbroken line

/-- Lines are split into themselves. -/
theorem splitLines_of_lines {lines : List Line} (h : AreLines lines) : splitLines lines.flatten = lines := by
  induction lines with
  | nil => rfl
  | cons line lines ih =>
    rcases h with ⟨hline, hlines⟩ | ⟨rfl, hne, hunbroken⟩
    · rw [List.flatten_cons, splitLines_terminated hline, ih hlines]
    · rw [List.flatten_cons, List.flatten_nil, splitLines_append hunbroken]
      show (if line = [] then [] else [line]) = [line]
      rw [if_neg hne]

/-- Carriage returns stand before newlines only. -/
def CrlfOnly (text : List Char) : Prop :=
  ∀ before after, text = before ++ '\r' :: after → ∃ rest, after = '\n' :: rest

theorem CrlfOnly.suffix {text : List Char} {front : List Char} (h : CrlfOnly (front ++ text)) : CrlfOnly text :=
  fun before after heq => h (front ++ before) after (by rw [heq, List.append_assoc])

theorem AreLines.prepend {c : Char} (hbreak : isLineBreak c = false) {lines : List Line} (h : AreLines lines) :
    AreLines (prepend [c] lines) := by
  have hc : Unbroken [c] := by simpa [Unbroken] using hbreak
  cases lines with
  | nil => exact .inr ⟨rfl, List.cons_ne_nil _ _, hc⟩
  | cons line lines =>
    have happend {text : List Char} (htext : Unbroken text) : Unbroken (c :: text) := fun d hd => by
      rcases List.mem_cons.mp hd with rfl | hd
      · exact hbreak
      · exact htext d hd
    rcases h with ⟨⟨text, terminator, htext, hterminator, rfl⟩, hlines⟩ | ⟨rfl, -, hunbroken⟩
    · exact .inl ⟨⟨c :: text, terminator, happend htext, hterminator, rfl⟩, hlines⟩
    · exact .inr ⟨rfl, List.cons_ne_nil _ _, happend hunbroken⟩

theorem splitLines_lines {text : List Char} (h : CrlfOnly text) : AreLines (splitLines text) := by
  fun_induction splitLines text with
  | case1 => trivial
  | case2 rest ih =>
    refine .inl ⟨⟨[], _, nofun, .crlf, rfl⟩, ih (CrlfOnly.suffix (show CrlfOnly (['\r', '\n'] ++ rest) from h))⟩
  | case3 c rest hcrlf hbreak ih =>
    have hcr : c ≠ '\r' := by
      rintro rfl
      obtain ⟨tail, rfl⟩ := h [] rest rfl
      exact hcrlf tail rfl rfl
    exact .inl ⟨⟨[], [c], nofun, .single hbreak hcr, rfl⟩, ih (CrlfOnly.suffix (show CrlfOnly ([c] ++ rest) from h))⟩
  | case4 c rest _ hbreak hnil ih =>
    have hlines := ih (CrlfOnly.suffix (show CrlfOnly ([c] ++ rest) from h))
    rw [hnil] at hlines
    exact hlines.prepend (by simpa using hbreak)
  | case5 c rest _ hbreak line lines hlines ih =>
    have hrest := ih (CrlfOnly.suffix (show CrlfOnly ([c] ++ rest) from h))
    rw [hlines] at hrest
    exact hrest.prepend (by simpa using hbreak)

/-! ## Headers -/

/-- A number of a header. -/
def Digits (text : List Char) : Prop := text ≠ [] ∧ ∀ c ∈ text, (digitValue c).isSome

theorem digitValue_of_isDigit {c : Char} (h : c.isDigit) : digitValue c = some (c.toNat - '0'.toNat) := by
  have hrange : 48 ≤ c.toNat ∧ c.toNat ≤ 57 := by
    simp only [Char.isDigit, Bool.and_eq_true, decide_eq_true_eq, UInt32.le_iff_toNat_le] at h
    exact h
  have hfirst : (0x30 ≤ c.toNat && c.toNat < 0x30 + 10) = true := by
    simp only [Bool.and_eq_true, decide_eq_true_eq]
    omega
  have hblocks : digitBlocks.find? (fun first => first ≤ c.toNat && c.toNat < first + 10) = some 0x30 := by
    show List.find? _ (0x30 :: digitBlocks.tail) = some 0x30
    exact List.find?_cons_of_pos hfirst
  rw [digitValue, hblocks]
  rfl

theorem isDigit_of_mem_toString {n : Nat} {c : Char} (h : c ∈ (toString n).toList) : c.isDigit := by
  rw [Nat.toString_eq_repr, Nat.toList_repr] at h
  exact Nat.isDigit_of_mem_toDigits (by decide) (by decide) h

theorem digits_toString (n : Nat) : Digits (toString n).toList := by
  refine ⟨?_, fun c hc => ?_⟩
  · rw [Nat.toString_eq_repr, Nat.toList_repr]
    exact Nat.toDigits_ne_nil
  · rw [digitValue_of_isDigit (isDigit_of_mem_toString hc)]
    rfl

/-- The numeral of a number is read back. -/
theorem intOf_toString (n : Nat) : intOf (toString n).toList = n := by
  have hfold (digits : List Char) (init : Nat) (h : ∀ c ∈ digits, c.isDigit) :
      digits.foldl (fun n c => 10 * n + (digitValue c).getD 0) init = Nat.ofDigitChars 10 digits init := by
    induction digits generalizing init with
    | nil => simp
    | cons c digits ih =>
      rw [List.foldl_cons, Nat.ofDigitChars_cons, ih _ fun d hd => h d (List.mem_cons_of_mem c hd),
        digitValue_of_isDigit (h c List.mem_cons_self)]
      rfl
  rw [intOf, hfold _ _ fun c hc => isDigit_of_mem_toString hc, Nat.toString_eq_repr, Nat.toList_repr]
  exact Nat.ofDigitChars_ten_toDigits

theorem isLineBreak_of_digit {c : Char} (h : (digitValue c).isSome) : isLineBreak c = false := by
  by_contra hbreak
  have hmem : c ∈ ['\n', '\r', '\x0b', '\x0c', '\x1c', '\x1d', '\x1e', '\u0085', '\u2028', '\u2029'] := by
    rw [Bool.not_eq_false] at hbreak
    exact of_decide_eq_true hbreak
  have hnone : ['\n', '\r', '\x0b', '\x0c', '\x1c', '\x1d', '\x1e', '\u0085', '\u2028', '\u2029'].all
      (fun c => (digitValue c).isNone) = true := by decide
  have hc := List.all_eq_true.mp hnone c hmem
  rw [Option.isNone_iff_eq_none] at hc
  rw [hc] at h
  exact absurd h (by decide)

theorem Digits.unbroken {text : List Char} (h : Digits text) : Unbroken text :=
  fun c hc => isLineBreak_of_digit (h.2 c hc)

theorem after?_append (pre text : List Char) : after? pre (pre ++ text) = some text := by
  simp [after?]

theorem after?_some {pre text rest : List Char} (h : after? pre text = some rest) : text = pre ++ rest := by
  unfold after? at h
  split at h
  · next hpre =>
    obtain ⟨tail, rfl⟩ := List.isPrefixOf_iff_prefix.mp hpre
    simpa using h
  · exact absurd h.symm (Option.some_ne_none rest)

/-- A start and a count, as in a header. -/
def rangeText (start : List Char) (count : Option (List Char)) : List Char :=
  start ++ (count.map (',' :: ·)).getD []

/-- A range ends where no digit and no comma follows. -/
theorem hunkRange_text {start : List Char} {count : Option (List Char)} (rest : List Char) (hstart : Digits start)
    (hcount : ∀ digits ∈ count, Digits digits) (hrest : ∃ tail, rest = ' ' :: tail) :
    hunkRange (rangeText start count ++ rest) = some ((start, count), rest) := by
  obtain ⟨tail, rfl⟩ := hrest
  have hblank : (digitValue ' ').isSome = false := by decide
  have hcomma : (digitValue ',').isSome = false := by decide
  cases count with
  | none =>
    show hunkRange ((start ++ []) ++ ' ' :: tail) = _
    rw [List.append_nil]
    unfold hunkRange
    simp only [List.takeWhile_append_of_pos hstart.2, List.dropWhile_append_of_pos hstart.2, List.takeWhile_cons,
      List.dropWhile_cons, hblank, List.append_nil, Bool.false_eq_true, if_false]
    rw [if_neg hstart.1]
    rfl
  | some digits =>
    have hdigits := hcount digits rfl
    show hunkRange ((start ++ ',' :: digits) ++ ' ' :: tail) = _
    rw [List.append_assoc, List.cons_append]
    unfold hunkRange
    simp only [List.takeWhile_append_of_pos hstart.2, List.dropWhile_append_of_pos hstart.2, List.takeWhile_cons,
      List.dropWhile_cons, hcomma, List.append_nil, Bool.false_eq_true, if_false,
      List.takeWhile_append_of_pos hdigits.2, List.dropWhile_append_of_pos hdigits.2, hblank]
    rw [if_neg hstart.1, if_neg hdigits.1]

theorem digits_takeWhile {text : List Char} (h : text.takeWhile (fun c => (digitValue c).isSome) ≠ []) :
    Digits (text.takeWhile fun c => (digitValue c).isSome) :=
  ⟨h, fun _ hc => List.mem_takeWhile_imp (p := fun c => (digitValue c).isSome) hc⟩

theorem hunkRange_some {text start rest : List Char} {count : Option (List Char)}
    (h : hunkRange text = some ((start, count), rest)) :
    Digits start ∧ (∀ digits ∈ count, Digits digits) ∧ text = rangeText start count ++ rest := by
  unfold hunkRange at h
  simp only at h
  split at h
  · exact absurd h.symm (Option.some_ne_none _)
  next hstart =>
  have htext := List.takeWhile_append_dropWhile (p := fun c => (digitValue c).isSome) (l := text)
  split at h
  · next rest' hcomma =>
    split at h
    · obtain ⟨⟨rfl, rfl⟩, rfl⟩ : (_ = start ∧ none = count) ∧ _ = rest := by simpa using h
      exact ⟨digits_takeWhile hstart, by simp, by simp [rangeText]⟩
    · next hcount =>
      obtain ⟨⟨rfl, rfl⟩, rfl⟩ : (_ = start ∧ some _ = count) ∧ _ = rest := by simpa using h
      refine ⟨digits_takeWhile hstart, by rintro _ ⟨⟩; exact digits_takeWhile hcount, ?_⟩
      rw [hcomma, ← List.takeWhile_append_dropWhile (p := fun c => (digitValue c).isSome) (l := rest')] at htext
      simpa [rangeText] using htext.symm
  · obtain ⟨⟨rfl, rfl⟩, rfl⟩ : (_ = start ∧ none = count) ∧ _ = rest := by simpa using h
    exact ⟨digits_takeWhile hstart, by simp, by simp [rangeText]⟩

/-- The header up to its suffix. -/
def HunkHeader.front (header : HunkHeader) : List Char :=
  "@@ -".toList ++ (rangeText header.oldStart header.oldCount ++
    (" +".toList ++ (rangeText header.newStart header.newCount ++ " @@".toList)))

def HunkHeader.text (header : HunkHeader) : List Char := header.front ++ header.suffix

/-- The numbers of a header are numbers. -/
structure HunkHeader.Numbered (header : HunkHeader) : Prop where
  oldStart : Digits header.oldStart
  oldCount : ∀ digits ∈ header.oldCount, Digits digits
  newStart : Digits header.newStart
  newCount : ∀ digits ∈ header.newCount, Digits digits

theorem matchHunkHeader_text {header : HunkHeader} (h : header.Numbered) :
    matchHunkHeader header.text = some header := by
  have hold := hunkRange_text (" +".toList ++ (rangeText header.newStart header.newCount ++
    (" @@".toList ++ header.suffix))) h.oldStart h.oldCount ⟨_, rfl⟩
  have hnew := hunkRange_text (" @@".toList ++ header.suffix) h.newStart h.newCount ⟨_, rfl⟩
  unfold matchHunkHeader HunkHeader.text HunkHeader.front
  simp only [List.append_assoc, after?_append, hold, hnew, Option.bind_eq_bind, Option.bind_some]
  rfl

theorem matchHunkHeader_some {text : List Char} {header : HunkHeader} (h : matchHunkHeader text = some header) :
    header.Numbered ∧ text = header.text := by
  simp only [matchHunkHeader, Option.bind_eq_bind, Option.bind_eq_some_iff] at h
  obtain ⟨text₁, h₁, ⟨⟨oldStart, oldCount⟩, text₂⟩, hold, text₃, h₃, ⟨⟨newStart, newCount⟩, text₄⟩, hnew, suffix, h₅,
    hheader⟩ := h
  obtain rfl := Option.some.inj hheader
  obtain ⟨holdStart, holdCount, rfl⟩ := hunkRange_some hold
  obtain ⟨hnewStart, hnewCount, rfl⟩ := hunkRange_some hnew
  refine ⟨⟨holdStart, holdCount, hnewStart, hnewCount⟩, ?_⟩
  obtain rfl := after?_some h₁
  obtain rfl : text₂ = _ := after?_some h₃
  obtain rfl : text₄ = _ := after?_some h₅
  simp only [HunkHeader.text, HunkHeader.front, List.append_assoc]

theorem HunkHeader.Numbered.unbroken {header : HunkHeader} (h : header.Numbered) : Unbroken header.front := by
  have hrange {start : List Char} {count : Option (List Char)} (hstart : Digits start)
      (hcount : ∀ digits ∈ count, Digits digits) : Unbroken (rangeText start count) := by
    intro c hc
    rcases List.mem_append.mp hc with hc | hc
    · exact hstart.unbroken c hc
    · cases count with
      | none => exact absurd hc List.not_mem_nil
      | some digits =>
        rcases List.mem_cons.mp hc with rfl | hc
        · decide
        · exact (hcount digits rfl).unbroken c hc
  have hmarks : ∀ mark ∈ ["@@ -".toList, " +".toList, " @@".toList], Unbroken mark := by decide
  intro c hc
  simp only [HunkHeader.front, List.mem_append] at hc
  rcases hc with hc | hc | hc | hc | hc
  · exact hmarks _ (by simp) c hc
  · exact hrange h.oldStart h.oldCount c hc
  · exact hmarks _ (by simp) c hc
  · exact hrange h.newStart h.newCount c hc
  · exact hmarks _ (by simp) c hc

end CodeMate.Sandbox
