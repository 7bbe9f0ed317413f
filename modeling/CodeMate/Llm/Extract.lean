import Mathlib.Data.List.Infix
import CodeMate.Framework.Text
import CodeMate.Sandbox.GitDiffs

/-!
# The diff in a model's answer

`_extract_unified_diff`: the first fenced block of the answer, or all of it, from
its first file header on, without the white space around it; and which diffs the
sandbox gets as the model wrote them.

* `searchFence_eq_none_iff`: what counts as a fenced block;
* `fromStart_prefix`: the extraction of a text that begins as a diff does;
* `searchFence_answer`: the extraction of an answer that is a fenced block;
* `extract_gitDiff`: the diffs that arrive unchanged.
-/

namespace CodeMate.Llm

open Framework Framework.Text
open Sandbox (after? after?_append after?_some LineText FileDiff GitDiff normalizeUnifiedDiffHunks)

/-! ## The extraction -/

/-- `(?:diff|patch)?`: where the word is not followed as the pattern wants, neither is the text before it. -/
def afterTag (text : List Char) : List Char :=
  (after? "diff".toList text).getD ((after? "patch".toList text).getD text)

/-- `\s*\n`: the text after the last newline of the white space. -/
def afterBlank : List Char → Option (List Char)
  | [] => none
  | c :: rest =>
    if isSpace c then
      match afterBlank rest with
      | some text => some text
      | none => if c = '\n' then some rest else none
    else none

def ticks : List Char := "```".toList

/-- "(.*?)```": the text before the first fence. -/
def beforeFence : List Char → Option (List Char)
  | [] => none
  | c :: rest => if ticks.isPrefixOf (c :: rest) then some [] else (beforeFence rest).map (c :: ·)

/-- The group of the fence's pattern, where it matches at the start of a text. -/
def fenceBody (text : List Char) : Option (List Char) := do
  let rest ← after? ticks text
  let body ← afterBlank (afterTag rest)
  beforeFence body

/-- `re.search`, its first group. -/
def searchFence : List Char → Option (List Char)
  | [] => none
  | c :: rest => (fenceBody (c :: rest)).or (searchFence rest)

/-- Where a diff may start. -/
def diffStarts (cleaned : List Char) : List Nat :=
  ["diff --git ", "--- a/", "--- "].filterMap fun mark => find? mark.toList cleaned

/-- What is returned of the cleaned answer. -/
def fromStart (cleaned : List Char) : List Char :=
  match (diffStarts cleaned).min? with
  | none => []
  | some start => strip (cleaned.drop start) ++ ['\n']

/-- `_extract_unified_diff`. -/
def extractUnifiedDiff (text : String) : String :=
  let cleaned := strip text.toList
  if cleaned = [] then ""
  else String.ofList (fromStart (match searchFence cleaned with
    | some body => strip body
    | none => cleaned))

/-! ## Fenced blocks -/

/-- A text that holds a fenced block of a diff. -/
def Fenced (text : List Char) : Prop :=
  ∃ before tag blank body after, tag ∈ ["", "diff", "patch"] ∧ (∀ c ∈ blank, isSpace c = true) ∧
    text = before ++ (ticks ++ (tag.toList ++ (blank ++ '\n' :: (body ++ (ticks ++ after)))))

theorem afterBlank_some {text rest : List Char} (h : afterBlank text = some rest) :
    ∃ blank, text = blank ++ '\n' :: rest ∧ ∀ c ∈ blank, isSpace c = true := by
  induction text with
  | nil => exact absurd h.symm (Option.some_ne_none rest)
  | cons c tail ih =>
    unfold afterBlank at h
    split at h
    · next hspace =>
      split at h
      · next heq =>
        obtain rfl := Option.some.inj h
        obtain ⟨blank, rfl, hblank⟩ := ih heq
        exact ⟨c :: blank, rfl, List.forall_mem_cons.mpr ⟨hspace, hblank⟩⟩
      · split at h
        · next hnewline =>
          obtain rfl := Option.some.inj h
          exact ⟨[], by rw [hnewline]; rfl, nofun⟩
        · exact absurd h.symm (Option.some_ne_none rest)
    · exact absurd h.symm (Option.some_ne_none rest)

/-- The white space with its newlines is skipped, and nothing else. -/
theorem afterBlank_append {blank rest : List Char} (h : ∀ c ∈ blank, isSpace c = true) :
    ∃ more left, afterBlank (blank ++ '\n' :: rest) = some left ∧ rest = more ++ left ∧
      ∀ c ∈ more, isSpace c = true := by
  induction blank with
  | nil =>
    show ∃ more left, (if isSpace '\n' then _ else none) = some left ∧ _
    rw [if_pos (by decide)]
    cases hrest : afterBlank rest with
    | none => exact ⟨[], rest, rfl, rfl, nofun⟩
    | some left =>
      obtain ⟨more, rfl, hmore⟩ := afterBlank_some hrest
      refine ⟨more ++ ['\n'], left, rfl, by simp, fun c hc => ?_⟩
      rcases List.mem_append.mp hc with hc | hc
      · exact hmore c hc
      · rw [List.mem_singleton.mp hc]
        decide
  | cons c blank ih =>
    obtain ⟨hc, hblank⟩ := List.forall_mem_cons.mp h
    obtain ⟨more, left, hleft, hrest⟩ := ih hblank
    refine ⟨more, left, ?_, hrest⟩
    rw [List.cons_append, afterBlank, if_pos hc, hleft]

/-- The text before the first fence: no fence begins in it. -/
theorem beforeFence_some {text body : List Char} (h : beforeFence text = some body) :
    ∃ after, text = body ++ (ticks ++ after) ∧ body.getLast? ≠ some '`' := by
  induction text generalizing body with
  | nil => exact absurd h.symm (Option.some_ne_none body)
  | cons c rest ih =>
    unfold beforeFence at h
    split at h
    · next hticks =>
      obtain rfl := Option.some.inj h
      obtain ⟨after, hafter⟩ := List.isPrefixOf_iff_prefix.mp hticks
      exact ⟨after, hafter.symm, nofun⟩
    · next hticks =>
      obtain ⟨body', hbody', rfl⟩ := Option.map_eq_some_iff.mp h
      obtain ⟨after, rfl, hlast⟩ := ih hbody'
      refine ⟨after, rfl, ?_⟩
      cases body' with
      | nil =>
        rw [List.getLast?_singleton]
        intro hc
        obtain rfl := Option.some.inj hc
        refine hticks (List.isPrefixOf_iff_prefix.mpr ⟨'`' :: after, rfl⟩)
      | cons d body' => rwa [List.getLast?_cons_cons]

theorem beforeFence_append (body after : List Char) :
    ∃ front, beforeFence (body ++ (ticks ++ after)) = some front ∧ front <+: body := by
  induction body with
  | nil => exact ⟨[], if_pos (List.isPrefixOf_iff_prefix.mpr (List.prefix_append ticks after)), List.prefix_refl []⟩
  | cons c body ih =>
    obtain ⟨front, hfront, hpre⟩ := ih
    rw [List.cons_append, beforeFence]
    split
    · exact ⟨[], rfl, List.nil_prefix⟩
    · exact ⟨c :: front, by rw [hfront]; rfl, (List.prefix_cons_inj c).mpr hpre⟩

/-- The fence's pattern and its parts. -/
theorem fenceBody_some {text body : List Char} (h : fenceBody text = some body) :
    ∃ tag blank after, tag ∈ ["", "diff", "patch"] ∧ (∀ c ∈ blank, isSpace c = true) ∧
      body.getLast? ≠ some '`' ∧
      text = ticks ++ (tag.toList ++ (blank ++ '\n' :: (body ++ (ticks ++ after)))) := by
  obtain ⟨rest, hrest, h⟩ := Option.bind_eq_some_iff.mp h
  obtain ⟨more, hmore, h⟩ := Option.bind_eq_some_iff.mp h
  obtain ⟨blank, hblank, hspaces⟩ := afterBlank_some hmore
  obtain ⟨after, rfl, hlast⟩ := beforeFence_some h
  have htag : ∃ tag ∈ ["", "diff", "patch"], rest = tag.toList ++ afterTag rest := by
    unfold afterTag
    cases hdiff : after? "diff".toList rest with
    | some tail => exact ⟨"diff", by simp, after?_some hdiff⟩
    | none =>
      cases hpatch : after? "patch".toList rest with
      | some tail => exact ⟨"patch", by simp, after?_some hpatch⟩
      | none => exact ⟨"", by simp, rfl⟩
  obtain ⟨tag, htag, heq⟩ := htag
  exact ⟨tag, blank, after, htag, hspaces, hlast, by rw [after?_some hrest, heq, hblank]⟩

theorem searchFence_some {text body : List Char} (h : searchFence text = some body) :
    ∃ before tag blank after, tag ∈ ["", "diff", "patch"] ∧ (∀ c ∈ blank, isSpace c = true) ∧
      body.getLast? ≠ some '`' ∧
      text = before ++ (ticks ++ (tag.toList ++ (blank ++ '\n' :: (body ++ (ticks ++ after))))) := by
  induction text with
  | nil => exact absurd h.symm (Option.some_ne_none body)
  | cons c rest ih =>
    rcases Option.or_eq_some_iff.mp h with hbody | ⟨-, hrest⟩
    · obtain ⟨tag, blank, after, htag, hblank, hlast, heq⟩ := fenceBody_some hbody
      exact ⟨[], tag, blank, after, htag, hblank, hlast, heq⟩
    · obtain ⟨before, tag, blank, after, htag, hblank, hlast, heq⟩ := ih hrest
      exact ⟨c :: before, tag, blank, after, htag, hblank, hlast, by rw [heq]; rfl⟩

theorem afterTag_append {tag : String} (htag : tag ∈ ["", "diff", "patch"]) {c : Char} (hc : isSpace c = true)
    (rest : List Char) : afterTag (tag.toList ++ c :: rest) = c :: rest := by
  have hnone (mark : List Char) (first : Char) (hfirst : isSpace first = false) :
      after? (first :: mark) (c :: rest) = none := by
    refine if_neg fun hpre => ?_
    obtain ⟨tail, heq⟩ := List.isPrefixOf_iff_prefix.mp hpre
    obtain ⟨rfl, -⟩ := List.cons.inj heq
    rw [hc] at hfirst
    exact absurd hfirst (by decide)
  simp only [List.mem_cons, List.not_mem_nil, or_false] at htag
  rcases htag with rfl | rfl | rfl
  · show afterTag (c :: rest) = c :: rest
    unfold afterTag
    rw [show after? "diff".toList (c :: rest) = none from hnone _ 'd' (by decide),
      show after? "patch".toList (c :: rest) = none from hnone _ 'p' (by decide)]
    rfl
  · unfold afterTag
    rw [after?_append]
    rfl
  · unfold afterTag
    rw [show after? "diff".toList ("patch".toList ++ c :: rest) = none from rfl, after?_append]
    rfl

/-- The pattern matches, and its group lies before the text's first fence. -/
theorem fenceBody_parts {tag : String} (htag : tag ∈ ["", "diff", "patch"]) {blank : List Char}
    (hblank : ∀ c ∈ blank, isSpace c = true) (rest : List Char) :
    ∃ more left, fenceBody (ticks ++ (tag.toList ++ (blank ++ '\n' :: rest))) = beforeFence left ∧
      rest = more ++ left ∧ ∀ c ∈ more, isSpace c = true := by
  obtain ⟨more, left, hleft, hrest⟩ := @afterBlank_append blank rest hblank
  have hafter : afterTag (tag.toList ++ (blank ++ '\n' :: rest)) = blank ++ '\n' :: rest := by
    cases blank with
    | nil => exact afterTag_append htag (by decide) _
    | cons c blank => exact afterTag_append htag (hblank c List.mem_cons_self) _
  refine ⟨more, left, ?_, hrest⟩
  unfold fenceBody
  rw [after?_append, Option.bind_eq_bind, Option.bind_some, hafter, hleft]
  rfl

theorem searchFence_append {text : List Char} (h : fenceBody text ≠ none) (before : List Char) :
    searchFence (before ++ text) ≠ none := by
  induction before with
  | nil =>
    cases text with
    | nil => exact absurd rfl h
    | cons c rest =>
      intro hnone
      exact h (Option.or_eq_none_iff.mp hnone).1
  | cons c before ih =>
    intro hnone
    exact ih (Option.or_eq_none_iff.mp hnone).2

/-- No match means that the text holds no fenced block. -/
theorem searchFence_eq_none_iff (text : List Char) : searchFence text = none ↔ ¬ Fenced text := by
  constructor
  · rintro hnone ⟨before, tag, blank, body, after, htag, hblank, rfl⟩
    refine searchFence_append ?_ before hnone
    obtain ⟨more, left, hbody, hrest, hmore⟩ := fenceBody_parts htag hblank (body ++ (ticks ++ after))
    have hleft : ∃ body', left = body' ++ (ticks ++ after) := by
      rcases List.append_eq_append_iff.mp hrest with ⟨extra, hextra, hticks⟩ | ⟨body', -, hleft⟩
      · cases extra with
        | nil => exact ⟨[], hticks.symm⟩
        | cons c extra =>
          have hfirst : '`' :: ('`' :: '`' :: after) = c :: (extra ++ left) := hticks
          obtain ⟨rfl, -⟩ := List.cons.inj hfirst
          have hspace := hmore '`' (by rw [hextra]; simp)
          exact absurd hspace (by decide)
      · exact ⟨body', hleft⟩
    obtain ⟨body', rfl⟩ := hleft
    obtain ⟨front, hfront, -⟩ := beforeFence_append body' after
    rw [hbody, hfront]
    exact Option.some_ne_none front
  · intro hfenced
    cases hsearch : searchFence text with
    | none => rfl
    | some body =>
      obtain ⟨before, tag, blank, after, htag, hblank, -, heq⟩ := searchFence_some hsearch
      exact absurd ⟨before, tag, blank, body, after, htag, hblank, heq⟩ hfenced

theorem fenced_concat (text : List Char) : Fenced (text ++ ['\n']) ↔ Fenced text := by
  constructor
  · rintro ⟨before, tag, blank, body, after, htag, hblank, heq⟩
    rcases List.eq_nil_or_concat after with rfl | ⟨after, c, rfl⟩
    · have hends : text ++ ['\n'] =
          (before ++ (ticks ++ (tag.toList ++ (blank ++ '\n' :: (body ++ ['`', '`']))))) ++ ['`'] := by
        rw [heq]
        simp [ticks]
      exact absurd (List.append_inj' hends rfl).2 (by decide)
    · refine ⟨before, tag, blank, body, after, htag, hblank, ?_⟩
      have happend : text ++ ['\n'] =
          (before ++ (ticks ++ (tag.toList ++ (blank ++ '\n' :: (body ++ (ticks ++ after)))))) ++ [c] := by
        rw [heq]
        simp [List.append_assoc]
      exact (List.append_inj' happend rfl).1
  · rintro ⟨before, tag, blank, body, after, htag, hblank, rfl⟩
    exact ⟨before, tag, blank, body, after ++ ['\n'], htag, hblank, by simp [List.append_assoc]⟩

/-! ## From the first header on -/

theorem fromStart_of_start {text : List Char} (h : "diff --git ".toList <+: text) :
    fromStart text = strip text ++ ['\n'] := by
  have hmem : 0 ∈ diffStarts text :=
    List.mem_filterMap.mpr ⟨"diff --git ", List.mem_cons_self, find?_prefix h⟩
  have hmin : (diffStarts text).min? = some 0 :=
    List.min?_eq_some_iff.mpr ⟨hmem, fun _ _ => Nat.zero_le _⟩
  unfold fromStart
  rw [hmin]
  rfl

/-- A text that begins as a diff does is taken from its start on, or is too short to be one. -/
theorem fromStart_prefix {text part : List Char} (h : "diff --git ".toList <+: text) (hpart : part <+: text) :
    "diff --git ".toList <+: part ∨ fromStart part = [] := by
  rcases List.prefix_or_prefix_of_prefix hpart h with hshort | hlong
  · have hcases : ∀ part ∈ "diff --git ".toList.inits,
        part = "diff --git ".toList ∨ diffStarts part = [] := by decide
    rcases hcases part (List.mem_inits part _ |>.mpr hshort) with rfl | hnone
    · exact .inl (List.prefix_refl _)
    · right
      unfold fromStart
      rw [hnone]
      rfl
  · exact .inl hlong

theorem count_fromStart (text : List Char) : (fromStart text).count '\n' ≤ text.count '\n' + 1 := by
  unfold fromStart
  split
  · exact Nat.zero_le _
  · next start _ =>
    obtain ⟨before, after, hparts⟩ := strip_parts (text.drop start)
    have hstrip : (strip (text.drop start)).count '\n' ≤ (text.drop start).count '\n' := by
      conv_rhs => rw [hparts]
      rw [List.count_append, List.count_append]
      omega
    have hdrop := (List.drop_sublist start text).count_le '\n'
    rw [List.count_append]
    have hone : ['\n'].count '\n' = 1 := rfl
    omega

/-! ## Answers -/

/-- The backticks of a fenced block and its info string. -/
structure Fence where
  extra : Nat
  info : LineText
  plain : '`' ∉ info.chars

def Fence.ticks (fence : Fence) : List Char := List.replicate (fence.extra + 3) '`'

/-- After the backticks there is none. -/
theorem Fence.head (fence : Fence) {rest : List Char} : (fence.info.chars ++ '\n' :: rest).head? ≠ some '`' := by
  cases hchars : fence.info.chars with
  | nil => simp
  | cons c tail =>
    intro heq
    obtain rfl := Option.some.inj heq
    exact fence.plain (hchars ▸ List.mem_cons_self)

/-- An answer that is a diff, bare or in one fenced block. -/
def answer : Option Fence → List Char → List Char
  | none, text => text
  | some fence, text => fence.ticks ++ (fence.info.chars ++ '\n' :: (text ++ fence.ticks))

/-- An info string that the pattern knows. -/
def Supported (info : List Char) : Prop :=
  ∃ tag ∈ ["", "diff", "patch"], ∃ blank, info = tag.toList ++ blank ∧ ∀ c ∈ blank, isSpace c = true

/-- The pattern finds the diff in the answer, and all of it. -/
def Readable : Option Fence → List Char → Prop
  | none, text => ¬ Fenced text
  | some fence, text => Supported fence.info.chars ∧ ¬ ticks <:+: text

/-- The last line does not end with white space. -/
def EndsSolid (text : List Char) : Prop := ∃ front c, text = front ++ [c, '\n'] ∧ isSpace c = false

/-- How the text of a diff begins and ends. -/
def DiffText (text : List Char) : Prop := ∃ more, text = "diff --git ".toList ++ (more ++ ['\n'])

theorem diffText_text (file : FileDiff) (rest : GitDiff) : DiffText (GitDiff.text (file :: rest)) := by
  have hends : ∀ lines : List Sandbox.Line, (∀ line ∈ lines, ∃ text, line = text ++ ['\n']) →
      lines.flatten = [] ∨ ∃ more, lines.flatten = more ++ ['\n'] := by
    intro lines hlines
    rcases List.eq_nil_or_concat lines with rfl | ⟨front, line, rfl⟩
    · exact .inl rfl
    · obtain ⟨text, rfl⟩ := hlines line (by simp)
      exact .inr ⟨front.flatten ++ text, by simp [List.append_assoc]⟩
  have hlines : ∀ line ∈ (file :: rest).flatMap FileDiff.written, ∃ text, line = text ++ ['\n'] :=
    fun line hline => by
      obtain ⟨f, -, hline⟩ := List.mem_flatMap.mp hline
      exact f.written_newline line hline
  obtain ⟨others, hothers⟩ : ∃ others, (file :: rest).flatMap FileDiff.written =
      file.paths.after "diff --git " :: others := ⟨_, rfl⟩
  rw [hothers] at hlines
  have htext : GitDiff.text (file :: rest) =
      "diff --git ".toList ++ (file.paths.chars ++ '\n' :: others.flatten) := by
    unfold GitDiff.text
    rw [hothers, List.flatten_cons, LineText.after]
    simp only [List.append_assoc, List.singleton_append]
  rw [htext]
  rcases hends others fun line hline => hlines line (List.mem_cons_of_mem _ hline) with hnil | ⟨more, hmore⟩
  · exact ⟨file.paths.chars, by rw [hnil]⟩
  · exact ⟨file.paths.chars ++ '\n' :: more, by rw [hmore, List.append_assoc]; rfl⟩

theorem EndsSolid.iff {text : List Char} (h : DiffText text) : text = stripRight text ++ ['\n'] ↔ EndsSolid text := by
  constructor
  · intro heq
    obtain ⟨more, hmore⟩ := h
    have hne : stripRight text ≠ [] := by
      intro hnil
      rw [hnil, hmore] at heq
      have hlength := congrArg List.length heq
      simp at hlength
    obtain ⟨front, c, hlast, hc⟩ := stripRight_last hne
    exact ⟨front, c, by rw [heq, hlast, List.append_assoc]; rfl, hc⟩
  · rintro ⟨front, c, rfl, hc⟩
    have hsplit : front ++ [c, '\n'] = (front ++ [c]) ++ ['\n'] := by rw [List.append_assoc]; rfl
    rw [hsplit, stripRight_append (List.forall_mem_singleton.mpr (by decide)), stripRight_concat hc]

theorem DiffText.start {text : List Char} (h : DiffText text) : "diff --git ".toList <+: text := by
  obtain ⟨more, rfl⟩ := h
  exact List.prefix_append _ _

theorem strip_part {text part : List Char} (h : DiffText text) (hpart : part <+: text) :
    strip part = stripRight part := by
  cases part with
  | nil => rfl
  | cons c rest =>
    obtain ⟨more, rfl⟩ := h
    obtain ⟨tail, htail⟩ := hpart
    have hfirst : c :: (rest ++ tail) = 'd' :: ("iff --git ".toList ++ (more ++ ['\n'])) := htail
    obtain ⟨rfl, -⟩ := List.cons.inj hfirst
    exact strip_cons (by decide) rest

theorem stripRight_prefixed (text : List Char) : stripRight text <+: text := by
  obtain ⟨spaces, heq, -⟩ := stripRight_parts text
  exact ⟨spaces, heq.symm⟩

theorem stripRight_stripRight (text : List Char) : stripRight (stripRight text) = stripRight text := by
  obtain ⟨spaces, heq, hspaces⟩ := stripRight_parts text
  conv_rhs => rw [heq, stripRight_append hspaces]

/-- What is taken from the beginning of a diff on arrives as the diff exactly when it is all of it. -/
theorem arrives_part {text part : List Char} (h : DiffText text) (hpart : part <+: text) :
    (∃ n, normalizeUnifiedDiffHunks (String.ofList (fromStart (strip part))) =
        .ok { content := String.ofList text, repairedHunks := n }) ↔
      text = stripRight part ++ ['\n'] ∧
        normalizeUnifiedDiffHunks (String.ofList text) =
          .ok { content := String.ofList text, repairedHunks := 0 } := by
  have hstripped : stripRight part <+: text := (stripRight_prefixed part).trans hpart
  have hagain : strip (stripRight part) = stripRight part := by
    rw [strip_part h hstripped, stripRight_stripRight]
  rw [strip_part h hpart]
  constructor
  · rintro ⟨n, hok⟩
    rcases fromStart_prefix h.start hstripped with hstart | hnil
    · rw [fromStart_of_start hstart, hagain] at hok
      have hpatch := Sandbox.normalize_prefix hok (String.toList_ofList) (by rwa [String.toList_ofList])
      have htext := congrArg String.toList (congrArg Sandbox.NormalizedPatch.content hpatch)
      rw [String.toList_ofList, String.toList_ofList] at htext
      have hn : n = 0 := congrArg Sandbox.NormalizedPatch.repairedHunks hpatch
      rw [← htext, hn] at hok
      exact ⟨htext, hok⟩
    · rw [hnil] at hok
      have hempty : normalizeUnifiedDiffHunks (String.ofList []) = .ok { content := "", repairedHunks := 0 } := by
        decide
      rw [hempty] at hok
      have hcontent : String.ofList text = "" := (congrArg Sandbox.NormalizedPatch.content (Except.ok.inj hok)).symm
      have htext := congrArg String.toList hcontent
      rw [String.toList_ofList] at htext
      obtain ⟨more, rfl⟩ := h
      have hne : "diff --git ".toList ≠ [] := by decide
      exact absurd htext (List.append_ne_nil_of_left_ne_nil hne _)
  · rintro ⟨htext, hok⟩
    have hstart : "diff --git ".toList <+: stripRight part := by
      obtain ⟨more, hmore⟩ := h
      have hsplit : ("diff --git ".toList ++ more) ++ ['\n'] = stripRight part ++ ['\n'] := by
        rw [List.append_assoc, ← hmore, ← htext]
      exact ⟨more, (List.append_inj' hsplit rfl).1⟩
    rw [fromStart_of_start hstart, hagain, ← htext]
    exact ⟨0, hok⟩

theorem newlines_of_arrives {text part : List Char} (h : ∃ n, normalizeUnifiedDiffHunks (String.ofList part) =
      .ok { content := String.ofList text, repairedHunks := n }) : part.count '\n' = text.count '\n' := by
  obtain ⟨n, hok⟩ := h
  have hcount := Sandbox.normalize_newlines hok
  rw [String.toList_ofList, String.toList_ofList] at hcount
  exact hcount.symm

/-- A part after a newline of the diff has fewer newlines. -/
theorem count_inner {text before body after : List Char} (h : DiffText text)
    (htext : text = before ++ (body ++ after)) (hbefore : '\n' ∈ before) :
    (fromStart (strip body)).count '\n' < text.count '\n' := by
  have hone : 1 ≤ before.count '\n' := List.count_pos_iff.mpr hbefore
  by_cases hnil : strip body = []
  · have hempty : fromStart (strip body) = [] := by rw [hnil]; rfl
    rw [hempty, htext, List.count_append]
    show 0 < _
    omega
  · obtain ⟨left, right, hbody⟩ := strip_parts body
    obtain ⟨front, c, hlast, hc⟩ := stripRight_last hnil
    have hwhole : text = (before ++ (left ++ front)) ++ c :: (right ++ after) := by
      rw [htext, hbody, show strip body = front ++ [c] from hlast]
      simp [List.append_assoc]
    have hends : '\n' ∈ right ++ after := by
      obtain ⟨more, hmore⟩ := h
      rw [← List.append_assoc] at hmore
      rcases List.eq_nil_or_concat (right ++ after) with hnone | ⟨tail, d, hd⟩
      · rw [hnone] at hwhole
        have hc' := (List.append_inj' (hmore.symm.trans hwhole) rfl).2
        obtain ⟨rfl, -⟩ := List.cons.inj hc'
        exact absurd hc (by decide)
      · rw [hd] at hwhole ⊢
        have hlast' : ("diff --git ".toList ++ more) ++ ['\n'] =
            ((before ++ (left ++ front)) ++ c :: tail) ++ [d] := by
          rw [← hmore, hwhole]
          simp [List.append_assoc]
        obtain ⟨rfl, -⟩ := List.cons.inj (List.append_inj' hlast' rfl).2
        simp
    have hrest : 1 ≤ (right ++ after).count '\n' := List.count_pos_iff.mpr hends
    have hstart := count_fromStart (strip body)
    have hcount : text.count '\n' =
        before.count '\n' + left.count '\n' + (strip body).count '\n' + (right ++ after).count '\n' := by
      conv_lhs => rw [htext, hbody]
      simp only [List.count_append]
      omega
    omega

theorem strip_text {text : List Char} (h : DiffText text) : strip text ≠ [] ∧ strip text <+: text := by
  rw [strip_part h (List.prefix_refl text)]
  refine ⟨fun hnil => ?_, stripRight_prefixed text⟩
  obtain ⟨spaces, heq, hspaces⟩ := stripRight_parts text
  obtain ⟨more, rfl⟩ := h
  rw [hnil, List.nil_append] at heq
  exact absurd (hspaces 'd' (by rw [← heq]; exact List.mem_cons_self)) (by decide)

/-- A bare diff. -/
theorem bare_arrives {text : List Char} (h : DiffText text) :
    (∃ n, normalizeUnifiedDiffHunks (extractUnifiedDiff (String.ofList text)) =
        .ok { content := String.ofList text, repairedHunks := n }) ↔
      ¬ Fenced text ∧ text = stripRight text ++ ['\n'] ∧
        normalizeUnifiedDiffHunks (String.ofList text) =
          .ok { content := String.ofList text, repairedHunks := 0 } := by
  obtain ⟨hne, hpre⟩ := strip_text h
  have hstrip := strip_part h (List.prefix_refl text)
  have hfenced : text = stripRight text ++ ['\n'] → (Fenced text ↔ Fenced (strip text)) := fun hends => by
    conv_lhs => rw [hends]
    rw [fenced_concat, hstrip]
  unfold extractUnifiedDiff
  simp only [String.toList_ofList]
  rw [if_neg hne]
  cases hsearch : searchFence (strip text) with
  | none =>
    have hnone : ¬ Fenced (strip text) := (searchFence_eq_none_iff _).mp hsearch
    have hpart := arrives_part h (List.prefix_refl text)
    show (∃ n, normalizeUnifiedDiffHunks (String.ofList (fromStart (strip text))) = _) ↔ _
    rw [hpart]
    exact ⟨fun hok => ⟨fun hf => hnone ((hfenced hok.1).mp hf), hok⟩, And.right⟩
  | some body =>
    have hsome : Fenced (strip text) := by
      by_contra hnone
      rw [(searchFence_eq_none_iff _).mpr hnone] at hsearch
      exact absurd hsearch.symm (Option.some_ne_none body)
    refine ⟨fun harrives => ?_, fun hok => absurd ((hfenced hok.2.1).mpr hsome) hok.1⟩
    exfalso
    have hcount := newlines_of_arrives harrives
    obtain ⟨before, tag, blank, after, -, -, -, heq⟩ := searchFence_some hsearch
    obtain ⟨tail, htail⟩ := hpre
    have hinner : text =
        (before ++ (ticks ++ (tag.toList ++ (blank ++ ['\n'])))) ++ (body ++ (ticks ++ after ++ tail)) := by
      rw [← htail, heq]
      simp [List.append_assoc]
    have hless := count_inner h hinner (by simp)
    rw [hcount] at hless
    exact Nat.lt_irrefl _ hless

/-! ## Fenced answers -/

theorem fenceBody_none {text : List Char} (h : ¬ ticks <+: text) : fenceBody text = none := by
  have hnone : after? ticks text = none := if_neg fun hpre => h (List.isPrefixOf_iff_prefix.mp hpre)
  unfold fenceBody
  rw [hnone]
  rfl

theorem searchFence_skip {before : List Char} (h : '`' ∉ before) (text : List Char) :
    searchFence (before ++ text) = searchFence text := by
  induction before with
  | nil => rfl
  | cons c before ih =>
    obtain ⟨hc, hbefore⟩ := not_or.mp fun hor => h (List.mem_cons.mpr hor)
    have hnone : fenceBody (c :: (before ++ text)) = none := fenceBody_none fun hpre => by
      obtain ⟨tail, htail⟩ := hpre
      have hfirst : '`' :: ('`' :: '`' :: tail) = c :: (before ++ text) := htail
      exact hc (List.cons.inj hfirst).1
    rw [List.cons_append, searchFence, hnone, Option.none_or, ih hbefore]

/-- Of more than three backticks the last three count. -/
theorem searchFence_ticks (extra : Nat) {text : List Char} (h : text.head? ≠ some '`') :
    searchFence (List.replicate (extra + 3) '`' ++ text) = (fenceBody (ticks ++ text)).or (searchFence text) := by
  induction extra with
  | zero =>
    have hnone (front : List Char) (hfront : front = ['`'] ∨ front = ['`', '`']) : fenceBody (front ++ text) = none :=
      fenceBody_none fun hpre => by
        obtain ⟨tail, htail⟩ := hpre
        have hticks : '`' :: '`' :: '`' :: tail = front ++ text := htail
        rcases hfront with rfl | rfl
        · obtain ⟨-, htext⟩ := List.cons.inj hticks
          exact h (by rw [← show _ = text from htext]; rfl)
        · obtain ⟨-, htext⟩ := List.cons.inj (List.cons.inj hticks).2
          exact h (by rw [← show _ = text from htext]; rfl)
    show (fenceBody (ticks ++ text)).or ((fenceBody (['`', '`'] ++ text)).or
      ((fenceBody (['`'] ++ text)).or (searchFence text))) = _
    rw [hnone _ (.inl rfl), hnone _ (.inr rfl), Option.none_or, Option.none_or]
  | succ extra ih =>
    have hnone : fenceBody ('`' :: (List.replicate (extra + 3) '`' ++ text)) = none := by
      show fenceBody (ticks ++ ('`' :: (List.replicate extra '`' ++ text))) = none
      unfold fenceBody
      rw [after?_append]
      rfl
    show (fenceBody ('`' :: (List.replicate (extra + 3) '`' ++ text))).or
      (searchFence (List.replicate (extra + 3) '`' ++ text)) = _
    rw [hnone, Option.none_or, ih]

/-- Before a newline the pattern matches known info strings only. -/
theorem supported_of_body {info rest body : List Char} (hinfo : '\n' ∉ info)
    (h : fenceBody (ticks ++ (info ++ '\n' :: rest)) = some body) : Supported info := by
  obtain ⟨tag, blank, after, htag, hblank, -, heq⟩ := fenceBody_some h
  have htagline : '\n' ∉ tag.toList := by
    have htags : ∀ tag ∈ ["", "diff", "patch"], '\n' ∉ tag.toList := by decide
    exact htags tag htag
  rw [List.append_cancel_left_eq] at heq
  rcases List.append_eq_append_iff.mp heq with ⟨front, hfront, hrest⟩ | ⟨front, hfront, hrest⟩
  · cases front with
    | nil => exact ⟨tag, htag, [], by rw [hfront, List.append_nil, List.append_nil], nofun⟩
    | cons c front =>
      obtain ⟨rfl, -⟩ := List.cons.inj hrest
      exact absurd (by rw [hfront]; simp) htagline
  · refine ⟨tag, htag, front, hfront, ?_⟩
    rcases List.append_eq_append_iff.mp hrest with ⟨more, hmore, hline⟩ | ⟨more, hmore, -⟩
    · cases more with
      | nil =>
        rw [List.append_nil] at hmore
        exact hmore ▸ hblank
      | cons c more =>
        obtain ⟨rfl, -⟩ := List.cons.inj hline
        exact absurd (by rw [hfront, hmore]; simp) hinfo
    · exact fun c hc => hblank c (by rw [hmore]; exact List.mem_append_left _ hc)

/-- The text before the first fence is the diff, or the part before a fence in it. -/
theorem beforeFence_text {text after : List Char} (h : DiffText text) :
    ∃ body, beforeFence (text ++ (ticks ++ after)) = some body ∧ body <+: text ∧
      (ticks <:+: text ∧ body.length + 3 ≤ text.length ∨ ¬ ticks <:+: text ∧ body = text) := by
  obtain ⟨body, hbody, hpre⟩ := beforeFence_append text after
  refine ⟨body, hbody, hpre, ?_⟩
  by_cases hticks : ticks <:+: text
  · obtain ⟨front, rest, rfl⟩ := hticks
    obtain ⟨body', hbody', hfront⟩ := beforeFence_append front (rest ++ (ticks ++ after))
    have hsame : front ++ ticks ++ rest ++ (ticks ++ after) = front ++ (ticks ++ (rest ++ (ticks ++ after))) := by
      simp only [List.append_assoc]
    rw [hsame, hbody'] at hbody
    obtain rfl := Option.some.inj hbody
    have hlength := hfront.length_le
    refine .inl ⟨⟨front, rest, rfl⟩, ?_⟩
    rw [List.length_append, List.length_append]
    show body'.length + 3 ≤ front.length + 3 + rest.length
    omega
  · refine .inr ⟨hticks, ?_⟩
    obtain ⟨after', heq, -⟩ := beforeFence_some hbody
    obtain ⟨rest, hrest⟩ := hpre
    rcases List.eq_nil_or_concat rest with rfl | ⟨front, c, hlast⟩
    · rw [← hrest, List.append_nil]
    · exfalso
      rw [← hrest, List.append_assoc, List.append_cancel_left_eq] at heq
      rcases List.append_eq_append_iff.mp heq with ⟨more, hmore, -⟩ | ⟨more, hmore, -⟩
      · obtain ⟨tail, htail⟩ := h
        rw [← List.append_assoc] at htail
        have hends : (body ++ front) ++ [c] = ("diff --git ".toList ++ tail) ++ ['\n'] := by
          rw [← htail, ← hrest, hlast]
          simp [List.append_assoc]
        obtain ⟨rfl, -⟩ := List.cons.inj (List.append_inj' hends rfl).2
        have hmem : '\n' ∈ ticks := by
          rw [hmore, hlast]
          simp
        exact absurd hmem (by decide)
      · exact hticks ⟨body, more, by rw [← hrest, hmore, List.append_assoc]⟩

/-- In a fenced block with a known info string the group is the diff up to its first fence. -/
theorem searchFence_supported {fence : Fence} (hsupported : Supported fence.info.chars) {text : List Char}
    (h : DiffText text) :
    ∃ body, searchFence (answer (some fence) text) = some body ∧ body <+: text ∧
      (ticks <:+: text ∧ body.length + 3 ≤ text.length ∨ ¬ ticks <:+: text ∧ body = text) := by
  obtain ⟨tag, htag, blank, hinfo, hblank⟩ := hsupported
  have hticks : fence.ticks = ticks ++ List.replicate fence.extra '`' := List.replicate_succ
  obtain ⟨more, left, hbody, hrest, hmore⟩ := fenceBody_parts htag hblank (text ++ fence.ticks)
  have hnil : more = [] := by
    cases more with
    | nil => rfl
    | cons c more =>
      obtain ⟨tail, rfl⟩ := h
      have hfirst : 'd' :: _ = c :: (more ++ left) := hrest
      obtain ⟨rfl, -⟩ := List.cons.inj hfirst
      exact absurd (hmore 'd' List.mem_cons_self) (by decide)
  subst hnil
  obtain rfl : text ++ fence.ticks = left := hrest
  obtain ⟨body, hfront, hcases⟩ := @beforeFence_text text (List.replicate fence.extra '`') h
  refine ⟨body, ?_, hcases⟩
  show searchFence (List.replicate (fence.extra + 3) '`' ++ _) = _
  rw [searchFence_ticks _ fence.head, hinfo, List.append_assoc, hbody, hticks, hfront, Option.some_or]

/-- In one with another info string nothing of the block's own fences is matched. -/
theorem searchFence_unsupported {fence : Fence} (hunsupported : ¬ Supported fence.info.chars) (text : List Char) :
    searchFence (answer (some fence) text) = searchFence (text ++ fence.ticks) := by
  have hnone : fenceBody (ticks ++ (fence.info.chars ++ '\n' :: (text ++ fence.ticks))) = none := by
    cases hbody : fenceBody (ticks ++ (fence.info.chars ++ '\n' :: (text ++ fence.ticks))) with
    | none => rfl
    | some body => exact absurd (supported_of_body fence.info.single hbody) hunsupported
  have hskip : '`' ∉ fence.info.chars ++ ['\n'] := by
    simpa using fence.plain
  show searchFence (List.replicate (fence.extra + 3) '`' ++ _) = _
  rw [searchFence_ticks _ fence.head, hnone, Option.none_or, ← List.singleton_append, ← List.append_assoc,
    searchFence_skip hskip]

theorem strip_answer (fence : Fence) (text : List Char) :
    strip (answer (some fence) text) = answer (some fence) text := by
  have hends : answer (some fence) text =
      (fence.ticks ++ (fence.info.chars ++ '\n' :: (text ++ List.replicate (fence.extra + 2) '`'))) ++ ['`'] := by
    have hticks : fence.ticks = List.replicate (fence.extra + 2) '`' ++ ['`'] := List.replicate_succ'
    conv_lhs => rw [answer, hticks]
    rw [hticks]
    simp only [List.append_assoc, List.cons_append]
  exact strip_of_ends (by decide : isSpace '`' = false) (by decide : isSpace '`' = false) rfl hends

/-- Taken with what is around it, the diff has one newline more. -/
theorem count_outer {text : List Char} (h : DiffText text) (fence : Fence) :
    text.count '\n' < (fromStart (answer (some fence) text)).count '\n' := by
  have hwhole : answer (some fence) text =
      (fence.ticks ++ (fence.info.chars ++ ['\n'])) ++ (text ++ fence.ticks) := by
    rw [answer]
    simp only [List.append_assoc, List.singleton_append]
  obtain ⟨i, hi, hle⟩ := find?_append (h.start.trans (List.prefix_append text fence.ticks))
    (fence.ticks ++ (fence.info.chars ++ ['\n']))
  rw [← hwhole] at hi
  have hmem : i ∈ diffStarts (answer (some fence) text) :=
    List.mem_filterMap.mpr ⟨"diff --git ", List.mem_cons_self, hi⟩
  unfold fromStart
  cases hmin : (diffStarts (answer (some fence) text)).min? with
  | none =>
    rw [List.min?_eq_none_iff.mp hmin] at hmem
    exact absurd hmem List.not_mem_nil
  | some start =>
    obtain ⟨hstart, hleast⟩ := List.min?_eq_some_iff.mp hmin
    obtain ⟨mark, hmark, hfound⟩ := List.mem_filterMap.mp hstart
    have hdrop : (answer (some fence) text).drop start =
        (fence.ticks ++ (fence.info.chars ++ ['\n'])).drop start ++ (text ++ fence.ticks) := by
      rw [hwhole, List.drop_append_of_le_length ((hleast i hmem).trans hle)]
    have hfirst : ∃ c rest, (answer (some fence) text).drop start = c :: rest ∧ isSpace c = false := by
      obtain ⟨tail, htail⟩ := find?_some hfound
      rw [← htail]
      simp only [List.mem_cons, List.not_mem_nil, or_false] at hmark
      rcases hmark with rfl | rfl | rfl
      · exact ⟨'d', _, rfl, by decide⟩
      · exact ⟨'-', _, rfl, by decide⟩
      · exact ⟨'-', _, rfl, by decide⟩
    have hlast : ∃ front, (answer (some fence) text).drop start = front ++ ['`'] := by
      have hticks : fence.ticks = List.replicate (fence.extra + 2) '`' ++ ['`'] := List.replicate_succ'
      exact ⟨_, by rw [hdrop, hticks, ← List.append_assoc, ← List.append_assoc]⟩
    obtain ⟨c, rest, hc, hspace⟩ := hfirst
    obtain ⟨front, hfront⟩ := hlast
    show _ < (strip ((answer (some fence) text).drop start) ++ ['\n']).count '\n'
    rw [strip_of_ends hspace (by decide : isSpace '`' = false) hc hfront, hdrop]
    simp only [List.count_append]
    have hone : ['\n'].count '\n' = 1 := rfl
    omega

/-- A block with an unknown info string does not arrive as the diff. -/
theorem unsupported_lost {fence : Fence} (hunsupported : ¬ Supported fence.info.chars) {text : List Char}
    (h : DiffText text) :
    ¬ ∃ n, normalizeUnifiedDiffHunks (extractUnifiedDiff (String.ofList (answer (some fence) text))) =
        .ok { content := String.ofList text, repairedHunks := n } := by
  intro harrives
  have hne : answer (some fence) text ≠ [] := List.append_ne_nil_of_left_ne_nil (List.cons_ne_nil _ _) _
  unfold extractUnifiedDiff at harrives
  simp only [String.toList_ofList, strip_answer] at harrives
  rw [if_neg hne, searchFence_unsupported hunsupported] at harrives
  cases hsearch : searchFence (text ++ fence.ticks) with
  | none =>
    rw [hsearch] at harrives
    have hcount := newlines_of_arrives harrives
    have hmore := count_outer h fence
    rw [hcount] at hmore
    exact Nat.lt_irrefl _ hmore
  | some body =>
    rw [hsearch] at harrives
    have hcount := newlines_of_arrives harrives
    obtain ⟨before, tag, blank, after, -, -, hlast, heq⟩ := searchFence_some hsearch
    have hparts : text ++ fence.ticks =
        ((before ++ (ticks ++ (tag.toList ++ (blank ++ ['\n'])))) ++ body) ++ (ticks ++ after) := by
      rw [heq]
      simp [List.append_assoc]
    have hinner : ∃ more, text = (before ++ (ticks ++ (tag.toList ++ (blank ++ ['\n'])))) ++ (body ++ more) := by
      rcases List.append_eq_append_iff.mp hparts with ⟨more, hmore, hticks⟩ | ⟨more, hmore, -⟩
      · rcases List.eq_nil_or_concat more with rfl | ⟨front, c, rfl⟩
        · exact ⟨[], by rw [List.append_nil] at hmore ⊢; exact hmore.symm⟩
        · exfalso
          have hc : c = '`' := by
            have hmem : c ∈ fence.ticks := by
              rw [hticks]
              simp
            exact List.eq_of_mem_replicate hmem
          subst hc
          rcases List.eq_nil_or_concat body with rfl | ⟨body', d, rfl⟩
          · have hends : (before ++ (ticks ++ (tag.toList ++ blank))) ++ ['\n'] = (text ++ front) ++ ['`'] := by
              simpa [List.append_assoc] using hmore
            exact absurd (List.append_inj' hends rfl).2 (by decide)
          · have hends : ((before ++ (ticks ++ (tag.toList ++ (blank ++ ['\n'])))) ++ body') ++ [d] =
                (text ++ front) ++ ['`'] := by
              simpa [List.append_assoc] using hmore
            obtain ⟨rfl, -⟩ := List.cons.inj (List.append_inj' hends rfl).2
            exact hlast (by simp)
      · exact ⟨more, by rw [hmore, List.append_assoc]⟩
    obtain ⟨more, htext⟩ := hinner
    have hless := count_inner h htext (by simp)
    rw [hcount] at hless
    exact Nat.lt_irrefl _ hless

/-- A diff in a fenced block. -/
theorem fenced_arrives {text : List Char} (h : DiffText text) (fence : Fence) :
    (∃ n, normalizeUnifiedDiffHunks (extractUnifiedDiff (String.ofList (answer (some fence) text))) =
        .ok { content := String.ofList text, repairedHunks := n }) ↔
      Readable (some fence) text ∧ text = stripRight text ++ ['\n'] ∧
        normalizeUnifiedDiffHunks (String.ofList text) =
          .ok { content := String.ofList text, repairedHunks := 0 } := by
  by_cases hsupported : Supported fence.info.chars
  · obtain ⟨body, hsearch, hpre, hcases⟩ := searchFence_supported hsupported h
    have hne : answer (some fence) text ≠ [] := List.append_ne_nil_of_left_ne_nil (List.cons_ne_nil _ _) _
    have hpart := arrives_part h hpre
    unfold extractUnifiedDiff
    simp only [String.toList_ofList, strip_answer]
    rw [if_neg hne, hsearch]
    refine hpart.trans ?_
    rcases hcases with ⟨hticks, hlength⟩ | ⟨hticks, rfl⟩
    · refine ⟨fun hok => ?_, fun hok => absurd hticks hok.1.2⟩
      exfalso
      have hwhole := congrArg List.length hok.1
      have hshort := (stripRight_prefixed body).length_le
      rw [List.length_append] at hwhole
      simp only [List.length_singleton] at hwhole
      omega
    · exact ⟨fun hok => ⟨⟨hsupported, hticks⟩, hok⟩, And.right⟩
  · exact ⟨fun harrives => absurd harrives (unsupported_lost hsupported h), fun hok => absurd hok.1.1 hsupported⟩

/-- The diffs that arrive in the sandbox as the model wrote them. -/
theorem extract_gitDiff (wrapping : Option Fence) (file : FileDiff) (rest : GitDiff) :
    (∃ n, normalizeUnifiedDiffHunks
        (extractUnifiedDiff (String.ofList (answer wrapping (GitDiff.text (file :: rest))))) =
        .ok { content := String.ofList (GitDiff.text (file :: rest)), repairedHunks := n }) ↔
      Readable wrapping (GitDiff.text (file :: rest)) ∧ EndsSolid (GitDiff.text (file :: rest)) ∧
        ∀ f ∈ file :: rest, f.Kept := by
  have h := diffText_text file rest
  rw [← Sandbox.normalize_gitDiff, ← EndsSolid.iff h]
  cases wrapping with
  | none => exact bare_arrives h
  | some fence => exact fenced_arrives h fence

theorem newline_not_mem_nil : '\n' ∉ ([] : List Char) := List.not_mem_nil

/-- A diff whose last line is an empty line of the file. -/
def blankDiff : GitDiff :=
  [{ paths := ⟨"a/app.py b/app.py".toList, by decide⟩
     extended := []
     names := some (⟨"a/app.py".toList, by decide⟩, ⟨"b/app.py".toList, by decide⟩)
     hunks :=
       [{ oldStart := 1
          newStart := 1
          oldShort := false
          newShort := false
          heading := ⟨[], newline_not_mem_nil⟩
          lines :=
            [⟨.deleted, "old".toList, by decide⟩, ⟨.added, "new".toList, by decide⟩,
              ⟨.context, "run()".toList, by decide⟩, ⟨.context, [], newline_not_mem_nil⟩]
          nonempty := List.cons_ne_nil _ _ }]
     named := nofun }]

theorem blank_lost :
    String.ofList blankDiff.text =
      "diff --git a/app.py b/app.py\n--- a/app.py\n+++ b/app.py\n@@ -1,3 +1,3 @@\n-old\n+new\n run()\n \n" ∧
    normalizeUnifiedDiffHunks (extractUnifiedDiff (String.ofList (answer none blankDiff.text))) =
      .ok { content :=
              "diff --git a/app.py b/app.py\n--- a/app.py\n+++ b/app.py\n@@ -1,2 +1,2 @@\n-old\n+new\n run()\n"
            repairedHunks := 1 } := by
  decide +kernel

end CodeMate.Llm
