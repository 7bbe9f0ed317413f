import CodeMate.Framework.Coverage

/-!
# The lines a citation covers

`normalizeLineRanges` reads the expected lines of a retrieval case, a range or
nested lists of ranges, as a list of `LineRange`s, and `citationLineOverlap` is
the share of them that a citation covers. The code adds up the lines range by
range, so a line that several ranges name counts several times:
`citationLineOverlap_eq_share_iff` gives exactly when the score is a share of
lines, and `shareOfLines_congr` that this measure only looks at the set of
expected lines.
-/

namespace CodeMate.Evaluation

open Framework Framework.Coverage

/-! ## Expected ranges -/

/-- A range of lines, first and last included. -/
structure LineRange where
  start : ℤ
  stop : ℤ
  start_pos : 0 < start
  start_le : start ≤ stop
  deriving DecidableEq

namespace LineRange

noncomputable def lines (r : LineRange) : Finset ℤ := Finset.Icc r.start r.stop

/-- `[(start, end)] if start > 0 and end >= start else []`. -/
def checked (start stop : ℤ) : List LineRange :=
  if h : 0 < start ∧ start ≤ stop then [⟨start, stop, h.1, h.2⟩] else []

end LineRange

/-- What the reader of `expected_lines` tells apart of a JSON value. Python counts booleans as
integers; texts, floats and `null` are `other`. -/
inductive Lines
  | int (n : ℤ)
  | list (items : List Lines)
  | dict (members : List (String × Lines))
  | other

namespace Lines

/-- `value if isinstance(value, int) else None`. -/
def int? : Lines → Option ℤ
  | .int n => some n
  | _ => none

/-- `members.get(key, default)` with the default not a value of the dict. -/
def get (members : List (String × Lines)) (key : String) (default : Option Lines) : Option Lines :=
  (members.lookup key).or default

end Lines

/-- The range that `start_line` or `start` and `end_line` or `end` give; the end defaults to the start. -/
def dictRange (members : List (String × Lines)) : List LineRange :=
  let start := Lines.get members "start_line" (Lines.get members "start" none)
  let stop := Lines.get members "end_line" (Lines.get members "end" start)
  match start.bind Lines.int?, stop.bind Lines.int? with
  | some first, some last => LineRange.checked first last
  | _, _ => []

mutual

/-- `_normalize_line_ranges`, of a dict or a list. -/
def normalizeLineRanges : Lines → List LineRange
  | .dict members => (nestedRanges members).getD (dictRange members)
  | .list items => listRanges items
  | .int _ => []
  | .other => []

/-- A list is one range if it is two integers, and otherwise what its dicts and lists give. -/
def listRanges : List Lines → List LineRange
  | [.int start, .int stop] => LineRange.checked start stop
  | items => itemRanges items

/-- `ranges.extend(self._normalize_line_ranges(item))` for the items that are dicts or lists. -/
def itemRanges : List Lines → List LineRange
  | [] => []
  | item :: items => normalizeLineRanges item ++ itemRanges items

/-- The ranges under the key `ranges`, when a list is there. -/
def nestedRanges : List (String × Lines) → Option (List LineRange)
  | [] => none
  | (key, value) :: members =>
    if key = "ranges" then
      match value with
      | .list items => some (listRanges items)
      | _ => none
    else nestedRanges members

end

/-! ## The score -/

/-- What a case reads of a citation; a chunk without a location has no lines. -/
structure Citation where
  filePath : String := ""
  startLine : Option ℤ
  endLine : Option ℤ

/-- `sum(f(range) for range in ranges)`. -/
def sumRanges (f : LineRange → ℤ) : List LineRange → ℤ
  | [] => 0
  | r :: ranges => f r + sumRanges f ranges

/-- `sum(range_end - range_start + 1 ...)`. -/
def expectedLineCount (expectedRanges : List LineRange) : ℤ :=
  sumRanges (fun r => r.stop - r.start + 1) expectedRanges

/-- `sum(max(0, min(end, range_end) - max(start, range_start) + 1) ...)`. -/
def overlappingLines (start stop : ℤ) (expectedRanges : List LineRange) : ℤ :=
  sumRanges (fun r => max 0 (min stop r.stop - max start r.start + 1)) expectedRanges

/-- `_citation_line_overlap`. -/
def citationLineOverlap (citation : Citation) (expectedRanges : List LineRange) : ℚ :=
  match citation.startLine, citation.endLine with
  | some start, some stop =>
    if stop < start then 0
    else if expectedLineCount expectedRanges ≤ 0 then 0
    else min 1 (overlappingLines start stop expectedRanges / expectedLineCount expectedRanges)
  | _, _ => 0

/-- What `_retrieval_case_metrics` says of the lines of a case, without the ranks it derives. -/
structure CaseMetrics where
  overlaps : List ℚ
  relevances : List Bool
  linesRequired : Bool
  lineOverlap : Option ℚ
  lineHit : Option Bool
  citationPrecision : ℚ

/-- The overlap of one citation: of the wrong file none, and all of it where no lines are expected. -/
def caseOverlap (expectedFile : String) (expectedRanges : List LineRange) (citation : Citation) : ℚ :=
  if citation.filePath = expectedFile ∧ expectedRanges ≠ [] then citationLineOverlap citation expectedRanges
  else if citation.filePath = expectedFile then 1 else 0

def caseRelevance (expectedFile : String) (expectedRanges : List LineRange) (citation : Citation) : Bool :=
  citation.filePath = expectedFile ∧
    (expectedRanges = [] ∨ 0 < caseOverlap expectedFile expectedRanges citation)

/-- `_retrieval_case_metrics`. -/
def retrievalCaseMetrics (citations : List Citation) (expectedFile : String) (expectedLines : Lines) : CaseMetrics :=
  let expectedRanges := normalizeLineRanges expectedLines
  let overlaps := citations.map (caseOverlap expectedFile expectedRanges)
  let relevances := citations.map (caseRelevance expectedFile expectedRanges)
  let maxOverlap := overlaps.foldl max 0
  { overlaps := overlaps, relevances := relevances, linesRequired := expectedRanges ≠ [],
    lineOverlap := if expectedRanges ≠ [] then some maxOverlap else none,
    lineHit := if expectedRanges ≠ [] then some (0 < maxOverlap) else none,
    citationPrecision := if citations = [] then 0 else (relevances.count true : ℚ) / citations.length }

/-! ## Sets of lines -/

noncomputable def Citation.lines (citation : Citation) : Finset ℤ :=
  match citation.startLine, citation.endLine with
  | some start, some stop => Finset.Icc start stop
  | _, _ => ∅

noncomputable def family (expectedRanges : List LineRange) : List (Finset ℤ) := expectedRanges.map LineRange.lines

/-- The lines that some range names. -/
noncomputable def expectedLines (expectedRanges : List LineRange) : Finset ℤ := covered (family expectedRanges)

/-- The number of distinct cited lines that are expected over the number of distinct expected lines. -/
noncomputable def shareOfLines (citation : Citation) (expectedRanges : List LineRange) : ℚ :=
  (citation.lines ∩ expectedLines expectedRanges).card / (expectedLines expectedRanges).card

/-- The share depends on the set of expected lines alone, so splitting, merging or repeating a
range leaves it. -/
theorem shareOfLines_congr {expectedRanges expectedRanges' : List LineRange}
    (h : expectedLines expectedRanges = expectedLines expectedRanges') (citation : Citation) :
    shareOfLines citation expectedRanges = shareOfLines citation expectedRanges' := by
  rw [shareOfLines, shareOfLines, h]

/-- The code's count of a range is the number of its lines. -/
theorem expectedLineCount_eq (expectedRanges : List LineRange) :
    expectedLineCount expectedRanges =
      shared (expectedLines expectedRanges) (family expectedRanges) := by
  have hsum (S : Finset ℤ) (ranges : List LineRange) (h : ∀ r ∈ ranges, r.lines ⊆ S) :
      expectedLineCount ranges = shared S (family ranges) := by
    induction ranges with
    | nil => rfl
    | cons r ranges ih =>
      have hr := r.start_le
      have hcard : (S ∩ r.lines).card = (r.stop + 1 - r.start).toNat := by
        rw [Finset.inter_eq_right.mpr (h r (List.mem_cons_self ..)), LineRange.lines, Int.card_Icc]
      have hrest := ih fun r' h' => h r' (List.mem_cons_of_mem _ h')
      simp only [expectedLineCount, sumRanges, family, List.map_cons, shared] at hrest ⊢
      rw [hrest, hcard]
      push_cast
      omega
  refine hsum _ _ fun r hr => ?_
  induction expectedRanges with
  | nil => simp at hr
  | cons r' ranges ih =>
    rcases List.mem_cons.mp hr with rfl | hr
    · exact Finset.subset_union_left
    · exact (ih hr).trans Finset.subset_union_right

theorem overlappingLines_eq (start stop : ℤ) (expectedRanges : List LineRange) :
    overlappingLines start stop expectedRanges =
      shared (Finset.Icc start stop) (family expectedRanges) := by
  induction expectedRanges with
  | nil => rfl
  | cons r ranges ih =>
    have hcard : (Finset.Icc start stop ∩ r.lines).card =
        (min stop r.stop + 1 - max start r.start).toNat := by
      have : Finset.Icc start stop ∩ r.lines = Finset.Icc (max start r.start) (min stop r.stop) := by
        ext x
        simp only [LineRange.lines, Finset.mem_inter, Finset.mem_Icc]
        omega
      rw [this, Int.card_Icc]
    simp only [overlappingLines, sumRanges, family, List.map_cons, shared] at ih ⊢
    rw [ih, hcard]
    push_cast
    omega

theorem expectedLines_nonempty {expectedRanges : List LineRange} :
    (expectedLines expectedRanges).Nonempty ↔ expectedRanges ≠ [] := by
  cases expectedRanges with
  | nil => simp [expectedLines, family, covered]
  | cons r ranges =>
    simp only [ne_eq, reduceCtorEq, not_false_eq_true, iff_true]
    exact ⟨r.start, Finset.mem_union_left _ (Finset.mem_Icc.mpr ⟨le_refl _, r.start_le⟩)⟩

/-- The code's score: what all the ranges have in common with the citation over all they name. -/
theorem citationLineOverlap_eq (citation : Citation) (expectedRanges : List LineRange) :
    citationLineOverlap citation expectedRanges =
      shared citation.lines (family expectedRanges) /
        shared (expectedLines expectedRanges) (family expectedRanges) := by
  have hzero : shared (∅ : Finset ℤ) (family expectedRanges) = 0 := by
    rw [← sum_mentions, Finset.sum_empty]
  rw [citationLineOverlap, Citation.lines]
  split
  · next start stop _ _ =>
    split_ifs with hlt hcount
    · rw [Finset.Icc_eq_empty (by omega), hzero]
      simp
    · rw [expectedLineCount_eq] at hcount
      have : shared (expectedLines expectedRanges) (family expectedRanges) = 0 := by omega
      simp [this]
    · rw [expectedLineCount_eq] at hcount ⊢
      rw [overlappingLines_eq]
      have hle := shared_le (Finset.Icc start stop) (family expectedRanges)
      rw [← expectedLines] at hle
      push_cast
      refine min_eq_right ((div_le_one ?_).mpr ?_)
      · exact_mod_cast (by omega : 0 < shared (expectedLines expectedRanges) (family expectedRanges))
      · exact_mod_cast hle
  · rw [hzero]
    simp

/-- The score counts lines exactly when the ranges repeat the cited expected lines as often, on
average, as all the expected ones, and it always lies between 0 and 1. It counts lines for every
citation exactly when the ranges name all their lines equally often. -/
theorem citationLineOverlap_eq_share_iff (expectedRanges : List LineRange) :
    (∀ citation,
      (citationLineOverlap citation expectedRanges = shareOfLines citation expectedRanges ↔
        Spread citation.lines (family expectedRanges)) ∧
      0 ≤ citationLineOverlap citation expectedRanges ∧ citationLineOverlap citation expectedRanges ≤ 1) ∧
    ((∀ citation, citationLineOverlap citation expectedRanges = shareOfLines citation expectedRanges) ↔
      Even (family expectedRanges)) := by
  have hiff (citation : Citation) :
      citationLineOverlap citation expectedRanges = shareOfLines citation expectedRanges ↔
        Spread citation.lines (family expectedRanges) := by
    rw [citationLineOverlap_eq, shareOfLines]
    rcases (expectedLines expectedRanges).eq_empty_or_nonempty with hempty | hne
    · have hcovered : covered (family expectedRanges) = ∅ := hempty
      have hzero : shared (∅ : Finset ℤ) (family expectedRanges) = 0 := by
        rw [← sum_mentions, Finset.sum_empty]
      simp [hempty, Spread, hcovered, hzero]
    · exact share_eq_iff citation.lines hne
  refine ⟨fun citation => ⟨hiff citation, ?_, ?_⟩, fun h => ?_, fun h citation => ?_⟩
  · rw [citationLineOverlap_eq]
    positivity
  · rw [citationLineOverlap_eq]
    exact div_le_one_of_le₀ (by exact_mod_cast shared_le _ _) (by positivity)
  · -- a citation of one line compares how often that line is named with all of them
    refine even_iff_spread_singletons.mpr fun x _ => ?_
    have := (hiff ⟨"", some x, some x⟩).mp (h _)
    simpa only [Citation.lines, Finset.Icc_self] using this
  · exact (hiff citation).mpr (spread_of_even h _)

/-- Whether a citation scores at all is a matter of sets: repeated ranges change how much, never whether. -/
theorem citationLineOverlap_pos {citation : Citation} {expectedRanges : List LineRange} :
    0 < citationLineOverlap citation expectedRanges ↔
      (citation.lines ∩ expectedLines expectedRanges).Nonempty := by
  have hshared : shared (citation.lines ∩ expectedLines expectedRanges) (family expectedRanges) =
      shared citation.lines (family expectedRanges) := shared_inter_covered ..
  have hcard : shared (citation.lines ∩ expectedLines expectedRanges) (family expectedRanges) =
      (citation.lines ∩ expectedLines expectedRanges).card +
        surplus (citation.lines ∩ expectedLines expectedRanges) (family expectedRanges) :=
    shared_eq_add Finset.inter_subset_right
  rw [citationLineOverlap_eq]
  refine ⟨fun h => ?_, fun h => ?_⟩
  · rw [← Finset.card_pos]
    by_contra hnone
    have hempty := Finset.card_eq_zero.mp (by omega : (citation.lines ∩ expectedLines expectedRanges).card = 0)
    rw [← hshared, hempty, ← sum_mentions, Finset.sum_empty] at h
    simp at h
  · have hpos := Finset.card_pos.mpr h
    have htotal := shared_le citation.lines (family expectedRanges)
    rw [← expectedLines] at htotal
    exact div_pos (by exact_mod_cast (by omega)) (by exact_mod_cast (by omega))

/-- The citations that count as relevant are those of the expected file that cite an expected line,
or all of that file where no lines are expected. -/
theorem caseRelevance_iff {expectedFile : String} {expectedRanges : List LineRange} {citation : Citation} :
    caseRelevance expectedFile expectedRanges citation = true ↔
      citation.filePath = expectedFile ∧
        (expectedRanges = [] ∨ (citation.lines ∩ expectedLines expectedRanges).Nonempty) := by
  rw [caseRelevance, decide_eq_true_iff]
  refine and_congr_right fun hfile => or_congr_right' fun hne => ?_
  rw [caseOverlap, if_pos ⟨hfile, hne⟩, citationLineOverlap_pos]

/-- A case that names lines 1 to 10 twice and 11 to 20 once. -/
def repeatedRanges : List LineRange :=
  [⟨1, 10, by decide, by decide⟩, ⟨1, 10, by decide, by decide⟩, ⟨11, 20, by decide, by decide⟩]

/-- A citation of the first ten covers half of the lines and scores two thirds. -/
theorem citationLineOverlap_repeated :
    citationLineOverlap ⟨"src/orders.py", some 1, some 10⟩ repeatedRanges = 2 / 3 ∧
      shareOfLines ⟨"src/orders.py", some 1, some 10⟩ repeatedRanges = 1 / 2 := by
  have hlines : expectedLines repeatedRanges = Finset.Icc 1 20 := by
    ext x
    simp only [expectedLines, family, repeatedRanges, List.map_cons, List.map_nil, covered, LineRange.lines,
      Finset.mem_union, Finset.mem_Icc, Finset.notMem_empty, or_false]
    omega
  refine ⟨?_, ?_⟩
  · norm_num [citationLineOverlap, repeatedRanges, expectedLineCount, overlappingLines, sumRanges]
  · have hcited : (Citation.mk "src/orders.py" (some 1) (some 10)).lines ∩ Finset.Icc 1 20 = Finset.Icc 1 10 := by
      ext x
      simp only [Citation.lines, Finset.mem_inter, Finset.mem_Icc]
      omega
    rw [shareOfLines, hlines, hcited, Int.card_Icc, Int.card_Icc]
    rw [show ((10 : ℤ) + 1 - 1).toNat = 10 from rfl, show ((20 : ℤ) + 1 - 1).toNat = 20 from rfl]
    norm_num

end CodeMate.Evaluation
