import CodeMate.Framework.Ranking

/-!
# Reciprocal rank fusion

`reciprocalRankFusion` merges the keyword and the vector results: each list
credits a chunk, at its first rank there, with `1 / (RRF_K + rank)`, and the
chunks come out by descending score. The dict of fused results is a list with
one entry for each id. `fuseSource_score` says what one list adds, and
`reciprocalRankFusion_score` that the fusion scores with the credits of
`Framework.Ranking`, from which `reciprocalRankFusion_precedes` has its order.
-/

namespace CodeMate.Retrieval

open Framework.Ranking

/-- What the retrieval reads of a row of `code_chunks`. -/
structure CodeChunk where
  id : String
  repoId : String
  fileId : String
  startLine : Option ℤ
  endLine : Option ℤ
  deriving DecidableEq

structure RetrievalResult where
  chunk : CodeChunk
  score : ℚ
  source : String
  deriving DecidableEq

def RetrievalResult.id (result : RetrievalResult) : String := result.chunk.id

/-- The ids of a list of results, in their order. -/
def ids (results : List RetrievalResult) : List String := results.map RetrievalResult.id

/-! ## The code -/

/-- `RRF_K`. -/
def rrfK : ℕ := 60

/-- `1.0 / (self.RRF_K + rank)`. -/
def rrfTerm (rank : ℕ) : ℚ := 1 / ((rrfK + rank : ℕ) : ℚ)

/-- An entry of `fused`, with the sources that `source_signals` has for its id. -/
structure Fused where
  result : RetrievalResult
  signals : List String

/-- `existing.score += 1.0 / (RRF_K + rank)` and the signal of the source, in the entry of the
chunk's id or in a new one. -/
def credit (source : String) (rank : ℕ) (chunk : CodeChunk) : List Fused → List Fused
  | [] => [{ result := { chunk := chunk, score := 0 + rrfTerm rank, source := source }, signals := [source] }]
  | entry :: fused =>
    if entry.result.id = chunk.id then
      { result := { entry.result with score := entry.result.score + rrfTerm rank },
        signals := if source ∈ entry.signals then entry.signals else entry.signals ++ [source] } :: fused
    else entry :: credit source rank chunk fused

/-- The loop over the results of one source, from a rank on; a repeated id keeps its first rank. -/
def fuseSource (source : String) :
    (rank : ℕ) → List RetrievalResult → (seenIds : List String) → List Fused → List Fused
  | _, [], _, fused => fused
  | rank, result :: results, seenIds, fused =>
    if result.id ∈ seenIds then fuseSource source (rank + 1) results seenIds fused
    else fuseSource source (rank + 1) results (result.id :: seenIds) (credit source rank result.chunk fused)

/-- A result that several sources signal is a hybrid one. -/
def Fused.final (entry : Fused) : RetrievalResult :=
  if 1 < entry.signals.length then { entry.result with source := "hybrid" } else entry.result

/-- `key=lambda item: (-item.score, item.chunk.id)`. -/
def before (x y : RetrievalResult) : Bool := y.score < x.score ∨ (x.score = y.score ∧ x.id ≤ y.id)

/-- `_reciprocal_rank_fusion`. -/
def reciprocalRankFusion (keywordResults vectorResults : List RetrievalResult) : List RetrievalResult :=
  let fused := fuseSource "keyword" 1 keywordResults [] []
  let fused := fuseSource "vector" 1 vectorResults [] fused
  (fused.map Fused.final).mergeSort before

/-! ## What one list adds -/

def Fused.id (entry : Fused) : String := entry.result.id

/-- The score under an id, none being zero. -/
def scoreOf (fused : List Fused) (id : String) : ℚ :=
  match fused with
  | [] => 0
  | entry :: fused => if entry.id = id then entry.result.score else scoreOf fused id

@[simp] theorem Fused.final_id (entry : Fused) : entry.final.id = entry.id := by
  rw [Fused.final]
  split <;> rfl

@[simp] theorem Fused.final_score (entry : Fused) : entry.final.score = entry.result.score := by
  rw [Fused.final]
  split <;> rfl

theorem scoreOf_of_notMem {fused : List Fused} {id : String} (h : id ∉ fused.map Fused.id) :
    scoreOf fused id = 0 := by
  induction fused with
  | nil => rfl
  | cons entry fused ih =>
    simp only [List.map_cons, List.mem_cons, not_or] at h
    rw [scoreOf, if_neg (Ne.symm h.1), ih h.2]

theorem scoreOf_of_mem {fused : List Fused} (h : (fused.map Fused.id).Nodup) {entry : Fused}
    (hmem : entry ∈ fused) : scoreOf fused entry.id = entry.result.score := by
  induction fused with
  | nil => simp at hmem
  | cons e fused ih =>
    obtain ⟨hnot, hrest⟩ := List.nodup_cons.mp h
    rcases List.mem_cons.mp hmem with rfl | hmem
    · rw [scoreOf, if_pos rfl]
    · have hne : e.id ≠ entry.id := fun heq => hnot (heq ▸ List.mem_map_of_mem hmem)
      rw [scoreOf, if_neg hne, ih hrest hmem]

/-- A credit keeps the ids in their places and adds a new one at the end. -/
theorem credit_ids (source : String) (rank : ℕ) (chunk : CodeChunk) (fused : List Fused) :
    (credit source rank chunk fused).map Fused.id =
      if chunk.id ∈ fused.map Fused.id then fused.map Fused.id else fused.map Fused.id ++ [chunk.id] := by
  induction fused with
  | nil => rfl
  | cons entry fused ih =>
    rw [credit]
    by_cases h : entry.result.id = chunk.id
    · have hid : entry.id = chunk.id := h
      have hmem : chunk.id ∈ (entry :: fused).map Fused.id := by simp [hid]
      rw [if_pos h, if_pos hmem]
      rfl
    · have hne : ¬ chunk.id = entry.id := fun heq => h heq.symm
      simp only [if_neg h, List.map_cons, ih, List.mem_cons, hne, false_or]
      split <;> rfl

theorem credit_score (source : String) (rank : ℕ) (chunk : CodeChunk) (fused : List Fused) (id : String) :
    scoreOf (credit source rank chunk fused) id =
      scoreOf fused id + if id = chunk.id then rrfTerm rank else 0 := by
  induction fused with
  | nil =>
    by_cases h : id = chunk.id
    · subst h
      simp [credit, scoreOf, Fused.id, RetrievalResult.id]
    · have : chunk.id ≠ id := fun heq => h heq.symm
      simp [credit, scoreOf, Fused.id, RetrievalResult.id, h, this]
  | cons entry fused ih =>
    rw [credit]
    by_cases hentry : entry.result.id = chunk.id
    · rw [if_pos hentry, scoreOf, scoreOf]
      by_cases h : id = chunk.id
      · have hid : entry.id = id := hentry.trans h.symm
        rw [if_pos hid, if_pos h]
        exact if_pos hid
      · have hid : entry.id ≠ id := fun heq => h (heq.symm.trans hentry)
        rw [if_neg hid, if_neg h, add_zero]
        exact if_neg hid
    · rw [if_neg hentry, scoreOf, scoreOf]
      by_cases hid : entry.id = id
      · have h : id ≠ chunk.id := fun heq => hentry (hid.trans heq)
        rw [if_pos hid, if_pos hid, if_neg h, add_zero]
      · rw [if_neg hid, if_neg hid, ih]

/-- The weight of a first position: `1 / (RRF_K + rank)`, the ranks counted from one. -/
def rrfWeight : Weight where
  value i := rrfTerm (i + 1)
  pos i := by
    rw [rrfTerm]
    positivity
  lt {i j} h := by
    apply one_div_lt_one_div_of_lt
    · positivity
    · exact_mod_cast (by omega : rrfK + (i + 1) < rrfK + (j + 1))

/-- One list leaves the ids that were there and adds its own, each once. -/
theorem fuseSource_ids (source : String) (results : List RetrievalResult) (rank : ℕ) (seenIds : List String)
    (fused : List Fused) (hseen : seenIds ⊆ fused.map Fused.id) (h : (fused.map Fused.id).Nodup) :
    ((fuseSource source rank results seenIds fused).map Fused.id).Nodup ∧
      ∀ id, id ∈ (fuseSource source rank results seenIds fused).map Fused.id ↔
        id ∈ fused.map Fused.id ∨ id ∈ ids results := by
  induction results generalizing rank seenIds fused with
  | nil => simp [fuseSource, h, ids]
  | cons result results ih =>
    rw [fuseSource]
    by_cases hmem : result.id ∈ seenIds
    · rw [if_pos hmem]
      obtain ⟨hnodup, hids⟩ := ih (rank + 1) seenIds fused hseen h
      refine ⟨hnodup, fun id => ?_⟩
      rw [hids id]
      simp only [ids, List.map_cons, List.mem_cons]
      constructor
      · rintro (h | h)
        · exact Or.inl h
        · exact Or.inr (Or.inr h)
      · rintro (h | rfl | h)
        · exact Or.inl h
        · exact Or.inl (hseen hmem)
        · exact Or.inr h
    · rw [if_neg hmem]
      have hkeys := credit_ids source rank result.chunk fused
      have hin : ∀ id, id ∈ (credit source rank result.chunk fused).map Fused.id ↔
          id ∈ fused.map Fused.id ∨ id = result.id := by
        intro id
        rw [hkeys]
        split
        · next hold =>
          refine ⟨Or.inl, ?_⟩
          rintro (h | rfl)
          · exact h
          · exact hold
        · simp [RetrievalResult.id]
      have hnodup' : ((credit source rank result.chunk fused).map Fused.id).Nodup := by
        rw [hkeys]
        split
        · exact h
        · next hnew =>
          refine List.nodup_append.mpr ⟨h, by simp, fun a ha b hb heq => hnew ?_⟩
          rw [← List.mem_singleton.mp hb, ← heq]
          exact ha
      have hseen' : result.id :: seenIds ⊆ (credit source rank result.chunk fused).map Fused.id := by
        intro id hid
        rcases List.mem_cons.mp hid with rfl | hid
        · exact (hin _).mpr (Or.inr rfl)
        · exact (hin _).mpr (Or.inl (hseen hid))
      obtain ⟨hnodup, hids⟩ := ih (rank + 1) (result.id :: seenIds) _ hseen' hnodup'
      refine ⟨hnodup, fun id => ?_⟩
      rw [hids id, hin id]
      simp only [ids, List.map_cons, List.mem_cons]
      tauto

/-- One list adds the weight of the first rank it has an id at. -/
theorem fuseSource_score (source : String) (results : List RetrievalResult) (rank : ℕ) (seenIds : List String)
    (fused : List Fused) (id : String) :
    scoreOf (fuseSource source rank results seenIds fused) id =
      scoreOf fused id +
        if id ∈ ids results ∧ id ∉ seenIds then rrfTerm (rank + (ids results).idxOf id) else 0 := by
  induction results generalizing rank seenIds fused with
  | nil => simp [fuseSource, ids]
  | cons result results ih =>
    rw [fuseSource]
    have hids : ids (result :: results) = result.id :: ids results := rfl
    by_cases hmem : result.id ∈ seenIds
    · rw [if_pos hmem, ih, hids]
      by_cases hid : result.id = id
      · subst hid
        simp [hmem]
      · have hid' : id ≠ result.id := Ne.symm hid
        rw [List.idxOf_cons_ne _ hid]
        simp only [List.mem_cons, hid', false_or]
        rw [show rank + 1 + (ids results).idxOf id = rank + ((ids results).idxOf id).succ by omega]
    · rw [if_neg hmem, ih, credit_score, hids]
      by_cases hid : result.id = id
      · subst hid
        have hchunk : result.id = result.chunk.id := rfl
        simp [hmem, ← hchunk]
      · have hid' : id ≠ result.id := Ne.symm hid
        have hchunk : id ≠ result.chunk.id := hid'
        rw [List.idxOf_cons_ne _ hid, if_neg hchunk, add_zero]
        simp only [List.mem_cons, hid', false_or]
        rw [show rank + 1 + (ids results).idxOf id = rank + ((ids results).idxOf id).succ by omega]

/-! ## The fusion -/

/-- The entries of both lists, before they are sorted. -/
def fusedOf (keywordResults vectorResults : List RetrievalResult) : List Fused :=
  fuseSource "vector" 1 vectorResults [] (fuseSource "keyword" 1 keywordResults [] [])

variable (keywordResults vectorResults : List RetrievalResult)

theorem fusedOf_ids :
    ((fusedOf keywordResults vectorResults).map Fused.id).Nodup ∧
      ∀ id, id ∈ (fusedOf keywordResults vectorResults).map Fused.id ↔
        id ∈ ids keywordResults ∨ id ∈ ids vectorResults := by
  obtain ⟨hnodup, hkeyword⟩ := fuseSource_ids "keyword" keywordResults 1 [] [] (by simp) (by simp)
  obtain ⟨hnodup', hvector⟩ := fuseSource_ids "vector" vectorResults 1 [] _ (by simp) hnodup
  refine ⟨hnodup', fun id => ?_⟩
  rw [fusedOf, hvector id, hkeyword id]
  simp

theorem fusedOf_score (id : String) :
    scoreOf (fusedOf keywordResults vectorResults) id =
      credited rrfWeight [ids keywordResults, ids vectorResults] id := by
  rw [fusedOf, fuseSource_score, fuseSource_score]
  simp only [scoreOf, List.not_mem_nil, not_false_eq_true, and_true, credited, creditIn, rrfWeight,
    List.map_cons, List.map_nil, List.sum_cons, List.sum_nil, zero_add, add_zero, Nat.add_comm 1]

theorem reciprocalRankFusion_perm :
    (reciprocalRankFusion keywordResults vectorResults).Perm
      ((fusedOf keywordResults vectorResults).map Fused.final) :=
  List.mergeSort_perm _ _

/-- The fusion has the ids of both lists, each once. -/
theorem reciprocalRankFusion_ids :
    (ids (reciprocalRankFusion keywordResults vectorResults)).Nodup ∧
      ∀ id, id ∈ ids (reciprocalRankFusion keywordResults vectorResults) ↔
        id ∈ ids keywordResults ∨ id ∈ ids vectorResults := by
  obtain ⟨hnodup, hids⟩ := fusedOf_ids keywordResults vectorResults
  have hperm := (reciprocalRankFusion_perm keywordResults vectorResults).map RetrievalResult.id
  have hmap : ((fusedOf keywordResults vectorResults).map Fused.final).map RetrievalResult.id =
      (fusedOf keywordResults vectorResults).map Fused.id := by simp
  rw [hmap] at hperm
  exact ⟨hperm.nodup_iff.mpr hnodup, fun id => hperm.mem_iff.trans (hids id)⟩

/-- Every result of the fusion has the credits of its id as its score. -/
theorem reciprocalRankFusion_score {result : RetrievalResult}
    (h : result ∈ reciprocalRankFusion keywordResults vectorResults) :
    result.score = credited rrfWeight [ids keywordResults, ids vectorResults] result.id := by
  obtain ⟨entry, hentry, rfl⟩ := List.mem_map.mp ((reciprocalRankFusion_perm _ _).mem_iff.mp h)
  have hnodup := (fusedOf_ids keywordResults vectorResults).1
  rw [Fused.final_score, Fused.final_id, ← fusedOf_score, scoreOf_of_mem hnodup hentry]

theorem before_trans (x y z : RetrievalResult) (hxy : before x y = true) (hyz : before y z = true) :
    before x z = true := by
  simp only [before, decide_eq_true_eq] at *
  rcases hxy with hxy | ⟨hxy, hid⟩ <;> rcases hyz with hyz | ⟨hyz, hid'⟩
  · exact Or.inl (hyz.trans hxy)
  · exact Or.inl (hyz ▸ hxy)
  · exact Or.inl (hxy ▸ hyz)
  · exact Or.inr ⟨hxy.trans hyz, hid.trans hid'⟩

theorem before_total (x y : RetrievalResult) : (before x y || before y x) = true := by
  simp only [before, Bool.or_eq_true, decide_eq_true_eq]
  rcases lt_trichotomy x.score y.score with h | h | h
  · exact Or.inr (Or.inl h)
  · rcases le_total x.id y.id with hid | hid
    · exact Or.inl (Or.inr ⟨h, hid⟩)
    · exact Or.inr (Or.inr ⟨h.symm, hid⟩)
  · exact Or.inl (Or.inl h)

/-- A chunk that comes first in every list with the other one comes first in the fusion. -/
theorem reciprocalRankFusion_precedes {a b : String}
    (h : Dominates [ids keywordResults, ids vectorResults] a b)
    (hb : b ∈ ids keywordResults ∨ b ∈ ids vectorResults) :
    (ids (reciprocalRankFusion keywordResults vectorResults)).idxOf a <
      (ids (reciprocalRankFusion keywordResults vectorResults)).idxOf b := by
  have hlt : credited rrfWeight [ids keywordResults, ids vectorResults] b <
      credited rrfWeight [ids keywordResults, ids vectorResults] a := by
    refine credited_lt rrfWeight h ?_
    rcases hb with hb | hb
    · exact ⟨_, by simp, hb⟩
    · exact ⟨_, by simp, hb⟩
  have ha : a ∈ ids keywordResults ∨ a ∈ ids vectorResults := by
    rcases hb with hb | hb
    · exact Or.inl (mem_of_idxOf_lt (h _ (by simp) hb))
    · exact Or.inr (mem_of_idxOf_lt (h _ (by simp) hb))
  obtain ⟨hnodup, hids⟩ := reciprocalRankFusion_ids keywordResults vectorResults
  obtain ⟨x, hx, rfl⟩ := List.mem_map.mp ((hids a).mpr ha)
  obtain ⟨y, hy, rfl⟩ := List.mem_map.mp ((hids b).mpr hb)
  rw [← reciprocalRankFusion_score _ _ hx, ← reciprocalRankFusion_score _ _ hy] at hlt
  have hsorted : (reciprocalRankFusion keywordResults vectorResults).Pairwise fun x y => before x y = true :=
    List.pairwise_mergeSort before_trans before_total _
  rw [ids, idxOf_map hnodup hx, idxOf_map hnodup hy]
  refine idxOf_lt_of_pairwise hsorted hx hy (fun heq => ?_) fun hbefore => ?_
  · rw [heq] at hlt
    exact lt_irrefl _ hlt
  · simp only [before, decide_eq_true_eq] at hbefore
    rcases hbefore with hbefore | ⟨hbefore, -⟩
    · exact lt_asymm hlt hbefore
    · exact hlt.ne hbefore

end CodeMate.Retrieval
