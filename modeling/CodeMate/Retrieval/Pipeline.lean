import CodeMate.Framework.Table
import CodeMate.Framework.Text
import CodeMate.Retrieval.Context

/-!
# The retrieval pipeline

`retrieveMany` puts the stages of a retrieval together: the keyword search, the
vector search, which may fail, the fusion, the reranking, the cut at the limit
and the expansion. `retrieveMany_retrieved` is what comes out for every state of
the tables and every answer of the vector store: the best candidates in their
order and the extras near them, chunks of the requested repositories only, each
once. `scoredIds_spec` and `vectorSearch_spec` are the answers of the store,
`ranked_spec` the order of the candidates.
-/

namespace CodeMate.Retrieval

open Framework

/-! ## What is searched -/

/-- The columns of a chunk that are scored. -/
structure ChunkTexts where
  filePath : List Char
  language : List Char
  symbolName : Option (List Char)
  symbolType : Option (List Char)
  imports : List (List Char)
  exports : List (List Char)
  content : Option (List Char)

structure QueryTerms where
  keywords : List (List Char)
  filePaths : List (List Char)
  symbols : List (List Char)
  errorTerms : List (List Char)

def QueryTerms.all (terms : QueryTerms) : List (List Char) :=
  terms.keywords ++ terms.filePaths ++ terms.symbols ++ terms.errorTerms

/-- A point of the vector store: the `chunk_id` of its payload, if that is a text, and its score. -/
structure Point where
  chunkId : Option String
  score : ℚ

inductive Strategy
  | vector
  | hybrid
  deriving DecidableEq

/-- How the keyword search ranks a chunk: by the full text search of PostgreSQL, or by counting terms. -/
inductive KeywordIndex
  | postgres (rank : List (List Char) → CodeChunk → Option ℚ)
  | other (ilike : List Char → CodeChunk → Bool)

/-- The tables and services of the search. -/
structure SearchIndex where
  rows : List CodeChunk
  /-- The texts of the chunk with an id. -/
  texts : String → ChunkTexts
  keywordIndex : KeywordIndex
  /-- The nearest points of a repository to a query; `none` where the embedding or the store raises. -/
  searchRepoChunks : (query : List Char) → QueryTerms → (repoId : String) → (limit : ℕ) → Option (List Point)
  /-- `str.lower`. -/
  lower : List Char → List Char

structure RetrievalSettings where
  retrievalTopK : ℕ
  retrievalCandidateMultiplier : ℕ
  retrievalStrategy : Strategy
  retrievalMinVectorScore : ℚ
  retrievalRerankEnabled : Bool
  retrievalContextExpansionEnabled : Bool
  context : ContextSettings
  multiRepoMaxRepos : ℕ
  stopwords : List (List Char)

variable (index : SearchIndex) (settings : RetrievalSettings)

/-! ## Terms and scopes -/

/-- The loop of `_bounded_repo_ids`. -/
def boundRepoIds (maxRepos : ℕ) : List String → (bounded : List String) → List String
  | [], bounded => bounded
  | repoId :: repoIds, bounded =>
    let normalized := String.ofList (Text.strip repoId.toList)
    if normalized = "" ∨ normalized ∈ bounded then boundRepoIds maxRepos repoIds bounded
    else if maxRepos ≤ bounded.length + 1 then bounded ++ [normalized]
    else boundRepoIds maxRepos repoIds (bounded ++ [normalized])

def boundedRepoIds (repoIds : List String) : List String := boundRepoIds settings.multiRepoMaxRepos repoIds []

local instance decidableMemTerms (term : List Char) (terms : List (List Char)) : Decidable (term ∈ terms) :=
  decidable_of_iff (∃ other ∈ terms, other = term) Text.exists_mem_eq

/-- The loop of `_bounded_terms`. -/
def boundTerms : List (List Char) → (cleaned : List (List Char)) → List (List Char)
  | [], cleaned => cleaned
  | term :: terms, cleaned =>
    let normalized := index.lower (Text.strip term)
    if normalized.length < 2 ∨ normalized ∈ settings.stopwords then boundTerms terms cleaned
    else
      let cleaned := if normalized ∈ cleaned then cleaned else cleaned ++ [normalized]
      if 24 ≤ cleaned.length then cleaned else boundTerms terms cleaned

def boundedTerms (terms : List (List Char)) : List (List Char) := boundTerms index settings terms []

/-! ## The searches -/

/-- `needle in text`. -/
def contains (text needle : List Char) : Bool := (Text.find? needle text).isSome

def credit? (condition : Bool) (score : ℚ) : ℚ := if condition then score else 0

def keywordScore (chunk : CodeChunk) (terms : List (List Char)) : ℚ :=
  let texts := index.texts chunk.id
  (terms.map fun term =>
    let lowered := index.lower term
    credit? (contains (index.lower (texts.symbolName.getD [])) lowered) 5 +
      credit? (contains (index.lower texts.filePath) lowered) 3 +
      credit? (contains (index.lower (texts.content.getD [])) lowered) 1).sum

/-- `ORDER BY file_path, start_line, id`; a missing line comes first. -/
def pathBefore (x y : CodeChunk) : Bool :=
  let path (chunk : CodeChunk) := String.ofList (index.texts chunk.id).filePath
  path x < path y ∨ (path x = path y ∧ (x.startLine.getD 0 < y.startLine.getD 0 ∨
    (x.startLine.getD 0 = y.startLine.getD 0 ∧ x.id ≤ y.id)))

def keywordSearch (repoIds : List String) (terms : QueryTerms) (limit : ℕ) : List RetrievalResult :=
  let searchTerms := boundedTerms index settings terms.all
  if searchTerms = [] then []
  else
    let inScope := index.rows.filter fun chunk => chunk.repoId ∈ repoIds
    match index.keywordIndex with
    | .postgres rank =>
      let found := inScope.filterMap fun chunk =>
        (rank searchTerms chunk).map fun score => (⟨chunk, score, "keyword"⟩ : RetrievalResult)
      (found.mergeSort before).take limit
    | .other ilike =>
      let found := inScope.filter fun chunk => searchTerms.any fun term => ilike term chunk
      (((found.mergeSort (pathBefore index)).take limit).map fun chunk =>
        (⟨chunk, keywordScore index chunk searchTerms, "keyword"⟩ : RetrievalResult)).mergeSort before

/-- `scored_ids[chunk_id] = max(scored_ids.get(chunk_id, -inf), score)`. -/
def raiseScore (id : String) (score : ℚ) : List (String × ℚ) → List (String × ℚ)
  | [] => [(id, score)]
  | entry :: scores => if entry.1 = id then (id, max entry.2 score) :: scores else entry :: raiseScore id score scores

def scoredIds (points : List Point) : List (String × ℚ) :=
  points.foldl (fun scores point =>
    match point.chunkId with
    | some id => raiseScore id point.score scores
    | none => scores) []

/-- `key=lambda item: (-item[1], item[0])`. -/
def scoreBefore (x y : String × ℚ) : Bool := y.2 < x.2 ∨ (x.2 = y.2 ∧ x.1 ≤ y.1)

def vectorSearch (repoIds : List String) (query : List Char) (terms : QueryTerms) (limit : ℕ) :
    List RetrievalResult :=
  match repoIds.mapM fun repoId => index.searchRepoChunks query terms repoId limit with
  | none => []
  | some answers =>
    let inScope := index.rows.filter fun chunk => chunk.repoId ∈ repoIds
    ((scoredIds answers.flatten).mergeSort scoreBefore).filterMap fun entry =>
      (Table.find CodeChunk.id inScope entry.1).map fun chunk => (⟨chunk, entry.2, "vector"⟩ : RetrievalResult)

/-! ## Reranking -/

/-- `IDENTIFIER_RE.findall`; `current` is the identifier that is being read, backwards. -/
def identifiers : (current : List Char) → List Char → List (List Char)
  | current, [] => if current = [] then [] else [current.reverse]
  | current, c :: cs =>
    let starts := c.isAlpha || c = '_' || c = '$'
    if starts || (current ≠ [] && c.isDigit) then identifiers (c :: current) cs
    else if current = [] then identifiers [] cs
    else current.reverse :: identifiers [] cs

/-- `_ranking_text`. -/
def rankingText (texts : ChunkTexts) : List Char :=
  index.lower ((([texts.filePath, texts.language, texts.symbolName.getD [], texts.symbolType.getD [],
    [' '].intercalate texts.imports, [' '].intercalate texts.exports].intersperse [' ']).flatten) ++
    '\n' :: texts.content.getD [])

def rerankScore (query : List Char) (terms : QueryTerms) (boundedTerms : List (List Char)) (maxInitialScore : ℚ)
    (result : RetrievalResult) : ℚ :=
  let texts := index.texts result.id
  let haystack := rankingText index texts
  let symbolName := index.lower (texts.symbolName.getD [])
  let filePath := index.lower texts.filePath
  let hits := boundedTerms.countP fun term => contains haystack term
  result.score / maxInitialScore * 2 +
    (if result.source = "hybrid" then 1 else if result.source = "vector" then 35 / 100 else 0) +
    (if boundedTerms = [] then 0 else (hits : ℚ) / boundedTerms.length * 5) +
    (terms.filePaths.map fun path =>
      if (index.lower path).isSuffixOf filePath then (6 : ℚ)
      else credit? (contains filePath (index.lower path)) 3).sum +
    (terms.symbols.map fun symbol =>
      if symbolName = index.lower symbol then (5 : ℚ)
      else credit? (contains symbolName (index.lower symbol)) (25 / 10)).sum +
    (terms.errorTerms.map fun term => credit? (contains haystack (index.lower term)) 3).sum +
    ((identifiers [] (index.lower query)).map fun identifier =>
      credit? (contains symbolName identifier) (15 / 10)).sum

/-- `max(abs(result.score) for result in results) or 1.0`. -/
def maxInitialScore (results : List RetrievalResult) : ℚ :=
  let highest := (results.map fun result => |result.score|).foldl max 0
  if highest = 0 then 1 else highest

def rerank (results : List RetrievalResult) (query : List Char) (terms : QueryTerms) : List RetrievalResult :=
  (results.map fun result =>
    { result with
      score := rerankScore index query terms (boundedTerms index settings terms.all) (maxInitialScore results) result
      source := if contains result.source.toList "rerank".toList then result.source else result.source ++ "+rerank" }
    ).mergeSort before

/-! ## The pipeline -/

/-- The results of the keyword search, if there is one. -/
def keywordResults (repoIds : List String) (terms : QueryTerms) (limit : ℕ) : List RetrievalResult :=
  if settings.retrievalStrategy = .hybrid then keywordSearch index settings repoIds terms (limit * 2) else []

def vectorResults (repoIds : List String) (query : List Char) (terms : QueryTerms) (limit : ℕ) :
    List RetrievalResult :=
  (vectorSearch index repoIds query terms limit).filter fun result =>
    settings.retrievalMinVectorScore ≤ result.score

/-- All candidates, by descending score. -/
def ranked (repoIds : List String) (query : List Char) (terms : QueryTerms) (limit : ℕ) : List RetrievalResult :=
  let candidateLimit := max (limit * settings.retrievalCandidateMultiplier) limit
  let keyword := keywordResults index settings repoIds terms candidateLimit
  let vector := vectorResults index settings repoIds query terms candidateLimit
  let candidates := if settings.retrievalStrategy = .hybrid then reciprocalRankFusion keyword vector else vector
  if settings.retrievalRerankEnabled then rerank index settings candidates query terms
  else candidates.mergeSort before

/-- `top_k or settings.retrieval_top_k`. -/
def limitOf (topK : Option ℕ) : ℕ := (topK.filter (· ≠ 0)).getD settings.retrievalTopK

/-- `_retrieve_many`, with the terms that `rewrite_query` has found. -/
def retrieveMany (repoIds : List String) (query : List Char) (terms : QueryTerms) (topK : Option ℕ) :
    List RetrievalResult :=
  let scopedRepoIds := boundedRepoIds settings repoIds
  if scopedRepoIds = [] then []
  else
    let limit := limitOf settings topK
    let results := (ranked index settings scopedRepoIds query terms limit).take limit
    if settings.retrievalContextExpansionEnabled then
      expandContext settings.context index.rows scopedRepoIds results
    else results

/-! ## The scope -/

variable {index settings}

/-- A result is a chunk of the table and of one of the repositories. -/
def InScope (index : SearchIndex) (repoIds : List String) (result : RetrievalResult) : Prop :=
  result.chunk ∈ index.rows ∧ result.chunk.repoId ∈ repoIds

theorem inScope_of_filter {repoIds : List String} {chunk : CodeChunk}
    (h : chunk ∈ index.rows.filter fun chunk => chunk.repoId ∈ repoIds) (score : ℚ) (source : String) :
    InScope index repoIds ⟨chunk, score, source⟩ :=
  ⟨List.mem_of_mem_filter h, of_decide_eq_true (List.mem_filter.mp h).2⟩

theorem keywordSearch_inScope {repoIds : List String} {terms : QueryTerms} {limit : ℕ} {result : RetrievalResult}
    (h : result ∈ keywordSearch index settings repoIds terms limit) : InScope index repoIds result := by
  unfold keywordSearch at h
  dsimp only at h
  split at h
  · cases h
  split at h
  · next rank _ =>
    obtain ⟨chunk, hchunk, hfound⟩ := List.mem_filterMap.mp (List.mem_mergeSort.mp (List.mem_of_mem_take h))
    obtain ⟨score, _, rfl⟩ := Option.map_eq_some_iff.mp hfound
    exact inScope_of_filter hchunk _ _
  · next ilike _ =>
    obtain ⟨chunk, hchunk, rfl⟩ := List.mem_map.mp (List.mem_mergeSort.mp h)
    exact inScope_of_filter (List.mem_of_mem_filter (List.mem_mergeSort.mp (List.mem_of_mem_take hchunk))) _ _

/-! ### The answers of the vector store -/

theorem raiseScore_keys {id : String} {score : ℚ} {scores : List (String × ℚ)} (h : (scores.map Prod.fst).Nodup) :
    ((raiseScore id score scores).map Prod.fst).Nodup ∧
      ∀ k, k ∈ (raiseScore id score scores).map Prod.fst ↔ k = id ∨ k ∈ scores.map Prod.fst := by
  induction scores with
  | nil => simp [raiseScore]
  | cons entry scores ih =>
    obtain ⟨hnot, hrest⟩ := List.nodup_cons.mp h
    obtain ⟨hnodup, hkeys⟩ := ih hrest
    rw [raiseScore]
    split
    · next heq =>
      subst heq
      exact ⟨h, fun k => by simp⟩
    · next hne =>
      refine ⟨?_, fun k => ?_⟩
      · rw [List.map_cons, List.nodup_cons, hkeys]
        exact ⟨fun hmem => hmem.elim hne hnot, hnodup⟩
      · rw [List.map_cons, List.mem_cons, hkeys, List.map_cons, List.mem_cons]
        tauto

/-- An entry reaches a bound if one of the scores it was made of does. -/
def Reaches (bound : ℚ) (scores : List (String × ℚ)) (id : String) : Prop :=
  ∃ score, (id, score) ∈ scores ∧ bound ≤ score

theorem reaches_raiseScore {bound : ℚ} {id : String} {score : ℚ} {scores : List (String × ℚ)}
    (h : (scores.map Prod.fst).Nodup) (k : String) :
    Reaches bound (raiseScore id score scores) k ↔ Reaches bound scores k ∨ k = id ∧ bound ≤ score := by
  induction scores with
  | nil => simp [raiseScore, Reaches]
  | cons entry scores ih =>
    obtain ⟨hnot, hrest⟩ := List.nodup_cons.mp h
    have hcons (entry : String × ℚ) (scores : List (String × ℚ)) :
        Reaches bound (entry :: scores) k ↔ entry.1 = k ∧ bound ≤ entry.2 ∨ Reaches bound scores k := by
      obtain ⟨k', score'⟩ := entry
      constructor
      · rintro ⟨best, hmem, hbest⟩
        rcases List.mem_cons.mp hmem with heq | hmem
        · obtain ⟨rfl, rfl⟩ := Prod.mk.inj heq
          exact .inl ⟨rfl, hbest⟩
        · exact .inr ⟨best, hmem, hbest⟩
      · rintro (⟨rfl, hbest⟩ | ⟨best, hmem, hbest⟩)
        · exact ⟨score', List.mem_cons_self, hbest⟩
        · exact ⟨best, List.mem_cons_of_mem _ hmem, hbest⟩
    rw [raiseScore]
    split
    · next heq =>
      subst heq
      rw [hcons, hcons]
      simp only [le_max_iff]
      tauto
    · rw [hcons, hcons, ih hrest]
      tauto

/-- Each id is scored once, and as high as its best point. -/
theorem scoredIds_spec (points : List Point) : ((scoredIds points).map Prod.fst).Nodup ∧
    ∀ bound id, Reaches bound (scoredIds points) id ↔
      ∃ point ∈ points, point.chunkId = some id ∧ bound ≤ point.score := by
  induction points using List.reverseRecOn with
  | nil => exact ⟨List.nodup_nil, fun bound id => by simp [scoredIds, Reaches]⟩
  | append_singleton points point ih =>
    obtain ⟨hnodup, hreaches⟩ := ih
    have hfold : scoredIds (points ++ [point]) =
        match point.chunkId with
        | some id => raiseScore id point.score (scoredIds points)
        | none => scoredIds points := by
      rw [scoredIds, List.foldl_append]
      rfl
    rw [hfold]
    cases hid : point.chunkId with
    | none =>
      refine ⟨hnodup, fun bound id => (hreaches bound id).trans ?_⟩
      simp [hid]
    | some k =>
      refine ⟨(raiseScore_keys hnodup).1, fun bound id => ?_⟩
      rw [reaches_raiseScore hnodup, hreaches]
      simp [hid, or_and_right, exists_or, eq_comm]

/-- What a partial map leaves of a list has the keys it came from, in their order. -/
theorem filterMap_keys_sublist {α β κ : Type*} {f : α → Option β} {keyOf : α → κ} {key : β → κ}
    (h : ∀ a b, f a = some b → key b = keyOf a) (l : List α) :
    ((l.filterMap f).map key).Sublist (l.map keyOf) := by
  induction l with
  | nil => exact List.Sublist.refl _
  | cons a l ih =>
    rw [List.filterMap_cons]
    cases hf : f a with
    | none => exact ih.cons _
    | some b =>
      rw [List.map_cons, h a b hf]
      exact ih.cons_cons _

/-- What the vector search finds: the chunks of the scope that a point names, each once. -/
theorem vectorSearch_spec (hkeyed : Table.Keyed CodeChunk.id index.rows) (repoIds : List String)
    (query : List Char) (terms : QueryTerms) (limit : ℕ) :
    (ids (vectorSearch index repoIds query terms limit)).Nodup ∧
      ∀ result, result ∈ vectorSearch index repoIds query terms limit ↔
        result.source = "vector" ∧ InScope index repoIds result ∧
          ∃ answers, (repoIds.mapM fun repoId => index.searchRepoChunks query terms repoId limit) = some answers ∧
            (result.id, result.score) ∈ scoredIds answers.flatten := by
  unfold vectorSearch
  cases hanswers : repoIds.mapM fun repoId => index.searchRepoChunks query terms repoId limit with
  | none => exact ⟨List.nodup_nil, fun result => by simp⟩
  | some answers =>
    dsimp only
    have hscope : Table.Keyed CodeChunk.id (index.rows.filter fun chunk => chunk.repoId ∈ repoIds) :=
      hkeyed.sublist List.filter_sublist
    have hmem (entry : String × ℚ) (result : RetrievalResult) :
        ((Table.find CodeChunk.id (index.rows.filter fun chunk => chunk.repoId ∈ repoIds) entry.1).map fun chunk =>
          (⟨chunk, entry.2, "vector"⟩ : RetrievalResult)) = some result ↔
        result.source = "vector" ∧ InScope index repoIds result ∧ entry = (result.id, result.score) := by
      rw [Option.map_eq_some_iff]
      constructor
      · rintro ⟨chunk, hfind, rfl⟩
        obtain ⟨hchunk, hid⟩ := hscope.find_eq_some.mp hfind
        exact ⟨rfl, inScope_of_filter hchunk _ _, Prod.ext hid.symm rfl⟩
      · rintro ⟨hsource, ⟨hrow, hrepo⟩, rfl⟩
        obtain ⟨chunk, score, source⟩ := result
        subst hsource
        refine ⟨chunk, hscope.find_eq_some.mpr ⟨List.mem_filter.mpr ⟨hrow, decide_eq_true hrepo⟩, rfl⟩, rfl⟩
    constructor
    · have hkeys : (((scoredIds answers.flatten).mergeSort scoreBefore).map Prod.fst).Nodup :=
        ((List.mergeSort_perm _ _).map Prod.fst).nodup_iff.mpr (scoredIds_spec _).1
      exact (filterMap_keys_sublist (fun entry result h => ((hmem entry result).mp h).2.2 ▸ rfl) _).nodup hkeys
    · intro result
      rw [List.mem_filterMap]
      constructor
      · rintro ⟨entry, hentry, hresult⟩
        obtain ⟨hsource, hin, rfl⟩ := (hmem entry result).mp hresult
        exact ⟨hsource, hin, answers, rfl, List.mem_mergeSort.mp hentry⟩
      · rintro ⟨hsource, hin, answers', heq, hscored⟩
        obtain rfl := Option.some.inj heq
        exact ⟨_, List.mem_mergeSort.mpr hscored, (hmem _ result).mpr ⟨hsource, hin, rfl⟩⟩

/-! ### Candidates -/

/-- A chunk of the repositories that a point names with a score high enough, all repositories having been searched. -/
def NamedByPoint (index : SearchIndex) (settings : RetrievalSettings) (repoIds : List String) (query : List Char)
    (terms : QueryTerms) (limit : ℕ) (id : String) : Prop :=
  (∃ chunk ∈ index.rows, chunk.id = id ∧ chunk.repoId ∈ repoIds) ∧
    ∃ answers, (repoIds.mapM fun repoId => index.searchRepoChunks query terms repoId limit) = some answers ∧
      ∃ point ∈ answers.flatten, point.chunkId = some id ∧ settings.retrievalMinVectorScore ≤ point.score

variable (settings) in
theorem vectorResults_ids (hkeyed : Table.Keyed CodeChunk.id index.rows) (repoIds : List String)
    (query : List Char) (terms : QueryTerms) (limit : ℕ) :
    (ids (vectorResults index settings repoIds query terms limit)).Nodup ∧
      ∀ id, id ∈ ids (vectorResults index settings repoIds query terms limit) ↔
        NamedByPoint index settings repoIds query terms limit id := by
  obtain ⟨hnodup, hmem⟩ := vectorSearch_spec hkeyed repoIds query terms limit
  refine ⟨(List.filter_sublist.map _).nodup hnodup, fun id => ?_⟩
  rw [ids, List.mem_map]
  constructor
  · rintro ⟨result, hresult, rfl⟩
    obtain ⟨hfound, hscore⟩ := List.mem_filter.mp hresult
    obtain ⟨-, ⟨hrow, hrepo⟩, answers, hanswers, hscored⟩ := (hmem result).mp hfound
    refine ⟨⟨result.chunk, hrow, rfl, hrepo⟩, answers, hanswers, ?_⟩
    exact ((scoredIds_spec _).2 _ _).mp ⟨result.score, hscored, of_decide_eq_true hscore⟩
  · rintro ⟨⟨chunk, hrow, rfl, hrepo⟩, answers, hanswers, hpoint⟩
    obtain ⟨score, hscored, hscore⟩ := ((scoredIds_spec _).2 _ _).mpr hpoint
    refine ⟨⟨chunk, score, "vector"⟩, List.mem_filter.mpr ⟨?_, decide_eq_true hscore⟩, rfl⟩
    exact (hmem _).mpr ⟨rfl, ⟨hrow, hrepo⟩, answers, hanswers, hscored⟩

theorem vectorResults_inScope (hkeyed : Table.Keyed CodeChunk.id index.rows) {repoIds : List String}
    {query : List Char} {terms : QueryTerms} {limit : ℕ} {result : RetrievalResult}
    (h : result ∈ vectorResults index settings repoIds query terms limit) : InScope index repoIds result :=
  (((vectorSearch_spec hkeyed _ _ _ _).2 result).mp (List.mem_of_mem_filter h)).2.1

/-- The fusion gives the chunks of its lists. -/
theorem mem_credit {source : String} {rank : ℕ} {chunk : CodeChunk} {fused : List Fused} {entry : Fused}
    (h : entry ∈ credit source rank chunk fused) :
    entry.result.chunk = chunk ∨ ∃ entry' ∈ fused, entry'.result.chunk = entry.result.chunk := by
  induction fused with
  | nil => exact .inl (List.mem_singleton.mp h ▸ rfl)
  | cons first fused ih =>
    rw [credit] at h
    split at h
    · rcases List.mem_cons.mp h with rfl | h
      · exact .inr ⟨first, List.mem_cons_self, rfl⟩
      · exact .inr ⟨entry, List.mem_cons_of_mem _ h, rfl⟩
    · rcases List.mem_cons.mp h with rfl | h
      · exact .inr ⟨entry, List.mem_cons_self, rfl⟩
      · rcases ih h with heq | ⟨entry', hmem, heq⟩
        · exact .inl heq
        · exact .inr ⟨entry', List.mem_cons_of_mem _ hmem, heq⟩

theorem mem_fuseSource {source : String} {rank : ℕ} {results : List RetrievalResult} {seenIds : List String}
    {fused : List Fused} {entry : Fused} (h : entry ∈ fuseSource source rank results seenIds fused) :
    (∃ result ∈ results, result.chunk = entry.result.chunk) ∨
      ∃ entry' ∈ fused, entry'.result.chunk = entry.result.chunk := by
  induction results generalizing rank seenIds fused with
  | nil => exact .inr ⟨entry, h, rfl⟩
  | cons result results ih =>
    rw [fuseSource] at h
    split at h
    · rcases ih h with ⟨result', hmem, heq⟩ | hold
      · exact .inl ⟨result', List.mem_cons_of_mem _ hmem, heq⟩
      · exact .inr hold
    · rcases ih h with ⟨result', hmem, heq⟩ | ⟨entry', hmem, heq⟩
      · exact .inl ⟨result', List.mem_cons_of_mem _ hmem, heq⟩
      · rcases mem_credit hmem with hchunk | ⟨entry'', hmem', heq'⟩
        · exact .inl ⟨result, List.mem_cons_self, hchunk.symm.trans heq⟩
        · exact .inr ⟨entry'', hmem', heq'.trans heq⟩

theorem mem_reciprocalRankFusion {keywordResults vectorResults : List RetrievalResult} {result : RetrievalResult}
    (h : result ∈ reciprocalRankFusion keywordResults vectorResults) :
    ∃ found, (found ∈ keywordResults ∨ found ∈ vectorResults) ∧ found.chunk = result.chunk := by
  obtain ⟨entry, hentry, rfl⟩ := List.mem_map.mp ((reciprocalRankFusion_perm _ _).mem_iff.mp h)
  have hchunk : entry.final.chunk = entry.result.chunk := by
    rw [Fused.final]
    split <;> rfl
  rw [hchunk]
  rcases mem_fuseSource hentry with ⟨found, hmem, heq⟩ | ⟨entry', hmem, heq⟩
  · exact ⟨found, .inr hmem, heq⟩
  · rcases mem_fuseSource hmem with ⟨found, hmem, heq'⟩ | ⟨_, hmem, _⟩
    · exact ⟨found, .inl hmem, heq'.trans heq⟩
    · cases hmem

/-! ### Reranking -/

theorem before_pairwise (results : List RetrievalResult) :
    (results.mergeSort before).Pairwise fun x y => before x y = true :=
  List.pairwise_mergeSort before_trans before_total results

variable (index settings) in
/-- Reranking changes scores and sources, and the order with them. -/
theorem rerank_chunks (results : List RetrievalResult) (query : List Char) (terms : QueryTerms) :
    ((rerank index settings results query terms).map (·.chunk)).Perm (results.map (·.chunk)) := by
  refine ((List.mergeSort_perm _ _).map _).trans ?_
  rw [List.map_map]
  exact List.Perm.refl _

theorem ids_eq_map (results : List RetrievalResult) : ids results = (results.map (·.chunk)).map CodeChunk.id := by
  rw [List.map_map]
  rfl

/-! ## What is retrieved -/

/-- The number of candidates that each search is asked for. -/
def candidateLimit (settings : RetrievalSettings) (limit : ℕ) : ℕ :=
  max (limit * settings.retrievalCandidateMultiplier) limit

/-- A chunk that one of the searches finds. -/
def Candidate (index : SearchIndex) (settings : RetrievalSettings) (repoIds : List String) (query : List Char)
    (terms : QueryTerms) (limit : ℕ) (id : String) : Prop :=
  (settings.retrievalStrategy = .hybrid ∧
      id ∈ ids (keywordSearch index settings repoIds terms (candidateLimit settings limit * 2))) ∨
    NamedByPoint index settings repoIds query terms (candidateLimit settings limit) id

variable (settings) in
theorem candidates_spec (hkeyed : Table.Keyed CodeChunk.id index.rows) (repoIds : List String)
    (query : List Char) (terms : QueryTerms) (limit : ℕ) {candidates : List RetrievalResult}
    (h : candidates =
      if settings.retrievalStrategy = .hybrid then
        reciprocalRankFusion (keywordResults index settings repoIds terms (candidateLimit settings limit))
          (vectorResults index settings repoIds query terms (candidateLimit settings limit))
      else vectorResults index settings repoIds query terms (candidateLimit settings limit)) :
    (ids candidates).Nodup ∧
      (∀ id, id ∈ ids candidates ↔ Candidate index settings repoIds query terms limit id) ∧
      ∀ result ∈ candidates, InScope index repoIds result := by
  obtain ⟨hnodup, hids⟩ := vectorResults_ids settings hkeyed repoIds query terms
    (candidateLimit settings limit)
  by_cases hstrategy : settings.retrievalStrategy = .hybrid
  · rw [if_pos hstrategy] at h
    subst h
    obtain ⟨hfused, hmem⟩ := reciprocalRankFusion_ids
      (keywordResults index settings repoIds terms (candidateLimit settings limit))
      (vectorResults index settings repoIds query terms (candidateLimit settings limit))
    have hkeyword : keywordResults index settings repoIds terms (candidateLimit settings limit) =
        keywordSearch index settings repoIds terms (candidateLimit settings limit * 2) := if_pos hstrategy
    refine ⟨hfused, fun id => ?_, fun result hresult => ?_⟩
    · rw [hmem, hids, hkeyword, Candidate, and_iff_right hstrategy]
    · obtain ⟨found, hfound, hchunk⟩ := mem_reciprocalRankFusion hresult
      rw [InScope, ← hchunk]
      rcases hfound with hfound | hfound
      · exact keywordSearch_inScope (hkeyword ▸ hfound)
      · exact vectorResults_inScope hkeyed hfound
  · rw [if_neg hstrategy] at h
    subst h
    refine ⟨hnodup, fun id => ?_, fun result hresult => vectorResults_inScope hkeyed hresult⟩
    rw [hids, Candidate, or_iff_right fun hand => hstrategy hand.1]

variable (settings) in
/-- The ranking is the candidates, each once, in the order of their scores. -/
theorem ranked_spec (hkeyed : Table.Keyed CodeChunk.id index.rows) (repoIds : List String)
    (query : List Char) (terms : QueryTerms) (limit : ℕ) :
    (ids (ranked index settings repoIds query terms limit)).Nodup ∧
      (∀ id, id ∈ ids (ranked index settings repoIds query terms limit) ↔
        Candidate index settings repoIds query terms limit id) ∧
      (∀ result ∈ ranked index settings repoIds query terms limit, InScope index repoIds result) ∧
      (ranked index settings repoIds query terms limit).Pairwise fun x y => before x y = true := by
  obtain ⟨hnodup, hids, hscope⟩ := candidates_spec settings hkeyed repoIds query terms limit rfl
  have key {results candidates : List RetrievalResult}
      (hperm : (results.map (·.chunk)).Perm (candidates.map (·.chunk))) (hnodup : (ids candidates).Nodup)
      (hids : ∀ id, id ∈ ids candidates ↔ Candidate index settings repoIds query terms limit id)
      (hscope : ∀ result ∈ candidates, InScope index repoIds result) :
      (ids results).Nodup ∧ (∀ id, id ∈ ids results ↔ Candidate index settings repoIds query terms limit id) ∧
        ∀ result ∈ results, InScope index repoIds result := by
    have hperm' : (ids results).Perm (ids candidates) := by
      rw [ids_eq_map, ids_eq_map]
      exact hperm.map _
    refine ⟨hperm'.nodup_iff.mpr hnodup, fun id => hperm'.mem_iff.trans (hids id), fun result hresult => ?_⟩
    obtain ⟨found, hfound, hchunk⟩ := List.mem_map.mp (hperm.mem_iff.mp (List.mem_map_of_mem hresult))
    have hin := hscope found hfound
    rwa [InScope, hchunk] at hin
  rw [ranked]
  split
  · obtain ⟨h₁, h₂, h₃⟩ := key (rerank_chunks index settings _ query terms) hnodup hids hscope
    exact ⟨h₁, h₂, h₃, before_pairwise _⟩
  · obtain ⟨h₁, h₂, h₃⟩ := key ((List.mergeSort_perm _ before).map _) hnodup hids hscope
    exact ⟨h₁, h₂, h₃, before_pairwise _⟩

/-- The rows that an expansion is made of are in scope. -/
theorem expandContext_inScope {repoIds : List String} {results : List RetrievalResult}
    (h : ∀ result ∈ results, InScope index repoIds result) :
    ∀ result ∈ expandContext settings.context index.rows repoIds results, InScope index repoIds result := by
  intro x hx
  rw [expandContext] at hx
  split at hx
  · exact h x hx
  · next hrun =>
    obtain ⟨blocks, hresults, heq, hnear, -, -, -⟩ :=
      expandResults_spec settings.context.retrievalContextMaxExtra
        (neighborsOf settings.context index.rows repoIds results) results (ids results) 0
    rw [heq, List.mem_flatMap] at hx
    obtain ⟨block, hblock, hx⟩ := hx
    rcases List.mem_cons.mp hx with rfl | hx
    · exact h _ (hresults ▸ List.mem_map_of_mem hblock)
    · obtain ⟨hmem, -⟩ := near_of_mem_neighborChunks (by omega) (hnear block hblock x hx)
      have hlocated := List.mem_mergeSort.mp (List.mem_of_mem_filter hmem)
      obtain ⟨hrow, hkept⟩ := List.mem_filter.mp hlocated
      exact ⟨hrow, (of_decide_eq_true hkept).1⟩

theorem boundRepoIds_spec (maxRepos : ℕ) (repoIds bounded : List String) (h : bounded.Nodup) :
    (boundRepoIds maxRepos repoIds bounded).Nodup ∧
      (bounded.length < maxRepos → (boundRepoIds maxRepos repoIds bounded).length ≤ maxRepos) ∧
      ∀ id ∈ boundRepoIds maxRepos repoIds bounded, id ∈ bounded ∨
        id ≠ "" ∧ ∃ repoId ∈ repoIds, id = String.ofList (Text.strip repoId.toList) := by
  induction repoIds generalizing bounded with
  | nil => exact ⟨h, fun hlt => hlt.le, fun id hid => .inl hid⟩
  | cons repoId repoIds ih =>
    rw [boundRepoIds]
    split
    · obtain ⟨h₁, h₂, h₃⟩ := ih bounded h
      refine ⟨h₁, h₂, fun id hid => (h₃ id hid).imp_right ?_⟩
      exact fun ⟨hne, repoId', hmem, heq⟩ => ⟨hne, repoId', List.mem_cons_of_mem _ hmem, heq⟩
    · next hnew =>
      rw [not_or] at hnew
      have hnodup : (bounded ++ [String.ofList (Text.strip repoId.toList)]).Nodup := by
        refine List.nodup_append.mpr ⟨h, List.nodup_singleton _, fun a ha b hb heq => hnew.2 ?_⟩
        rw [← List.mem_singleton.mp hb, ← heq]
        exact ha
      have hlast : ∀ id ∈ bounded ++ [String.ofList (Text.strip repoId.toList)], id ∈ bounded ∨
          id ≠ "" ∧ ∃ repoId' ∈ repoId :: repoIds, id = String.ofList (Text.strip repoId'.toList) := by
        intro id hid
        refine (List.mem_append.mp hid).imp_right fun hid => ?_
        rw [List.mem_singleton.mp hid]
        exact ⟨hnew.1, repoId, List.mem_cons_self, rfl⟩
      split
      · refine ⟨hnodup, fun hlt => ?_, hlast⟩
        rw [List.length_append, List.length_singleton]
        omega
      · next hroom =>
        obtain ⟨h₁, h₂, h₃⟩ := ih _ hnodup
        refine ⟨h₁, fun _ => h₂ (by rw [List.length_append, List.length_singleton]; omega), fun id hid => ?_⟩
        rcases h₃ id hid with hid | ⟨hne, repoId', hmem, heq⟩
        · exact hlast id hid
        · exact .inr ⟨hne, repoId', List.mem_cons_of_mem _ hmem, heq⟩

/-- What a retrieval gives: the best candidates of the bounded repositories in their order, up to the
limit, and between them a bounded number of chunks of the same repositories; no chunk twice. -/
structure Retrieved (index : SearchIndex) (settings : RetrievalSettings) (repoIds : List String)
    (query : List Char) (terms : QueryTerms) (limit : ℕ) (results : List RetrievalResult) : Prop where
  nodup : (ids results).Nodup
  inScope : ∀ result ∈ results, InScope index repoIds result
  candidates : ∀ id, id ∈ ids (ranked index settings repoIds query terms limit) ↔
    Candidate index settings repoIds query terms limit id
  distinct : (ids (ranked index settings repoIds query terms limit)).Nodup
  sorted : (ranked index settings repoIds query terms limit).Pairwise fun x y => before x y = true
  selected : ((ranked index settings repoIds query terms limit).take limit).Sublist results
  extras_le : (results.length : ℤ) ≤ ((ranked index settings repoIds query terms limit).take limit).length +
    max 0 settings.context.retrievalContextMaxExtra
  plain : settings.retrievalContextExpansionEnabled = false →
    results = (ranked index settings repoIds query terms limit).take limit

variable (settings) in
theorem retrieved_expanded (hkeyed : Table.Keyed CodeChunk.id index.rows) (repoIds : List String)
    (query : List Char) (terms : QueryTerms) (limit : ℕ) :
    Retrieved index settings repoIds query terms limit
      (if settings.retrievalContextExpansionEnabled then
        expandContext settings.context index.rows repoIds
          ((ranked index settings repoIds query terms limit).take limit)
      else (ranked index settings repoIds query terms limit).take limit) := by
  obtain ⟨hnodup, hids, hscope, hsorted⟩ := ranked_spec settings hkeyed repoIds query terms limit
  have htake : (ids ((ranked index settings repoIds query terms limit).take limit)).Nodup :=
    ((List.take_sublist _ _).map _).nodup hnodup
  have hscope' : ∀ result ∈ (ranked index settings repoIds query terms limit).take limit,
      InScope index repoIds result := fun result hresult => hscope result (List.mem_of_mem_take hresult)
  split
  · next henabled =>
    obtain ⟨blocks, hexpands⟩ := expandContext_expands settings.context index.rows repoIds htake
    refine ⟨hexpands.nodup, expandContext_inScope hscope', hids, hnodup, hsorted, hexpands.sublist, ?_, ?_⟩
    · have hperm := (flatMap_all_perm blocks).length_eq
      rw [hexpands.results_eq, ← hexpands.expanded_eq, List.length_append] at hperm
      have hcap := hexpands.extras_le
      omega
    · intro hdisabled
      rw [henabled] at hdisabled
      cases hdisabled
  · refine ⟨htake, hscope', hids, hnodup, hsorted, List.Sublist.refl _, ?_, fun _ => rfl⟩
    omega

variable (settings) in
/-- Whatever the searches answer, a retrieval gives the best candidates of the requested repositories,
of which it searches no more than the bound, and extras of the same repositories up to their cap. -/
theorem retrieveMany_retrieved (hkeyed : Table.Keyed CodeChunk.id index.rows) (repoIds : List String)
    (query : List Char) (terms : QueryTerms) (topK : Option ℕ) :
    Retrieved index settings (boundedRepoIds settings repoIds) query terms (limitOf settings topK)
        (retrieveMany index settings repoIds query terms topK) ∧
      (boundedRepoIds settings repoIds).Nodup ∧
      (0 < settings.multiRepoMaxRepos → (boundedRepoIds settings repoIds).length ≤ settings.multiRepoMaxRepos) ∧
      ∀ id ∈ boundedRepoIds settings repoIds, id ≠ "" ∧
        ∃ repoId ∈ repoIds, id = String.ofList (Text.strip repoId.toList) := by
  obtain ⟨hnodup, hlength, hmem⟩ := boundRepoIds_spec settings.multiRepoMaxRepos repoIds [] List.nodup_nil
  refine ⟨?_, hnodup, hlength, fun id hid => (hmem id hid).resolve_left (List.not_mem_nil)⟩
  have h := retrieved_expanded settings hkeyed (boundedRepoIds settings repoIds) query terms
    (limitOf settings topK)
  rw [retrieveMany]
  split
  · next hnone =>
    -- Without a repository no chunk is in scope, and the pipeline would give nothing either.
    have hnil : ranked index settings (boundedRepoIds settings repoIds) query terms (limitOf settings topK) = [] := by
      refine List.eq_nil_iff_forall_not_mem.mpr fun result hresult => ?_
      have hin := ((ranked_spec settings hkeyed _ query terms _).2.2.1 result hresult).2
      rw [hnone] at hin
      cases hin
    have hempty : expandContext settings.context index.rows (boundedRepoIds settings repoIds) [] = [] :=
      if_pos (.inl rfl)
    rw [hnil, List.take_nil, hempty, ite_self] at h
    exact h
  · exact h

/-- A store that names one chunk twice, one that is gone, and nothing by a point without an id. -/
def sampleIndex : SearchIndex where
  rows := sampleRows
  texts id := ⟨id.toList ++ ".py".toList, "python".toList, some id.toList, none, [], [], none⟩
  keywordIndex := .other fun _ _ => false
  searchRepoChunks _ _ _ _ := some [⟨some "load", 1 / 10⟩, ⟨none, 1⟩, ⟨some "load", 9 / 10⟩, ⟨some "gone", 1⟩]
  lower := List.map Char.toLower

def sampleRetrieval : RetrievalSettings where
  retrievalTopK := 6
  retrievalCandidateMultiplier := 3
  retrievalStrategy := .vector
  retrievalMinVectorScore := 1 / 2
  retrievalRerankEnabled := true
  retrievalContextExpansionEnabled := true
  context := {}
  multiRepoMaxRepos := 3
  stopwords := []

/-- The chunk with one point that is good enough is a candidate, the one that is gone is none. -/
theorem sampleIndex_retrieved :
    Retrieved sampleIndex sampleRetrieval ["repo"] "load".toList ⟨[], [], [], []⟩ 6
        (retrieveMany sampleIndex sampleRetrieval ["repo"] "load".toList ⟨[], [], [], []⟩ none) ∧
      "load" ∈ ids (ranked sampleIndex sampleRetrieval ["repo"] "load".toList ⟨[], [], [], []⟩ 6) ∧
      "gone" ∉ ids (ranked sampleIndex sampleRetrieval ["repo"] "load".toList ⟨[], [], [], []⟩ 6) := by
  have hkeyed : Table.Keyed CodeChunk.id sampleIndex.rows :=
    (by decide : (sampleRows.map CodeChunk.id).Nodup)
  have h := (retrieveMany_retrieved sampleRetrieval hkeyed ["repo"] "load".toList ⟨[], [], [], []⟩ none).1
  have hbounded : boundedRepoIds sampleRetrieval ["repo"] = ["repo"] := by decide
  rw [hbounded] at h
  refine ⟨h, (h.candidates _).mpr (.inr ⟨⟨sampleRows[1], by decide, rfl, by decide⟩, _, rfl, ?_⟩), ?_⟩
  · exact ⟨⟨some "load", 9 / 10⟩, by simp, rfl, by norm_num [sampleRetrieval]⟩
  · intro hgone
    rcases (h.candidates _).mp hgone with ⟨hstrategy, -⟩ | ⟨⟨chunk, hrow, hid, -⟩, -⟩
    · cases hstrategy
    · revert hid
      revert chunk
      decide

end CodeMate.Retrieval
