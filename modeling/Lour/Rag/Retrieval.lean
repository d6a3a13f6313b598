import Lour.Lib.Conversions
import Lour.Lib.Fallible
import Lour.Lib.Ranking
/-!
# `HybridRetriever`

One query of the vector store, by the dense vector alone or fused with the sparse
one, over-fetched so that a reranker has room to reorder, and the reranker's scores
as the order of what is returned.  A score is a float that is no NaN, up to `==`.
-/

namespace Lour.Rag

open Lour.Lib Lour.Lib.Python

inductive RetrievalMode where
  | hybrid
  | dense
  deriving DecidableEq

/-- A single retrieval result. -/
structure RetrievedChunk (S : Type) where
  chunkId : String
  documentId : String
  content : String
  score : S
  sourceUri : Option String := none
  title : Option String := none
  docType : Option String := none
  metadata : Dict := []

def RetrievedChunk.withScore {S : Type} (chunk : RetrievedChunk S) (score : S) :
    RetrievedChunk S :=
  { chunk with score := score }

/-- The name a point has: an unsigned integer or a UUID. -/
inductive PointId where
  | num (n : ℕ)
  | uuid (s : String)

/-- `str(point.id)`. -/
def PointId.str : PointId → String
  | .num n => toString n
  | .uuid s => s

structure ScoredPoint (S : Type) where
  id : PointId
  score : Option S
  payload : Option Dict

inductive RetrievalFailure where
  /-- A call of an embedder, the store or the reranker raised. -/
  | raised (exc : String)
  /-- The embedder returned no vector. -/
  | noVector
  /-- The payload does not make a `RetrievedChunk`. -/
  | validation (field : String)
  /-- `zip(..., strict=True)`. -/
  | unequalLengths

def denseVector : String := "dense"

def sparseVector : String := "sparse"

structure FieldCondition where
  key : String
  value : Json

/-- One leg of a fused query. -/
structure Prefetch (V P : Type) where
  query : V ⊕ P
  vector : String
  limit : ℤ

inductive PointsQuery (V P : Type) where
  | nearest (query : V) (vector : String)
  /-- Reciprocal rank fusion of the legs. -/
  | fused (prefetch : List (Prefetch V P))

structure QueryPoints (V P : Type) where
  collection : String
  query : PointsQuery V P
  limit : ℤ
  queryFilter : Option (List FieldCondition)

structure HybridRetriever (V P S : Type) where
  /-- `query_points` of the store, which holds still during a call. -/
  queryPoints : QueryPoints V P → Except RetrievalFailure (List (ScoredPoint S))
  /-- `MatchValue(value=value)`, which may refuse the value. -/
  matchValue : Json → Except RetrievalFailure Json
  embedDense : List String → Except RetrievalFailure (List V)
  embedSparse : String → Except RetrievalFailure P
  reranker : Option (String → List String → Except RetrievalFailure (List S)) := none
  collection : String
  candidateMultiplier : ℤ := 4

/-! ## `_to_chunk` -/

/-- A field of the model that is a text. -/
def textField (payload : Dict) (field : String) : Except RetrievalFailure String :=
  match payload.get? field with
  | none => .ok ""
  | some (.str s) => .ok s
  | some _ => .error (.validation field)

def optionalText (payload : Dict) (field : String) : Except RetrievalFailure (Option String) :=
  match payload.get? field with
  | none => .ok none
  | some .null => .ok none
  | some (.str s) => .ok (some s)
  | some _ => .error (.validation field)

def metadataField (payload : Dict) : Except RetrievalFailure Dict :=
  match payload.get? "metadata" with
  | none => .ok []
  | some (.obj entries) => .ok entries
  | some _ => .error (.validation "metadata")

section

variable {V P S : Type} [LinearOrder S] [Zero S]

def toChunk (point : ScoredPoint S) : Except RetrievalFailure (RetrievedChunk S) := do
  let payload := point.payload.getD []
  let content ← textField payload "content"
  let sourceUri ← optionalText payload "source_uri"
  let title ← optionalText payload "title"
  let docType ← optionalText payload "doc_type"
  let metadata ← metadataField payload
  .ok
    { chunkId := point.id.str
      documentId := ((payload.get? "document_id").map Json.toStr).getD ""
      content := content
      score := point.score.getD 0
      sourceUri := sourceUri
      title := title
      docType := docType
      metadata := metadata }

namespace HybridRetriever

variable (self : HybridRetriever V P S)

/-- `_build_filter`: no filters are no filter. -/
def buildFilter (filters : Option Dict) :
    Except RetrievalFailure (Option (List FieldCondition)) :=
  match filters.getD [] with
  | [] => .ok none
  | entries => do
      let conditions ← entries.mapM fun (key, value) => do
        let value ← self.matchValue value
        .ok ⟨key, value⟩
      .ok (some conditions)

/-- The request `retrieve` makes of the store. -/
def request (query : String) (topK : ℕ) (filters : Option Dict) (mode : RetrievalMode) :
    Except RetrievalFailure (QueryPoints V P) := do
  let queryFilter ← self.buildFilter filters
  let candidateLimit := max (topK * self.candidateMultiplier) topK
  match ← self.embedDense [query] with
  | [] => .error .noVector
  | denseVec :: _ =>
      match mode with
      | .dense =>
          .ok
            { collection := self.collection
              query := .nearest denseVec denseVector
              limit := candidateLimit
              queryFilter := queryFilter }
      | .hybrid => do
          let sparse ← self.embedSparse query
          .ok
            { collection := self.collection
              query := .fused
                [⟨.inl denseVec, denseVector, candidateLimit⟩,
                  ⟨.inr sparse, sparseVector, candidateLimit⟩]
              limit := candidateLimit
              queryFilter := queryFilter }

/-- The candidates in the order of the store's scores. -/
def candidates (query : String) (topK : ℕ) (filters : Option Dict) (mode : RetrievalMode) :
    Except RetrievalFailure (List (RetrievedChunk S)) := do
  let points ← self.queryPoints (← self.request query topK filters mode)
  points.mapM toChunk

/-- `_rerank`: scores that are all zero leave the order as it is. -/
def rerank (reranker : String → List String → Except RetrievalFailure (List S)) (query : String)
    (candidates : List (RetrievedChunk S)) :
    Except RetrievalFailure (List (RetrievedChunk S)) := do
  let scores ← reranker query (candidates.map RetrievedChunk.content)
  if ¬ scores.any (fun s => s ≠ 0) then .ok candidates
  else if scores.length ≠ candidates.length then .error .unequalLengths
  else .ok (ranked RetrievedChunk.score (candidates.zipWith RetrievedChunk.withScore scores))

def retrieve (query : String) (topK : ℕ) (filters : Option Dict) (mode : RetrievalMode)
    (useRerank : Bool) : Except RetrievalFailure (List (RetrievedChunk S)) := do
  let candidates ← self.candidates query topK filters mode
  if candidates.isEmpty then .ok []
  else
    match useRerank, self.reranker with
    | true, some reranker => do
        let candidates ← rerank reranker query candidates
        .ok (candidates.take topK)
    | _, _ => .ok (candidates.take topK)

/-! ## What the reranker can change -/

variable {self} {reranker : String → List String → Except RetrievalFailure (List S)}
  {query : String} {topK : ℕ} {filters : Option Dict} {mode : RetrievalMode}

theorem retrieve_plain :
    self.retrieve query topK filters mode false =
      (self.candidates query topK filters mode).map fun candidates => candidates.take topK := by
  rw [retrieve]
  cases self.candidates query topK filters mode with
  | error e => rfl
  | ok candidates =>
      cases candidates with
      | nil => exact congrArg Except.ok List.take_nil.symm
      | cons chunk rest => rfl

theorem rerank_scored {candidates : List (RetrievedChunk S)} {scores : List S}
    (hscores : reranker query (candidates.map RetrievedChunk.content) = .ok scores)
    (hlength : scores.length = candidates.length) (hscore : ∃ s ∈ scores, s ≠ 0) :
    rerank reranker query candidates =
      .ok (ranked RetrievedChunk.score (candidates.zipWith RetrievedChunk.withScore scores)) := by
  have hany : scores.any (fun s => decide (s ≠ 0)) = true := by
    rw [List.any_eq_true]
    obtain ⟨s, hmem, hne⟩ := hscore
    exact ⟨s, hmem, decide_eq_true hne⟩
  rw [rerank, hscores]
  show (if ¬ scores.any (fun s => decide (s ≠ 0)) = true then _ else _) = _
  rw [if_neg (not_not.mpr hany), if_neg (not_not.mpr hlength)]

theorem rerank_zeros {candidates : List (RetrievedChunk S)} {scores : List S}
    (hscores : reranker query (candidates.map RetrievedChunk.content) = .ok scores)
    (hzero : ∀ s ∈ scores, s = 0) : rerank reranker query candidates = .ok candidates := by
  have hany : ¬ scores.any (fun s => decide (s ≠ 0)) = true := by
    rw [List.any_eq_true]
    rintro ⟨s, hmem, hne⟩
    exact of_decide_eq_true hne (hzero s hmem)
  rw [rerank, hscores]
  show (if ¬ scores.any (fun s => decide (s ≠ 0)) = true then _ else _) = _
  rw [if_pos hany]

/-- A reranker with one score for each candidate, not all of them zero, makes its
scores the order of the candidates and leaves everything else of them as it is; a
reranker that returns only zeros changes nothing. -/
theorem retrieve_rerank (self : HybridRetriever V P S)
    (reranker : String → List String → Except RetrievalFailure (List S))
    (hreranker : self.reranker = some reranker) (query : String) (topK : ℕ)
    (filters : Option Dict) (mode : RetrievalMode) :
    (∀ candidates scores, self.candidates query topK filters mode = .ok candidates →
      reranker query (candidates.map RetrievedChunk.content) = .ok scores →
      scores.length = candidates.length → (∃ s ∈ scores, s ≠ 0) →
      ∃ order : List (RetrievedChunk S),
        self.retrieve query topK filters mode true = .ok (order.take topK) ∧
        order.Perm (candidates.zipWith RetrievedChunk.withScore scores) ∧
        order.Pairwise (fun a b => b.score ≤ a.score) ∧
        ∀ s, order.filter (fun c => c.score = s) =
          (candidates.zipWith RetrievedChunk.withScore scores).filter fun c => c.score = s) ∧
    ((∀ documents, ∃ scores, reranker query documents = .ok scores ∧ ∀ s ∈ scores, s = 0) →
      self.retrieve query topK filters mode true =
        self.retrieve query topK filters mode false) := by
  constructor
  · intro candidates scores hcandidates hscores hlength hscore
    refine ⟨_, ?_, ranked_perm RetrievedChunk.score _, ranked_pairwise RetrievedChunk.score _,
      filter_ranked RetrievedChunk.score _⟩
    have hne : ¬ candidates.isEmpty = true := by
      rw [List.isEmpty_iff]
      rintro rfl
      obtain ⟨s, hmem, -⟩ := hscore
      rw [List.length_eq_zero_iff.mp hlength] at hmem
      cases hmem
    rw [retrieve, hcandidates, hreranker]
    show (if candidates.isEmpty = true then _ else _) = _
    rw [if_neg hne]
    show (rerank reranker query candidates >>= _) = _
    rw [rerank_scored hscores hlength hscore]
    rfl
  · intro hzero
    rw [retrieve_plain, retrieve, hreranker]
    cases self.candidates query topK filters mode with
    | error e => rfl
    | ok candidates =>
        obtain ⟨scores, hscores, hall⟩ := hzero (candidates.map RetrievedChunk.content)
        show (if candidates.isEmpty = true then _ else (rerank reranker query candidates >>= _)) = _
        rw [rerank_zeros hscores hall]
        cases candidates with
        | nil => exact congrArg Except.ok List.take_nil.symm
        | cons chunk rest => rfl

/-- Two points, the first one ahead. -/
def twoPoints (reranker : String → List String → Except RetrievalFailure (List ℤ)) :
    HybridRetriever Unit Unit ℤ where
  queryPoints _ := .ok
    [⟨.num 1, some 5, some [("content", .str "a")]⟩, ⟨.num 2, some 4, some [("content", .str "b")]⟩]
  matchValue := .ok
  embedDense texts := .ok (texts.map fun _ => ())
  embedSparse _ := .ok ()
  reranker := some reranker
  collection := "docs"

theorem retrieve_rerank_twoPoints :
    (∃ order : List (RetrievedChunk ℤ),
      (twoPoints fun _ _ => .ok [1, 2]).retrieve "q" 1 none .hybrid true = .ok (order.take 1) ∧
        order.Pairwise fun a b => b.score ≤ a.score) ∧
      (twoPoints fun _ documents => .ok (documents.map fun _ => 0)).retrieve "q" 1 none .hybrid
          true =
        (twoPoints fun _ documents => .ok (documents.map fun _ => 0)).retrieve "q" 1 none .hybrid
          false := by
  constructor
  · have hscored := (retrieve_rerank (twoPoints fun _ _ => .ok [1, 2]) _ rfl "q" 1 none .hybrid).1
      [⟨"1", "", "a", 5, none, none, none, []⟩, ⟨"2", "", "b", 4, none, none, none, []⟩] [1, 2]
      rfl rfl rfl ⟨1, List.mem_cons_self .., by decide⟩
    obtain ⟨order, hretrieve, -, hsorted, -⟩ := hscored
    exact ⟨order, hretrieve, hsorted⟩
  · apply (retrieve_rerank (twoPoints fun _ documents => .ok (documents.map fun _ => 0)) _ rfl
      "q" 1 none .hybrid).2
    intro documents
    refine ⟨_, rfl, ?_⟩
    intro s hs
    obtain ⟨_, -, hzero⟩ := List.mem_map.mp hs
    exact hzero.symm

end HybridRetriever

end

end Lour.Rag
