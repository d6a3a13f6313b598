import Lour.Rag.Retrieval
/-!
# `_multi_query_retrieve`

One retrieval for each subquery, merged into the best of each chunk.
-/

namespace Lour.Rag

open Lour.Lib Lour.Lib.Python

structure QueryRequest where
  query : String
  topK : ℕ := 10
  filters : Option Dict := none
  mode : RetrievalMode := .hybrid
  useRerank : Bool := true
  useHyde : Bool := false

/-- What the transformer and the retriever answer during one request.  The same
question may be answered differently in another turn of the loop. -/
structure QueryServices (S : Type) where
  multiQuery : String → Except RetrievalFailure (List String)
  hyde : ℕ → String → Except RetrievalFailure String
  retrieve : ℕ → String → ℕ → Option Dict → RetrievalMode → Bool →
    Except RetrievalFailure (List (RetrievedChunk S))

namespace QueryServices

variable {S : Type} [LinearOrder S] (self : QueryServices S) (req : QueryRequest)

/-- The retrieval for one subquery. -/
def search (turn : String × ℕ) : Except RetrievalFailure (List (RetrievedChunk S)) := do
  let searchText ← if req.useHyde then self.hyde turn.2 turn.1 else .ok turn.1
  self.retrieve turn.2 searchText req.topK req.filters req.mode req.useRerank

/-- The chunks of one result list entered into `merged`. -/
def merge (merged : OrderedDict String (RetrievedChunk S)) (found : List (RetrievedChunk S)) :
    OrderedDict String (RetrievedChunk S) :=
  found.foldl (keepBest RetrievedChunk.score RetrievedChunk.chunkId) merged

def multiQueryRetrieve : Except RetrievalFailure (List (RetrievedChunk S)) := do
  let subqueries ← self.multiQuery req.query
  let merged ← subqueries.zipIdx.foldlM (fun merged turn => do
    let found ← self.search req turn
    .ok (merge merged found)) OrderedDict.empty
  .ok ((ranked RetrievedChunk.score merged.values).take req.topK)

variable {self req}

theorem best_merge (found : List (List (RetrievedChunk S))) :
    Best RetrievedChunk.score RetrievedChunk.chunkId (found.foldl merge OrderedDict.empty)
      found.flatten := by
  have hstep : ∀ (before : List (RetrievedChunk S)) (merged),
      Best RetrievedChunk.score RetrievedChunk.chunkId merged before →
      Best RetrievedChunk.score RetrievedChunk.chunkId (found.foldl merge merged)
        (before ++ found.flatten) := by
    induction found with
    | nil =>
        intro before merged h
        rwa [List.flatten_nil, List.append_nil]
    | cons chunks found ih =>
        intro before merged h
        rw [List.flatten_cons, ← List.append_assoc]
        exact ih (before ++ chunks) (merge merged chunks) (h.foldl chunks)
  exact hstep [] OrderedDict.empty Best.empty

theorem multiQueryRetrieve_eq {subqueries : List String}
    {found : List (List (RetrievedChunk S))}
    (hsubqueries : self.multiQuery req.query = .ok subqueries)
    (hfound : subqueries.zipIdx.mapM (self.search req) = .ok found) :
    self.multiQueryRetrieve req = .ok ((ranked RetrievedChunk.score
      (found.foldl merge OrderedDict.empty).values).take req.topK) := by
  rw [multiQueryRetrieve, bind_eq_ok]
  refine ⟨subqueries, hsubqueries, bind_eq_ok.mpr ⟨_, ?_, rfl⟩⟩
  exact foldlM_of_mapM hfound OrderedDict.empty

/-- What is returned does not outscore what is left out. -/
theorem score_le_of_left_out {found : List (List (RetrievedChunk S))} {n : ℕ}
    {c d : RetrievedChunk S} (hc : c ∈ found.flatten)
    (hout : c.chunkId ∉ ((ranked RetrievedChunk.score
      (found.foldl merge OrderedDict.empty).values).take n).map RetrievedChunk.chunkId)
    (hd : d ∈ (ranked RetrievedChunk.score
      (found.foldl merge OrderedDict.empty).values).take n) : c.score ≤ d.score := by
  have hbest := best_merge found
  obtain ⟨b, hget, hle⟩ := hbest.le c hc
  have hkey : b.chunkId = c.chunkId := (hbest.mem _ b hget).2
  have hranked : b ∈ ranked RetrievedChunk.score (found.foldl merge OrderedDict.empty).values :=
    (mem_ranked _).mpr (OrderedDict.mem_values.mpr ⟨_, hget⟩)
  rw [← List.take_append_drop n (ranked RetrievedChunk.score _), List.mem_append] at hranked
  rcases hranked with htake | hdrop
  · exact absurd (List.mem_map.mpr ⟨b, htake, hkey⟩) hout
  · calc c.score ≤ b.score := hle
      _ ≤ d.score := score_drop_le_score_take RetrievedChunk.score hd hdrop

/-- Where no two chunks have the same greatest score, what is returned depends only on
which result lists there are. -/
theorem scored_take_eq {found found' : List (List (RetrievedChunk S))} (hperm : found.Perm found')
    (hdistinct : ∀ i j s,
      IsGreatest (scoresOf RetrievedChunk.score RetrievedChunk.chunkId found.flatten i) s →
      IsGreatest (scoresOf RetrievedChunk.score RetrievedChunk.chunkId found.flatten j) s → i = j)
    (n : ℕ) :
    ((ranked RetrievedChunk.score (found.foldl merge OrderedDict.empty).values).take n).map
        (fun c => (c.chunkId, c.score)) =
      ((ranked RetrievedChunk.score (found'.foldl merge OrderedDict.empty).values).take n).map
        fun c => (c.chunkId, c.score) := by
  have hmem : ∀ c, c ∈ found.flatten ↔ c ∈ found'.flatten := fun c => hperm.flatten.mem_iff
  have hscored := (best_merge found).scored_perm (best_merge found') hmem
  have hpairs : ∀ l : List (RetrievedChunk S),
      (ranked RetrievedChunk.score l).map (fun c => (c.chunkId, c.score)) =
        ranked Prod.snd (l.map fun c => (c.chunkId, c.score)) :=
    map_ranked RetrievedChunk.score _ fun _ => rfl
  rw [List.map_take, List.map_take, hpairs, hpairs]
  congr 1
  apply ranked_eq_of_perm Prod.snd hscored
  rintro ⟨i, s⟩ hi ⟨j, t⟩ hj heq
  have hst : s = t := heq
  subst hst
  rw [hdistinct i j s ((best_merge found).mem_scored.mp hi) ((best_merge found).mem_scored.mp hj)]

/-- Whatever the retriever finds for the subqueries, the best of each chunk is
returned, of as many chunks as there is room for; and where no two chunks have the same
greatest score, the order of the subqueries does not show. -/
theorem multiQueryRetrieve_best (self : QueryServices S) (req : QueryRequest)
    (subqueries : List String) (found : List (List (RetrievedChunk S)))
    (hsubqueries : self.multiQuery req.query = .ok subqueries)
    (hfound : subqueries.zipIdx.mapM (self.search req) = .ok found) :
    ∃ result : List (RetrievedChunk S), self.multiQueryRetrieve req = .ok result ∧
      result.length = min req.topK (found.flatten.map RetrievedChunk.chunkId).dedup.length ∧
      (result.map RetrievedChunk.chunkId).Nodup ∧
      (∀ c ∈ result, c ∈ found.flatten ∧ IsGreatest
        (scoresOf RetrievedChunk.score RetrievedChunk.chunkId found.flatten c.chunkId) c.score) ∧
      result.Pairwise (fun c d => d.score ≤ c.score) ∧
      (∀ c ∈ found.flatten, c.chunkId ∉ result.map RetrievedChunk.chunkId →
        ∀ d ∈ result, c.score ≤ d.score) ∧
      ((∀ i j s,
          IsGreatest (scoresOf RetrievedChunk.score RetrievedChunk.chunkId found.flatten i) s →
          IsGreatest (scoresOf RetrievedChunk.score RetrievedChunk.chunkId found.flatten j) s →
          i = j) →
        ∀ (other : QueryServices S) (subqueries' : List String)
          (found' : List (List (RetrievedChunk S))),
          other.multiQuery req.query = .ok subqueries' →
          subqueries'.zipIdx.mapM (other.search req) = .ok found' →
          (subqueries'.zip found').Perm (subqueries.zip found) →
          ∃ result' : List (RetrievedChunk S), other.multiQueryRetrieve req = .ok result' ∧
            result'.map (fun c => (c.chunkId, c.score)) =
              result.map fun c => (c.chunkId, c.score)) := by
  have hbest := best_merge found
  refine ⟨_, multiQueryRetrieve_eq hsubqueries hfound, ?_, ?_, ?_, ?_, ?_, ?_⟩
  · rw [List.length_take, (ranked_perm RetrievedChunk.score _).length_eq, hbest.length_values]
  · have hnodup := hbest.nodup_keys
    have hranked := ((ranked_perm RetrievedChunk.score _).map RetrievedChunk.chunkId).nodup_iff.mpr
      hnodup
    exact hranked.sublist ((List.take_sublist ..).map _)
  · intro c hc
    have hvalue := (mem_ranked _).mp (List.mem_of_mem_take hc)
    have hget := hbest.key_of_mem_values hvalue
    exact ⟨(hbest.mem _ c hget).1, hbest.isGreatest hget⟩
  · exact (ranked_pairwise RetrievedChunk.score _).sublist (List.take_sublist ..)
  · intro c hc hout d hd
    exact score_le_of_left_out hc hout hd
  · intro hdistinct other subqueries' found' hsubqueries' hfound' hperm
    refine ⟨_, multiQueryRetrieve_eq hsubqueries' hfound', ?_⟩
    have hlength := mapM_ok_length hfound
    have hlength' := mapM_ok_length hfound'
    rw [List.length_zipIdx] at hlength hlength'
    have hlists := hperm.map Prod.snd
    rw [List.map_snd_zip (by omega), List.map_snd_zip (by omega)] at hlists
    exact (scored_take_eq hlists.symm hdistinct req.topK).symm

/-- A chunk of which only the name and the score matter. -/
def scoredChunk (chunkId : String) (score : ℤ) : RetrievedChunk ℤ where
  chunkId := chunkId
  documentId := "d"
  content := chunkId
  score := score

/-- Two subqueries that both find the chunk `y`. -/
def overlapping (subqueries : List String) : QueryServices ℤ where
  multiQuery _ := .ok subqueries
  hyde _ := .ok
  retrieve _ searchText _ _ _ _ :=
    .ok (if searchText = "a" then [scoredChunk "x" 5, scoredChunk "y" 3] else [scoredChunk "y" 7])

theorem multiQueryRetrieve_best_overlapping :
    ∃ result, (overlapping ["a", "b"]).multiQueryRetrieve { query := "q" } = .ok result ∧
      result.length = 2 ∧
      ∃ result', (overlapping ["b", "a"]).multiQueryRetrieve { query := "q" } = .ok result' ∧
        result'.map (fun c => (c.chunkId, c.score)) =
          result.map fun c => (c.chunkId, c.score) := by
  obtain ⟨result, hresult, hlength, -, -, -, -, hother⟩ :=
    multiQueryRetrieve_best (overlapping ["a", "b"]) { query := "q" } ["a", "b"]
      [[scoredChunk "x" 5, scoredChunk "y" 3], [scoredChunk "y" 7]] rfl rfl
  refine ⟨result, hresult, hlength, hother ?_ (overlapping ["b", "a"]) ["b", "a"]
    [[scoredChunk "y" 7], [scoredChunk "x" 5, scoredChunk "y" 3]] rfl rfl (List.Perm.swap _ _ _)⟩
  have hgreatest : ∀ i s,
      IsGreatest (scoresOf RetrievedChunk.score RetrievedChunk.chunkId
        [scoredChunk "x" 5, scoredChunk "y" 3, scoredChunk "y" 7] i) s →
      i = "x" ∧ s = 5 ∨ i = "y" ∧ s = 7 := by
    rintro i s ⟨⟨c, hc, rfl, rfl⟩, hupper⟩
    simp only [List.mem_cons, List.not_mem_nil, or_false] at hc
    rcases hc with rfl | rfl | rfl
    · exact .inl ⟨rfl, rfl⟩
    · have hle : (7 : ℤ) ≤ 3 := hupper ⟨scoredChunk "y" 7, by simp, rfl, rfl⟩
      omega
    · exact .inr ⟨rfl, rfl⟩
  intro i j s hi hj
  rcases hgreatest i s hi with ⟨rfl, rfl⟩ | ⟨rfl, rfl⟩
  · rcases hgreatest j 5 hj with ⟨rfl, -⟩ | ⟨-, h⟩
    · rfl
    · omega
  · rcases hgreatest j 7 hj with ⟨-, h⟩ | ⟨rfl, -⟩
    · omega
    · rfl

end QueryServices

end Lour.Rag
