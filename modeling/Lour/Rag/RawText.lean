import Lour.Rag.Chunking
import Lour.Rag.Failure
/-!
# `POST /v1/rag/ingest` with raw text

A raw text is stored under its title, and under one and the same name where it
has none.  The pipeline replaces what is stored under that name.
-/

namespace Lour.Rag

open Lour.Lib Lour.Lib.Python

/-- Exactly one of `source` and `text` is given. -/
structure IngestRequest where
  source : Option String := none
  text : Option String := none
  title : Option String := none
  docType : String := "text"
  metadata : Dict := []
  force : Bool := false
  exactlyOneInput : (source.getD "" != "") ≠ (text.getD "" != "")

namespace IngestRequest

variable (self : IngestRequest)

def content : String := self.text.getD ""

/-- `req.title or "inline-text"`. -/
def textUri : String :=
  if self.title.getD "" = "" then "inline-text" else self.title.getD ""

/-- The call of the pipeline that the route makes. -/
def call : IngestCall :=
  match self.source with
  | some source => .source source self.force
  | none =>
      .text self.content self.textUri self.title self.docType (some self.metadata) self.force

/-- What `ingest_text` makes of a raw text. -/
def loaded : LoadedDocument where
  content := self.content
  sourceUri := self.textUri
  docType := self.docType
  title := self.title
  metadata := self.metadata

end IngestRequest

/-- The numeric part of the semantic chunker. -/
structure Numpy (V R : Type) where
  consecutiveDistances : List V → List R
  percentile : List R → R

/-- A request, and what the services answer while it is handled. -/
structure Visit (V δ σ : Type) where
  request : IngestRequest
  embedSentences : List (List Char) → Option (List V)
  env : Collaborators δ σ

section

variable {V R δ σ : Type} [LT R] [DecidableLT R]

/-- The chunker of the application, with the defaults of its class. -/
def appChunker (numpy : Numpy V R) (embed : List (List Char) → Option (List V)) :
    SemanticChunker V R where
  embedder := some embed
  consecutiveDistances := numpy.consecutiveDistances
  percentile := numpy.percentile
  maxChunkChars_pos := maxChunkChars_default_pos

def Visit.chunks (numpy : Numpy V R) (self : Visit V δ σ) (text : String) :
    Option (List String) :=
  ((appChunker numpy self.embedSentences).split text.toList).map (·.map String.ofList)

/-- The collaborators, with the application's chunker among them. -/
def Visit.collaborators (numpy : Numpy V R) (self : Visit V δ σ) : Collaborators δ σ :=
  { self.env with
    split := fun text => (self.chunks numpy text).getD []
    raises := fun site =>
      self.env.raises site ||
        (decide (site = .split) && (self.chunks numpy self.request.content).isNone) }

/-- The corpus, and the hashes of the texts posted so far. -/
structure Posts (δ σ : Type) where
  corpus : Corpus δ σ
  hashes : List String := []

/-- Requests answered without an error. -/
def ingestRoute (sha256 : String → String) (numpy : Numpy V R) :
    System (Posts δ σ) (Visit V δ σ) (Draft δ σ) :=
  ⟨fun posts visit =>
    match perform sha256 (visit.collaborators numpy) visit.request.call posts.corpus with
    | (.ok _, corpus, drafts) =>
        some (⟨corpus, posts.hashes ++ [sha256 visit.request.content]⟩, drafts)
    | (.error _, _, _) => none⟩

end

/-! ## What is stored -/

section Stored

variable {δ σ : Type} {env : Collaborators δ σ} {corpus after : Corpus δ σ} {draft : Draft δ σ}
  {points : List (Point δ σ)} {docHash : String} {d : Document}

/-- The point is the row's. -/
def Mirrors (row : Chunk) (p : Point δ σ) : Prop :=
  p.id = row.pointId ∧ p.payload.documentId = row.documentId ∧
    p.payload.chunkIndex = row.chunkIndex ∧ p.payload.content = row.content

/-- Every chunk row of the document has its point. -/
def Corpus.Indexed (corpus : Corpus δ σ) (d : Document) : Prop :=
  ∀ row ∈ corpus.database.chunks, row.documentId = d.id → ∃ p ∈ corpus.points, Mirrors row p

/-- The text of this hash is a document with chunk rows and their points. -/
def Corpus.Stored (corpus : Corpus δ σ) (docHash : String) : Prop :=
  ∃ d ∈ corpus.database.documents, d.docHash = docHash ∧
    (∃ row ∈ corpus.database.chunks, row.documentId = d.id) ∧ corpus.Indexed d

/-- The corpus after a draft was committed. -/
def Corpus.committed (corpus : Corpus δ σ) (draft : Draft δ σ) (createdAt : Rat)
    (points : List (Point δ σ)) : Corpus δ σ :=
  { corpus.mint draft with
    database := corpus.database.replaced draft createdAt
    points := corpus.kept draft ++ points }

theorem Corpus.WF.hash_inj (h : corpus.WF) {e : Document} (hd : d ∈ corpus.database.documents)
    (he : e ∈ corpus.database.documents) (heq : d.docHash = e.docHash) : d = e :=
  List.inj_on_of_nodup_map h.hashes hd he heq

variable (createdAt : Rat)

theorem mem_committed (h : corpus.WF) :
    d ∈ (corpus.committed draft createdAt points).database.documents ↔
      (d ∈ corpus.database.documents ∧ d.docHash ≠ draft.docHash ∧
        d.sourceUri ≠ draft.loaded.sourceUri) ∨ d = draft.document createdAt := by
  change d ∈ (corpus.database.without _).documents ++ [_] ↔ _
  rw [List.mem_append, List.mem_singleton, mem_without_doomed h.ids]

theorem committed_wf (h : corpus.WF) (hid : draft.documentId = corpus.minted)
    (htexts : draft.texts ≠ []) (hpoints : List.Forall₂ draft.Indexes draft.chunks points) :
    (corpus.committed draft createdAt points).WF := by
  apply (h.replaced hid htexts createdAt).withPoints (Nat.le_refl _)
  intro p hp
  rcases List.mem_append.mp hp with hp | hp
  · exact kept_lt h p hp
  · exact (indexed_lt hid hpoints p hp).2

/-- A document that stays keeps its rows. -/
theorem committed_rows (h : corpus.WF) (hid : draft.documentId = corpus.minted)
    (hd : d ∈ corpus.database.documents) (hhash : d.docHash ≠ draft.docHash)
    (hsource : d.sourceUri ≠ draft.loaded.sourceUri) {row : Chunk} :
    (row ∈ (corpus.committed draft createdAt points).database.chunks ∧ row.documentId = d.id) ↔
      row ∈ corpus.database.chunks ∧ row.documentId = d.id := by
  have hrows := replaced_rows_old h hid createdAt
    ((mem_without_doomed h.ids).mpr ⟨hd, hhash, hsource⟩)
  have hmem := congrArg (row ∈ ·) hrows
  change (row ∈ (corpus.database.replaced draft createdAt).chunks ∧ _) ↔ _
  simpa using hmem

/-- A document that stays is indexed after a commit exactly if it was before. -/
theorem committed_indexed (h : corpus.WF) (hid : draft.documentId = corpus.minted)
    (hpoints : List.Forall₂ draft.Indexes draft.chunks points)
    (hd : d ∈ corpus.database.documents) (hhash : d.docHash ≠ draft.docHash)
    (hsource : d.sourceUri ≠ draft.loaded.sourceUri) :
    (corpus.committed draft createdAt points).Indexed d ↔ corpus.Indexed d := by
  have hkept : ∀ row ∈ corpus.database.chunks, row.documentId = d.id →
      row.pointId ∉ corpus.database.pointsOf
        (corpus.database.doomed draft.docHash draft.loaded.sourceUri) := by
    intro row hrow hdoc hin
    obtain ⟨other, hother, hdoomed, hpoint⟩ := (Database.mem_pointsOf _).mp hin
    rcases List.inj_on_of_nodup_map h.rows hother hrow hpoint with rfl
    obtain ⟨e, he, hversion, heid⟩ := (Database.mem_doomed _).mp hdoomed
    rcases List.inj_on_of_nodup_map h.ids he hd (heid.trans hdoc) with rfl
    rcases hversion with heq | heq
    · exact hhash heq
    · exact hsource heq
  constructor
  · intro hindexed row hrow hdoc
    have hafter : row ∈ (corpus.committed draft createdAt points).database.chunks ∧
        row.documentId = d.id :=
      (committed_rows createdAt h hid hd hhash hsource).mpr ⟨hrow, hdoc⟩
    obtain ⟨p, hp, hmirrors⟩ := hindexed row hafter.1 hdoc
    rcases List.mem_append.mp hp with hp | hp
    · exact ⟨p, (mem_kept.mp hp).1, hmirrors⟩
    · -- the ids of the new points are new
      have hnew := (indexed_lt hid hpoints p hp).1
      have hold := h.rows_lt row hrow
      have hsame := hmirrors.1
      omega
  · intro hindexed row hrow hdoc
    obtain ⟨hbefore, -⟩ := (committed_rows createdAt h hid hd hhash hsource).mp ⟨hrow, hdoc⟩
    obtain ⟨p, hp, hmirrors⟩ := hindexed row hbefore hdoc
    refine ⟨p, List.mem_append_left _ (mem_kept.mpr ⟨hp, ?_⟩), hmirrors⟩
    rw [hmirrors.1]
    exact hkept row hbefore hdoc

/-- The document of the draft is stored with all its points. -/
theorem committed_stored (h : corpus.WF) (hid : draft.documentId = corpus.minted)
    (htexts : draft.texts ≠ []) (hpoints : List.Forall₂ draft.Indexes draft.chunks points) :
    (corpus.committed draft createdAt points).Stored draft.docHash := by
  refine ⟨draft.document createdAt, ?_, rfl, ?_, ?_⟩
  · exact (mem_committed createdAt h).mpr (.inr rfl)
  · obtain ⟨text, rest, hcons⟩ := List.exists_cons_of_ne_nil htexts
    refine ⟨draft.chunk (text, 0), List.mem_append_right _ ?_, rfl⟩
    rw [Draft.chunks, hcons, List.zipIdx_cons, List.map_cons]
    exact List.mem_cons_self
  · intro row hrow hdoc
    have hdraft : row ∈ draft.chunks := by
      rw [← replaced_rows_new h hid createdAt]
      exact List.mem_filter.mpr ⟨hrow, beq_iff_eq.mpr hdoc⟩
    obtain ⟨p, hp, dense, sparse, -, -, rfl⟩ := forall₂_partner hpoints.flip hdraft
    exact ⟨_, List.mem_append_right _ hp, rfl, (draft_chunk_mem hdraft).1.symm, rfl, rfl⟩

/-- Another text stays stored unless its document is under the draft's source. -/
theorem committed_stored_iff (h : corpus.WF) (hid : draft.documentId = corpus.minted)
    (hpoints : List.Forall₂ draft.Indexes draft.chunks points) (hother : docHash ≠ draft.docHash) :
    (corpus.committed draft createdAt points).Stored docHash ↔
      corpus.Stored docHash ∧ ∀ d ∈ corpus.database.documents, d.docHash = docHash →
        d.sourceUri ≠ draft.loaded.sourceUri := by
  constructor
  · rintro ⟨d, hd, rfl, -, hindexed⟩
    rcases (mem_committed createdAt h).mp hd with ⟨hmem, hhash, hsource⟩ | rfl
    · refine ⟨⟨d, hmem, rfl, h.has_row hmem, ?_⟩, ?_⟩
      · exact (committed_indexed createdAt h hid hpoints hmem hhash hsource).mp hindexed
      · intro e he heq
        rw [h.hash_inj he hmem heq]
        exact hsource
    · exact absurd rfl hother
  · rintro ⟨⟨d, hd, rfl, ⟨row, hrow, hdoc⟩, hindexed⟩, hsources⟩
    have hsource := hsources d hd rfl
    refine ⟨d, (mem_committed createdAt h).mpr (.inl ⟨hd, hother, hsource⟩), rfl, ?_, ?_⟩
    · exact ⟨row, (committed_rows createdAt h hid hd hother hsource).mpr ⟨hrow, hdoc⟩⟩
    · exact (committed_indexed createdAt h hid hpoints hd hother hsource).mpr hindexed

end Stored

end Lour.Rag
