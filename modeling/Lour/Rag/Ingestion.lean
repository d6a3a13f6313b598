import Lour.Lib.System
import Lour.Rag.Corpus
/-!
# `IngestionPipeline`

Every call of a collaborator may raise, and one that raises has had no effect.
The relational writes are staged in a unit of work that an exception rolls back;
the two Qdrant calls are made inside it and nothing undoes them.
-/

namespace Lour.Rag

open Lour.Lib Lour.Lib.Python

structure LoadedDocument where
  content : String
  sourceUri : String
  docType : String
  title : Option String := none
  metadata : Dict := []
  /-- Chunk boundaries the loader knows; `none` leaves them to the chunker. -/
  segments : Option (List String) := none

structure Loader where
  supports : String → Bool
  load : String → LoadedDocument

structure IngestResult where
  documentId : Option ℕ
  sourceUri : String
  chunks : ℕ
  skipped : Bool := false
  reason : Option String := none

/-- The collaborator calls of one ingestion.  `lookup` is the fast path's unit of
work, which reads and commits before anything else happens. -/
inductive Site where
  | load
  | lookup
  | lookupCommit
  | split
  | embedDense
  | embedSparse
  | getByHash
  | getBySource
  | listPointIds (documentId : ℕ)
  | deleteDocument (documentId : ℕ)
  | addDocument
  | addChunk (index : ℕ)
  | deletePoints
  | upsertPoints
  | commit
  deriving DecidableEq

inductive Failure where
  | raised (site : Site)
  | noLoader (source : String)
  /-- An embedder returned fewer vectors than texts. -/
  | missingVector (index : ℕ)

/-- What the collaborators answer during one call, and which of their calls raise. -/
structure Collaborators (δ σ : Type) where
  loaders : List Loader := []
  split : String → List String
  embedDense : List String → List δ
  embedSparse : List String → List σ
  raises : Site → Bool := fun _ => false
  now : Rat := 0

/-- What is about to be written for one document. -/
structure Draft (δ σ : Type) where
  documentId : ℕ
  docHash : String
  loaded : LoadedDocument
  texts : List String
  dense : List δ
  sparse : List σ

section

variable {δ σ : Type}

namespace Collaborators

variable (env : Collaborators δ σ)

def call (site : Site) : Except Failure Unit :=
  if env.raises site then .error (.raised site) else .ok ()

/-- A flush that the database may refuse. -/
def flush {α : Type} (site : Site) (written : Option α) : Except Failure α := do
  env.call site
  match written with
  | some a => .ok a
  | none => .error (.raised site)

/-! ## `_delete_existing` -/

def deleteOne (acc : List ℕ × Database) (doc : Document) :
    Except Failure (List ℕ × Database) := do
  env.call (.listPointIds doc.id)
  env.call (.deleteDocument doc.id)
  .ok (acc.1 ++ acc.2.listPointIds doc.id, acc.2.delete doc.id)

/-- The documents `_delete_existing` deletes: by hash, then by source when that is
another document. -/
def existing (docHash sourceUri : String) (db : Database) : List Document :=
  let byHash := db.getByHash docHash
  let bySource := db.getBySource sourceUri
  byHash.toList ++ (bySource.filter fun d => byHash.all fun h => h.id != d.id).toList

def deleteExisting (docHash sourceUri : String) (db : Database) :
    Except Failure (List ℕ × Database) := do
  env.call .getByHash
  env.call .getBySource
  (existing docHash sourceUri db).foldlM env.deleteOne ([], db)

end Collaborators

namespace Draft

variable (self : Draft δ σ)

def document (createdAt : Rat) : Document where
  id := self.documentId
  docHash := self.docHash
  sourceUri := self.loaded.sourceUri
  title := self.loaded.title
  docType := self.loaded.docType
  metadata := self.loaded.metadata
  createdAt := createdAt

/-- The point ids are drawn one by one after the document's. -/
def chunk (text : String × ℕ) : Chunk where
  documentId := self.documentId
  chunkIndex := text.2
  content := text.1
  pointId := self.documentId + 1 + text.2

def chunks : List Chunk := self.texts.zipIdx.map self.chunk

def buildPoint (chunk : Chunk) (dense : δ) (sparse : σ) : Point δ σ where
  id := chunk.pointId
  dense := dense
  sparse := sparse
  payload :=
    { documentId := self.documentId
      chunkIndex := chunk.chunkIndex
      content := chunk.content
      sourceUri := self.loaded.sourceUri
      title := self.loaded.title
      docType := self.loaded.docType
      metadata := self.loaded.metadata }

def vectors (index : ℕ) : Except Failure (δ × σ) :=
  match self.dense[index]?, self.sparse[index]? with
  | some dense, some sparse => .ok (dense, sparse)
  | _, _ => .error (.missingVector index)

end Draft

namespace Collaborators

variable (env : Collaborators δ σ)

/-- One round of the loop over the chunk texts. -/
def writeChunk (draft : Draft δ σ) (acc : Database × List (Point δ σ)) (chunk : Chunk) :
    Except Failure (Database × List (Point δ σ)) := do
  let db ← env.flush (.addChunk chunk.chunkIndex) (acc.1.addChunk chunk)
  let vectors ← draft.vectors chunk.chunkIndex
  .ok (db, acc.2 ++ [draft.buildPoint chunk vectors.1 vectors.2])

/-- The relational half of the unit of work; nothing is visible before its commit. -/
def stage (draft : Draft δ σ) (db : Database) :
    Except Failure (List ℕ × Database × List (Point δ σ)) := do
  let (oldPointIds, db) ← env.deleteExisting draft.docHash draft.loaded.sourceUri db
  let db ← env.flush .addDocument (db.addDocument (draft.document env.now))
  let (db, points) ← draft.chunks.foldlM (env.writeChunk draft) (db, [])
  .ok (oldPointIds, db, points)

/-- The second unit of work.  An exception in its body rolls the relational writes
back; what Qdrant was told stays. -/
def write (draft : Draft δ σ) (corpus : Corpus δ σ) :
    Except Failure IngestResult × Corpus δ σ :=
  let corpus := { corpus with minted := corpus.minted + 1 + draft.texts.length }
  match env.stage draft corpus.database with
  | .error e => (.error e, corpus)
  | .ok (oldPointIds, db, points) =>
  match if oldPointIds.isEmpty then .ok () else env.call .deletePoints with
  | .error e => (.error e, corpus)
  | .ok () =>
  let kept := deletePoints oldPointIds corpus.points
  match env.call .upsertPoints with
  | .error e => (.error e, { corpus with points := kept })
  | .ok () =>
  let stored := Rag.upsertPoints kept points
  match env.call .commit with
  | .error e => (.error e, { corpus with points := stored })
  | .ok () =>
      (.ok
        { documentId := some draft.documentId
          sourceUri := draft.loaded.sourceUri
          chunks := draft.texts.length },
        { corpus with database := db, points := stored })

/-- The fast path: the document that already has this content. -/
def duplicate (force : Bool) (docHash : String) (db : Database) :
    Except Failure (Option Document) :=
  if force then .ok none
  else do
    env.call .lookup
    env.call .lookupCommit
    .ok (db.getByHash docHash)

/-- The loader's segments, else the chunker's. -/
def segments (loaded : LoadedDocument) : Except Failure (List String) :=
  match loaded.segments with
  | some segments => .ok segments
  | none => do
      env.call .split
      .ok (env.split loaded.content)

def chunkTexts (loaded : LoadedDocument) : Except Failure (List String) := do
  let texts ← env.segments loaded
  .ok (texts.filter fun text => !isBlank text)

/-- Chunk and embed; `none` where there is nothing to write. -/
def prepare (docHash : String) (loaded : LoadedDocument) (documentId : ℕ) :
    Except Failure (Option (Draft δ σ)) := do
  let texts ← env.chunkTexts loaded
  if texts.isEmpty then .ok none
  else do
    env.call .embedDense
    env.call .embedSparse
    .ok (some
      { documentId, docHash, loaded, texts
        dense := env.embedDense texts
        sparse := env.embedSparse texts })

end Collaborators

/-- `_ingest`, with the draft it went on to write, if it came to that. -/
def ingest (sha256 : String → String) (env : Collaborators δ σ) (loaded : LoadedDocument)
    (force : Bool) (corpus : Corpus δ σ) :
    Except Failure IngestResult × Corpus δ σ × List (Draft δ σ) :=
  let docHash := sha256 loaded.content
  match env.duplicate force docHash corpus.database with
  | .error e => (.error e, corpus, [])
  | .ok (some existing) =>
      (.ok
        { documentId := some existing.id
          sourceUri := loaded.sourceUri
          chunks := 0
          skipped := true
          reason := some "duplicate" }, corpus, [])
  | .ok none =>
  match env.prepare docHash loaded corpus.minted with
  | .error e => (.error e, corpus, [])
  | .ok none =>
      (.ok
        { documentId := none
          sourceUri := loaded.sourceUri
          chunks := 0
          skipped := true
          reason := some "no_content" }, corpus, [])
  | .ok (some draft) =>
      let (result, after) := env.write draft corpus
      (result, after, [draft])

inductive IngestCall where
  | source (uri : String) (force : Bool)
  | text (content sourceUri : String) (title : Option String) (docType : String)
      (metadata : Option Dict) (force : Bool)

def IngestCall.force : IngestCall → Bool
  | .source _ force => force
  | .text _ _ _ _ _ force => force

def resolveLoader (loaders : List Loader) (source : String) : Except Failure Loader :=
  match loaders.find? fun loader => loader.supports source with
  | some loader => .ok loader
  | none => .error (.noLoader source)

/-- What `ingest_source` loads, and what `ingest_text` is handed. -/
def IngestCall.load (env : Collaborators δ σ) : IngestCall → Except Failure LoadedDocument
  | .source uri _ => do
      let loader ← resolveLoader env.loaders uri
      env.call .load
      .ok (loader.load uri)
  | .text content sourceUri title docType metadata _ =>
      .ok { content, sourceUri, docType, title, metadata := metadata.getD [] }

/-- `ingest_source` and `ingest_text`. -/
def perform (sha256 : String → String) (env : Collaborators δ σ) (call : IngestCall)
    (corpus : Corpus δ σ) : Except Failure IngestResult × Corpus δ σ × List (Draft δ σ) :=
  match call.load env with
  | .error e => (.error e, corpus, [])
  | .ok loaded => ingest sha256 env loaded call.force corpus

/-- Calls made one after the other; the outputs are the drafts they wrote or began
to write. -/
def corpusSystem (δ σ : Type) (sha256 : String → String) :
    System (Corpus δ σ) (IngestCall × Collaborators δ σ) (Draft δ σ) :=
  ⟨fun corpus call =>
    let (_, after, drafts) := perform sha256 call.2 call.1 corpus
    some (after, drafts)⟩

end

end Lour.Rag
