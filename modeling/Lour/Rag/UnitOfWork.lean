import Lour.Lib.Interleaving
import Lour.Rag.RawText
/-!
# Units of work at READ COMMITTED

`_ingest` statement by statement.  A statement sees what was committed before it and
the transaction's own writes.  One that touches a row which another transaction is
deleting, or a hash which another one is inserting, waits and then looks again.
-/

namespace Lour.Rag

open Lour.Lib Lour.Lib.Python

/-- What is committed, and the locks of the transactions that are open. -/
structure Server (δ σ : Type) where
  corpus : Corpus δ σ
  deleting : List ℕ := []
  inserting : List String := []

/-- The uncommitted writes of one call, and what it has gathered for Qdrant. -/
structure UnitOfWork (δ σ : Type) where
  draft : Draft δ σ
  deleted : List ℕ := []
  staged : Database := {}
  oldPointIds : List ℕ := []
  points : List (Point δ σ) := []

/-- The statement a call comes to next. -/
inductive IngestPhase (δ σ : Type) where
  | lookup
  | prepare
  | getByHash (uow : UnitOfWork δ σ)
  | getBySource (uow : UnitOfWork δ σ) (byHash : Option Document)
  | listPointIds (uow : UnitOfWork δ σ) (toDelete : List Document)
  | deleteDocument (uow : UnitOfWork δ σ) (doc : Document) (toDelete : List Document)
  | addDocument (uow : UnitOfWork δ σ)
  | addChunk (uow : UnitOfWork δ σ) (chunks : List Chunk)
  | deletePoints (uow : UnitOfWork δ σ)
  | upsertPoints (uow : UnitOfWork δ σ)
  | commit (uow : UnitOfWork δ σ)
  | returned (result : IngestResult)
  | raised (e : Failure)

/-- A call of `_ingest` on its way. -/
structure Ingestion (δ σ : Type) where
  env : Collaborators δ σ
  loaded : LoadedDocument
  force : Bool := false
  phase : IngestPhase δ σ := .lookup

section

variable {δ σ : Type}

namespace UnitOfWork

variable (self : UnitOfWork δ σ)

/-- What the transaction sees, and what its commit makes of the database. -/
def publish (db : Database) : Database where
  documents := (db.without self.deleted).documents ++ self.staged.documents
  chunks := (db.without self.deleted).chunks ++ self.staged.chunks

end UnitOfWork

/-- The documents to delete, by the results of the two lookups. -/
def toDelete (byHash bySource : Option Document) : List Document :=
  byHash.toList ++ (bySource.filter fun d => byHash.all fun h => h.id != d.id).toList

namespace Server

variable (self : Server δ σ)

/-- The transaction ends and gives its locks back. -/
def release (uow : UnitOfWork δ σ) : Server δ σ :=
  { self with
    deleting := self.deleting.filter fun id => decide (id ∉ uow.deleted)
    inserting := self.inserting.filter fun docHash =>
      decide (docHash ∉ uow.staged.documents.map Document.docHash) }

/-- The ids of the rows that a deletion by id matches. -/
def matched (documentId : ℕ) : List ℕ :=
  (self.corpus.database.documents.filter fun d => d.id == documentId).map Document.id

/-- An insert of the hash has to wait for another transaction. -/
def contested (uow : UnitOfWork δ σ) (docHash : String) : Bool :=
  self.inserting.contains docHash ||
    (self.corpus.database.without uow.deleted).documents.any fun d =>
      d.docHash == docHash && self.deleting.contains d.id

end Server

namespace Ingestion

variable (self : Ingestion δ σ) (sha256 : String → String)

/-- A statement that raises rolls the transaction back. -/
def await (site : Site) (uow : UnitOfWork δ σ) (server : Server δ σ)
    (next : Option (Server δ σ × IngestPhase δ σ)) : Option (Server δ σ × IngestPhase δ σ) :=
  if self.env.raises site then some (server.release uow, .raised (.raised site)) else next

/-- The next statement; `none` while it has to wait, and when the call is over. -/
def advance (server : Server δ σ) : Option (Server δ σ × IngestPhase δ σ) :=
  let docHash := sha256 self.loaded.content
  match self.phase with
  | .lookup =>
      match self.env.duplicate self.force docHash server.corpus.database with
      | .error e => some (server, .raised e)
      | .ok (some existing) =>
          some (server, .returned
            { documentId := some existing.id
              sourceUri := self.loaded.sourceUri
              chunks := 0
              skipped := true
              reason := some "duplicate" })
      | .ok none => some (server, .prepare)
  | .prepare =>
      -- the document's id is drawn when the row is flushed
      match self.env.prepare docHash self.loaded 0 with
      | .error e => some (server, .raised e)
      | .ok none =>
          some (server, .returned
            { documentId := none
              sourceUri := self.loaded.sourceUri
              chunks := 0
              skipped := true
              reason := some "no_content" })
      | .ok (some draft) => some (server, .getByHash { draft })
  | .getByHash uow =>
      self.await .getByHash uow server <|
        some (server, .getBySource uow (server.corpus.database.getByHash docHash))
  | .getBySource uow byHash =>
      self.await .getBySource uow server <|
        some (server, .listPointIds uow
          (toDelete byHash (server.corpus.database.getBySource self.loaded.sourceUri)))
  | .listPointIds uow [] => some (server, .addDocument uow)
  | .listPointIds uow (doc :: rest) =>
      self.await (.listPointIds doc.id) uow server <|
        let ids := (uow.publish server.corpus.database).listPointIds doc.id
        some (server, .deleteDocument { uow with oldPointIds := uow.oldPointIds ++ ids } doc rest)
  | .deleteDocument uow doc rest =>
      self.await (.deleteDocument doc.id) uow server <|
        if server.deleting.contains doc.id then none
        else
          let found := server.matched doc.id
          some ({ server with deleting := server.deleting ++ found },
            .listPointIds { uow with deleted := uow.deleted ++ found } rest)
  | .addDocument uow =>
      self.await .addDocument uow server <|
        if server.contested uow docHash then none
        else
          let draft := { uow.draft with documentId := server.corpus.minted }
          let document := draft.document self.env.now
          match (server.corpus.database.without uow.deleted).addDocument document with
          | none => some (server.release uow, .raised (.raised .addDocument))
          | some _ =>
              some (
                { server with
                  corpus := server.corpus.mint draft
                  inserting := server.inserting ++ [docHash] },
                .addChunk { uow with draft, staged := { documents := [document] } } draft.chunks)
  | .addChunk uow [] => some (server, .deletePoints uow)
  | .addChunk uow (chunk :: rest) =>
      match self.env.writeChunk uow.draft (uow.staged, uow.points) chunk with
      | .error e => some (server.release uow, .raised e)
      | .ok (staged, points) => some (server, .addChunk { uow with staged, points } rest)
  | .deletePoints uow =>
      if uow.oldPointIds.isEmpty then some (server, .upsertPoints uow)
      else
        self.await .deletePoints uow server <|
          let points := Rag.deletePoints uow.oldPointIds server.corpus.points
          some ({ server with corpus := { server.corpus with points } }, .upsertPoints uow)
  | .upsertPoints uow =>
      self.await .upsertPoints uow server <|
        let points := Rag.upsertPoints server.corpus.points uow.points
        some ({ server with corpus := { server.corpus with points } }, .commit uow)
  | .commit uow =>
      self.await .commit uow server <|
        let database := uow.publish server.corpus.database
        some ({ server with corpus := { server.corpus with database } }.release uow,
          .returned
            { documentId := some uow.draft.documentId
              sourceUri := self.loaded.sourceUri
              chunks := uow.draft.texts.length })
  | .returned _ | .raised _ => none

end Ingestion

/-- What a statement that was run does to the two stores. -/
inductive Advances (sha256 : String → String) (env : Collaborators δ σ) (loaded : LoadedDocument)
    (force : Bool) :
    Corpus δ σ → IngestPhase δ σ → Corpus δ σ → IngestPhase δ σ → Prop
  | raises (corpus : Corpus δ σ) (phase : IngestPhase δ σ) (e : Failure) :
      Advances sha256 env loaded force corpus phase corpus (.raised e)
  | duplicate (corpus : Corpus δ σ) (existing : Document) (result : IngestResult)
      (hfound : env.duplicate force (sha256 loaded.content) corpus.database = .ok (some existing)) :
      Advances sha256 env loaded force corpus .lookup corpus (.returned result)
  | fresh (corpus : Corpus δ σ) : Advances sha256 env loaded force corpus .lookup corpus .prepare
  | blank (corpus : Corpus δ σ) (result : IngestResult) (hblank : env.texts loaded = []) :
      Advances sha256 env loaded force corpus .prepare corpus (.returned result)
  | prepared (corpus : Corpus δ σ) (draft : Draft δ σ)
      (hdocHash : draft.docHash = sha256 loaded.content) (hloaded : draft.loaded = loaded)
      (htexts : draft.texts ≠ []) :
      Advances sha256 env loaded force corpus .prepare corpus (.getByHash { draft })
  | byHash (corpus : Corpus δ σ) (uow : UnitOfWork δ σ) :
      Advances sha256 env loaded force corpus (.getByHash uow) corpus
        (.getBySource uow (corpus.database.getByHash (sha256 loaded.content)))
  | bySource (corpus : Corpus δ σ) (uow : UnitOfWork δ σ) (byHash : Option Document) :
      Advances sha256 env loaded force corpus (.getBySource uow byHash) corpus
        (.listPointIds uow (toDelete byHash (corpus.database.getBySource loaded.sourceUri)))
  | listed (corpus : Corpus δ σ) (uow : UnitOfWork δ σ) (doc : Document) (rest : List Document) :
      Advances sha256 env loaded force corpus (.listPointIds uow (doc :: rest)) corpus
        (.deleteDocument
          { uow with
            oldPointIds := uow.oldPointIds ++ (uow.publish corpus.database).listPointIds doc.id }
          doc rest)
  | allListed (corpus : Corpus δ σ) (uow : UnitOfWork δ σ) :
      Advances sha256 env loaded force corpus (.listPointIds uow []) corpus (.addDocument uow)
  | deleted (corpus : Corpus δ σ) (uow : UnitOfWork δ σ) (doc : Document) (rest : List Document)
      (found : List ℕ)
      (hfound : ∀ id, id ∈ found ↔ id ∈ corpus.database.documents.map Document.id ∧ id = doc.id) :
      Advances sha256 env loaded force corpus (.deleteDocument uow doc rest) corpus
        (.listPointIds { uow with deleted := uow.deleted ++ found } rest)
  | added (corpus : Corpus δ σ) (uow : UnitOfWork δ σ) (draft : Draft δ σ)
      (hdraft : draft = { uow.draft with documentId := corpus.minted }) :
      Advances sha256 env loaded force corpus (.addDocument uow) (corpus.mint draft)
        (.addChunk { uow with draft, staged := { documents := [draft.document env.now] } }
          draft.chunks)
  | chunk (corpus : Corpus δ σ) (uow : UnitOfWork δ σ) (chunk : Chunk) (rest : List Chunk)
      (point : Point δ σ) (hindexes : uow.draft.Indexes chunk point) :
      Advances sha256 env loaded force corpus (.addChunk uow (chunk :: rest)) corpus
        (.addChunk
          { uow with
            staged := { uow.staged with chunks := uow.staged.chunks ++ [chunk] }
            points := uow.points ++ [point] }
          rest)
  | allAdded (corpus : Corpus δ σ) (uow : UnitOfWork δ σ) :
      Advances sha256 env loaded force corpus (.addChunk uow []) corpus (.deletePoints uow)
  | pointsDeleted (corpus : Corpus δ σ) (uow : UnitOfWork δ σ) :
      Advances sha256 env loaded force corpus (.deletePoints uow)
        { corpus with points := deletePoints uow.oldPointIds corpus.points } (.upsertPoints uow)
  | upserted (corpus : Corpus δ σ) (uow : UnitOfWork δ σ) :
      Advances sha256 env loaded force corpus (.upsertPoints uow)
        { corpus with points := upsertPoints corpus.points uow.points } (.commit uow)
  | committed (corpus : Corpus δ σ) (uow : UnitOfWork δ σ) (result : IngestResult) :
      Advances sha256 env loaded force corpus (.commit uow)
        { corpus with database := uow.publish corpus.database } (.returned result)

variable {sha256 : String → String} {env : Collaborators δ σ} {loaded : LoadedDocument}
  {force : Bool} {server after : Server δ σ} {phase phase' : IngestPhase δ σ}

theorem await_cases {site : Site} {uow : UnitOfWork δ σ}
    {next : Option (Server δ σ × IngestPhase δ σ)} {self : Ingestion δ σ}
    (h : self.await site uow server next = some (after, phase'))
    (hnext : next = some (after, phase') →
      Advances sha256 env loaded force server.corpus phase after.corpus phase') :
    Advances sha256 env loaded force server.corpus phase after.corpus phase' := by
  unfold Ingestion.await at h
  split at h
  · cases h
    exact .raises _ _ _
  · exact hnext h

theorem writeChunk_ok {draft : Draft δ σ} {db db' : Database} {points points' : List (Point δ σ)}
    {chunk : Chunk} (h : env.writeChunk draft (db, points) chunk = .ok (db', points')) :
    db' = { db with chunks := db.chunks ++ [chunk] } ∧
      ∃ point, draft.Indexes chunk point ∧ points' = points ++ [point] := by
  unfold Collaborators.writeChunk at h
  obtain ⟨staged, hflush, h⟩ := bind_eq_ok.mp h
  obtain ⟨v, hvectors, h⟩ := bind_eq_ok.mp h
  cases h
  obtain ⟨hdense, hsparse⟩ := vectors_ok hvectors
  exact ⟨addChunk_eq_some (flush_ok env hflush), _, ⟨v.1, v.2, hdense, hsparse, rfl⟩, rfl⟩

theorem mem_matched {documentId id : ℕ} :
    id ∈ server.matched documentId ↔
      id ∈ server.corpus.database.documents.map Document.id ∧ id = documentId := by
  simp only [Server.matched, List.mem_map, List.mem_filter, beq_iff_eq]
  constructor
  · rintro ⟨d, ⟨hd, rfl⟩, rfl⟩
    exact ⟨⟨d, hd, rfl⟩, rfl⟩
  · rintro ⟨⟨d, hd, rfl⟩, hid⟩
    exact ⟨d, ⟨hd, hid⟩, rfl⟩

theorem advance_cases
    (h : Ingestion.advance ⟨env, loaded, force, phase⟩ sha256 server = some (after, phase')) :
    Advances sha256 env loaded force server.corpus phase after.corpus phase' := by
  unfold Ingestion.advance at h
  cases phase with
  | lookup =>
      dsimp only at h
      split at h
      next e heq =>
          cases h
          exact .raises _ _ _
      next existing heq =>
          cases h
          exact .duplicate _ existing _ heq
      next heq =>
          cases h
          exact .fresh _
  | prepare =>
      dsimp only at h
      split at h
      next e heq =>
          cases h
          exact .raises _ _ _
      next heq =>
          cases h
          rcases prepare_ok heq with ⟨hblank, -⟩ | ⟨-, hsome⟩
          · exact .blank _ _ hblank
          · cases hsome
      next draft heq =>
          cases h
          rcases prepare_ok heq with ⟨-, hnone⟩ | ⟨htexts, hsome⟩
          · cases hnone
          · cases hsome
            exact .prepared _ _ rfl rfl htexts
  | getByHash uow =>
      apply await_cases h
      intro hnext
      cases hnext
      exact .byHash _ _
  | getBySource uow byHash =>
      apply await_cases h
      intro hnext
      cases hnext
      exact .bySource _ _ _
  | listPointIds uow toDelete =>
      cases toDelete with
      | nil =>
          cases h
          exact .allListed _ _
      | cons doc rest =>
          apply await_cases h
          intro hnext
          cases hnext
          exact .listed _ _ _ _
  | deleteDocument uow doc rest =>
      apply await_cases h
      intro hnext
      split at hnext
      · cases hnext
      · cases hnext
        exact .deleted _ _ _ _ _ fun id => mem_matched
  | addDocument uow =>
      apply await_cases h
      intro hnext
      split at hnext
      · cases hnext
      · dsimp only at hnext
        split at hnext
        · cases hnext
          exact .raises _ _ _
        · cases hnext
          exact .added _ _ _ rfl
  | addChunk uow chunks =>
      cases chunks with
      | nil =>
          cases h
          exact .allAdded _ _
      | cons chunk rest =>
          dsimp only at h
          split at h
          next e heq =>
              cases h
              exact .raises _ _ _
          next staged points heq =>
              cases h
              obtain ⟨rfl, point, hindexes, rfl⟩ := writeChunk_ok heq
              exact .chunk _ _ _ _ point hindexes
  | deletePoints uow =>
      dsimp only at h
      split at h
      next hempty =>
          cases h
          have hkept : deletePoints uow.oldPointIds server.corpus.points =
              server.corpus.points := by
            rw [List.isEmpty_iff.mp hempty]
            simp [deletePoints]
          have hstep : Advances sha256 env loaded force server.corpus (.deletePoints uow)
              { server.corpus with points := deletePoints uow.oldPointIds server.corpus.points }
              (.upsertPoints uow) := .pointsDeleted server.corpus uow
          rwa [hkept] at hstep
      next =>
          apply await_cases h
          intro hnext
          cases hnext
          exact .pointsDeleted _ _
  | upsertPoints uow =>
      apply await_cases h
      intro hnext
      cases hnext
      exact .upserted _ _
  | commit uow =>
      apply await_cases h
      intro hnext
      cases hnext
      exact .committed _ _ _
  | returned result => cases h
  | raised e => cases h

/-- Calls of `_ingest` that run at the same time, a statement at a time. -/
def concurrentIngestion (δ σ : Type) (sha256 : String → String) :
    System (Shared (Server δ σ) (Ingestion δ σ)) (ℕ × Unit) Empty :=
  interleaving fun server call () =>
    (call.advance sha256 server).map fun (server, phase) => (server, { call with phase })

end

end Lour.Rag
