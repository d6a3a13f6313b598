import Lour.Lib.Python
import Mathlib.Data.List.Sort
/-!
# The corpus in its two stores

PostgreSQL holds the documents and their chunk rows, Qdrant the points with the
vectors; each chunk row carries the id of its point.  A UUID is a number drawn
from a counter that never goes back, as fresh as `uuid4` is taken to be.
-/

namespace Lour.Rag

open Lour.Lib.Python

structure Document where
  id : ℕ
  docHash : String
  sourceUri : String
  title : Option String
  docType : String
  metadata : Dict
  createdAt : Rat

structure Chunk where
  documentId : ℕ
  chunkIndex : ℕ
  content : String
  pointId : ℕ

/-! ## PostgreSQL -/

structure Database where
  documents : List Document := []
  chunks : List Chunk := []

namespace Database

def getByHash (self : Database) (docHash : String) : Option Document :=
  self.documents.find? fun d => d.docHash == docHash

/-- The most recently ingested document of a source. -/
def getBySource (self : Database) (sourceUri : String) : Option Document :=
  ((self.documents.filter fun d => d.sourceUri == sourceUri).insertionSort
    fun a b => b.createdAt ≤ a.createdAt).head?

def listPointIds (self : Database) (documentId : ℕ) : List ℕ :=
  (self.chunks.filter fun c => c.documentId == documentId).map Chunk.pointId

/-- Deleting a document cascades to its chunk rows. -/
def delete (self : Database) (documentId : ℕ) : Database where
  documents := self.documents.filter fun d => d.id != documentId
  chunks := self.chunks.filter fun c => c.documentId != documentId

/-- The flush fails where the hash is taken. -/
def addDocument (self : Database) (document : Document) : Option Database :=
  if self.documents.any fun d => d.docHash == document.docHash then none
  else some { self with documents := self.documents ++ [document] }

/-- The flush fails where the document already has a chunk of that index. -/
def addChunk (self : Database) (chunk : Chunk) : Option Database :=
  if self.chunks.any fun c =>
      c.documentId == chunk.documentId && c.chunkIndex == chunk.chunkIndex then none
  else some { self with chunks := self.chunks ++ [chunk] }

end Database

/-! ## Qdrant -/

structure Payload where
  documentId : ℕ
  chunkIndex : ℕ
  content : String
  sourceUri : String
  title : Option String
  docType : String
  metadata : Dict

structure Point (δ σ : Type) where
  id : ℕ
  dense : δ
  sparse : σ
  payload : Payload

section Points

variable {δ σ : Type}

def deletePoints (ids : List ℕ) (points : List (Point δ σ)) : List (Point δ σ) :=
  points.filter fun p => decide (p.id ∉ ids)

/-- A point replaces the one with its id. -/
def upsertPoint (points : List (Point δ σ)) (point : Point δ σ) : List (Point δ σ) :=
  if points.any fun p => p.id == point.id then
    points.map fun p => if p.id == point.id then point else p
  else points ++ [point]

def upsertPoints (points new : List (Point δ σ)) : List (Point δ σ) :=
  new.foldl upsertPoint points

/-- Points with ids that are new to the collection, and to one another, are added. -/
theorem upsertPoints_eq_append {points new : List (Point δ σ)}
    (hnew : (new.map Point.id).Nodup) (hfresh : ∀ p ∈ points, p.id ∉ new.map Point.id) :
    upsertPoints points new = points ++ new := by
  induction new generalizing points with
  | nil => simp [upsertPoints]
  | cons point new ih =>
      rw [List.map_cons, List.nodup_cons] at hnew
      have habsent : (points.any fun p => p.id == point.id) = false := by
        rw [List.any_eq_false]
        intro p hp
        have := hfresh p hp
        simp only [List.map_cons, List.mem_cons, not_or] at this
        simpa using this.1
      have hstep : upsertPoint points point = points ++ [point] := by
        simp [upsertPoint, habsent]
      have hrest : upsertPoints (points ++ [point]) new = points ++ [point] ++ new := by
        apply ih hnew.2
        intro p hp
        rcases List.mem_append.mp hp with hp | hp
        · intro hin
          apply hfresh p hp
          exact List.mem_cons_of_mem _ hin
        · rw [List.mem_singleton.mp hp]
          exact hnew.1
      rw [upsertPoints, List.foldl_cons, hstep]
      exact hrest.trans (List.append_assoc ..)

end Points

/-! ## Both together -/

/-- `minted` counts the ids handed out. -/
structure Corpus (δ σ : Type) where
  database : Database := {}
  points : List (Point δ σ) := []
  minted : ℕ := 0

end Lour.Rag
