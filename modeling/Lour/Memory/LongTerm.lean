import Lour.Lib.Python
import Mathlib.Algebra.Order.Ring.Unbundled.Rat
import Mathlib.Data.List.Sort
/-!
# `LongTermMemory`

One Qdrant collection of facts, each with the embedding of its text.  The search
is exact: it ranks all the points by their cosine to the query.  An id is drawn
from a counter, as fresh as `uuid4` is taken to be, so an upsert adds a point.
-/

namespace Lour.Memory

open Lour.Lib.Python

structure MemoryPoint (V : Type) where
  memoryId : ℕ
  vector : V
  content : String
  importance : Rat
  createdAt : Rat
  sessionId : Option String
  metadata : Dict

structure MemoryCollection (V : Type) where
  points : List (MemoryPoint V) := []
  minted : ℕ := 0

structure LongTermMemory (V : Type) where
  embed : String → V
  cosine : V → V → Rat
  /-- The time at which the point of an id is written. -/
  clock : ℕ → Rat

variable {V : Type}

namespace LongTermMemory

variable (self : LongTermMemory V)

/-- The points closest to the query, with their scores. -/
def queryPoints (memories : MemoryCollection V) (query : V) (limit : ℕ) :
    List (MemoryPoint V × Rat) :=
  ((memories.points.map fun p => (p, self.cosine query p.vector)).insertionSort
    fun a b => b.2 ≤ a.2).take limit

def point (memoryId : ℕ) (content : String) (importance : Rat) (sessionId : Option String)
    (metadata : Dict) : MemoryPoint V where
  memoryId := memoryId
  vector := self.embed content
  content := content
  importance := importance
  createdAt := self.clock memoryId
  sessionId := sessionId
  metadata := metadata

def write (content : String) (importance : Rat) (sessionId : Option String) (metadata : Dict)
    (memories : MemoryCollection V) : MemoryCollection V where
  points := memories.points ++
    [self.point memories.minted content importance sessionId metadata]
  minted := memories.minted + 1

/-- The cosine of the closest point; `0.0` where there is none. -/
def nearestCosine (content : String) (memories : MemoryCollection V) : Rat :=
  match self.queryPoints memories (self.embed content) 1 with
  | [] => 0
  | (_, score) :: _ => score

theorem nearestCosine_empty {memories : MemoryCollection V} (h : memories.points = [])
    (content : String) : self.nearestCosine content memories = 0 := by
  rw [nearestCosine, queryPoints, h]
  rfl

/-- The nearest cosine is attained, and no point is closer. -/
theorem nearestCosine_spec {memories : MemoryCollection V} (h : memories.points ≠ [])
    (content : String) :
    (∃ p ∈ memories.points,
      self.nearestCosine content memories = self.cosine (self.embed content) p.vector) ∧
    ∀ p ∈ memories.points,
      self.cosine (self.embed content) p.vector ≤ self.nearestCosine content memories := by
  let scored := memories.points.map fun p => (p, self.cosine (self.embed content) p.vector)
  let ranked := scored.insertionSort fun a b => b.2 ≤ a.2
  have hperm : ranked.Perm scored := List.perm_insertionSort _ _
  have hsorted : ranked.Pairwise fun a b => b.2 ≤ a.2 := by
    have : IsTrans (MemoryPoint V × Rat) fun a b => b.2 ≤ a.2 := ⟨fun _ _ _ h g => g.trans h⟩
    have : Std.Total fun a b : MemoryPoint V × Rat => b.2 ≤ a.2 := ⟨fun a b => le_total b.2 a.2⟩
    exact List.pairwise_insertionSort _ _
  cases hranked : ranked with
  | nil =>
      rw [hranked] at hperm
      exact absurd (List.map_eq_nil_iff.mp hperm.nil_eq.symm) h
  | cons top rest =>
      have hnearest : self.nearestCosine content memories = top.2 := by
        have hquery : self.queryPoints memories (self.embed content) 1 = [top] :=
          congrArg (List.take 1) hranked
        rw [nearestCosine, hquery]
      rw [hranked] at hsorted
      constructor
      · obtain ⟨p, hp, htop⟩ := List.mem_map.mp (hperm.mem_iff.mp (hranked ▸ List.mem_cons_self))
        refine ⟨p, hp, ?_⟩
        rw [hnearest, ← htop]
      · intro p hp
        have hmem : (p, self.cosine (self.embed content) p.vector) ∈ ranked :=
          hperm.mem_iff.mpr (List.mem_map.mpr ⟨p, hp, rfl⟩)
        rw [hnearest]
        rw [hranked] at hmem
        rcases List.mem_cons.mp hmem with htop | hrest
        · exact le_of_eq (congrArg Prod.snd htop)
        · exact (List.pairwise_cons.mp hsorted).1 _ hrest

end LongTermMemory

end Lour.Memory
