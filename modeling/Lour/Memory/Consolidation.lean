import Lour.Lib.System
import Lour.Memory.Context
import Lour.Memory.LongTerm
/-!
# `ConsolidationService`

A run extracts facts from one session and judges them one by one against the
memories stored so far, its own among them.
-/

namespace Lour.Memory

open Lour.Lib Lour.Lib.Python

structure MemorySettings where
  /-- `0.9` by default. -/
  dedupThreshold : PyFloat := .finite ⟨false, 9, -1, .inl (by decide)⟩
  minImportance : PyFloat := .finite ⟨false, 3, -1, .inl (by decide)⟩

structure ConsolidationReport where
  sessionId : String
  extracted : ℕ := 0
  written : ℕ := 0
  skippedDuplicate : ℕ := 0
  skippedLowImportance : ℕ := 0

def ConsolidationReport.modelDump (self : ConsolidationReport) : Dict :=
  [("session_id", .str self.sessionId), ("extracted", .int self.extracted),
    ("written", .int self.written), ("skipped_duplicate", .int self.skippedDuplicate),
    ("skipped_low_importance", .int self.skippedLowImportance)]

/-- The facts the report accounts for. -/
def ConsolidationReport.judged (self : ConsolidationReport) : ℕ :=
  self.written + self.skippedDuplicate + self.skippedLowImportance

structure EpisodicEvent where
  sessionId : String
  eventType : String
  role : Option String := none
  content : String
  metadata : Dict

structure MemoryStores (V : Type) where
  memories : MemoryCollection V := {}
  episodic : List EpisodicEvent := []

/-- The calls made for one fact. -/
inductive FactCall where
  | nearestCosine
  | score
  | write

/-- What one run meets: what the reads of the session return, the facts the LLM
extracts from a prompt, the errors of the calls for the fact at a position, and
whether the ledger takes the event. -/
structure Consolidation where
  sessionId : String
  summary : Except String (Option String)
  window : Except String (List ConversationTurn)
  extract : String → String → Except String (List String)
  raises : ℕ → FactCall → Option String := fun _ _ => none
  record : Except String Unit := .ok ()

structure ConsolidationService (V : Type) where
  longTerm : LongTermMemory V
  /-- The importance the LLM judges a text to have. -/
  judgment : String → Rat
  settings : MemorySettings := {}

def extractSystem : String :=
  "You extract durable, self-contained facts worth remembering long-term from " ++
  "a conversation. Each fact must stand alone without the conversation for " ++
  "context (resolve pronouns, name the subject). Ignore small talk and " ++
  "transient details. Return an empty list if nothing is worth keeping."

namespace Consolidation

variable (self : Consolidation)

def buildTranscript : Except String String := do
  let summary ← self.summary
  let window ← self.window
  let earlier :=
    if summary.getD "" = "" then [] else ["Earlier summary: " ++ summary.getD ""]
  return "\n".intercalate (earlier ++ window.map fun turn => turn.role ++ ": " ++ turn.content)

/-- The facts to judge; `none` where the transcript is blank. -/
def facts : Except String (Option (List String)) := do
  let transcript ← self.buildTranscript
  if strip transcript = "" then return none
  let extracted ← self.extract extractSystem ("Conversation:\n" ++ transcript)
  return some ((extracted.filter fun f => strip f != "").map strip)

/-- The facts that a run extracts, none where it raises before. -/
def extractedFacts : List String :=
  match self.facts with
  | .ok (some facts) => facts
  | _ => []

end Consolidation

variable {V : Type}

namespace ConsolidationService

variable (self : ConsolidationService V)

/-- `ImportanceScorer.score`. -/
def score (text : String) : Rat := max 0 (min 1 (self.judgment text))

def isDuplicate (fact : String) (memories : MemoryCollection V) : Bool :=
  self.settings.dedupThreshold.leRat (self.longTerm.nearestCosine fact memories)

def isUnimportant (fact : String) : Bool := self.settings.minImportance.gtRat (self.score fact)

/-- What becomes of a fact none of whose calls raises. -/
def consolidateFact (acc : ConsolidationReport × MemoryCollection V) (fact : String) :
    ConsolidationReport × MemoryCollection V :=
  let (report, memories) := acc
  if self.isDuplicate fact memories then
    ({ report with skippedDuplicate := report.skippedDuplicate + 1 }, memories)
  else if self.isUnimportant fact then
    ({ report with skippedLowImportance := report.skippedLowImportance + 1 }, memories)
  else
    ({ report with written := report.written + 1 },
      self.longTerm.write fact (self.score fact) (some report.sessionId)
        [("origin", .str "consolidation")] memories)

/-- The first error among the calls that are made for the fact. -/
def factError (raises : FactCall → Option String) (fact : String)
    (memories : MemoryCollection V) : Option String :=
  match raises .nearestCosine with
  | some e => some e
  | none =>
  if self.isDuplicate fact memories then none
  else
    match raises .score with
    | some e => some e
    | none => if self.isUnimportant fact then none else raises .write

/-- The loop over the facts and their positions, up to the first call that raises. -/
def consolidateFacts (raises : ℕ → FactCall → Option String) :
    List (String × ℕ) → ConsolidationReport × MemoryCollection V →
      Option String × ConsolidationReport × MemoryCollection V
  | [], acc => (none, acc)
  | (fact, i) :: facts, acc =>
      match self.factError (raises i) fact acc.2 with
      | some e => (some e, acc)
      | none => consolidateFacts raises facts (self.consolidateFact acc fact)

def consolidateSession (run : Consolidation) (stores : MemoryStores V) :
    Except String ConsolidationReport × MemoryStores V :=
  match run.facts with
  | .error e => (.error e, stores)
  | .ok none => (.ok { sessionId := run.sessionId }, stores)
  | .ok (some facts) =>
      match self.consolidateFacts run.raises facts.zipIdx
        ({ sessionId := run.sessionId, extracted := facts.length }, stores.memories) with
      | (some e, _, memories) => (.error e, { stores with memories })
      | (none, report, memories) =>
      if report.written = 0 then (.ok report, { stores with memories })
      else
        let event : EpisodicEvent :=
          { sessionId := run.sessionId
            eventType := "consolidation"
            content := s!"Consolidated {report.written} fact(s) into long-term memory."
            metadata := report.modelDump }
        match run.record with
        | .error e => (.error e, { stores with memories })
        | .ok () => (.ok report, { memories, episodic := stores.episodic ++ [event] })

end ConsolidationService

/-- Runs one after the other, of whatever sessions. -/
def consolidationSystem (service : ConsolidationService V) :
    System (MemoryStores V) Consolidation (Except String ConsolidationReport) :=
  ⟨fun stores run =>
    let (report, after) := service.consolidateSession run stores
    some (after, [report])⟩

theorem consolidationSystem_step {service : ConsolidationService V} {stores after : MemoryStores V}
    {run : Consolidation} {out : List (Except String ConsolidationReport)}
    (h : (consolidationSystem service).step stores run = some (after, out)) :
    after = (service.consolidateSession run stores).2 :=
  (congrArg Prod.fst (Option.some.inj h)).symm

end Lour.Memory
