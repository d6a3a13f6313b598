import Lour.Memory.Dedup
/-!
# What the ledger says of a run

A run writes its facts one by one and enters its event at the end.  A call that raises
after a fact has been written leaves the fact without an event.
-/

namespace Lour.Memory

open Lour.Lib Lour.Lib.Python

variable {V : Type}

namespace ConsolidationService

variable (service : ConsolidationService V)

/-- `run_once` over the runs of the active sessions: one that raises is logged, and the
next one begins. -/
def runOnce : List Consolidation → MemoryStores V → List ConsolidationReport × MemoryStores V
  | [], stores => ([], stores)
  | run :: runs, stores =>
      match service.consolidateSession run stores with
      | (.error _, stores) => runOnce runs stores
      | (.ok report, stores) =>
          let (reports, stores) := runOnce runs stores
          (report :: reports, stores)

def returned : Except String ConsolidationReport → Option ConsolidationReport
  | .ok report => some report
  | .error _ => none

/-- `run_once` is a run of the system; it reports what returned. -/
theorem runOnce_eq {runs : List Consolidation} {stores after : MemoryStores V}
    {results : List (Except String ConsolidationReport)}
    (h : (consolidationSystem service).run stores runs = some (after, results)) :
    service.runOnce runs stores = (results.filterMap returned, after) := by
  induction runs generalizing stores results with
  | nil =>
      cases h
      rfl
  | cons run runs ih =>
      obtain ⟨mid, out, rest, hstep, hrest, hresults⟩ := (consolidationSystem service).run_cons.mp h
      have hout : out = [(service.consolidateSession run stores).1] :=
        (congrArg Prod.snd (Option.some.inj hstep)).symm
      rw [consolidationSystem_step hstep] at hrest
      have hih := ih hrest
      rw [runOnce, hresults, hout]
      cases hsession : service.consolidateSession run stores with
      | mk result after' =>
          rw [hsession] at hih
          cases result with
          | error e => exact hih
          | ok report =>
              simp only [hih]
              rfl

/-! ## What the loop writes -/

section Loop

variable {service} {raises : ℕ → FactCall → Option String}

variable (service) in
/-- Whatever is written is counted. -/
theorem consolidateFact_counts (acc : ConsolidationReport × MemoryCollection V) (fact : String) :
    (service.consolidateFact acc fact).1.written + acc.2.points.length =
      acc.1.written + (service.consolidateFact acc fact).2.points.length := by
  obtain ⟨report, memories⟩ := acc
  simp only [consolidateFact]
  split
  next => rfl
  next =>
      split
      next => rfl
      next =>
          rw [LongTermMemory.write, List.length_append, List.length_singleton]
          dsimp only
          omega

variable (service) (raises) in
theorem consolidateFacts_counts (facts : List (String × ℕ))
    (acc : ConsolidationReport × MemoryCollection V) :
    (service.consolidateFacts raises facts acc).2.1.written + acc.2.points.length =
      acc.1.written + (service.consolidateFacts raises facts acc).2.2.points.length := by
  induction facts generalizing acc with
  | nil => rfl
  | cons entry facts ih =>
      obtain ⟨fact, i⟩ := entry
      rw [consolidateFacts]
      split
      next e he => rfl
      next =>
          have hfact := consolidateFact_counts service acc fact
          have hrest := ih (service.consolidateFact acc fact)
          omega

/-- No call for a fact raises. -/
def NoneRaises (service : ConsolidationService V) (raises : ℕ → FactCall → Option String) :
    List (String × ℕ) → ConsolidationReport × MemoryCollection V → Prop
  | [], _ => True
  | (fact, i) :: facts, acc =>
      service.factError (raises i) fact acc.2 = none ∧
        NoneRaises service raises facts (service.consolidateFact acc fact)

/-- No fact is new and important, up to the first one for which a call raises. -/
def NoneWritten (service : ConsolidationService V) (raises : ℕ → FactCall → Option String)
    (memories : MemoryCollection V) : List (String × ℕ) → Prop
  | [] => True
  | (fact, i) :: facts =>
      service.factError (raises i) fact memories = none →
        service.Settled memories fact ∧ NoneWritten service raises memories facts

variable (service) (raises) in
theorem consolidateFacts_none_iff (facts : List (String × ℕ))
    (acc : ConsolidationReport × MemoryCollection V) :
    (service.consolidateFacts raises facts acc).1 = none ↔
      service.NoneRaises raises facts acc := by
  induction facts generalizing acc with
  | nil => exact iff_of_true rfl trivial
  | cons entry facts ih =>
      obtain ⟨fact, i⟩ := entry
      rw [consolidateFacts, NoneRaises]
      split
      next e he =>
          refine iff_of_false (fun h => by cases h) ?_
          intro h
          rw [he] at h
          cases h.1
      next he => rw [ih, he, and_iff_right rfl]

theorem consolidateFact_of_unsettled {memories : MemoryCollection V} {fact : String}
    (h : ¬ service.Settled memories fact) (report : ConsolidationReport) :
    (service.consolidateFact (report, memories) fact).1.written = report.written + 1 := by
  rw [settled_iff, Bool.or_eq_true, not_or] at h
  simp only [consolidateFact, if_neg h.1, if_neg h.2]

variable (service) (raises) in
theorem le_written_consolidateFacts (facts : List (String × ℕ))
    (acc : ConsolidationReport × MemoryCollection V) :
    acc.1.written ≤ (service.consolidateFacts raises facts acc).2.1.written := by
  induction facts generalizing acc with
  | nil => exact le_rfl
  | cons entry facts ih =>
      obtain ⟨fact, i⟩ := entry
      rw [consolidateFacts]
      split
      next e he => exact le_rfl
      next =>
          apply le_trans _ (ih (service.consolidateFact acc fact))
          by_cases hsettled : service.Settled acc.2 fact
          · exact (consolidateFact_of_settled hsettled acc.1).2.ge
          · rw [consolidateFact_of_unsettled hsettled acc.1]
            exact Nat.le_succ _

variable (service) (raises) in
theorem consolidateFacts_written_iff (facts : List (String × ℕ))
    (acc : ConsolidationReport × MemoryCollection V) :
    (service.consolidateFacts raises facts acc).2.1.written = acc.1.written ↔
      service.NoneWritten raises acc.2 facts := by
  induction facts generalizing acc with
  | nil => exact iff_of_true rfl trivial
  | cons entry facts ih =>
      obtain ⟨fact, i⟩ := entry
      rw [consolidateFacts, NoneWritten]
      split
      next e he =>
          refine iff_of_true rfl ?_
          intro h
          rw [he] at h
          cases h
      next he =>
          by_cases hsettled : service.Settled acc.2 fact
          · obtain ⟨hmemories, hwritten⟩ := consolidateFact_of_settled hsettled acc.1
            have hrest := ih (service.consolidateFact acc fact)
            rw [hwritten, hmemories] at hrest
            rw [hrest, he]
            exact ⟨fun h _ => ⟨hsettled, h⟩, fun h => (h rfl).2⟩
          · refine iff_of_false ?_ fun h => hsettled (h he).1
            have hone := consolidateFact_of_unsettled hsettled acc.1
            have hrest := le_written_consolidateFacts service raises facts
              (service.consolidateFact acc fact)
            intro heq
            rw [heq, hone] at hrest
            exact absurd hrest (Nat.not_succ_le_self _)

end Loop

/-! ## The event -/

/-- The run's facts are on record: where it has persisted some, it has entered one event
for its session, with their number. -/
def Recorded (service : ConsolidationService V) (stores : MemoryStores V) (run : Consolidation) :
    Prop :=
  let after := (service.consolidateSession run stores).2
  let persisted := after.memories.points.length - stores.memories.points.length
  1 ≤ persisted → ∃ event : EpisodicEvent, after.episodic = stores.episodic ++ [event] ∧
    event.sessionId = run.sessionId ∧ event.eventType = "consolidation" ∧
    Dict.get? event.metadata "written" = some (.int persisted)

/-- Nothing is written, or nothing raises, the ledger included. -/
def Accounted (service : ConsolidationService V) (stores : MemoryStores V) (run : Consolidation) :
    Prop :=
  service.NoneWritten run.raises stores.memories run.extractedFacts.zipIdx ∨
    service.NoneRaises run.raises run.extractedFacts.zipIdx (startReport run, stores.memories) ∧
      run.record = .ok ()

/-- A run without facts leaves the stores, and has nothing to record. -/
theorem recorded_iff_of_no_facts {stores : MemoryStores V} {run : Consolidation}
    {result : Except String ConsolidationReport}
    (hsame : service.consolidateSession run stores = (result, stores))
    (hfacts : run.extractedFacts = []) :
    service.Recorded stores run ↔ service.Accounted stores run := by
  refine iff_of_true ?_ (.inl ?_)
  · unfold Recorded
    rw [hsame]
    intro after persisted hpersisted
    have hzero : persisted = 0 := Nat.sub_self _
    rw [hzero] at hpersisted
    exact absurd hpersisted (Nat.not_succ_le_zero 0)
  · rw [hfacts]
    trivial

/-- Without an event the facts have to be none. -/
theorem no_event_iff (episodic : List EpisodicEvent) (sessionId : String) (written : ℕ) :
    (1 ≤ written → ∃ event : EpisodicEvent, episodic = episodic ++ [event] ∧
      event.sessionId = sessionId ∧ event.eventType = "consolidation" ∧
      Dict.get? event.metadata "written" = some (.int written)) ↔ written = 0 := by
  constructor
  · intro h
    by_contra hsome
    obtain ⟨event, hsame, -⟩ := h (Nat.pos_of_ne_zero hsome)
    have hlength := congrArg List.length hsame
    rw [List.length_append, List.length_singleton] at hlength
    omega
  · intro hzero hone
    omega

theorem recorded_iff (stores : MemoryStores V) (run : Consolidation) :
    service.Recorded stores run ↔ service.Accounted stores run := by
  cases hfacts : run.facts with
  | error e =>
      apply recorded_iff_of_no_facts
      · rw [consolidateSession, hfacts]
      · rw [Consolidation.extractedFacts, hfacts]
  | ok found =>
      cases found with
      | none =>
          apply recorded_iff_of_no_facts
          · rw [consolidateSession, hfacts]
          · rw [Consolidation.extractedFacts, hfacts]
      | some facts =>
          have hextracted : run.extractedFacts = facts := by
            rw [Consolidation.extractedFacts, hfacts]
          have hcounts := consolidateFacts_counts service run.raises
            facts.zipIdx (startReport run, stores.memories)
          have hnone := consolidateFacts_none_iff service run.raises
            facts.zipIdx (startReport run, stores.memories)
          have hwritten := consolidateFacts_written_iff service run.raises
            facts.zipIdx (startReport run, stores.memories)
          have hstart : startReport run =
              { sessionId := run.sessionId, extracted := facts.length } := by
            rw [startReport, hextracted]
          rw [Accounted, hextracted, ← hnone, ← hwritten]
          rw [hstart] at hcounts ⊢
          simp only [Recorded, consolidateSession, hfacts]
          generalize service.consolidateFacts run.raises facts.zipIdx
            ({ sessionId := run.sessionId, extracted := facts.length }, stores.memories) =
              ended at hcounts ⊢
          obtain ⟨raised, report, memories⟩ := ended
          dsimp only at hcounts ⊢
          have hpersisted : memories.points.length - stores.memories.points.length =
              report.written := by
            omega
          cases raised with
          | some e =>
              simp only [hpersisted]
              rw [no_event_iff]
              simp
          | none =>
              by_cases hzero : report.written = 0
              · simp only [if_pos hzero, hpersisted]
                rw [no_event_iff]
                exact iff_of_true hzero (.inl hzero)
              · cases hrecord : run.record with
                | error e =>
                    simp only [if_neg hzero, hpersisted]
                    rw [no_event_iff]
                    simp
                | ok _ =>
                    simp only [if_neg hzero, hpersisted]
                    refine iff_of_true ?_ (.inr ⟨trivial, trivial⟩)
                    exact fun _ => ⟨_, rfl, rfl, rfl, rfl⟩

end ConsolidationService

open ConsolidationService

/-- Over any runs, each has what it persisted on record exactly where each writes nothing
or gets through without a call that raises. -/
theorem ledger_records_iff (service : ConsolidationService V) (stores : MemoryStores V)
    (runs : List Consolidation) :
    (consolidationSystem service).AllSteps service.Recorded stores runs ↔
      (consolidationSystem service).AllSteps service.Accounted stores runs := by
  apply System.allSteps_congr (I := fun _ => True)
  · exact fun _ _ _ _ _ _ => trivial
  · exact fun stores run _ _ _ _ => recorded_iff service stores run
  · trivial

/-- Two facts of which the second one's comparison fails. -/
def interrupted : Consolidation where
  sessionId := "s"
  summary := .ok none
  window := .ok [⟨"user", "I like tea and live in Lyon"⟩]
  extract _ _ := .ok ["The user likes tea.", "The user lives in Lyon."]
  raises i call :=
    match i, call with
    | 1, .nearestCosine => some "timeout"
    | _, _ => none

/-- The first fact is stored, and nothing on record. -/
theorem ledger_misses :
    ¬ ∀ (service : ConsolidationService String) (stores : MemoryStores String)
      (runs : List Consolidation),
      (consolidationSystem service).AllSteps service.Recorded stores runs := by
  intro hall
  have hrecorded := (hall exactService {} [interrupted] _ _ rfl).1
  obtain ⟨event, hledger, -⟩ := hrecorded (by decide +kernel)
  have hempty : (exactService.consolidateSession interrupted {}).2.episodic = [] := by
    rw [← List.length_eq_zero_iff]
    decide +kernel
  rw [hempty] at hledger
  exact absurd hledger.symm (List.append_ne_nil_of_right_ne_nil _ (List.cons_ne_nil _ _))

end Lour.Memory
