import Lour.Memory.Consolidation
/-!
# Consolidation adds a fact once

Each point written is below the threshold to every point stored before it.  A
fact once judged is settled: however the store grows, it is not written again.
A run that raises has judged the facts before.
-/

namespace Lour.Memory

open Lour.Lib Lour.Lib.Python

variable {V : Type}

namespace ConsolidationService

/-! ## What is written is apart from what was there -/

section Apart

variable {service : ConsolidationService V} {memories : MemoryCollection V}
  {old xs ys : List (MemoryPoint V)}

/-- `p` is no duplicate of `q`. -/
def Below (service : ConsolidationService V) (p q : MemoryPoint V) : Prop :=
  service.settings.dedupThreshold.gtRat (service.longTerm.cosine p.vector q.vector) = true

/-- Each new point is below the threshold to every point stored before it. -/
def Apart (service : ConsolidationService V) (old new : List (MemoryPoint V)) : Prop :=
  (∀ p ∈ new, ∀ q ∈ old, service.Below p q) ∧ new.Pairwise fun q p => service.Below p q

theorem Apart.nil : service.Apart old [] :=
  ⟨fun _ hp => absurd hp List.not_mem_nil, List.Pairwise.nil⟩

theorem Apart.append (hx : service.Apart old xs) (hy : service.Apart (old ++ xs) ys) :
    service.Apart old (xs ++ ys) := by
  constructor
  · intro p hp q hq
    rcases List.mem_append.mp hp with h | h
    · exact hx.1 p h q hq
    · exact hy.1 p h q (List.mem_append_left _ hq)
  · rw [List.pairwise_append]
    refine ⟨hx.2, hy.2, ?_⟩
    intro q hq p hp
    exact hy.1 p hp q (List.mem_append_right _ hq)

/-- A fact that is no duplicate is below the threshold to every memory. -/
theorem below_of_not_duplicate (hthreshold : service.settings.dedupThreshold.leRat 1 = true)
    {fact : String} (h : service.isDuplicate fact memories = false) :
    ∀ q ∈ memories.points, service.settings.dedupThreshold.gtRat
      (service.longTerm.cosine (service.longTerm.embed fact) q.vector) = true := by
  intro q hq
  have hne : memories.points ≠ [] := List.ne_nil_of_mem hq
  have hclosest := (service.longTerm.nearestCosine_spec hne fact).2 q hq
  apply PyFloat.gtRat_of_not_leRat hthreshold
  by_contra hreached
  have hdup := PyFloat.leRat_mono (Bool.eq_true_of_not_eq_false hreached) hclosest
  rw [isDuplicate, hdup] at h
  cases h

/-- What becomes of some facts, one after the other. -/
def judge (service : ConsolidationService V) (facts : List String)
    (acc : ConsolidationReport × MemoryCollection V) :
    ConsolidationReport × MemoryCollection V :=
  facts.foldl service.consolidateFact acc

/-- What the loop has done with some facts: `written` are the points it added. -/
structure Consolidated (service : ConsolidationService V) (facts : List String)
    (acc : ConsolidationReport × MemoryCollection V) (written : List (MemoryPoint V))
    (after : ConsolidationReport × MemoryCollection V) : Prop where
  points : after.2.points = acc.2.points ++ written
  apart : service.Apart acc.2.points written
  facts_of_mem : ∀ p ∈ written, p.content ∈ facts ∧ p.vector = service.longTerm.embed p.content
  extracted : after.1.extracted = acc.1.extracted
  number : after.1.written = acc.1.written + written.length
  judged : after.1.judged = acc.1.judged + facts.length

/-- Some facts of which none was written. -/
theorem Consolidated.unwritten {facts : List String}
    {acc after : ConsolidationReport × MemoryCollection V} (hpoints : after.2.points = acc.2.points)
    (hextracted : after.1.extracted = acc.1.extracted) (hwritten : after.1.written = acc.1.written)
    (hjudged : after.1.judged = acc.1.judged + facts.length) :
    Consolidated service facts acc [] after where
  points := by rw [hpoints, List.append_nil]
  apart := Apart.nil
  facts_of_mem _ hp := absurd hp List.not_mem_nil
  extracted := hextracted
  number := hwritten
  judged := hjudged

theorem consolidateFact_spec (hthreshold : service.settings.dedupThreshold.leRat 1 = true)
    (acc : ConsolidationReport × MemoryCollection V) (fact : String) :
    ∃ written, Consolidated service [fact] acc written (service.consolidateFact acc fact) := by
  obtain ⟨report, memories⟩ := acc
  simp only [consolidateFact]
  split
  next =>
      refine ⟨[], .unwritten rfl rfl rfl ?_⟩
      unfold ConsolidationReport.judged
      dsimp only [List.length_singleton]
      omega
  next hdup =>
      split
      next => exact ⟨[], .unwritten rfl rfl rfl rfl⟩
      next =>
          refine ⟨[service.longTerm.point memories.minted fact (service.score fact)
            (some report.sessionId) [("origin", .str "consolidation")]], ?_⟩
          constructor
          · rfl
          · refine ⟨?_, List.pairwise_singleton _ _⟩
            intro p hp
            rw [List.mem_singleton] at hp
            subst hp
            exact below_of_not_duplicate hthreshold (Bool.eq_false_of_not_eq_true hdup)
          · intro p hp
            rw [List.mem_singleton] at hp
            subst hp
            exact ⟨List.mem_singleton_self _, rfl⟩
          · rfl
          · rfl
          · unfold ConsolidationReport.judged
            dsimp only [List.length_singleton]
            omega

theorem judge_spec (hthreshold : service.settings.dedupThreshold.leRat 1 = true)
    (facts : List String) (acc : ConsolidationReport × MemoryCollection V) :
    ∃ written, Consolidated service facts acc written (service.judge facts acc) := by
  induction facts generalizing acc with
  | nil => exact ⟨[], .unwritten rfl rfl rfl rfl⟩
  | cons fact facts ih =>
      obtain ⟨xs, hx⟩ := consolidateFact_spec hthreshold acc fact
      obtain ⟨ys, hy⟩ := ih (service.consolidateFact acc fact)
      refine ⟨xs ++ ys, ?_⟩
      constructor
      · rw [← List.append_assoc, ← hx.points]
        exact hy.points
      · apply hx.apart.append
        rw [← hx.points]
        exact hy.apart
      · intro p hp
        rcases List.mem_append.mp hp with h | h
        · obtain ⟨hmem, hvector⟩ := hx.facts_of_mem p h
          exact ⟨List.mem_cons.mpr (.inl (List.mem_singleton.mp hmem)), hvector⟩
        · obtain ⟨hmem, hvector⟩ := hy.facts_of_mem p h
          exact ⟨List.mem_cons_of_mem _ hmem, hvector⟩
      · exact hy.extracted.trans hx.extracted
      · have hfirst := hx.number
        have hrest := hy.number
        rw [List.length_append]
        change (service.judge facts (service.consolidateFact acc fact)).1.written = _
        omega
      · have hfirst := hx.judged
        have hrest := hy.judged
        rw [List.length_singleton] at hfirst
        rw [List.length_cons]
        change (service.judge facts (service.consolidateFact acc fact)).1.judged = _
        omega

/-- The loop judges the facts before the first call that raises. -/
theorem consolidateFacts_judges (service : ConsolidationService V)
    (raises : ℕ → FactCall → Option String) (facts : List String)
    (i : ℕ) (acc : ConsolidationReport × MemoryCollection V) :
    ∃ judged rest, facts = judged ++ rest ∧
      (service.consolidateFacts raises (facts.zipIdx i) acc).2 = service.judge judged acc ∧
      ((service.consolidateFacts raises (facts.zipIdx i) acc).1 = none → rest = []) ∧
      ((∀ i call, raises i call = none) →
        (service.consolidateFacts raises (facts.zipIdx i) acc).1 = none) := by
  induction facts generalizing i acc with
  | nil => exact ⟨[], [], rfl, rfl, fun _ => rfl, fun _ => rfl⟩
  | cons fact facts ih =>
      rw [List.zipIdx_cons, consolidateFacts]
      split
      next e he =>
          refine ⟨[], fact :: facts, rfl, rfl, fun h => (by cases h), fun hfaultless => ?_⟩
          unfold factError at he
          simp [hfaultless] at he
      next =>
          obtain ⟨judged, rest, hfacts, hacc, hall, hnone⟩ :=
            ih (i + 1) (service.consolidateFact acc fact)
          exact ⟨fact :: judged, rest, congrArg (fact :: ·) hfacts, hacc, hall, hnone⟩

/-- The report a run starts its loop with. -/
def startReport (run : Consolidation) : ConsolidationReport where
  sessionId := run.sessionId
  extracted := run.extractedFacts.length

/-- A run judges its facts, all of them where it returns or none of their calls raises. -/
theorem consolidateSession_judges (service : ConsolidationService V) (run : Consolidation)
    (stores : MemoryStores V) :
    ∃ judged rest, run.extractedFacts = judged ++ rest ∧
      (service.consolidateSession run stores).2.memories =
        (service.judge judged (startReport run, stores.memories)).2 ∧
      (∀ report, (service.consolidateSession run stores).1 = .ok report →
        rest = [] ∧ report = (service.judge judged (startReport run, stores.memories)).1) ∧
      ((service.judge judged (startReport run, stores.memories)).1.written = 0 →
        (service.consolidateSession run stores).2.episodic = stores.episodic) ∧
      ((∀ i call, run.raises i call = none) → rest = []) := by
  unfold consolidateSession startReport Consolidation.extractedFacts
  cases run.facts with
  | error e =>
      exact ⟨[], [], rfl, rfl, fun _ h => (by cases h), fun _ => rfl, fun _ => rfl⟩
  | ok found =>
      cases found with
      | none =>
          refine ⟨[], [], rfl, rfl, fun report h => ?_, fun _ => rfl, fun _ => rfl⟩
          cases h
          exact ⟨rfl, rfl⟩
      | some facts =>
          obtain ⟨judged, rest, hfacts, hacc, hall, hnone⟩ :=
            consolidateFacts_judges service run.raises facts 0
              ({ sessionId := run.sessionId, extracted := facts.length }, stores.memories)
          refine ⟨judged, rest, hfacts, ?_⟩
          dsimp only
          rw [← hacc]
          split
          next e report memories hloop =>
              rw [hloop] at hnone
              refine ⟨by rw [hloop], fun _ h => (by cases h), fun _ => rfl, fun hfaultless => ?_⟩
              cases hnone hfaultless
          next report memories hloop =>
              have hrest : rest = [] := hall (by rw [hloop])
              rw [hloop]
              split
              next hzero =>
                  refine ⟨rfl, fun _ h => ⟨hrest, (Except.ok.inj h).symm⟩, fun _ => rfl,
                    fun _ => hrest⟩
              next hwritten =>
                  split
                  next => exact ⟨rfl, fun _ h => (by cases h), fun _ => rfl, fun _ => hrest⟩
                  next =>
                      exact ⟨rfl, fun _ h => ⟨hrest, (Except.ok.inj h).symm⟩,
                        fun h => absurd h hwritten, fun _ => hrest⟩

/-- What a run adds, whether or not it returns. -/
theorem consolidateSession_adds (hthreshold : service.settings.dedupThreshold.leRat 1 = true)
    (run : Consolidation) (stores : MemoryStores V) :
    ∃ written, (service.consolidateSession run stores).2.memories.points =
        stores.memories.points ++ written ∧
      service.Apart stores.memories.points written ∧
      ∀ p ∈ written, p.content ∈ run.extractedFacts ∧
        p.vector = service.longTerm.embed p.content := by
  obtain ⟨judged, rest, hfacts, hmemories, -⟩ :=
    consolidateSession_judges service run stores
  obtain ⟨written, h⟩ := judge_spec hthreshold judged (startReport run, stores.memories)
  refine ⟨written, ?_, h.apart, ?_⟩
  · rw [hmemories]
    exact h.points
  · intro p hp
    obtain ⟨hmem, hvector⟩ := h.facts_of_mem p hp
    rw [hfacts]
    exact ⟨List.mem_append_left _ hmem, hvector⟩

/-- A run that returns accounts for every fact it extracted. -/
theorem consolidateSession_report (hthreshold : service.settings.dedupThreshold.leRat 1 = true)
    {run : Consolidation} {stores : MemoryStores V} {report : ConsolidationReport}
    (hok : (service.consolidateSession run stores).1 = .ok report) :
    report.extracted = report.judged := by
  obtain ⟨judged, rest, hfacts, -, hreturns, -⟩ :=
    consolidateSession_judges service run stores
  obtain ⟨rfl, rfl⟩ := hreturns report hok
  obtain ⟨written, h⟩ := judge_spec hthreshold judged (startReport run, stores.memories)
  calc (service.judge judged (startReport run, stores.memories)).1.extracted
      = judged.length := by rw [h.extracted, startReport, hfacts, List.append_nil]
    _ = (service.judge judged (startReport run, stores.memories)).1.judged := by
        rw [h.judged]
        exact (Nat.zero_add _).symm

/-- Over any runs the points added are apart from one another and from those that
were there before. -/
theorem run_apart (hthreshold : service.settings.dedupThreshold.leRat 1 = true)
    {stores after : MemoryStores V} {runs : List Consolidation}
    {reports : List (Except String ConsolidationReport)}
    (h : (consolidationSystem service).run stores runs = some (after, reports)) :
    ∃ written, after.memories.points = stores.memories.points ++ written ∧
      service.Apart stores.memories.points written := by
  induction runs generalizing stores reports with
  | nil =>
      cases h
      exact ⟨[], (List.append_nil _).symm, Apart.nil⟩
  | cons run runs ih =>
      obtain ⟨mid, out, rest, hstep, hrest, rfl⟩ := (consolidationSystem service).run_cons.mp h
      obtain rfl := consolidationSystem_step hstep
      obtain ⟨xs, hxs, hx, -⟩ := consolidateSession_adds hthreshold run stores
      obtain ⟨ys, hys, hy⟩ := ih hrest
      rw [hxs] at hys hy
      exact ⟨xs ++ ys, by rw [hys, List.append_assoc], hx.append hy⟩

end Apart

/-! ## A fact once judged is settled -/

section Settled

variable {service : ConsolidationService V} {memories : MemoryCollection V}

/-- The fact is not written: too unimportant, a duplicate of a stored memory, or the
store is empty and the threshold so low that everything counts as a duplicate. -/
def Settled (service : ConsolidationService V) (memories : MemoryCollection V)
    (fact : String) : Prop :=
  service.isUnimportant fact = true ∨
  (∃ q ∈ memories.points, service.settings.dedupThreshold.leRat
    (service.longTerm.cosine (service.longTerm.embed fact) q.vector) = true) ∨
  memories.points = [] ∧ service.settings.dedupThreshold.leRat 0 = true

theorem settled_iff (fact : String) :
    service.Settled memories fact ↔
      (service.isDuplicate fact memories || service.isUnimportant fact) = true := by
  rw [Bool.or_eq_true, or_comm, Settled, isDuplicate]
  apply or_congr Iff.rfl
  by_cases hempty : memories.points = []
  · rw [service.longTerm.nearestCosine_empty hempty, hempty]
    simp
  · obtain ⟨⟨q, hq, hattained⟩, hclosest⟩ := service.longTerm.nearestCosine_spec hempty fact
    constructor
    · rintro (⟨p, hp, hreached⟩ | ⟨hnil, -⟩)
      · exact PyFloat.leRat_mono hreached (hclosest p hp)
      · exact absurd hnil hempty
    · intro hreached
      exact .inl ⟨q, hq, hattained ▸ hreached⟩

theorem consolidateFact_of_settled {fact : String} (h : service.Settled memories fact)
    (report : ConsolidationReport) :
    (service.consolidateFact (report, memories) fact).2 = memories ∧
      (service.consolidateFact (report, memories) fact).1.written = report.written := by
  have hpassed := (settled_iff fact).mp h
  simp only [consolidateFact]
  split
  next => exact ⟨rfl, rfl⟩
  next hdup =>
      split
      next => exact ⟨rfl, rfl⟩
      next hlow => simp [hdup, hlow] at hpassed

/-- A settled fact stays settled when another one is judged. -/
theorem Settled.step {fact : String} (h : service.Settled memories fact)
    (report : ConsolidationReport) (other : String) :
    service.Settled (service.consolidateFact (report, memories) other).2 fact := by
  by_cases hother : service.Settled memories other
  · rw [(consolidateFact_of_settled hother report).1]
    exact h
  · have hwritten : (service.consolidateFact (report, memories) other).2 =
        service.longTerm.write other (service.score other) (some report.sessionId)
          [("origin", .str "consolidation")] memories := by
      rw [settled_iff, Bool.or_eq_true, not_or] at hother
      simp only [consolidateFact, if_neg hother.1, if_neg hother.2]
    rw [hwritten]
    rcases h with hlow | ⟨q, hq, hreached⟩ | ⟨hempty, hzero⟩
    · exact .inl hlow
    · exact .inr (.inl ⟨q, List.mem_append_left _ hq, hreached⟩)
    · -- with an empty store and such a threshold nothing is written
      exact absurd (.inr (.inr ⟨hempty, hzero⟩)) hother

theorem consolidateFact_settles (hself : ∀ v, service.longTerm.cosine v v = 1)
    (hthreshold : service.settings.dedupThreshold.leRat 1 = true)
    (report : ConsolidationReport) (fact : String) :
    service.Settled (service.consolidateFact (report, memories) fact).2 fact := by
  by_cases h : service.Settled memories fact
  · exact h.step report fact
  · rw [settled_iff, Bool.or_eq_true, not_or] at h
    have hwritten : (service.consolidateFact (report, memories) fact).2 =
        service.longTerm.write fact (service.score fact) (some report.sessionId)
          [("origin", .str "consolidation")] memories := by
      simp only [consolidateFact, if_neg h.1, if_neg h.2]
    rw [hwritten]
    refine .inr (.inl ⟨_, List.mem_append_right _ (List.mem_singleton_self _), ?_⟩)
    change service.settings.dedupThreshold.leRat (service.longTerm.cosine
      (service.longTerm.embed fact) (service.longTerm.embed fact)) = true
    rw [hself]
    exact hthreshold

theorem Settled.judge {fact : String} (facts : List String)
    (acc : ConsolidationReport × MemoryCollection V) (h : service.Settled acc.2 fact) :
    service.Settled (service.judge facts acc).2 fact := by
  induction facts generalizing acc with
  | nil => exact h
  | cons other facts ih =>
      apply ih (service.consolidateFact acc other)
      exact h.step acc.1 other

theorem judge_settles (hself : ∀ v, service.longTerm.cosine v v = 1)
    (hthreshold : service.settings.dedupThreshold.leRat 1 = true) (facts : List String)
    (acc : ConsolidationReport × MemoryCollection V) :
    ∀ fact ∈ facts, service.Settled (service.judge facts acc).2 fact := by
  induction facts generalizing acc with
  | nil => exact fun fact hfact => absurd hfact List.not_mem_nil
  | cons first facts ih =>
      intro fact hfact
      rcases List.mem_cons.mp hfact with rfl | hfact
      · exact Settled.judge facts _ (consolidateFact_settles hself hthreshold acc.1 fact)
      · exact ih (service.consolidateFact acc first) fact hfact

theorem judge_of_settled {facts : List String}
    (h : ∀ fact ∈ facts, service.Settled memories fact) (report : ConsolidationReport) :
    (service.judge facts (report, memories)).2 = memories ∧
      (service.judge facts (report, memories)).1.written = report.written := by
  induction facts generalizing report with
  | nil => exact ⟨rfl, rfl⟩
  | cons fact facts ih =>
      obtain ⟨hfact, hfacts⟩ := List.forall_mem_cons.mp h
      obtain ⟨hmemories, hwritten⟩ := consolidateFact_of_settled hfact report
      have hpair : service.consolidateFact (report, memories) fact =
          ((service.consolidateFact (report, memories) fact).1, memories) :=
        Prod.ext rfl hmemories
      have hstep : service.judge (fact :: facts) (report, memories) =
          service.judge facts ((service.consolidateFact (report, memories) fact).1, memories) :=
        congrArg (service.judge facts) hpair
      obtain ⟨hrest, hcount⟩ := ih hfacts (service.consolidateFact (report, memories) fact).1
      rw [hstep]
      exact ⟨hrest, hcount.trans hwritten⟩

/-- A settled fact stays settled over a run. -/
theorem Settled.run {fact : String} {stores : MemoryStores V}
    (h : service.Settled stores.memories fact) (run : Consolidation) :
    service.Settled (service.consolidateSession run stores).2.memories fact := by
  obtain ⟨judged, rest, -, hmemories, -⟩ :=
    consolidateSession_judges service run stores
  rw [hmemories]
  exact Settled.judge judged _ h

/-- A run none of whose calls raises settles its facts. -/
theorem consolidateSession_settles (hself : ∀ v, service.longTerm.cosine v v = 1)
    (hthreshold : service.settings.dedupThreshold.leRat 1 = true) {run : Consolidation}
    (hfaultless : ∀ i call, run.raises i call = none) (stores : MemoryStores V) :
    ∀ fact ∈ run.extractedFacts,
      service.Settled (service.consolidateSession run stores).2.memories fact := by
  obtain ⟨judged, rest, hfacts, hmemories, -, -, hall⟩ :=
    consolidateSession_judges service run stores
  rw [hfacts, hall hfaultless, List.append_nil, hmemories]
  exact judge_settles hself hthreshold judged _

/-- A run whose facts are all settled leaves both stores as they are. -/
theorem consolidateSession_of_settled {run : Consolidation} {stores : MemoryStores V}
    (h : ∀ fact ∈ run.extractedFacts, service.Settled stores.memories fact) :
    (service.consolidateSession run stores).2 = stores := by
  obtain ⟨judged, rest, hfacts, hmemories, -, hepisodic, -⟩ :=
    consolidateSession_judges service run stores
  have hjudged : ∀ fact ∈ judged, service.Settled stores.memories fact := by
    intro fact hfact
    apply h
    rw [hfacts]
    exact List.mem_append_left _ hfact
  obtain ⟨hsame, hwritten⟩ := judge_of_settled hjudged (startReport run)
  have hledger := hepisodic (hwritten.trans rfl)
  rw [hsame] at hmemories
  calc (service.consolidateSession run stores).2
      = ⟨(service.consolidateSession run stores).2.memories,
          (service.consolidateSession run stores).2.episodic⟩ := rfl
    _ = stores := by rw [hmemories, hledger]

end Settled

end ConsolidationService

open ConsolidationService

/-- Consolidation deduplicates, its report adds up, and it is idempotent. -/
theorem consolidation_dedups (service : ConsolidationService V)
    (hsymm : ∀ v w, service.longTerm.cosine v w = service.longTerm.cosine w v)
    (hself : ∀ v, service.longTerm.cosine v v = 1)
    (hthreshold : service.settings.dedupThreshold.leRat 1 = true) :
    (∀ run stores, ∃ written,
      (service.consolidateSession run stores).2.memories.points =
        stores.memories.points ++ written ∧
      service.Apart stores.memories.points written ∧
      ∀ p ∈ written, p.content ∈ run.extractedFacts ∧
        p.vector = service.longTerm.embed p.content) ∧
    (∀ runs stores after reports,
      (consolidationSystem service).run stores runs = some (after, reports) →
      ∃ written, after.memories.points = stores.memories.points ++ written ∧
        written.Pairwise fun p q => service.Below p q ∧ service.Below q p) ∧
    (∀ run stores report, (service.consolidateSession run stores).1 = .ok report →
      report.extracted =
        report.written + report.skippedDuplicate + report.skippedLowImportance) ∧
    (∀ run others again stores after reports, (∀ i call, run.raises i call = none) →
      again.extractedFacts = run.extractedFacts →
      (consolidationSystem service).run stores (run :: others) = some (after, reports) →
      (service.consolidateSession again after).2 = after) := by
  refine ⟨consolidateSession_adds hthreshold, ?_, ?_, ?_⟩
  · intro runs stores after reports hrun
    obtain ⟨written, hpoints, -, hapart⟩ := run_apart hthreshold hrun
    refine ⟨written, hpoints, hapart.imp fun {p q} hbelow => ?_⟩
    rw [Below, hsymm]
    exact ⟨hbelow, hbelow⟩
  · exact fun run stores report h => consolidateSession_report hthreshold h
  · intro run others again stores after reports hfaultless hsame hrun
    obtain ⟨mid, out, rest, hstep, hrest, rfl⟩ := (consolidationSystem service).run_cons.mp hrun
    obtain rfl := consolidationSystem_step hstep
    have hkept := System.invariant_run
      (I := fun stores : MemoryStores V => ∀ fact ∈ run.extractedFacts,
        service.Settled stores.memories fact)
      (fun stores other after out h hstep => by
        obtain rfl := consolidationSystem_step hstep
        exact fun fact hfact => (h fact hfact).run other)
      (consolidateSession_settles hself hthreshold hfaultless stores) hrest
    apply consolidateSession_of_settled
    rw [hsame]
    exact hkept

/-- Texts for vectors, and two texts as close as they can be or not at all. -/
def exactService : ConsolidationService String where
  longTerm :=
    { embed := id
      cosine := fun v w => if v = w then 1 else 0
      clock := fun _ => 0 }
  judgment _ := 1

theorem consolidation_dedups_exact :
    let run : Consolidation :=
      { sessionId := "s"
        summary := .ok none
        window := .ok [⟨"user", "I like tea"⟩]
        extract := fun _ _ => .ok ["The user likes tea.", " The user likes tea.", " "] }
    let stores := (exactService.consolidateSession run {}).2
    (exactService.consolidateSession run stores).2 = stores := by
  intro run stores
  have hdedups := consolidation_dedups exactService
    (fun v w => if_congr eq_comm rfl rfl) (fun v => if_pos rfl) (by decide +kernel)
  exact hdedups.2.2.2 run [] run {} _ _ (fun _ _ => rfl) rfl rfl

end Lour.Memory
