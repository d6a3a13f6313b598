import Lour.Agents.Tokens
import Mathlib.Data.Finset.Dedup
import Mathlib.Data.Finset.Card
/-!
# The verdict in a thread with a history

The seed of a turn resets the counters of the budget, and the reducer of the
ledger keeps the records of the turns before.  So two turns that make the same
calls agree on the counters, and the window of the loop detector may reach back
beyond the turn in one of them.
-/

namespace Lour.Agents

open Lour.Core Lour.Lib Lour.Lib.Python

/-! ## The ledger within a turn -/

section Ledger

variable {deps : Deps} {base out : List ToolCallRecord}

/-- A turn at any point: `base` is the ledger it was seeded with, `out` the records
made since. -/
def Course (base out : List ToolCallRecord) : SupervisorConfig → Prop
  | .top (.ready .memoryRecall s) => s.toolsCalled = base ∧ out = []
  | .top (.ready .route s) => s.toolsCalled = base ∧ out = []
  | C => ∃ agent, Relay AgentState.toolsCalled agent base out C

theorem Course.of_relay {agent : AgentName} {C : SupervisorConfig}
    (h : Relay AgentState.toolsCalled agent base out C) : Course base out C := by
  unfold Course
  split
  next => exact h.elim
  next => exact h.elim
  next => exact ⟨agent, h⟩

theorem course_dispatch {s : AgentState} (hs : s.toolsCalled = base) (agent : AgentName) :
    Course base [] ((supervisor deps).settle (.ready agent.node s)) := by
  subst hs
  exact Course.of_relay (relay_dispatch agent s)

theorem Course.step {C C' : SupervisorConfig} {r : Request Env Json} {items : List StreamItem}
    (hC : Course base out C) (h : (supervisor deps).step C r = some (C', items)) :
    Course base (out ++ produced recordsOf items) C' := by
  unfold Course at hC
  split at hC
  next s =>
      obtain ⟨hs, rfl⟩ := hC
      cases r with
      | resume value env => cases h
      | exec env =>
          cases h
          rw [produced_items]
          exact ⟨(List.append_nil _).trans hs, rfl⟩
  next s =>
      obtain ⟨hs, rfl⟩ := hC
      cases r with
      | resume value env => cases h
      | exec env =>
          have hnode : ∃ choice, route deps env s = returns { route := choice } := by
            unfold route
            split
            · exact ⟨none, rfl⟩
            · exact ⟨_, rfl⟩
          obtain ⟨choice, hchoice⟩ := hnode
          simp only [Nested.step, Nested.exec, supervisor, hchoice, Option.some.injEq,
            Prod.mk.injEq] at h
          obtain ⟨rfl, rfl⟩ := h
          rw [produced_items]
          exact course_dispatch ((List.append_nil _).trans hs)
            (dispatch (s.fold { route := choice }))
  next =>
      obtain ⟨agent, hrelay⟩ := hC
      exact Course.of_relay (hrelay.step toolsCalled_channel h)

/-- The ledger ends with the records of the turn, and in a turn that was seeded with
an empty one there is nothing before them. -/
theorem Course.ledger {C : SupervisorConfig} (h : Course base out C) :
    ∃ earlier, C.state.toolsCalled = earlier ++ out ∧ (base = [] → earlier = []) := by
  have hrelay : ∀ agent, Relay AgentState.toolsCalled agent base out C →
      ∃ earlier, C.state.toolsCalled = earlier ++ out ∧ (base = [] → earlier = []) := by
    intro agent hrelay
    have hcarried : base = [] → carried agent base = [] := by
      intro hbase
      subst hbase
      cases agent <;> rfl
    unfold Relay at hrelay
    split at hrelay
    next => exact ⟨base, hrelay.2.2, id⟩
    next => exact ⟨base, hrelay.2, id⟩
    next => exact ⟨carried agent base, hrelay, hcarried⟩
    next => exact ⟨carried agent base, hrelay, hcarried⟩
    next => exact hrelay.elim
  unfold Course at h
  split at h
  next s => exact ⟨base, by rw [h.2, List.append_nil]; exact h.1, id⟩
  next s => exact ⟨base, by rw [h.2, List.append_nil]; exact h.1, id⟩
  next =>
      obtain ⟨agent, hagent⟩ := h
      exact hrelay agent hagent

def ownRecords (rounds : List Round) : List ToolCallRecord := rounds.flatMap Round.records

theorem run_course {usage : Env → List LLMMessage → Int} {s : AgentState}
    {requests : List (Request Env Json)} {C : SupervisorConfig} {rounds : List Round}
    (h : (roundSystem usage deps).run ((supervisor deps).start s) requests = some (C, rounds)) :
    Course s.toolsCalled (ownRecords rounds) C := by
  have hstart : Course s.toolsCalled [] ((supervisor deps).start s) :=
    show s.toolsCalled = s.toolsCalled ∧ _ from ⟨rfl, rfl⟩
  have hrun : Course s.toolsCalled (ownRecords ([] ++ rounds)) C :=
    System.run_induction (P := fun D out => Course s.toolsCalled (ownRecords out) D)
      (fun D out r D' new _ hD hstep => by
        obtain ⟨items, hitems, rfl⟩ := roundSystem_step.mp hstep
        rw [ownRecords, List.flatMap_append, List.flatMap_singleton]
        exact hD.step hitems) hstart h
  rwa [List.nil_append] at hrun

end Ledger

/-! ## What the verdict is read off -/

namespace BudgetEnforcer

/-- One of the limits is set and reached. -/
def LimitReached (limits : BudgetPolicy) (b : BudgetState) (elapsed : Rat) : Prop :=
  (∃ l, limits.maxIterations = some l ∧ l ≤ b.iterations) ∨
  (∃ l, limits.maxToolCalls = some l ∧ l ≤ b.toolCallsMade) ∨
  (∃ l, limits.maxCostTokens = some l ∧ l ≤ b.tokensUsed) ∨
  ∃ l, limits.maxDurationS = some l ∧ l.leRat elapsed = true

/-- The records are there and all of the same call. -/
def OneCall (records : List ToolCallRecord) : Prop :=
  ∃ sig, (∃ r ∈ records, signature r.name r.arguments = sig) ∧
    ∀ r ∈ records, signature r.name r.arguments = sig

/-- Whether the window holds one call is settled by the turn's own records. -/
def OwnWindow (loopWindow : Nat) (ledger own : List ToolCallRecord) : Prop :=
  if loopWindow = 0 then OneCall ledger ↔ OneCall own
  else own.length < loopWindow → loopWindow ≤ ledger.length →
    ¬ OneCall (tail loopWindow ledger)

theorem reached_eq_some {limit : Option Int} {counter l : Int} :
    reached limit counter = some l ↔ limit = some l ∧ l ≤ counter := by
  rw [reached, Option.filter_eq_some_iff, decide_eq_true_iff]

theorem reached_none {limit : Option Int} {counter : Int} :
    reached limit counter = none ↔ ¬ ∃ l, limit = some l ∧ l ≤ counter := by
  rw [reached_eq_none]
  constructor
  · rintro h ⟨l, hl, hle⟩
    exact absurd hle (not_le.mpr (h l hl))
  · intro h l hl
    by_contra hle
    exact h ⟨l, hl, not_lt.mp hle⟩

theorem detectLoop_iff {loopWindow : Nat} {records : List ToolCallRecord} :
    detectLoop loopWindow records = true ↔
      loopWindow ≤ records.length ∧ OneCall (tail loopWindow records) := by
  have hone : ∀ window : List ToolCallRecord,
      (window.map fun r => signature r.name r.arguments).dedup.length = 1 ↔ OneCall window := by
    intro window
    rw [← List.card_toFinset, Finset.card_eq_one]
    apply exists_congr
    intro sig
    rw [Finset.eq_singleton_iff_unique_mem]
    simp [List.mem_toFinset]
  unfold detectLoop
  split
  next hshort => simp [Nat.not_le.mpr hshort]
  next hlong => simp [Nat.not_lt.mp hlong, hone]

/-- The three verdicts, and when each of them is given. -/
theorem check_cases (loopWindow : Nat) (now : Rat) (state : AgentState) :
    let spent := LimitReached state.policy.budget state.budget (state.budget.elapsedS now)
    let verdict := check loopWindow now state
    (spent ∧ verdict.canContinue = false ∧ verdict.kind = .budget) ∨
      (¬ spent ∧ detectLoop loopWindow state.toolsCalled = true ∧
        verdict.canContinue = false ∧ verdict.kind = .loop) ∨
      (¬ spent ∧ detectLoop loopWindow state.toolsCalled = false ∧
        verdict.canContinue = true ∧ verdict.kind = .ok) := by
  intro spent verdict
  have hduration : reachedDuration state.policy.budget.maxDurationS
      (state.budget.elapsedS now) = none ↔
        ¬ ∃ l, state.policy.budget.maxDurationS = some l ∧
          l.leRat (state.budget.elapsedS now) = true := by
    simp [reachedDuration, Option.filter_eq_none_iff]
  simp only [verdict, check]
  split
  next l hl => exact .inl ⟨.inl ⟨l, reached_eq_some.mp hl⟩, rfl, rfl⟩
  next hiter =>
  split
  next l hl => exact .inl ⟨.inr (.inl ⟨l, reached_eq_some.mp hl⟩), rfl, rfl⟩
  next htool =>
  split
  next l hl => exact .inl ⟨.inr (.inr (.inl ⟨l, reached_eq_some.mp hl⟩)), rfl, rfl⟩
  next hcost =>
  split
  next l hl =>
      refine .inl ⟨.inr (.inr (.inr ?_)), rfl, rfl⟩
      exact ⟨l, Option.filter_eq_some_iff.mp hl⟩
  next htime =>
      have hbelow : ¬ spent := by
        rintro (h | h | h | h)
        · exact reached_none.mp hiter h
        · exact reached_none.mp htool h
        · exact reached_none.mp hcost h
        · exact hduration.mp htime h
      split
      next hloop => exact .inr (.inl ⟨hbelow, hloop, rfl, rfl⟩)
      next hloop => exact .inr (.inr ⟨hbelow, Bool.not_eq_true _ ▸ hloop, rfl, rfl⟩)

/-- The parts of a verdict a graph acts on. -/
def SameVerdict (v w : BudgetVerdict) : Prop :=
  v.canContinue = w.canContinue ∧ v.kind = w.kind

theorem sameVerdict_iff {loopWindow : Nat} {now now' : Rat} {s s' : AgentState}
    (hspent : LimitReached s.policy.budget s.budget (s.budget.elapsedS now) ↔
      LimitReached s'.policy.budget s'.budget (s'.budget.elapsedS now')) :
    SameVerdict (check loopWindow now s) (check loopWindow now' s') ↔
      LimitReached s.policy.budget s.budget (s.budget.elapsedS now) ∨
        detectLoop loopWindow s.toolsCalled = detectLoop loopWindow s'.toolsCalled := by
  have hs := check_cases loopWindow now s
  have hs' := check_cases loopWindow now' s'
  unfold SameVerdict
  grind

/-- Records before the turn's own matter to the detector only through the window. -/
theorem detectLoop_append {loopWindow : Nat} (earlier own : List ToolCallRecord) :
    detectLoop loopWindow (earlier ++ own) = detectLoop loopWindow own ↔
      OwnWindow loopWindow (earlier ++ own) own := by
  rw [Bool.eq_iff_iff, detectLoop_iff, detectLoop_iff, OwnWindow]
  split
  next hzero =>
      subst hzero
      simp [tail]
  next hpos =>
      by_cases hfull : loopWindow ≤ own.length
      · have htail : tail loopWindow (earlier ++ own) = tail loopWindow own := by
          have hdrop : earlier.length + own.length - loopWindow =
              earlier.length + (own.length - loopWindow) := by omega
          rw [tail, tail, if_neg hpos, if_neg hpos, List.length_append, hdrop,
            List.drop_length_add_append]
        have hlength : loopWindow ≤ (earlier ++ own).length := by
          rw [List.length_append]
          omega
        rw [htail]
        constructor
        · exact fun _ hshort => absurd hfull (Nat.not_le.mpr hshort)
        · exact fun _ => ⟨fun h => ⟨hfull, h.2⟩, fun h => ⟨hlength, h.2⟩⟩
      · simp [hfull, Nat.not_le.mp hfull]

end BudgetEnforcer

/-! ## Two turns that make the same calls -/

theorem Round.count_startedAt (round : Round) (budget : BudgetState) (t : Rat) :
    round.count { budget with startedAt := t } =
      { round.count budget with startedAt := t } := by
  unfold Round.count
  split <;> rfl

theorem after_startedAt (rounds : List Round) (budget : BudgetState) (t : Rat) :
    BudgetState.after { budget with startedAt := t } rounds =
      { budget.after rounds with startedAt := t } := by
  induction rounds generalizing budget with
  | nil => rfl
  | cons round rounds ih =>
      calc BudgetState.after { budget with startedAt := t } (round :: rounds)
          = (round.count { budget with startedAt := t }).after rounds := rfl
        _ = BudgetState.after { round.count budget with startedAt := t } rounds := by
            rw [Round.count_startedAt]
        _ = { budget.after (round :: rounds) with startedAt := t } := ih (round.count budget)

theorem seed_policy {turn : Turn} {seed : AgentState} (h : turn.seed = .ok seed) :
    (match turn.policy with
      | some p => Except.ok p
      | none => resolveRunPolicy turn.settings none) = .ok seed.policy := by
  unfold Turn.seed initialState Except.map at h
  dsimp only at h
  split at h
  next => cases h
  next policy hpolicy =>
      cases h
      exact hpolicy

section Turns

variable {usage : Env → List LLMMessage → Int} {deps : Deps} {stored : Option AgentState}
  {turn : Turn} {seed : AgentState} {C : SupervisorConfig} {rounds : List Round}

/-- What the enforcer reads at a point of a turn, besides the ledger. -/
theorem turn_reads (hseed : turn.seed = .ok seed)
    (h : (roundSystem usage deps).run ((supervisor deps).start (enterThread stored seed))
      turn.requests = some (C, rounds)) :
    C.state.policy = seed.policy ∧
      C.state.budget = BudgetState.after { startedAt := turn.now } rounds := by
  have hstart : ((supervisor deps).start (enterThread stored seed)).Holds
      fun s => s.policy = seed.policy := by
    change (enterThread stored seed).policy = seed.policy
    cases stored <;> rfl
  constructor
  · obtain ⟨items, hrun⟩ := run_of_rounds h
    exact (run_policy hstart hrun).state
  · rw [run_budget h]
    exact congrArg (fun budget => BudgetState.after budget rounds)
      (enterThread_budget hseed stored)

/-- At every point of a turn the verdict is the one of the same calls on a fresh
thread exactly when a limit is reached or the window is the turn's own. -/
theorem verdict_of_turn_iff (usage : Env → List LLMMessage → Int) (deps : Deps)
    (stored : Option AgentState) (turn fresh : Turn) (seed freshSeed : AgentState)
    (C D : SupervisorConfig) (rounds : List Round) (now freshNow : Rat)
    (hsettings : fresh.settings = turn.settings) (hpolicy : fresh.policy = turn.policy)
    (hseed : turn.seed = .ok seed) (hfreshSeed : fresh.seed = .ok freshSeed)
    (h : (roundSystem usage deps).run ((supervisor deps).start (enterThread stored seed))
      turn.requests = some (C, rounds))
    (hfresh : (roundSystem usage deps).run
      ((supervisor deps).start (enterThread none freshSeed)) fresh.requests = some (D, rounds))
    (helapsed : now - turn.now = freshNow - fresh.now) :
    BudgetEnforcer.SameVerdict (BudgetEnforcer.check deps.loopWindow now C.state)
        (BudgetEnforcer.check deps.loopWindow freshNow D.state) ↔
      BudgetEnforcer.LimitReached C.state.policy.budget C.state.budget
          (C.state.budget.elapsedS now) ∨
        BudgetEnforcer.OwnWindow deps.loopWindow C.state.toolsCalled (ownRecords rounds) := by
  obtain ⟨hp, hb⟩ := turn_reads hseed h
  obtain ⟨hp', hb'⟩ := turn_reads hfreshSeed hfresh
  have hsame : D.state.policy = C.state.policy := by
    have hresolved := seed_policy hseed
    have hresolved' := seed_policy hfreshSeed
    rw [hsettings, hpolicy, hresolved] at hresolved'
    rw [hp, hp']
    exact (Except.ok.inj hresolved').symm
  have hbudget : D.state.budget = { C.state.budget with startedAt := fresh.now } := by
    rw [hb, hb', ← after_startedAt]
  have hstarted : C.state.budget.startedAt = turn.now := by
    rw [hb, after_startedAt rounds { startedAt := turn.now } turn.now]
  have htime : D.state.budget.elapsedS freshNow = C.state.budget.elapsedS now := by
    rw [hbudget, BudgetState.elapsedS, BudgetState.elapsedS, hstarted, helapsed]
  obtain ⟨earlier, hledger, -⟩ := (run_course h).ledger
  obtain ⟨none', hown, hnone⟩ := (run_course hfresh).ledger
  have hempty : (enterThread none freshSeed).toolsCalled = [] :=
    (seed_fields hfreshSeed).2.2.2.2
  rw [hnone hempty, List.nil_append] at hown
  have hspent : BudgetEnforcer.LimitReached C.state.policy.budget C.state.budget
        (C.state.budget.elapsedS now) ↔
      BudgetEnforcer.LimitReached D.state.policy.budget D.state.budget
        (D.state.budget.elapsedS freshNow) := by
    rw [htime, hsame, hbudget]
    exact Iff.rfl
  rw [BudgetEnforcer.sameVerdict_iff hspent, hledger, hown, BudgetEnforcer.detectLoop_append]

end Turns

/-- A turn up to the given number of calls that the coder makes, all alike. -/
def callingTurn (calls : Nat) : Turn :=
  { answeredTurn .coder 0 with
    requests := List.replicate (3 + calls) (.exec (stubEnv
      { content := "", toolCalls := [{ name := "code_exec", arguments := .obj [] }] } .coder)) }

/-- The same turn to its end. -/
def codingTurn (calls : Nat) : Turn :=
  { callingTurn calls with
    requests := (callingTurn calls).requests ++ (answeredTurn .coder 3).requests }

/-- A thread whose ledger holds the given number of these calls. -/
def calledBefore (calls : Nat) : AgentState :=
  { stubState "q" {} with toolsCalled := List.replicate calls { name := "code_exec" } }

theorem verdict_of_turn_iff_one_call :
    ∃ seed C D rounds, (callingTurn 1).seed = .ok seed ∧
      (roundSystem (fun _ _ => 0) stubDeps).run
        ((supervisor stubDeps).start (enterThread (some (calledBefore 1)) seed))
        (callingTurn 1).requests = some (C, rounds) ∧
      (roundSystem (fun _ _ => 0) stubDeps).run
        ((supervisor stubDeps).start (enterThread none seed))
        (callingTurn 1).requests = some (D, rounds) ∧
      BudgetEnforcer.SameVerdict (BudgetEnforcer.check 3 0 C.state)
        (BudgetEnforcer.check 3 0 D.state) := by
  refine ⟨_, _, _, _, rfl, rfl, rfl, ?_⟩
  apply (verdict_of_turn_iff (fun _ _ => 0) stubDeps (some (calledBefore 1)) (callingTurn 1)
    (callingTurn 1) _ _ _ _ _ 0 0 rfl rfl rfl rfl rfl rfl rfl).mpr
  right
  intro _ hledger
  have hshort : 3 ≤ 2 := hledger
  exact absurd hshort (by decide)

/-- Two calls in an earlier turn and the same call once in this one are a loop. -/
theorem verdict_of_turn_not_own :
    ¬ ∀ (usage : Env → List LLMMessage → Int) (deps : Deps) (history : List Turn)
      (stored : Option AgentState) (items : List StreamItem) (turn fresh : Turn)
      (seed freshSeed : AgentState) (C D : SupervisorConfig) (rounds : List Round)
      (now freshNow : Rat), (threadSystem deps).run none history = some (stored, items) →
      fresh.settings = turn.settings → fresh.policy = turn.policy →
      turn.seed = .ok seed → fresh.seed = .ok freshSeed →
      (roundSystem usage deps).run ((supervisor deps).start (enterThread stored seed))
        turn.requests = some (C, rounds) →
      (roundSystem usage deps).run ((supervisor deps).start (enterThread none freshSeed))
        fresh.requests = some (D, rounds) →
      now - turn.now = freshNow - fresh.now →
      BudgetEnforcer.SameVerdict (BudgetEnforcer.check deps.loopWindow now C.state)
        (BudgetEnforcer.check deps.loopWindow freshNow D.state) := by
  intro h
  have hcalls := h (fun _ _ => 0) stubDeps [codingTurn 2] _ _ (callingTurn 1) (callingTurn 1)
    _ _ _ _ _ 0 0 rfl rfl rfl rfl rfl rfl rfl rfl
  have hkind : VerdictKind.loop = VerdictKind.ok := hcalls.2
  cases hkind

end Lour.Agents
