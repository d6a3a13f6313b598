import Lour.Agents.Rounds
/-!
# The tokens of a run

`tokens_used` moves on with the chat calls of the executions that returned.  The
structured calls, and a chat call whose execution paused for an approval or
raised, never reach it.
-/

namespace Lour.Agents

open Lour.Core Lour.Lib Lour.Lib.Python

/-- The tokens of the calls to the model that the round issued. -/
def Round.tokens (self : Round) : Int := self.structured.sum + tokensOf self.chats

/-- Those of its structured calls, and of a chat whose execution did not return. -/
def Round.uncounted (self : Round) : Int :=
  self.structured.sum + if self.returned then 0 else tokensOf self.chats

/-- What the round adds to `tokens_used`. -/
def Round.counted (self : Round) : Int := if self.returned then tokensOf self.chats else 0

theorem Round.counted_add_uncounted (round : Round) :
    round.counted + round.uncounted = round.tokens := by
  unfold Round.counted Round.uncounted Round.tokens
  split <;> omega

theorem Round.count_tokensUsed (round : Round) (budget : BudgetState) :
    (round.count budget).tokensUsed = budget.tokensUsed + round.counted := by
  unfold Round.count Round.counted
  split
  · rfl
  · omega

theorem after_tokensUsed (rounds : List Round) (budget : BudgetState) :
    (budget.after rounds).tokensUsed = budget.tokensUsed + (rounds.map Round.counted).sum := by
  induction rounds generalizing budget with
  | nil => exact (Int.add_zero _).symm
  | cons round rounds ih =>
      have hround := round.count_tokensUsed budget
      have hrest := ih (round.count budget)
      simp only [List.map_cons, List.sum_cons]
      change ((round.count budget).after rounds).tokensUsed = _
      omega

theorem counted_add_uncounted (rounds : List Round) :
    (rounds.map Round.counted).sum + (rounds.map Round.uncounted).sum =
      (rounds.map Round.tokens).sum := by
  induction rounds with
  | nil => rfl
  | cons round rounds ih =>
      have hround := round.counted_add_uncounted
      simp only [List.map_cons, List.sum_cons]
      omega

/-- A new turn starts with fresh counters, whatever the thread holds. -/
theorem enterThread_budget {turn : Turn} {seed : AgentState} (h : turn.seed = .ok seed)
    (stored : Option AgentState) :
    (enterThread stored seed).budget = { startedAt := turn.now } := by
  have hseed : seed.budget = { startedAt := turn.now } := by
    unfold Turn.seed initialState Except.map at h
    dsimp only at h
    split at h
    next => cases h
    next policy _ =>
        cases h
        rfl
  cases stored with
  | none => exact hseed
  | some s => exact hseed

/-- At every point of a turn, and so at its end, `tokens_used` is the sum over all
the calls issued exactly when the calls it leaves out sum to nothing. -/
theorem tokens_counted_iff (usage : Env → List LLMMessage → Int) (deps : Deps)
    (stored : Option AgentState) (turn : Turn) (seed : AgentState) (C : SupervisorConfig)
    (rounds : List Round) (hseed : turn.seed = .ok seed)
    (h : (roundSystem usage deps).run ((supervisor deps).start (enterThread stored seed))
      turn.requests = some (C, rounds)) :
    C.state.budget.tokensUsed = (rounds.map Round.tokens).sum ↔
      (rounds.map Round.uncounted).sum = 0 := by
  have hstart : ((supervisor deps).start (enterThread stored seed)).state.budget =
      { startedAt := turn.now } := enterThread_budget hseed stored
  have htotal := counted_add_uncounted rounds
  have hused : C.state.budget.tokensUsed = (rounds.map Round.counted).sum := by
    calc C.state.budget.tokensUsed
        = 0 + (rounds.map Round.counted).sum := by rw [run_budget h, hstart, after_tokensUsed]
      _ = (rounds.map Round.counted).sum := Int.zero_add _
  rw [hused]
  omega

/-- A turn answered directly by a model that reports seven tokens. -/
def meteredTurn : Turn :=
  { answeredTurn .direct 4 with
    requests := List.replicate 4
      (.exec (stubEnv { content := "42", promptTokens := 5, completionTokens := 2 } .direct)) }

theorem tokens_counted_iff_direct :
    ∃ seed C rounds, meteredTurn.seed = .ok seed ∧
      (roundSystem (fun _ _ => 0) stubDeps).run
        ((supervisor stubDeps).start (enterThread none seed)) meteredTurn.requests =
          some (C, rounds) ∧
      C.state.budget.tokensUsed = (rounds.map Round.tokens).sum := by
  refine ⟨_, _, _, rfl, rfl, ?_⟩
  exact (tokens_counted_iff (fun _ _ => 0) stubDeps none meteredTurn _ _ _ rfl rfl).mpr rfl

/-- The route decision of a turn that is answered directly costs three tokens more. -/
theorem route_tokens_not_counted :
    ¬ ∀ (usage : Env → List LLMMessage → Int) (deps : Deps) (stored : Option AgentState)
      (turn : Turn) (seed t : AgentState) (rounds : List Round), turn.seed = .ok seed →
      (roundSystem usage deps).run ((supervisor deps).start (enterThread stored seed))
        turn.requests = some (.top (.ended t), rounds) →
      t.budget.tokensUsed = (rounds.map Round.tokens).sum := by
  intro h
  have hdirect := h (fun _ _ => 3) stubDeps none meteredTurn _ _ _ rfl rfl
  have hsum : (7 : Int) = 10 := hdirect
  exact absurd hsum (by decide)

end Lour.Agents
