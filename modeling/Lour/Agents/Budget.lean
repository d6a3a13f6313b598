import Lour.Agents.Deps
/-!
# `BudgetEnforcer`

The Orchestration-layer half of policy enforcement: may the run take another
step?
-/

namespace Lour.Agents

open Lour.Lib.Python

inductive VerdictKind where
  | ok
  | budget
  | loop
  deriving DecidableEq

structure BudgetVerdict where
  canContinue : Bool
  kind : VerdictKind := .ok
  reason : Option String := none

namespace BudgetEnforcer

def signature (name : String) (arguments : Dict) : String :=
  name ++ "::" ++ (Json.obj arguments).dumpsSorted

/-- The last `loopWindow` records; `xs[-0:]` is the whole list. -/
def tail (loopWindow : Nat) (toolsCalled : List ToolCallRecord) : List ToolCallRecord :=
  if loopWindow = 0 then toolsCalled else toolsCalled.drop (toolsCalled.length - loopWindow)

def detectLoop (loopWindow : Nat) (toolsCalled : List ToolCallRecord) : Bool :=
  if toolsCalled.length < loopWindow then false
  else
    let signatures := (tail loopWindow toolsCalled).map fun r => signature r.name r.arguments
    signatures.dedup.length == 1

/-- A limit that is set and that the counter has reached. -/
def reached (limit : Option Int) (counter : Int) : Option Int :=
  limit.filter fun l => decide (l ≤ counter)

def stop (kind : VerdictKind) (reason : String) : BudgetVerdict :=
  { canContinue := false, kind := kind, reason := some reason }

def reachedDuration (limit : Option PyFloat) (elapsed : Rat) : Option PyFloat :=
  limit.filter fun l => l.leRat elapsed

def check (loopWindow : Nat) (now : Rat) (state : AgentState) : BudgetVerdict :=
  let b := state.budget
  let limits := state.policy.budget
  match reached limits.maxIterations b.iterations with
  | some l => stop .budget s!"max_iterations reached ({l})"
  | none =>
  match reached limits.maxToolCalls b.toolCallsMade with
  | some l => stop .budget s!"max_tool_calls reached ({l})"
  | none =>
  match reached limits.maxCostTokens b.tokensUsed with
  | some l => stop .budget s!"max_cost_tokens reached ({l})"
  | none =>
  match reachedDuration limits.maxDurationS (b.elapsedS now) with
  | some l => stop .budget s!"max_duration_s reached ({l.str}s)"
  | none =>
  if detectLoop loopWindow state.toolsCalled then
    stop .loop s!"same tool call repeated {loopWindow}x without progress"
  else { canContinue := true }

theorem reached_eq_none {limit : Option Int} {counter : Int} :
    reached limit counter = none ↔ ∀ l, limit = some l → counter < l := by
  cases limit with
  | none => simp [reached]
  | some l => simp [reached, Option.filter_eq_none_iff]

/-- Where the enforcer lets a run go on, no counter has reached its limit. -/
theorem below_limits_of_canContinue {loopWindow : Nat} {now : Rat} {state : AgentState}
    (h : (check loopWindow now state).canContinue = true) :
    (∀ l, state.policy.budget.maxIterations = some l → state.budget.iterations < l) ∧
    (∀ l, state.policy.budget.maxToolCalls = some l → state.budget.toolCallsMade < l) := by
  unfold check at h
  dsimp only at h
  split at h
  next => cases h
  next hiter =>
    split at h
    next => cases h
    next htool => exact ⟨reached_eq_none.mp hiter, reached_eq_none.mp htool⟩

end BudgetEnforcer

end Lour.Agents
