import Lour.Core.Policy
import Lour.Memory.Context
import Mathlib.Algebra.Order.Ring.Unbundled.Rat
/-!
# `AgentState`

The record every node of the supervisor graph and its subgraphs reads, and the
partial updates the nodes return.  Two fields accumulate (the transcript and the
tool ledger); every other field is last-writer-wins.
-/

namespace Lour.Agents

open Lour.Core Lour.Lib.Python Lour.Memory

/-- A tool call as the model asks for it. -/
structure ToolCall where
  name : String
  arguments : Json

structure LLMResponse where
  content : String
  toolCalls : List ToolCall := []
  promptTokens : Int := 0
  completionTokens : Int := 0

/-- The message dicts the nodes build, by role. -/
inductive LLMMessage where
  | system (content : String)
  | user (content : String)
  | assistant (content : String) (toolCalls : List ToolCall)
  | tool (name content : String)

inductive AgentName where
  | researcher
  | coder
  | direct
  deriving DecidableEq

structure Route where
  agent : AgentName
  reasoning : String := ""

structure Plan where
  steps : List String := []

structure Reflection where
  isComplete : Bool
  reasoning : String := ""
  missing : Option String := none

structure ToolCallRecord where
  name : String
  arguments : Dict := []
  ok : Bool := true
  error : Option String := none

structure PendingApproval where
  tool : String
  arguments : Dict := []
  reason : String := "Tool requires human approval before execution."

/-! ## Budget counters -/

structure BudgetState where
  tokensUsed : Int := 0
  toolCallsMade : Int := 0
  iterations : Int := 0
  startedAt : Rat

namespace BudgetState

def withDelta (self : BudgetState) (tokens toolCalls iterations : Int) : BudgetState :=
  { self with
    tokensUsed := self.tokensUsed + tokens
    toolCallsMade := self.toolCallsMade + toolCalls
    iterations := self.iterations + iterations }

/-- Seconds since the run started, on the epoch clock. -/
def elapsedS (self : BudgetState) (now : Rat) : Rat := max 0 (now - self.startedAt)

/-- The counters of a run that has not made a step. -/
def Fresh (self : BudgetState) : Prop :=
  self.tokensUsed = 0 ∧ self.toolCallsMade = 0 ∧ self.iterations = 0

@[simp] theorem withDelta_iterations (b : BudgetState) (t c i : Int) :
    (b.withDelta t c i).iterations = b.iterations + i := rfl

@[simp] theorem withDelta_toolCallsMade (b : BudgetState) (t c i : Int) :
    (b.withDelta t c i).toolCallsMade = b.toolCallsMade + c := rfl

end BudgetState

/-! ## The graph state -/

structure AgentState where
  sessionId : String
  threadId : String
  query : String := ""
  messages : List LLMMessage := []
  route : Option Route := none
  plan : List String := []
  reflection : Option Reflection := none
  toolsCalled : List ToolCallRecord := []
  memoryContext : Option MemoryContext := none
  policy : Policy
  budget : BudgetState
  finalAnswer : Option String := none
  finished : Bool := false
  pendingApproval : Option PendingApproval := none

/-- The dict a node returns: the fields it writes. -/
structure Update where
  sessionId : Option String := none
  threadId : Option String := none
  query : Option String := none
  messages : Option (List LLMMessage) := none
  route : Option (Option Route) := none
  plan : Option (List String) := none
  reflection : Option (Option Reflection) := none
  toolsCalled : Option (List ToolCallRecord) := none
  memoryContext : Option (Option MemoryContext) := none
  policy : Option Policy := none
  budget : Option BudgetState := none
  finalAnswer : Option (Option String) := none
  finished : Option Bool := none
  pendingApproval : Option (Option PendingApproval) := none

/-- The append reducer `_extend`; a missing right side appends nothing. -/
def extend {α : Type} (left : List α) (right : Option (List α)) : List α :=
  left ++ right.getD []

namespace AgentState

/-- Fold what a node returned into the state, channel by channel. -/
def fold (self : AgentState) (u : Update) : AgentState where
  sessionId := u.sessionId.getD self.sessionId
  threadId := u.threadId.getD self.threadId
  query := u.query.getD self.query
  messages := extend self.messages u.messages
  route := u.route.getD self.route
  plan := u.plan.getD self.plan
  reflection := u.reflection.getD self.reflection
  toolsCalled := extend self.toolsCalled u.toolsCalled
  memoryContext := u.memoryContext.getD self.memoryContext
  policy := u.policy.getD self.policy
  budget := u.budget.getD self.budget
  finalAnswer := u.finalAnswer.getD self.finalAnswer
  finished := u.finished.getD self.finished
  pendingApproval := u.pendingApproval.getD self.pendingApproval

/-- All channel values as one update: what a subgraph returns to its parent,
and what a new input writes to a thread. -/
def whole (self : AgentState) : Update where
  sessionId := some self.sessionId
  threadId := some self.threadId
  query := some self.query
  messages := some self.messages
  route := some self.route
  plan := some self.plan
  reflection := some self.reflection
  toolsCalled := some self.toolsCalled
  memoryContext := some self.memoryContext
  policy := some self.policy
  budget := some self.budget
  finalAnswer := some self.finalAnswer
  finished := some self.finished
  pendingApproval := some self.pendingApproval

variable (s : AgentState) (u : Update)

@[simp] theorem fold_policy : (s.fold u).policy = u.policy.getD s.policy := rfl

@[simp] theorem fold_budget : (s.fold u).budget = u.budget.getD s.budget := rfl

@[simp] theorem fold_finalAnswer :
    (s.fold u).finalAnswer = u.finalAnswer.getD s.finalAnswer := rfl

end AgentState

/-! ## Seeding a run -/

/-- The part of `AgentSettings` the default policy reads. -/
structure AgentSettings where
  maxIterations : Int := 10
  maxToolCalls : Int := 20
  budgetTokens : Int := 100000

def defaultPolicy (s : AgentSettings) : Except String Policy :=
  Policy.make { maxCostTokens := some s.budgetTokens, maxIterations := some s.maxIterations,
                maxToolCalls := some s.maxToolCalls } none {} false

def resolveRunPolicy (s : AgentSettings) (request : Option Policy) : Except String Policy :=
  (defaultPolicy s).bind fun defaults =>
    PolicyResolver.resolve (some defaults) none none request

/-- The seed handed to the graph for one chat turn, at time `now`. -/
def initialState (s : AgentSettings) (sessionId threadId query : String)
    (policy : Option Policy) (now : Rat) : Except String AgentState :=
  let effective : Except String Policy :=
    match policy with
    | some p => .ok p
    | none => resolveRunPolicy s none
  effective.map fun p =>
    { sessionId, threadId, query, policy := p, budget := { startedAt := now } }

end Lour.Agents
