import Lour.Agents.Act
/-!
# The other nodes

Every node but `act` asks its services once and returns: it runs no tool, cannot
be interrupted and leaves the policy alone.  Apart from `act` only `direct`
writes the budget counters.
-/

namespace Lour.Agents

open Lour.Lib Lour.Lib.Python

def returns (u : Update) (out : List Emission := []) : NodeExecution where
  out := out
  outcome := .update u

/-! ## Supervisor nodes -/

def memoryRecall (env : Env) (state : AgentState) : NodeExecution :=
  returns { memoryContext := some (some (env.recalled state.sessionId state.query)) }

/-- A route that is already set is respected. -/
def route (deps : Deps) (env : Env) (state : AgentState) : NodeExecution :=
  match state.route with
  | some _ => returns {}
  | none =>
      let prompt := deps.prompts.supervisor state.query state.memoryContext
      returns { route := some (some (env.route [.user prompt])) }

def directSystem : String :=
  "You are a helpful, concise assistant. Answer the user directly. " ++
    "If you genuinely do not know, say so rather than guessing."

def directOptions : Dict := [("temperature", .float (.finite ⟨false, 7, -1, by decide⟩))]

def directMessages (state : AgentState) : List LLMMessage :=
  let context :=
    match state.memoryContext with
    | none => []
    | some ctx =>
        if ctx.isEmpty then []
        else
          let summary := ctx.summary.getD ""
          (if summary = "" then [] else [.system s!"Context: {summary}"]) ++
            ctx.longTerm.map fun item => .system s!"Known: {item.content}"
  [.system directSystem] ++ context ++ [.user state.query]

def direct (env : Env) (state : AgentState) : NodeExecution :=
  let response := env.chat { messages := directMessages state, options := directOptions }
  let tokens := response.promptTokens + response.completionTokens
  returns
    { messages := some [.assistant response.content []]
      finalAnswer := some (some response.content)
      budget := some (state.budget.withDelta tokens 0 1) }
    ([.custom (.node "direct"), .chat response] ++
      (if response.content = "" then [] else [.custom (.token response.content "direct")]))

def memoryWrite (_ : Env) (state : AgentState) : NodeExecution :=
  let answer := state.finalAnswer.getD ""
  returns { finished := some true }
    ((if state.query = "" then [] else [.wrote state.sessionId "user" state.query]) ++
      (if answer = "" then [] else [.wrote state.sessionId "assistant" answer]))

/-! ## Subgraph nodes -/

def maxSteps : Nat := 5

def plan (deps : Deps) (env : Env) (state : AgentState) : NodeExecution :=
  let system := deps.prompts.researcher [] state.memoryContext
  let instruction := "Break the request into a short ordered list of concrete research " ++
    s!"steps (at most {maxSteps}). Return only the steps.\n\n" ++ s!"Request: {state.query}"
  let result := env.plan [.system system, .user instruction]
  let steps := result.steps.take maxSteps
  returns
    { plan := some steps
      messages := some [.system (deps.prompts.researcher steps state.memoryContext),
        .user state.query] }

def setup (deps : Deps) (_ : Env) (state : AgentState) : NodeExecution :=
  returns
    { messages := some [.system (deps.prompts.coder state.memoryContext), .user state.query] }

/-- The most recent assistant content that is not empty. -/
def reflectedContent (messages : List LLMMessage) : String :=
  (messages.reverse.findSome? fun
    | .assistant content _ => if content = "" then none else some content
    | _ => none).getD ""

def reflect (deps : Deps) (env : Env) (state : AgentState) : NodeExecution :=
  let lastContent := reflectedContent state.messages
  let names := ", ".intercalate (state.toolsCalled.map ToolCallRecord.name)
  let toolsSummary := if names = "" then "none" else names
  let prompt := deps.prompts.reflection state.query state.plan toolsSummary lastContent
  let verdict := env.reflection [.user prompt]
  returns
    { reflection := some (some verdict)
      finalAnswer :=
        if verdict.isComplete && lastContent ≠ "" then some (some lastContent) else none }

def budgetStopAnswer : String :=
  "I wasn't able to finish this within the allotted budget. " ++
    "Here is what I gathered so far."

/-- The content and the tool calls of the last assistant message. -/
def lastAssistantMessage (messages : List LLMMessage) : Option (String × List ToolCall) :=
  messages.reverse.findSome? fun
    | .assistant content toolCalls => some (content, toolCalls)
    | _ => none

def lastAssistantContent (messages : List LLMMessage) : String :=
  ((lastAssistantMessage messages).map Prod.fst).getD ""

def finalize (_ : Env) (state : AgentState) : NodeExecution :=
  if state.finalAnswer.getD "" ≠ "" then returns {}
  else
    let content := lastAssistantContent state.messages
    returns
      { finalAnswer := some (some (if content = "" then budgetStopAnswer else content)) }

/-! ## What they have in common -/

/-- The execution runs no tool and returns an update that leaves the policy and
the counters as they are. -/
structure Passive (x : NodeExecution) : Prop where
  ran : ranCalls x.out = []
  returned : ∃ u, x.outcome = .update u ∧ u.policy = none ∧ u.budget = none

section

variable (deps : Deps) (env : Env) (state : AgentState)

theorem returns_passive {u : Update} {out : List Emission} (hout : ranCalls out = [])
    (hpolicy : u.policy = none) (hbudget : u.budget = none) : Passive (returns u out) :=
  ⟨hout, u, rfl, hpolicy, hbudget⟩

theorem memoryRecall_passive : Passive (memoryRecall env state) :=
  returns_passive rfl rfl rfl

theorem route_passive : Passive (route deps env state) := by
  unfold route
  split <;> exact returns_passive rfl rfl rfl

theorem memoryWrite_passive : Passive (memoryWrite env state) := by
  refine returns_passive ?_ rfl rfl
  split <;> split <;> rfl

theorem plan_passive : Passive (plan deps env state) :=
  returns_passive rfl rfl rfl

theorem setup_passive : Passive (setup deps env state) :=
  returns_passive rfl rfl rfl

theorem reflect_passive : Passive (reflect deps env state) :=
  returns_passive rfl rfl rfl

theorem finalize_passive : Passive (finalize env state) := by
  unfold finalize
  split <;> exact returns_passive rfl rfl rfl

theorem direct_ranCalls : ranCalls (direct env state).out = [] := by
  unfold direct returns
  dsimp only
  split <;> rfl

/-- `finalize` leaves an answer behind, whatever it started from. -/
theorem finalize_answers {u : Update} (h : (finalize env state).outcome = .update u) :
    ∃ answer, (state.fold u).finalAnswer = some answer ∧ answer ≠ "" := by
  unfold finalize at h
  split at h
  next hanswer =>
      cases h
      cases hfinal : state.finalAnswer with
      | none => simp [hfinal] at hanswer
      | some answer => exact ⟨answer, by simp [hfinal], by simpa [hfinal] using hanswer⟩
  next =>
      cases h
      refine ⟨_, rfl, ?_⟩
      split
      next => exact by decide
      next hcontent => exact hcontent

end

end Lour.Agents
