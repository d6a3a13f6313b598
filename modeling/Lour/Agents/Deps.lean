import Lour.Agents.State
import Lour.Lib.StateGraph
import Lour.Tools.Gate
/-!
# What a node is given, and what it emits

`Deps` is the bundle the node factories close over.  `Env` is everything outside
the program that one execution of a node asks: the model, the structured output
service, the tools, memory and the clock.  Each execution has its own, so the
same question may be answered differently the next time.
-/

namespace Lour.Agents

open Lour.Lib Lour.Lib.Python Lour.Memory Lour.Tools

/-- The four prompt templates, rendered. -/
structure Prompts where
  researcher : List String → Option MemoryContext → String
  coder : Option MemoryContext → String
  reflection : String → List String → String → String → String
  supervisor : String → Option MemoryContext → String

structure Deps where
  toolRegistry : ToolRegistry
  prompts : Prompts
  /-- The window of the `BudgetEnforcer`. -/
  loopWindow : Nat := 3

/-- The gate checks against the registry the act node runs tools from. -/
def Deps.toolGate (deps : Deps) : ToolGate := ⟨deps.toolRegistry⟩

/-- The arguments of `llm.chat`; `tools` are those whose schemas are offered. -/
structure ChatRequest where
  messages : List LLMMessage
  tools : Option (List BaseTool) := none
  options : Dict

structure Env where
  chat : ChatRequest → LLMResponse
  route : List LLMMessage → Route
  plan : List LLMMessage → Plan
  reflection : List LLMMessage → Reflection
  /-- The result of running a tool for the call at the given position. -/
  run : Nat → BaseTool → Dict → ToolResult
  recalled : String → String → MemoryContext
  now : Rat

/-- The dicts written to the custom event stream. -/
inductive CustomEvent where
  | node (node : String)
  | token (text node : String)
  | toolCalled (name : String) (arguments : Dict) (node : String)
  | toolResult (name : String) (ok : Bool) (error : Option String) (node : String)

/-- A tool run: the call's position in the response, and what the tool got. -/
structure RanCall where
  position : Nat
  name : String
  arguments : Dict

inductive Emission where
  | custom (e : CustomEvent)
  | chat (response : LLMResponse)
  | ran (call : RanCall)
  | wrote (sessionId role content : String)

/-- A pydantic model refused a field. -/
inductive AgentError where
  | invalid (model field : String)

abbrev NodeExecution := Execution Update (List PendingApproval) AgentError Emission

def ranCalls (out : List Emission) : List RanCall :=
  out.filterMap fun
    | .ran call => some call
    | _ => none

@[simp] theorem ranCalls_nil : ranCalls [] = [] := rfl

@[simp] theorem ranCalls_append (xs ys : List Emission) :
    ranCalls (xs ++ ys) = ranCalls xs ++ ranCalls ys := by
  simp [ranCalls]

@[simp] theorem ranCalls_custom (e : CustomEvent) (xs : List Emission) :
    ranCalls (.custom e :: xs) = ranCalls xs := rfl

@[simp] theorem ranCalls_chat (r : LLMResponse) (xs : List Emission) :
    ranCalls (.chat r :: xs) = ranCalls xs := rfl

@[simp] theorem ranCalls_ran (call : RanCall) (xs : List Emission) :
    ranCalls (.ran call :: xs) = call :: ranCalls xs := rfl

/-! ## The stubbed services of the graph tests -/

/-- `_EchoCodeExec`. -/
def codeExec : BaseTool where
  name := "code_exec"
  description := "Fake sandbox that echoes a fixed result for testing."
  sideEffects := true

def stubPrompts : Prompts where
  researcher _ _ := "researcher"
  coder _ := "coder"
  reflection _ _ _ _ := "reflection"
  supervisor _ _ := "supervisor"

def stubDeps : Deps where
  toolRegistry := ⟨[codeExec], by simp⟩
  prompts := stubPrompts

/-- Every question gets the scripted answer. -/
def stubEnv (response : LLMResponse) (agent : AgentName := .direct)
    (reflection : Reflection := { isComplete := true, reasoning := "ok" }) : Env where
  chat _ := response
  route _ := { agent := agent, reasoning := "stub" }
  plan _ := { steps := ["gather", "summarise"] }
  reflection _ := reflection
  run _ _ _ := .success (.obj [("stdout", .str "42"), ("exit_code", .int 0)])
  recalled _ _ := {}
  now := 0

def stubState (query : String) (policy : Core.Policy) : AgentState where
  sessionId := "s"
  threadId := "t"
  query := query
  policy := policy
  budget := { startedAt := 0 }

end Lour.Agents
