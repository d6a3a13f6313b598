import Lour.Agents.Deps
/-!
# Agent events
-/

namespace Lour.Gateway

open Lour.Agents Lour.Lib.Python

inductive EventType where
  | nodeStarted
  | nodeFinished
  | routeDecided
  | token
  | toolCalled
  | toolResult
  | approvalRequired
  | final
  | error
  | done
  deriving DecidableEq

/-- One streamed event; `data` carries the payload of its type. -/
structure AgentEvent where
  type : EventType
  node : Option String := none
  data : Dict := []

namespace AgentEvent

def nodeStarted (node : String) : AgentEvent where
  type := .nodeStarted
  node := some node

def nodeFinished (node : String) : AgentEvent where
  type := .nodeFinished
  node := some node

def routeDecided (agent reasoning : String) : AgentEvent where
  type := .routeDecided
  node := some "route"
  data := [("agent", .str agent), ("reasoning", .str reasoning)]

def token (text : Json) (node : Option String) : AgentEvent where
  type := .token
  node := node
  data := [("text", text)]

def toolCalled (name : String) (arguments : Json) (node : Option String) : AgentEvent where
  type := .toolCalled
  node := node
  data := [("name", .str name), ("arguments", arguments)]

def toolResult (name : String) (ok : Bool) (error : Json) (node : Option String) : AgentEvent where
  type := .toolResult
  node := node
  data := [("name", .str name), ("ok", .bool ok), ("error", error)]

def final (answer : String) : AgentEvent where
  type := .final
  data := [("answer", .str answer)]

def error (message : String) (code : String := "agent_error") : AgentEvent where
  type := .error
  data := [("message", .str message), ("code", .str code)]

def done : AgentEvent where
  type := .done

end AgentEvent

def AgentEvent.approvalRequired (tool : String) (arguments : Dict) (reason : String) :
    AgentEvent where
  type := .approvalRequired
  data := [("tool", .str tool), ("arguments", .obj arguments), ("reason", .str reason)]

/-- `_interrupt_event`.  An interrupt's value is the list of pending approvals the
`act` node raised it with; without one the frame is built from an empty dict. -/
def interruptEvent (interrupts : List (List PendingApproval)) : AgentEvent :=
  match interrupts.head?.bind List.head? with
  | some first => .approvalRequired first.tool first.arguments first.reason
  | none => .approvalRequired "" [] "Approval required"

theorem AgentEvent.approvalRequired_inj {tool tool' reason reason' : String}
    {arguments arguments' : Dict}
    (h : approvalRequired tool arguments reason = approvalRequired tool' arguments' reason') :
    tool = tool' ∧ arguments = arguments' := by
  simp only [approvalRequired, AgentEvent.mk.injEq, List.cons.injEq, Prod.mk.injEq,
    Json.str.injEq, Json.obj.injEq] at h
  exact ⟨h.2.2.1.2, h.2.2.2.1.2⟩

end Lour.Gateway
