import Lour.Core.Policy
import Lour.Tools.Registry
/-!
# `ToolGate`

The Tools-layer half of policy enforcement: may a call proceed, and does it
need a human's approval first.
-/

namespace Lour.Tools

open Lour.Core Lour.Lib.Python

structure GateDecision where
  tool : String
  allowed : Bool
  requiresApproval : Bool := false
  reason : Option String := none

structure ToolGate where
  registry : ToolRegistry

namespace ToolGate

def check (self : ToolGate) (toolName : String) (policy : Policy) : GateDecision :=
  match self.registry.get? toolName with
  | none =>
      { tool := toolName, allowed := false,
        reason := some s!"Tool {pyRepr toolName} is not registered" }
  | some tool =>
      if policy.isToolAllowed toolName = false then
        { tool := toolName, allowed := false,
          reason := some s!"Tool {pyRepr toolName} is not permitted by the active policy" }
      else
        let rules := policy.approvalRules
        { tool := toolName, allowed := true,
          requiresApproval := decide (toolName ∈ rules.toolsRequiringApproval) ||
            (rules.requireApprovalOnSideEffects && tool.sideEffects) }

/-- What a policy has to say for a tool call to need a human: the tool is named,
or it has side effects and the policy asks about those. -/
def Flagged (policy : Policy) (tool : BaseTool) : Prop :=
  tool.name ∈ policy.approvalRules.toolsRequiringApproval ∨
    policy.approvalRules.requireApprovalOnSideEffects = true ∧ tool.sideEffects = true

variable {self : ToolGate} {toolName : String} {policy : Policy}

theorem check_allowed :
    (self.check toolName policy).allowed = true ↔
      self.registry.contains toolName = true ∧ policy.isToolAllowed toolName = true := by
  rw [ToolRegistry.contains_iff_get?, check]
  cases self.registry.get? toolName with
  | none => simp
  | some tool => cases h : policy.isToolAllowed toolName <;> simp

theorem check_requiresApproval {tool : BaseTool}
    (htool : self.registry.get? toolName = some tool) :
    (self.check toolName policy).requiresApproval = true ↔
      policy.isToolAllowed toolName = true ∧ Flagged policy tool := by
  rw [check, htool, Flagged, ToolRegistry.name_of_get? htool]
  cases h : policy.isToolAllowed toolName <;> simp

/-- The gate never asks for approval of a call it blocks. -/
theorem allowed_of_requiresApproval
    (h : (self.check toolName policy).requiresApproval = true) :
    (self.check toolName policy).allowed = true := by
  rw [check] at h ⊢
  cases hget : self.registry.get? toolName with
  | none => simp [hget] at h
  | some tool =>
      cases hallowed : policy.isToolAllowed toolName
      · simp [hget, hallowed] at h
      · simp

end ToolGate

end Lour.Tools
