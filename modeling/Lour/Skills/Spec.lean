import Lour.Agents.State
import Lour.Core.Policy
import Lour.Lib.Conversions
/-!
# `SkillSpec`

The declaration of a skill, as `model_validate` builds it from a YAML file.  The
budget of a declaration is a `BudgetPolicy` of its own: the check that its limits are
positive belongs to `Policy`.
-/

namespace Lour.Skills

open Lour.Lib.Python Lour.Core

inductive InputType where
  | str
  | int
  | float
  | bool
  deriving DecidableEq

/-- One field of a skill's input schema. -/
structure InputField where
  type : InputType := .str
  required : Bool := true
  /-- Anything that YAML has. -/
  default : Value := .json .null
  choices : Option (List String) := none

/-- `^[a-z][a-z0-9_]{1,63}$`. -/
def isSkillName (name : String) : Bool :=
  match name.toList with
  | [] => false
  | c :: cs =>
      c.isLower && 1 ≤ cs.length && cs.length ≤ 63 &&
        cs.all fun d => d.isLower || d.isDigit || d == '_'

structure SkillSpec where
  name : String
  description : String
  agent : Agents.AgentName
  toolsAllowed : List String := []
  /-- A `dict`, by field name. -/
  inputSchema : List (String × InputField) := []
  prompt : String
  budget : BudgetPolicy := {}
  approvalRules : ApprovalRules := {}
  requiresConfirmation : Bool := false
  nameMatches : isSkillName name = true := by decide
  distinct : (inputSchema.map Prod.fst).Nodup := by decide

namespace SkillSpec

/-- `effective_policy`: building the policy runs its validator. -/
def effectivePolicy (self : SkillSpec) : Except String Policy :=
  Policy.make self.budget (some self.toolsAllowed.toFinset) self.approvalRules
    self.requiresConfirmation

theorem effectivePolicy_isOk_iff (self : SkillSpec) :
    (∃ policy, self.effectivePolicy = .ok policy) ↔ self.budget.violation = none := by
  constructor
  · rintro ⟨policy, h⟩
    rw [effectivePolicy, Policy.make] at h
    split at h
    next message hviolation => cases h
    next hviolation => exact hviolation
  · intro h
    exact ⟨_, Policy.make_of_valid h _ _ _⟩

end SkillSpec

end Lour.Skills
