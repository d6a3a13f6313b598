import Lour.Lib.Python
import Mathlib.Data.Finset.Basic
/-!
# Policy declaration and `PolicyResolver`

A policy is validated when it is built: every limit it sets is positive.  The
resolver composes up to four layers, most-restrictive-wins at every field, and
each composition builds, hence validates, a new policy.
-/

namespace Lour.Core

open Lour.Lib.Python

/-- `_min_int` and `_min_float`: the smaller of the limits that are set. -/
def minSet {α : Type} (min : α → α → α) : Option α → Option α → Option α
  | none, b => b
  | a, none => a
  | some a, some b => some (min a b)

structure BudgetPolicy where
  maxCostTokens : Option Int := none
  maxIterations : Option Int := none
  maxToolCalls : Option Int := none
  maxDurationS : Option PyFloat := none

namespace BudgetPolicy

def mergeRestrictive (self other : BudgetPolicy) : BudgetPolicy where
  maxCostTokens := minSet min self.maxCostTokens other.maxCostTokens
  maxIterations := minSet min self.maxIterations other.maxIterations
  maxToolCalls := minSet min self.maxToolCalls other.maxToolCalls
  maxDurationS := minSet PyFloat.min self.maxDurationS other.maxDurationS

def rejectInt (field : String) : Option Int → Option String
  | some value =>
      if value ≤ 0 then some s!"budget.{field} must be > 0, got {value}" else none
  | none => none

def rejectFloat (field : String) : Option PyFloat → Option String
  | some value =>
      if value.le .zero then some s!"budget.{field} must be > 0, got {value.str}" else none
  | none => none

/-- `_validate_budget_tokens_positive`: the message for the first limit that is
set and not positive. -/
def violation (b : BudgetPolicy) : Option String :=
  rejectInt "max_cost_tokens" b.maxCostTokens <|>
    rejectInt "max_iterations" b.maxIterations <|>
    rejectInt "max_tool_calls" b.maxToolCalls <|>
    rejectFloat "max_duration_s" b.maxDurationS

/-- No limit is set. -/
theorem violation_default : ({} : BudgetPolicy).violation = none := rfl

theorem rejectInt_eq_none {field : String} {value : Option Int} :
    rejectInt field value = none ↔ ∀ v, value = some v → 0 < v := by
  cases value with
  | none => simp [rejectInt]
  | some v => simp [rejectInt]

theorem rejectFloat_eq_none {field : String} {value : Option PyFloat} :
    rejectFloat field value = none ↔ ∀ v, value = some v → v.le .zero = false := by
  cases value with
  | none => simp [rejectFloat]
  | some v => simp [rejectFloat]

theorem violation_eq_none {b : BudgetPolicy} :
    b.violation = none ↔
      (∀ v, b.maxCostTokens = some v → 0 < v) ∧ (∀ v, b.maxIterations = some v → 0 < v) ∧
      (∀ v, b.maxToolCalls = some v → 0 < v) ∧
      (∀ v, b.maxDurationS = some v → v.le .zero = false) := by
  simp only [violation, Option.orElse_eq_none, rejectInt_eq_none, rejectFloat_eq_none]

/-- A property both limits have is a property of the merged one. -/
theorem minSet_forall {α : Type} {min : α → α → α} {p : α → Prop}
    (hmin : ∀ a b, p a → p b → p (min a b)) {a b : Option α}
    (ha : ∀ v, a = some v → p v) (hb : ∀ v, b = some v → p v) :
    ∀ v, minSet min a b = some v → p v := by
  intro v hv
  cases a with
  | none => exact hb v (by simpa [minSet] using hv)
  | some a =>
      cases b with
      | none => exact ha v (by simpa [minSet] using hv)
      | some b =>
          simp only [minSet, Option.some.injEq] at hv
          exact hv ▸ hmin a b (ha a rfl) (hb b rfl)

theorem violation_mergeRestrictive {a b : BudgetPolicy}
    (ha : a.violation = none) (hb : b.violation = none) :
    (a.mergeRestrictive b).violation = none := by
  rw [violation_eq_none] at ha hb ⊢
  obtain ⟨ha₁, ha₂, ha₃, ha₄⟩ := ha
  obtain ⟨hb₁, hb₂, hb₃, hb₄⟩ := hb
  have hpos : ∀ x y : Int, 0 < x → 0 < y → 0 < min x y := fun x y => lt_min
  refine ⟨minSet_forall hpos ha₁ hb₁, minSet_forall hpos ha₂ hb₂, minSet_forall hpos ha₃ hb₃,
    minSet_forall (fun x y hx hy => ?_) ha₄ hb₄⟩
  unfold PyFloat.min
  split
  · exact hy
  · exact hx

end BudgetPolicy

structure ApprovalRules where
  toolsRequiringApproval : Finset String := ∅
  requireApprovalOnSideEffects : Bool := false

def ApprovalRules.mergeRestrictive (self other : ApprovalRules) : ApprovalRules where
  toolsRequiringApproval := self.toolsRequiringApproval ∪ other.toolsRequiringApproval
  requireApprovalOnSideEffects :=
    self.requireApprovalOnSideEffects || other.requireApprovalOnSideEffects

/-- `allowedTools = none` allows every tool.  The last field is what the
validator checked. -/
structure Policy where
  budget : BudgetPolicy := {}
  allowedTools : Option (Finset String) := none
  approvalRules : ApprovalRules := {}
  requiresConfirmation : Bool := false
  validated : budget.violation = none := by exact Lour.Core.BudgetPolicy.violation_default

namespace Policy

/-- The constructor `Policy(...)`, which runs the validator. -/
def make (budget : BudgetPolicy) (allowedTools : Option (Finset String))
    (approvalRules : ApprovalRules) (requiresConfirmation : Bool) : Except String Policy :=
  match h : budget.violation with
  | some message => .error message
  | none => .ok ⟨budget, allowedTools, approvalRules, requiresConfirmation, h⟩

def mergeAllowed : Option (Finset String) → Option (Finset String) → Option (Finset String)
  | none, none => none
  | none, some other => some other
  | some self, none => some self
  | some self, some other => some (self ∩ other)

def mergeRestrictive (self other : Policy) : Except String Policy :=
  make (self.budget.mergeRestrictive other.budget)
    (mergeAllowed self.allowedTools other.allowedTools)
    (self.approvalRules.mergeRestrictive other.approvalRules)
    (self.requiresConfirmation || other.requiresConfirmation)

def isToolAllowed (self : Policy) (toolName : String) : Bool :=
  match self.allowedTools with
  | none => true
  | some allowed => decide (toolName ∈ allowed)

/-- The composition of two policies, without the validator in the way. -/
def merged (self other : Policy) : Policy where
  budget := self.budget.mergeRestrictive other.budget
  allowedTools := mergeAllowed self.allowedTools other.allowedTools
  approvalRules := self.approvalRules.mergeRestrictive other.approvalRules
  requiresConfirmation := self.requiresConfirmation || other.requiresConfirmation
  validated := BudgetPolicy.violation_mergeRestrictive self.validated other.validated

theorem make_of_valid {budget : BudgetPolicy} (h : budget.violation = none)
    (allowed : Option (Finset String)) (rules : ApprovalRules) (confirm : Bool) :
    make budget allowed rules confirm = .ok ⟨budget, allowed, rules, confirm, h⟩ := by
  unfold make
  split
  next message hm => rw [h] at hm; cases hm
  next => rfl

/-- Composing two valid policies never raises. -/
theorem mergeRestrictive_eq (self other : Policy) :
    self.mergeRestrictive other = .ok (self.merged other) :=
  make_of_valid _ _ _ _

theorem merged_isToolAllowed (self other : Policy) (toolName : String) :
    (self.merged other).isToolAllowed toolName = true ↔
      self.isToolAllowed toolName = true ∧ other.isToolAllowed toolName = true := by
  unfold isToolAllowed merged
  cases self.allowedTools <;> cases other.allowedTools <;> simp [mergeAllowed]

theorem mem_merged_toolsRequiringApproval (self other : Policy) (toolName : String) :
    toolName ∈ (self.merged other).approvalRules.toolsRequiringApproval ↔
      toolName ∈ self.approvalRules.toolsRequiringApproval ∨
      toolName ∈ other.approvalRules.toolsRequiringApproval :=
  Finset.mem_union

theorem merged_requireApprovalOnSideEffects (self other : Policy) :
    (self.merged other).approvalRules.requireApprovalOnSideEffects = true ↔
      self.approvalRules.requireApprovalOnSideEffects = true ∨
      other.approvalRules.requireApprovalOnSideEffects = true :=
  Bool.or_eq_true_iff

end Policy

namespace PolicyResolver

/-- The layers that are given, in the order defaults, skill, agent, request. -/
def layers (defaults skill agent request : Option Policy) : List Policy :=
  [defaults, skill, agent, request].reduceOption

def resolve (defaults skill agent request : Option Policy) : Except String Policy :=
  match layers defaults skill agent request with
  | [] => Policy.make {} none {} false
  | first :: rest => rest.foldlM (fun result layer => result.mergeRestrictive layer) first

/-- `resolve` without the validator: the composition of the layers. -/
def composed : List Policy → Policy
  | [] => {}
  | first :: rest => rest.foldl Policy.merged first

variable {defaults skill agent request : Option Policy}

theorem resolve_eq :
    resolve defaults skill agent request =
      .ok (composed (layers defaults skill agent request)) := by
  have hfold : ∀ (rest : List Policy) (first : Policy),
      rest.foldlM (fun result layer => result.mergeRestrictive layer) first =
        (.ok (rest.foldl Policy.merged first) : Except String Policy) := by
    intro rest
    induction rest with
    | nil => exact fun first => rfl
    | cons layer rest ih =>
        intro first
        rw [List.foldlM_cons, Policy.mergeRestrictive_eq]
        exact ih _
  unfold resolve
  cases layers defaults skill agent request with
  | nil => exact Policy.make_of_valid rfl _ _ _
  | cons first rest => exact hfold rest first

/-- What a composition of two has exactly when both have it, the resolved
policy has exactly when every given layer has it. -/
theorem composed_forall {f : Policy → Prop} (hdefault : f {})
    (hmerged : ∀ a b, f (a.merged b) ↔ f a ∧ f b) (ls : List Policy) :
    f (composed ls) ↔ ∀ layer ∈ ls, f layer := by
  have hfold : ∀ (rest : List Policy) (first : Policy),
      f (rest.foldl Policy.merged first) ↔ f first ∧ ∀ layer ∈ rest, f layer := by
    intro rest
    induction rest with
    | nil => simp
    | cons layer rest ih =>
        intro first
        rw [List.foldl_cons, ih, hmerged, List.forall_mem_cons, and_assoc]
  cases ls with
  | nil => simpa [composed] using hdefault
  | cons first rest => rw [composed, hfold, List.forall_mem_cons]

theorem composed_isToolAllowed (ls : List Policy) (toolName : String) :
    (composed ls).isToolAllowed toolName = true ↔
      ∀ layer ∈ ls, layer.isToolAllowed toolName = true :=
  composed_forall (f := fun p => p.isToolAllowed toolName = true) rfl
    (fun a b => a.merged_isToolAllowed b toolName) ls

theorem mem_composed_toolsRequiringApproval (ls : List Policy) (toolName : String) :
    toolName ∈ (composed ls).approvalRules.toolsRequiringApproval ↔
      ∃ layer ∈ ls, toolName ∈ layer.approvalRules.toolsRequiringApproval := by
  have h := composed_forall
    (f := fun p => toolName ∉ p.approvalRules.toolsRequiringApproval) (by simp)
    (fun a b => by rw [Policy.mem_merged_toolsRequiringApproval, not_or]) ls
  simpa using not_congr h

theorem composed_requireApprovalOnSideEffects (ls : List Policy) :
    (composed ls).approvalRules.requireApprovalOnSideEffects = true ↔
      ∃ layer ∈ ls, layer.approvalRules.requireApprovalOnSideEffects = true := by
  have h := composed_forall
    (f := fun p => ¬ p.approvalRules.requireApprovalOnSideEffects = true) (by simp)
    (fun a b => by rw [Policy.merged_requireApprovalOnSideEffects, not_or]) ls
  simpa using not_congr h

end PolicyResolver

end Lour.Core
