import Lour.Agents.Loop
/-!
# The tool-call cap

The enforcer looks at the counter between executions of `act`, and one execution
runs as many calls as its response asks for.  The cap holds throughout a run
exactly when no response brings more runnable calls than the cap still leaves.
-/

namespace Lour.Agents

open Lour.Core Lour.Lib Lour.Lib.Python

/-- The counter does not exceed `max_tool_calls = n`. -/
def WithinCap (n : Int) {ν : Type}
    (c : Config ν AgentState (List PendingApproval) AgentError) : Prop :=
  c.state.budget.toolCallsMade ≤ n

/-- The calls the gate and the decision let through leave the counter within `n`.
Without an answer flagged calls interrupt, and with arguments that are no dict
they raise: nothing runs then. -/
def BatchFits (deps : Deps) (n : Int) (env : Env) (answer : Option Json) (state : AgentState) :
    Prop :=
  let calls := requested deps env state
  let flagged := needsApproval deps state.policy calls
  (flagged = [] →
    state.budget.toolCallsMade + (runnable deps state.policy true calls).length ≤ n) ∧
  (flagged ≠ [] → (∀ tc ∈ flagged, tc.arguments.isDict = true) →
    ∀ decision, answer = some decision → state.budget.toolCallsMade +
      (runnable deps state.policy (isApproved decision) calls).length ≤ n)

/-- The condition on a step of a graph: where it executes `act`, the batch fits. -/
def StepFits (deps : Deps) {ν : Type} (actNode : ν) (n : Int)
    (c : Config ν AgentState (List PendingApproval) AgentError) (r : Request Env Json) : Prop :=
  c.At actNode → BatchFits deps n r.env r.answer c.state

section

variable {deps : Deps} {env : Env} {answer : Option Json} {state : AgentState} {n : Int}

theorem batchFits_iff_ran (hn : state.budget.toolCallsMade ≤ n) :
    BatchFits deps n env answer state ↔
      state.budget.toolCallsMade + (ranCalls (act deps env answer state).out).length ≤ n := by
  rw [act_ranCalls]
  unfold BatchFits
  by_cases hflag : needsApproval deps state.policy (requested deps env state) = []
  · rw [pass1_of_none_flagged hflag]
    simp [hflag]
  · by_cases hdict : ∀ tc ∈ needsApproval deps state.policy (requested deps env state),
        tc.arguments.isDict = true
    · cases answer with
      | none =>
          rw [pass1_unanswered hflag hdict]
          simpa [hflag] using hn
      | some decision =>
          rw [pass1_answered hflag hdict]
          simp only [hflag, false_implies, ne_eq, not_false_eq_true, true_implies,
            Option.some.injEq, forall_eq', true_and, List.length_map]
          exact ⟨fun h => h hdict, fun h _ => h⟩
    · -- pass 1 raises, so nothing runs and nothing is asked of the batch
      have hpass : ∀ approved, pass1 deps state.policy answer (requested deps env state) ≠
          .proceed approved := by
        intro approved h
        rcases pass1_eq_proceed h with ⟨hnone, -⟩ | ⟨-, hall, -⟩
        · exact hflag hnone
        · exact hdict hall
      refine iff_of_true ⟨fun h => absurd h hflag, fun _ h => absurd h hdict⟩ ?_
      split
      next approved h => exact absurd h (hpass approved)
      next => simpa using hn

variable {ν : Type} {G : AgentGraph ν} {a f : ν} {w : ν → ℕ}

theorem AgentLoop.ranCalls_of_not_update (hloop : AgentLoop deps G a f w) {m : ν}
    (h : ∀ u, (G.node m env answer state).outcome ≠ .update u) :
    ranCalls (G.node m env answer state).out = [] := by
  by_cases hm : m = a
  · subst hm
    rw [hloop.node_act] at h ⊢
    exact act_ranCalls_of_not_update h
  · exact (hloop.passive m env answer state hm).ran

/-- Where an execution is at the end of `act`, the counter has grown by what ran. -/
theorem AgentLoop.step_toolCallsMade (hloop : AgentLoop deps G a f w) {m : ν} {s : AgentState}
    {c : Config ν AgentState (List PendingApproval) AgentError}
    (hc : c = G.land m env s (G.node m env answer s).outcome) :
    c.state.budget.toolCallsMade =
      s.budget.toolCallsMade + (ranCalls (G.node m env answer s).out).length := by
  subst hc
  cases hu : (G.node m env answer s).outcome with
  | update u =>
      rw [StateGraph.land, StateGraph.complete_state]
      exact (hloop.update_counters hu).2.2
  | interrupt payload =>
      have hran : ranCalls (G.node m env answer s).out = [] :=
        hloop.ranCalls_of_not_update (by simp [hu])
      simp [StateGraph.land, hran]
  | error e =>
      have hran : ranCalls (G.node m env answer s).out = [] :=
        hloop.ranCalls_of_not_update (by simp [hu])
      simp [StateGraph.land, hran]

/-- A step from a state within the cap stays within it exactly when it fits. -/
theorem AgentLoop.withinCap_iff (hloop : AgentLoop deps G a f w)
    {c c' : Config ν AgentState (List PendingApproval) AgentError} {r : Request Env Json}
    {items : List StreamItem} (hc : WithinCap n c) (h : G.step c r = some (c', items)) :
    WithinCap n c' ↔ StepFits deps a n c r := by
  obtain ⟨m, hat, -, hland, -⟩ := G.step_cases h
  rw [WithinCap, hloop.step_toolCallsMade hland, StepFits]
  by_cases hm : m = a
  · subst hm
    rw [hloop.node_act, ← batchFits_iff_ran hc]
    exact ⟨fun hfits _ => hfits, fun hfits => hfits hat⟩
  · have hother : ¬ c.At a := fun ha => hm (hat.unique ha)
    have hran := (hloop.passive m r.env r.answer c.state hm).ran
    rw [hran]
    exact iff_of_true (by simpa [WithinCap] using hc) fun ha => absurd ha hother

theorem AgentLoop.allStates_withinCap (hloop : AgentLoop deps G a f w) {s : AgentState}
    (hs : s.budget.toolCallsMade ≤ n) (requests : List (Request Env Json)) :
    G.system.AllStates (WithinCap n) (G.start s) requests ↔
      G.system.AllSteps (StepFits deps a n) (G.start s) requests :=
  System.allStates_iff_allSteps (fun _ _ _ _ _ _ _ => trivial)
    (fun _ _ _ _ _ hc h => hloop.withinCap_iff hc h) trivial hs

end

/-- In a run from fresh counters the number of tool invocations stays within
`max_tool_calls` at every point exactly when every batch fits. -/
theorem tool_calls_within_cap_iff (deps : Deps) (s : AgentState) (n : Int)
    (hn : s.policy.budget.maxToolCalls = some n) (hfresh : s.budget.Fresh)
    (requests : List (Request Env Json)) :
    ((researcher deps).system.AllStates (WithinCap n) ((researcher deps).start s) requests ↔
      (researcher deps).system.AllSteps (StepFits deps .act n)
        ((researcher deps).start s) requests) ∧
    ((coder deps).system.AllStates (WithinCap n) ((coder deps).start s) requests ↔
      (coder deps).system.AllSteps (StepFits deps .act n)
        ((coder deps).start s) requests) := by
  have hpos : 0 < n := (BudgetPolicy.violation_eq_none.mp s.policy.validated).2.2.1 n hn
  have hs : s.budget.toolCallsMade ≤ n := by
    rw [hfresh.2.1]
    exact le_of_lt hpos
  exact ⟨(researcher_loop deps).allStates_withinCap hs requests,
    (coder_loop deps).allStates_withinCap hs requests⟩

def capOfOne : Policy := { budget := { maxToolCalls := some 1 } }

/-- A model that asks for `code_exec` the given number of times in one response. -/
def askingFor (calls : Nat) : Env :=
  stubEnv
    { content := "", toolCalls := List.replicate calls { name := "code_exec", arguments := .obj [] } }

theorem tool_calls_within_cap_one_call :
    (coder stubDeps).system.AllStates (WithinCap 1)
      ((coder stubDeps).start (stubState "q" capOfOne))
      [.exec (askingFor 1), .exec (askingFor 1)] := by
  have h := (tool_calls_within_cap_iff stubDeps (stubState "q" capOfOne) 1 rfl ⟨rfl, rfl, rfl⟩
    [.exec (askingFor 1), .exec (askingFor 1)]).2
  refine h.mpr fun c items hsetup => ⟨fun hat => ?_, fun c' items' hact => ⟨fun hat => ?_, ?_⟩⟩
  · cases hat
  · cases hsetup
    exact ⟨fun _ => by decide, fun hflagged => absurd rfl hflagged⟩
  · trivial

/-- One response with two calls passes a cap of one. -/
theorem tool_calls_exceed_cap :
    ¬ ∀ (deps : Deps) (s : AgentState) (n : Int), s.policy.budget.maxToolCalls = some n →
      s.budget.Fresh → ∀ requests,
        (coder deps).system.AllStates (WithinCap n) ((coder deps).start s) requests := by
  intro h
  have hcap := h stubDeps (stubState "q" capOfOne) 1 rfl ⟨rfl, rfl, rfl⟩
    [.exec (askingFor 2), .exec (askingFor 2)]
  have hlast : (2 : Int) ≤ 1 := (hcap.2 _ _ rfl).2 _ _ rfl
  exact absurd hlast (by decide)

end Lour.Agents
