import Lour.Agents.Graphs
/-!
# The agent loops answer within budget

Every execution of `act` advances the iteration counter by one, no other node
touches it, and the edge back to `act` is taken only below the limit.  So a run
in which no node is interrupted or raises comes to `finalize`, which answers.
-/

namespace Lour.Agents

open Lour.Core Lour.Lib Lour.Lib.Python

section Loop

variable {deps : Deps} {ν : Type} {G : AgentGraph ν} {a f : ν} {w : ν → ℕ}

/-- What the update of a node does to the policy and to the two counters. -/
theorem AgentLoop.update_counters (hloop : AgentLoop deps G a f w) {n : ν} {env : Env}
    {answer : Option Json} {s : AgentState} {u : Update}
    (h : (G.node n env answer s).outcome = .update u) :
    (G.fold s u).policy = s.policy ∧
      (G.fold s u).budget.iterations =
        s.budget.iterations + (if G.name n = "act" then 1 else 0) ∧
      (G.fold s u).budget.toolCallsMade =
        s.budget.toolCallsMade + (ranCalls (G.node n env answer s).out).length := by
  rw [hloop.fold_eq]
  by_cases hn : n = a
  · subst hn
    rw [hloop.node_act] at h ⊢
    obtain ⟨hpolicy, tokens, hbudget⟩ := act_update h
    have hname : G.name n = "act" := (hloop.name_act n).mpr rfl
    simp [hpolicy, hbudget, hname]
  · obtain ⟨hran, v, hv, hpolicy, hbudget⟩ := hloop.passive n env answer s hn
    rw [h] at hv
    cases hv
    have hname : G.name n ≠ "act" := fun hact => hn ((hloop.name_act n).mp hact)
    simp [hpolicy, hbudget, hname, hran]

/-- A run of `act` under the limit `m`, by where it stands: `names` are the nodes
executed so far, `i` the iteration counter. -/
def Place (G : AgentGraph ν) (a : ν) (m i : Int) (names : List String) :
    Config ν AgentState (List PendingApproval) AgentError → Prop
  | .ready n _ =>
      n = G.entry ∧ names = [] ∨
        n ≠ G.entry ∧ "finalize" ∉ names ∧ i ≤ m ∧ (n = a → i < m) ∧ (n ≠ a → 1 ≤ i)
  | .ended s =>
      (∃ xs, names = xs ++ ["finalize"] ∧ "finalize" ∉ xs) ∧ 1 ≤ i ∧ i ≤ m ∧
        ∃ answer, s.finalAnswer = some answer ∧ answer ≠ ""
  | .paused _ _ _ | .failed _ _ _ => True

structure LoopInvariant (G : AgentGraph ν) (a : ν) (m : Int)
    (c : Config ν AgentState (List PendingApproval) AgentError) (items : List StreamItem) :
    Prop where
  limit : c.state.policy.budget.maxIterations = some m
  counted : c.state.budget.iterations = ((executions items).count "act" : ℕ)
  place : Place G a m c.state.budget.iterations (executions items) c

theorem one_le_of_maxIterations {policy : Policy} {m : Int}
    (h : policy.budget.maxIterations = some m) : 1 ≤ m :=
  (BudgetPolicy.violation_eq_none.mp policy.validated).2.1 m h

/-- Where a node's edge leads, below the limit. -/
theorem AgentLoop.place_complete (hloop : AgentLoop deps G a f w) {m : Int} {n : ν} {env : Env}
    {s : AgentState} {u : Update} {items out : List StreamItem}
    (hm : s.policy.budget.maxIterations = some m)
    (hcount : s.budget.iterations = ((executions items).count "act" : ℕ))
    (hplace : Place G a m s.budget.iterations (executions items) (.ready n s))
    (hout : executions out = [G.name n])
    (hu : (G.node n env none s).outcome = .update u) :
    Place G a m (G.fold s u).budget.iterations (executions (items ++ out))
      (G.complete n env s u) := by
  obtain ⟨hpolicy, hiter, -⟩ := hloop.update_counters hu
  have hone := one_le_of_maxIterations hm
  have hbelow : canContinue deps env (G.fold s u) = true →
      (G.fold s u).budget.iterations < m := fun hgo =>
    (BudgetEnforcer.below_limits_of_canContinue hgo).1 m (hpolicy ▸ hm)
  rw [executions_append, hout]
  unfold StateGraph.complete
  rcases hplace with ⟨rfl, hnil⟩ | ⟨hentry, hfinal, hle, hact, hother⟩
  · -- the entry node leads to `act`, with the counter at zero
    have hname : G.name G.entry ≠ "act" := fun h =>
      hloop.entry_ne_act ((hloop.name_act _).mp h)
    have hnot : G.name G.entry ≠ "finalize" := fun h =>
      hloop.entry_ne_final ((hloop.name_final _).mp h)
    rw [hnil] at hcount
    rw [if_neg hname] at hiter
    rw [(hloop.next_entry env _).1, hnil]
    refine .inr ⟨hloop.entry_ne_act.symm, by simpa using Ne.symm hnot, ?_, fun _ => ?_,
      fun h => absurd rfl h⟩
    · simp only [List.count_nil] at hcount
      omega
    · simp only [List.count_nil] at hcount
      omega
  · by_cases hn : n = a
    · subst hn
      have hname : G.name n = "act" := (hloop.name_act n).mpr rfl
      obtain ⟨n', hnext, hentry', -, hgo⟩ := hloop.next_act env (G.fold s u)
      have hlt := hact rfl
      have hnonneg : 0 ≤ s.budget.iterations := by omega
      rw [if_pos hname] at hiter
      rw [hnext, hname]
      refine .inr ⟨hentry', by simpa using hfinal, by omega, fun h => hbelow (hgo h),
        fun _ => by omega⟩
    · have hname : G.name n ≠ "act" := fun h => hn ((hloop.name_act n).mp h)
      have hpos := hother hn
      rw [if_neg hname] at hiter
      by_cases hf : n = f
      · subst hf
        have hlast : G.name n = "finalize" := (hloop.name_final n).mpr rfl
        rw [hloop.node_final] at hu
        rw [hloop.next_final, hlast, hloop.fold_eq]
        rw [hloop.fold_eq] at hiter
        exact ⟨⟨_, rfl, hfinal⟩, by omega, by omega, finalize_answers env s hu⟩
      · have hnot : G.name n ≠ "finalize" := fun h => hf ((hloop.name_final n).mp h)
        obtain ⟨n', hnext, hentry', -, hgo⟩ := hloop.next_other n env (G.fold s u) hentry hn hf
        rw [hnext]
        refine .inr ⟨hentry', ?_, by omega, fun h => hbelow (hgo h), fun _ => by omega⟩
        simpa using ⟨hfinal, Ne.symm hnot⟩

theorem AgentLoop.step_invariant (hloop : AgentLoop deps G a f w) {m : Int}
    {c c' : Config ν AgentState (List PendingApproval) AgentError}
    {items out : List StreamItem} {env : Env} (hc : LoopInvariant G a m c items)
    (hreturned : c'.Returned) (h : G.step c (.exec env) = some (c', out)) :
    LoopInvariant G a m c' (items ++ out) := by
  cases c with
  | ready n s =>
      simp only [StateGraph.step, StateGraph.exec, Option.some.injEq, Prod.mk.injEq] at h
      obtain ⟨rfl, rfl⟩ := h
      cases hu : (G.node n env none s).outcome with
      | update u =>
          obtain ⟨hpolicy, hiter, -⟩ := hloop.update_counters hu
          simp only [StateGraph.land]
          refine ⟨?_, ?_, ?_⟩
          · rw [StateGraph.complete_state, hpolicy]
            exact hc.limit
          · have hcount := hc.counted
            rw [Config.state_ready] at hcount
            rw [StateGraph.complete_state, hiter, hcount, executions_append, executions_items,
              List.count_append, List.count_singleton]
            by_cases hname : G.name n = "act" <;> simp [hname]
          · rw [StateGraph.complete_state]
            exact hloop.place_complete hc.limit hc.counted hc.place (executions_items _ _) hu
      | interrupt payload => simp [StateGraph.land, hu, Config.Returned] at hreturned
      | error e => simp [StateGraph.land, hu, Config.Returned] at hreturned
  | paused n s payload => cases h
  | failed n s e => cases h
  | ended s => cases h

/-- The steps left, at most: three for each iteration of the budget, and what the
weight of the node adds. -/
def stepsLeft (w : ν → ℕ) (m : Int) :
    Config ν AgentState (List PendingApproval) AgentError → ℕ
  | .ready n s => 3 * (m - s.budget.iterations).toNat + w n + 1
  | _ => 0

theorem AgentLoop.stepsLeft_lt (hloop : AgentLoop deps G a f w) {m : Int} {n : ν} {env : Env}
    {s : AgentState} {u : Update} {names : List String}
    (hplace : Place G a m s.budget.iterations names (.ready n s))
    (hu : (G.node n env none s).outcome = .update u) :
    stepsLeft w m (G.complete n env s u) < stepsLeft w m (.ready n s) := by
  obtain ⟨-, hiter, -⟩ := hloop.update_counters hu
  have hkeep : n ≠ a → (G.fold s u).budget.iterations = s.budget.iterations := by
    intro hn
    rw [if_neg fun h => hn ((hloop.name_act n).mp h)] at hiter
    omega
  unfold StateGraph.complete
  rcases hplace with ⟨rfl, -⟩ | ⟨hentry, -, -, hact, -⟩
  · obtain ⟨hnext, hweight⟩ := hloop.next_entry env (G.fold s u)
    have hsame := hkeep hloop.entry_ne_act
    simp only [hnext, stepsLeft, hsame]
    omega
  · by_cases hn : n = a
    · subst hn
      obtain ⟨n', hnext, -, hweight, -⟩ := hloop.next_act env (G.fold s u)
      have hlt := hact rfl
      rw [if_pos ((hloop.name_act n).mpr rfl)] at hiter
      simp only [hnext, stepsLeft, hiter]
      omega
    · by_cases hf : n = f
      · subst hf
        simp [hloop.next_final, stepsLeft]
      · obtain ⟨n', hnext, -, hweight, -⟩ := hloop.next_other n env (G.fold s u) hentry hn hf
        have hsame := hkeep hn
        simp only [hnext, stepsLeft, hsame]
        omega

end Loop

/-! ## Whole runs -/

/-- The first `k` executions of a run, asking the environments in turn. -/
def execs (env : ℕ → Env) (k : ℕ) : List (Request Env Json) :=
  (List.range k).map fun i => .exec (env i)

section Runs

variable {deps : Deps} {ν : Type} {G : AgentGraph ν} {a f : ν} {w : ν → ℕ}

/-- Every call made along the run returns: nothing is interrupted, nothing raises. -/
def CallsReturn (G : AgentGraph ν) (env : ℕ → Env) (s : AgentState) : Prop :=
  ∀ k c items, G.system.run (G.start s) (execs env k) = some (c, items) → c.Returned

/-- At every point of the run the counter is the number of `act` executions and
within `m`, and the run ends in `finalize`, executed once, with an answer. -/
structure AnswersWithin (G : AgentGraph ν) (env : ℕ → Env) (s : AgentState) (m : Int) :
    Prop where
  counted : ∀ k c items, G.system.run (G.start s) (execs env k) = some (c, items) →
    c.state.budget.iterations = ((executions items).count "act" : ℕ) ∧
      c.state.budget.iterations ≤ m
  ends : ∃ k t items, G.system.run (G.start s) (execs env k) = some (.ended t, items) ∧
    1 ≤ (executions items).count "act" ∧ ((executions items).count "act" : ℕ) ≤ m ∧
    (∃ before, executions items = before ++ ["finalize"] ∧ "finalize" ∉ before) ∧
    ∃ answer, t.finalAnswer = some answer ∧ answer ≠ ""

theorem AgentLoop.run_invariant (hloop : AgentLoop deps G a f w) {env : ℕ → Env}
    {s : AgentState} {m : Int} (hm : s.policy.budget.maxIterations = some m)
    (hfresh : s.budget.Fresh) (hreturns : CallsReturn G env s) :
    ∀ k c items, G.system.run (G.start s) (execs env k) = some (c, items) →
      LoopInvariant G a m c items := by
  intro k
  induction k with
  | zero =>
      rintro c items h
      cases h
      exact ⟨hm, by simp [StateGraph.start, hfresh.2.2], .inl ⟨rfl, rfl⟩⟩
  | succ k ih =>
      intro c items h
      have hreturned := hreturns (k + 1) c items h
      rw [execs, List.range_succ, List.map_append, System.run_append] at h
      obtain ⟨t, out, rest, hrun, hstep, rfl⟩ := h
      exact hloop.step_invariant (ih t out hrun) hreturned (G.system.run_singleton.mp hstep)

theorem AgentLoop.answersWithin (hloop : AgentLoop deps G a f w) {env : ℕ → Env}
    {s : AgentState} {m : Int} (hm : s.policy.budget.maxIterations = some m)
    (hfresh : s.budget.Fresh) (hreturns : CallsReturn G env s) : AnswersWithin G env s m := by
  have hinv := hloop.run_invariant hm hfresh hreturns
  have hone := one_le_of_maxIterations hm
  refine ⟨fun k c items h => ?_, ?_⟩
  · have hc := hinv k c items h
    have hreturned := hreturns k c items h
    refine ⟨hc.counted, ?_⟩
    have hplace := hc.place
    cases c with
    | ready n t =>
        rcases hplace with ⟨-, hnil⟩ | ⟨-, -, hle, -⟩
        · rw [hc.counted, hnil]
          simp only [List.count_nil]
          omega
        · exact hle
    | ended t => exact hplace.2.2.1
    | paused n t payload => exact absurd hreturned (by simp [Config.Returned])
    | failed n t e => exact absurd hreturned (by simp [Config.Returned])
  · obtain ⟨k, c, items, hrun, ⟨t, rfl⟩, hc, -⟩ :
        ∃ k c items, G.system.run (G.start s) (execs env k) = some (c, items) ∧
          (∃ t, c = .ended t) ∧ LoopInvariant G a m c items ∧ c.Returned := by
      refine G.system.exists_run_of_decreasing (fun c => ∃ t, c = .ended t)
        (fun c items => LoopInvariant G a m c items ∧ c.Returned) (stepsLeft w m)
        (fun i => .exec (env i)) (fun k c items h => ⟨hinv k c items h, hreturns k c items h⟩) ?_
      rintro k c items ⟨hc, hreturned⟩ hfinal
      cases c with
      | ready n t =>
          refine ⟨_, _, rfl, fun hnext => ?_⟩
          cases hu : (G.node n (env k) none t).outcome with
          | update u => simpa [StateGraph.land] using hloop.stepsLeft_lt hc.place hu
          | interrupt payload => simp [StateGraph.land, hu, Config.Returned] at hnext
          | error e => simp [StateGraph.land, hu, Config.Returned] at hnext
      | ended t => exact absurd ⟨t, rfl⟩ hfinal
      | paused n t payload => exact absurd hreturned (by simp [Config.Returned])
      | failed n t e => exact absurd hreturned (by simp [Config.Returned])
    obtain ⟨hlast, hpos, hle, hanswer⟩ := hc.place
    have hcount := hc.counted
    exact ⟨k, t, items, hrun, by omega, by omega, hlast, hanswer⟩

/-- Where the model never asks for a call that needs approval, all calls return. -/
theorem AgentLoop.callsReturn (hloop : AgentLoop deps G a f w) {env : ℕ → Env} {s : AgentState}
    (h : ∀ i t, needsApproval deps t.policy (requested deps (env i) t) = []) :
    CallsReturn G env s := by
  have hnode : ∀ n i t, ∃ u, (G.node n (env i) none t).outcome = .update u := by
    intro n i t
    by_cases hn : n = a
    · rw [hn, hloop.node_act]
      exact act_returns (h i t)
    · obtain ⟨-, u, hu, -⟩ := hloop.passive n (env i) none t hn
      exact ⟨u, hu⟩
  intro k
  induction k with
  | zero =>
      rintro c items hrun
      cases hrun
      trivial
  | succ k ih =>
      intro c items hrun
      rw [execs, List.range_succ, List.map_append, System.run_append] at hrun
      obtain ⟨t, out, rest, hrun, hstep, rfl⟩ := hrun
      have hstep := G.system.run_singleton.mp hstep
      have ht := ih t out hrun
      cases t with
      | ready n t =>
          obtain ⟨u, hu⟩ := hnode n k t
          simp only [StateGraph.system_step, StateGraph.step, StateGraph.exec, hu,
            StateGraph.land, Option.some.injEq, Prod.mk.injEq] at hstep
          rw [← hstep.1]
          unfold StateGraph.complete
          split <;> trivial
      | ended t => cases hstep
      | paused n t payload => exact absurd ht (by simp [Config.Returned])
      | failed n t e => exact absurd ht (by simp [Config.Returned])

end Runs

/-- Both agent loops terminate within `max_iterations` and always answer. -/
theorem agents_answer_within_budget (deps : Deps) (env : ℕ → Env) (s : AgentState) (m : Int)
    (hm : s.policy.budget.maxIterations = some m) (hfresh : s.budget.Fresh) :
    (CallsReturn (researcher deps) env s → AnswersWithin (researcher deps) env s m) ∧
      (CallsReturn (coder deps) env s → AnswersWithin (coder deps) env s m) :=
  ⟨(researcher_loop deps).answersWithin hm hfresh, (coder_loop deps).answersWithin hm hfresh⟩

/-- A model that answers at once, under a limit of two iterations. -/
theorem agents_answer_within_budget_stub :
    let policy : Policy := { budget := { maxIterations := some 2 } }
    let env : ℕ → Env := fun _ => stubEnv { content := "42" }
    AnswersWithin (researcher stubDeps) env (stubState "q" policy) 2 ∧
      AnswersWithin (coder stubDeps) env (stubState "q" policy) 2 := by
  intro policy env
  have h := agents_answer_within_budget stubDeps env (stubState "q" policy) 2 rfl
    ⟨rfl, rfl, rfl⟩
  have hfree : ∀ i t, needsApproval stubDeps t.policy (requested stubDeps (env i) t) = [] :=
    fun _ _ => rfl
  exact ⟨h.1 ((researcher_loop stubDeps).callsReturn hfree),
    h.2 ((coder_loop stubDeps).callsReturn hfree)⟩

end Lour.Agents
