import Lour.Agents.Thread
import Mathlib.Algebra.Ring.Int.Defs
/-!
# What each execution of a node asked for

A round is one execution of a node of the supervisor graph or of an agent in it,
with the calls it issued.  The counters of the budget are read off the rounds that
returned, whatever was in the state before.
-/

namespace Lour.Agents

open Lour.Core Lour.Lib Lour.Lib.Python

def LLMResponse.tokens (self : LLMResponse) : Int := self.promptTokens + self.completionTokens

def chatsOf (out : List Emission) : List LLMResponse :=
  out.filterMap fun
    | .chat response => some response
    | _ => none

@[simp] theorem chatsOf_nil : chatsOf [] = [] := rfl

@[simp] theorem chatsOf_append (xs ys : List Emission) :
    chatsOf (xs ++ ys) = chatsOf xs ++ chatsOf ys := by
  simp [chatsOf]

def tokensOf (chats : List LLMResponse) : Int := (chats.map LLMResponse.tokens).sum

/-! ## The prompts of the structured calls -/

def routeMessages (deps : Deps) (state : AgentState) : List LLMMessage :=
  [.user (deps.prompts.supervisor state.query state.memoryContext)]

def planMessages (deps : Deps) (state : AgentState) : List LLMMessage :=
  [.system (deps.prompts.researcher [] state.memoryContext),
    .user ("Break the request into a short ordered list of concrete research " ++
      s!"steps (at most {maxSteps}). Return only the steps.\n\n" ++ s!"Request: {state.query}")]

def reflectMessages (deps : Deps) (state : AgentState) : List LLMMessage :=
  let names := ", ".intercalate (state.toolsCalled.map ToolCallRecord.name)
  [.user (deps.prompts.reflection state.query state.plan (if names = "" then "none" else names)
    (reflectedContent state.messages))]

theorem route_asks (deps : Deps) (env : Env) (state : AgentState) :
    route deps env state =
      if state.route.isSome then returns {}
      else returns { route := some (some (env.route (routeMessages deps state))) } := by
  unfold route
  cases state.route <;> rfl

theorem plan_asks (deps : Deps) (env : Env) (state : AgentState) :
    plan deps env state =
      let steps := (env.plan (planMessages deps state)).steps.take maxSteps
      returns
        { plan := some steps
          messages := some [.system (deps.prompts.researcher steps state.memoryContext),
            .user state.query] } := rfl

theorem reflect_asks (deps : Deps) (env : Env) (state : AgentState) :
    reflect deps env state =
      let verdict := env.reflection (reflectMessages deps state)
      let content := reflectedContent state.messages
      returns
        { reflection := some (some verdict)
          finalAnswer :=
            if verdict.isComplete && content ≠ "" then some (some content) else none } := rfl

/-- The messages that the next node hands to the structured output service. -/
def structuredCall (deps : Deps) : SupervisorConfig → Option (List LLMMessage)
  | .top (.ready .route s) => if s.route.isSome then none else some (routeMessages deps s)
  | .within .researcher _ (.ready .plan s) => some (planMessages deps s)
  | .within .researcher _ (.ready .reflect s) => some (reflectMessages deps s)
  | _ => none

/-! ## Rounds -/

structure Round where
  /-- The tokens of the structured call, where there was one. -/
  structured : List Int
  chats : List LLMResponse
  ran : List RanCall
  records : List ToolCallRecord
  /-- The node neither interrupted nor raised. -/
  returned : Bool

/-- `usage` is what the structured output service spends on its calls to the model,
which it keeps to itself. -/
def roundOf (usage : Env → List LLMMessage → Int) (deps : Deps) (C : SupervisorConfig)
    (r : Request Env Json) (C' : SupervisorConfig) (items : List StreamItem) : Round where
  structured := (structuredCall deps C).toList.map (usage r.env)
  chats := chatsOf (emissions items)
  ran := ranCalls (emissions items)
  records := produced recordsOf items
  returned := C'.pending.isNone && !C'.raised

/-- The supervisor graph, with the rounds for outputs. -/
def roundSystem (usage : Env → List LLMMessage → Int) (deps : Deps) :
    System SupervisorConfig (Request Env Json) Round :=
  ⟨fun C r => ((supervisor deps).step C r).map fun (C', items) =>
    (C', [roundOf usage deps C r C' items])⟩

/-- What the round adds to the budget's counters. -/
def Round.count (self : Round) (budget : BudgetState) : BudgetState :=
  if self.returned then
    budget.withDelta (tokensOf self.chats) self.ran.length self.chats.length
  else budget

def BudgetState.after (self : BudgetState) (rounds : List Round) : BudgetState :=
  rounds.foldl (fun budget round => round.count budget) self

section

variable {deps : Deps} {usage : Env → List LLMMessage → Int} {env : Env} {answer : Option Json}
  {state : AgentState}

theorem roundSystem_step {C C' : SupervisorConfig} {r : Request Env Json} {out : List Round} :
    (roundSystem usage deps).step C r = some (C', out) ↔
      ∃ items, (supervisor deps).step C r = some (C', items) ∧
        out = [roundOf usage deps C r C' items] := by
  simp only [roundSystem, Option.map_eq_some_iff, Prod.exists, Prod.mk.injEq]
  constructor
  · rintro ⟨D, items, hstep, rfl, rfl⟩
    exact ⟨items, hstep, rfl⟩
  · rintro ⟨items, hstep, rfl⟩
    exact ⟨C', items, hstep, rfl, rfl⟩

/-- The rounds of a run are those of a run of the graph itself. -/
theorem run_of_rounds {requests : List (Request Env Json)} {C C' : SupervisorConfig}
    {rounds : List Round} (h : (roundSystem usage deps).run C requests = some (C', rounds)) :
    ∃ items, (supervisor deps).system.run C requests = some (C', items) := by
  induction requests generalizing C rounds with
  | nil =>
      cases h
      exact ⟨[], rfl⟩
  | cons r requests ih =>
      obtain ⟨D, out, rest, hstep, hrun, rfl⟩ := System.run_cons _ |>.mp h
      obtain ⟨items, hitems, -⟩ := roundSystem_step.mp hstep
      obtain ⟨items', hitems'⟩ := ih hrun
      exact ⟨items ++ items', (System.run_cons _).mpr ⟨D, items, items', hitems, hitems', rfl⟩⟩

/-! ## The counters -/

theorem actCall_chats (policy : Policy) (approved : Bool) (acc : Pass2) (tc : ToolCall × ℕ) :
    chatsOf (actCall deps policy env approved acc tc).out = chatsOf acc.out := by
  unfold actCall
  dsimp only
  split <;> simp [Pass2.refuse, Pass2.answer, chatsOf]

theorem pass2_chats (policy : Policy) (approved : Bool) (calls : List ToolCall) :
    chatsOf (pass2 deps policy env approved calls).out = [] := by
  have hfold : ∀ (calls : List (ToolCall × ℕ)) (acc : Pass2),
      chatsOf (calls.foldl (actCall deps policy env approved) acc).out = chatsOf acc.out := by
    intro calls
    induction calls with
    | nil => exact fun acc => rfl
    | cons tc calls ih =>
        intro acc
        rw [List.foldl_cons, ih, actCall_chats]
  exact hfold _ _

theorem act_chats :
    chatsOf (act deps env answer state).out = [env.chat (actRequest deps state)] := by
  unfold act
  dsimp only
  split
  · simp only [chatsOf_append]
    split <;> rfl
  · split
    · rfl
    · rfl
    · rw [chatsOf_append, pass2_chats]
      rfl

/-- What an execution of a node that returned adds to the counters. -/
def Counts (f : Env → Option Json → AgentState → NodeExecution) : Prop :=
  ∀ env answer state u, (f env answer state).outcome = .update u →
    (state.fold u).budget = state.budget.withDelta (tokensOf (chatsOf (f env answer state).out))
      (ranCalls (f env answer state).out).length (chatsOf (f env answer state).out).length

theorem act_tokens {u : Update} {budget : BudgetState}
    (h : (act deps env answer state).outcome = .update u) (hbudget : u.budget = some budget) :
    budget.tokensUsed = state.budget.tokensUsed + (env.chat (actRequest deps state)).tokens := by
  unfold act at h
  dsimp only at h
  split at h
  next =>
      cases h
      cases hbudget
      rfl
  next =>
      split at h
      next => cases h
      next => cases h
      next =>
          cases h
          cases hbudget
          rfl

theorem act_counts : Counts (act deps) := by
  intro env answer state u h
  obtain ⟨-, tokens, hbudget⟩ := act_update h
  have htokens := act_tokens h hbudget
  have hsame : tokens = (env.chat (actRequest deps state)).tokens := by
    have hsum : state.budget.tokensUsed + tokens =
        state.budget.tokensUsed + (env.chat (actRequest deps state)).tokens := htokens
    omega
  rw [AgentState.fold_budget, hbudget, act_chats, hsame, tokensOf, List.map_singleton,
    List.sum_singleton]
  rfl

/-- A node that asks for no chat and leaves the counters alone. -/
def Quiet (f : Env → Option Json → AgentState → NodeExecution) : Prop :=
  ∀ env answer state, Passive (f env answer state) ∧ chatsOf (f env answer state).out = []

theorem Quiet.counts {f : Env → Option Json → AgentState → NodeExecution} (h : Quiet f) :
    Counts f := by
  intro env answer state u hu
  obtain ⟨⟨hran, v, hv, -, hbudget⟩, hchats⟩ := h env answer state
  rw [hv] at hu
  cases hu
  rw [AgentState.fold_budget, hbudget, hchats, hran]
  simp [tokensOf, BudgetState.withDelta]

theorem direct_counts : Counts fun env _ state => direct env state := by
  intro env answer state u h
  have hchats : chatsOf (direct env state).out =
      [env.chat { messages := directMessages state, options := directOptions }] := by
    unfold direct returns
    dsimp only
    split <;> rfl
  rw [direct_ranCalls, hchats, tokensOf, List.map_singleton, List.sum_singleton]
  cases h
  rfl

theorem finalize_quiet : Quiet fun env _ state => finalize env state := by
  intro env answer state
  refine ⟨finalize_passive env state, ?_⟩
  change chatsOf (finalize env state).out = []
  unfold finalize
  split <;> rfl

theorem task_plain_counts {n : SupervisorNode}
    {f : Env → Option Json → AgentState → NodeExecution}
    (h : (supervisor deps).task n = .plain f) : Counts f := by
  cases n with
  | memoryRecall =>
      cases h
      exact Quiet.counts fun env _ state => ⟨memoryRecall_passive env state, rfl⟩
  | route =>
      cases h
      apply Quiet.counts
      intro env answer state
      refine ⟨route_passive deps env state, ?_⟩
      change chatsOf (route deps env state).out = []
      unfold route
      split <;> rfl
  | direct =>
      cases h
      exact direct_counts
  | memoryWrite =>
      cases h
      apply Quiet.counts
      intro env answer state
      refine ⟨memoryWrite_passive env state, ?_⟩
      unfold memoryWrite returns
      dsimp only
      split <;> split <;> rfl
  | researcher | coder => cases h

theorem task_graph_counts {n : SupervisorNode} {g : AgentGraph n.Inner}
    (h : (supervisor deps).task n = .graph g) (k : n.Inner) : Counts (g.node k) := by
  cases n with
  | researcher =>
      cases h
      cases k with
      | plan => exact Quiet.counts fun env _ state => ⟨plan_passive deps env state, rfl⟩
      | act => exact act_counts
      | reflect => exact Quiet.counts fun env _ state => ⟨reflect_passive deps env state, rfl⟩
      | finalize => exact finalize_quiet.counts
  | coder =>
      cases h
      cases k with
      | setup => exact Quiet.counts fun env _ state => ⟨setup_passive deps env state, rfl⟩
      | act => exact act_counts
      | finalize => exact finalize_quiet.counts
  | memoryRecall | route | direct | memoryWrite => cases h

theorem task_graph_fold {n : SupervisorNode} {g : AgentGraph n.Inner}
    (h : (supervisor deps).task n = .graph g) : g.fold = (supervisor deps).fold := by
  cases n with
  | researcher =>
      cases h
      rfl
  | coder =>
      cases h
      rfl
  | memoryRecall | route | direct | memoryWrite => cases h

/-- A round moves the budget on by what it counts. -/
theorem step_budget {C C' : SupervisorConfig} {r : Request Env Json} {items : List StreamItem}
    (h : (supervisor deps).step C r = some (C', items)) :
    C'.state.budget = (roundOf usage deps C r C' items).count C.state.budget := by
  obtain ⟨f, hf, -, hout, hlanded⟩ := (supervisor deps).step_leaf h
  have hmoved := (supervisor deps).step_moved (g := AgentState.budget)
    (fun n g hg => task_graph_fold hg) (fun _ _ => rfl) h f hf
  have hcounts : Counts f := by
    rcases (supervisor deps).leaf_cases hf with ⟨n, hn⟩ | ⟨n, g, k, hg, rfl⟩
    · exact task_plain_counts hn
    · exact task_graph_counts hg k
  rw [Round.count, roundOf, hout]
  dsimp only
  cases ho : (f r.env r.answer C.state).outcome with
  | update u =>
      rw [ho] at hlanded hmoved
      obtain ⟨hpending, hraised⟩ := hlanded
      rw [hpending, hraised, if_pos (by rfl), ← hcounts r.env r.answer C.state u ho]
      exact hmoved
  | interrupt payload =>
      rw [ho] at hlanded hmoved
      rw [hlanded.1]
      exact congrArg AgentState.budget hmoved
  | error e =>
      rw [ho] at hlanded hmoved
      rw [hlanded.1, hlanded.2]
      exact congrArg AgentState.budget hmoved

/-- The counters after a run are those before it and what its rounds count. -/
theorem run_budget {requests : List (Request Env Json)} {C C' : SupervisorConfig}
    {rounds : List Round} (h : (roundSystem usage deps).run C requests = some (C', rounds)) :
    C'.state.budget = C.state.budget.after rounds := by
  have hrun : C'.state.budget = C.state.budget.after ([] ++ rounds) :=
    System.run_induction (P := fun D out => D.state.budget = C.state.budget.after out)
      (fun D out r D' new _ hD hstep => by
        obtain ⟨items, hitems, rfl⟩ := roundSystem_step.mp hstep
        rw [BudgetState.after, List.foldl_append]
        change _ = (roundOf usage deps D r D' items).count (C.state.budget.after out)
        rw [← hD]
        exact step_budget hitems) rfl h
  rwa [List.nil_append] at hrun

end

end Lour.Agents
