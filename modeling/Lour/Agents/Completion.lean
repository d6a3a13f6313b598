import Lour.Agents.Answers
import Lour.Agents.Loop
import Lour.Agents.Thread
/-!
# A turn comes to an end, and is remembered once

A run of the supervisor is bounded by the iterations of its policy, however often it is
interrupted and resumed, and `memory_write`, its last node, is the only one that writes to
memory.
-/

namespace Lour.Agents

open Lour.Core Lour.Lib Lour.Lib.Python

/-- The memory writes, as session, role and content. -/
def memoryWrites (out : List Emission) : List (String × String × String) :=
  out.filterMap fun
    | .wrote sessionId role content => some (sessionId, role, content)
    | _ => none

theorem memoryWrites_append (xs ys : List Emission) :
    memoryWrites (xs ++ ys) = memoryWrites xs ++ memoryWrites ys :=
  List.filterMap_append

/-- What is written of a turn. -/
def remembered (s : AgentState) : List (String × String × String) :=
  let answer := s.finalAnswer.getD ""
  (if s.query = "" then [] else [(s.sessionId, "user", s.query)]) ++
    if answer = "" then [] else [(s.sessionId, "assistant", answer)]

theorem memoryWrite_writes (env : Env) (s : AgentState) :
    memoryWrites (memoryWrite env s).out = remembered s := by
  unfold memoryWrite returns remembered
  dsimp only
  rw [memoryWrites_append]
  congr 1
  · split <;> rfl
  · split <;> rfl

/-! ## What every other node leaves alone -/

/-- The update leaves the session, the query and the policy as they are. -/
def Update.KeepsSeed (u : Update) : Prop :=
  u.sessionId = none ∧ u.query = none ∧ u.policy = none

/-- The execution writes nothing to memory, and its update leaves what the turn was seeded
with and what was recalled as they are. -/
structure Discreet (x : NodeExecution) : Prop where
  writes : memoryWrites x.out = []
  update : ∀ u, x.outcome = .update u → u.KeepsSeed ∧ u.memoryContext = none

section Nodes

variable {deps : Deps} {env : Env} {answer : Option Json} {s : AgentState}

theorem returns_discreet {u : Update} {out : List Emission} (hout : memoryWrites out = [])
    (hu : u.KeepsSeed ∧ u.memoryContext = none) : Discreet (returns u out) := by
  constructor
  · exact hout
  · intro v hv
    cases hv
    exact hu

theorem pass2_writes (policy : Policy) (approved : Bool) (calls : List (ToolCall × ℕ))
    (acc : Pass2) :
    memoryWrites (calls.foldl (actCall deps policy env approved) acc).out =
      memoryWrites acc.out := by
  induction calls generalizing acc with
  | nil => rfl
  | cons tc calls ih =>
      rw [List.foldl_cons, ih]
      unfold actCall
      dsimp only
      split
      · exact (memoryWrites_append _ _).trans (List.append_nil _)
      · exact (memoryWrites_append _ _).trans (List.append_nil _)
      · exact (memoryWrites_append _ _).trans (List.append_nil _)
      · exact (memoryWrites_append _ _).trans (List.append_nil _)

theorem act_discreet : Discreet (act deps env answer s) := by
  constructor
  · unfold act
    dsimp only
    split
    · rw [memoryWrites_append]
      split <;> rfl
    · split
      · rfl
      · rfl
      · rw [memoryWrites_append, pass2, pass2_writes]
        rfl
  · intro u hu
    rcases act_update_cases hu with ⟨-, rfl⟩ | ⟨approved, -, rfl⟩
    · exact ⟨⟨rfl, rfl, rfl⟩, rfl⟩
    · exact ⟨⟨rfl, rfl, rfl⟩, rfl⟩

theorem direct_discreet : Discreet (direct env s) := by
  apply returns_discreet _ ⟨⟨rfl, rfl, rfl⟩, rfl⟩
  rw [memoryWrites_append]
  split <;> rfl

theorem route_discreet : Discreet (route deps env s) := by
  unfold route
  split
  · exact returns_discreet rfl ⟨⟨rfl, rfl, rfl⟩, rfl⟩
  · exact returns_discreet rfl ⟨⟨rfl, rfl, rfl⟩, rfl⟩

theorem finalize_discreet (env : Env) : Discreet (finalize env s) := by
  unfold finalize
  split
  · exact returns_discreet rfl ⟨⟨rfl, rfl, rfl⟩, rfl⟩
  · exact returns_discreet rfl ⟨⟨rfl, rfl, rfl⟩, rfl⟩

/-- The nodes of both agents. -/
theorem agent_discreet {n : SupervisorNode} {G : AgentGraph n.Inner}
    (h : (supervisor deps).task n = .graph G) (k : n.Inner) (env : Env) (answer : Option Json)
    (s : AgentState) : Discreet (G.node k env answer s) := by
  cases n with
  | researcher =>
      cases h
      cases k with
      | plan => exact returns_discreet rfl ⟨⟨rfl, rfl, rfl⟩, rfl⟩
      | act => exact act_discreet
      | reflect => exact returns_discreet rfl ⟨⟨rfl, rfl, rfl⟩, rfl⟩
      | finalize => exact finalize_discreet env
  | coder =>
      cases h
      cases k with
      | setup => exact returns_discreet rfl ⟨⟨rfl, rfl, rfl⟩, rfl⟩
      | act => exact act_discreet
      | finalize => exact finalize_discreet env
  | memoryRecall | route | direct | memoryWrite => cases h

end Nodes

/-! ## The rounds of an agent -/

section Loop

variable {deps : Deps} {ν : Type} {G : AgentGraph ν} {a f : ν} {w : ν → ℕ} {m : Int}

/-- Where a run of an agent stands, with its counter; only `act` is interrupted. -/
def InLoop (G : AgentGraph ν) (a : ν) (m : Int) :
    Config ν AgentState (List PendingApproval) AgentError → Prop
  | .ready n s =>
      n = G.entry ∧ s.budget.iterations = 0 ∨
        n ≠ G.entry ∧ 0 ≤ s.budget.iterations ∧ s.budget.iterations ≤ m ∧
          (n = a → s.budget.iterations < m)
  | .paused n s _ => n = a ∧ 0 ≤ s.budget.iterations ∧ s.budget.iterations < m
  | .failed _ s _ => 0 ≤ s.budget.iterations ∧ s.budget.iterations ≤ m
  | .ended s => 0 ≤ s.budget.iterations ∧ s.budget.iterations ≤ m

/-- How many more steps an agent takes. -/
def roundsLeft (w : ν → ℕ) (m : Int) :
    Config ν AgentState (List PendingApproval) AgentError → ℕ
  | .ready n s => 3 * (m - s.budget.iterations).toNat + w n + 1
  | .paused n s _ => 3 * (m - s.budget.iterations).toNat + w n
  | .failed _ _ _ => 0
  | .ended _ => 0

/-- The update of a node that stands within its rounds. -/
theorem AgentLoop.round_complete (hloop : AgentLoop deps G a f w)
    (hshort : ∀ env s n, G.next a env s = some n → w n ≤ w a + 1) (hone : 1 ≤ m) {n : ν}
    {env : Env} {answer : Option Json} {s : AgentState} {u : Update}
    (hm : s.policy.budget.maxIterations = some m) (hround : InLoop G a m (.ready n s))
    (hu : (G.node n env answer s).outcome = .update u) :
    InLoop G a m (G.complete n env s u) ∧
      roundsLeft w m (G.complete n env s u) + 1 ≤ roundsLeft w m (.ready n s) ∧
      (n = a → roundsLeft w m (G.complete n env s u) + 2 ≤ roundsLeft w m (.ready n s)) := by
  obtain ⟨hpolicy, hiter, -⟩ := hloop.update_counters hu
  have hbelow : canContinue deps env (G.fold s u) = true →
      (G.fold s u).budget.iterations < m := fun hgo =>
    (BudgetEnforcer.below_limits_of_canContinue hgo).1 m (hpolicy ▸ hm)
  have hkeep : n ≠ a → (G.fold s u).budget.iterations = s.budget.iterations := by
    intro hn
    rw [if_neg fun h => hn ((hloop.name_act n).mp h)] at hiter
    omega
  unfold StateGraph.complete
  rcases hround with ⟨rfl, hzero⟩ | ⟨hentry, hnonneg, hle, hact⟩
  · obtain ⟨hnext, hweight⟩ := hloop.next_entry env (G.fold s u)
    have hsame := hkeep hloop.entry_ne_act
    simp only [hnext, InLoop, roundsLeft, hsame]
    refine ⟨.inr ⟨hloop.entry_ne_act.symm, by omega, by omega, fun _ => by omega⟩, by omega, ?_⟩
    exact fun h => absurd h hloop.entry_ne_act
  · by_cases hn : n = a
    · subst hn
      obtain ⟨n', hnext, hentry', -, hgo⟩ := hloop.next_act env (G.fold s u)
      have hlt := hact rfl
      have hweight := hshort env (G.fold s u) n' hnext
      rw [if_pos ((hloop.name_act n).mpr rfl)] at hiter
      simp only [hnext, InLoop, roundsLeft, hiter]
      refine ⟨.inr ⟨hentry', by omega, by omega, fun h => ?_⟩, by omega, fun _ => by omega⟩
      have hstill := hbelow (hgo h)
      omega
    · have hsame := hkeep hn
      by_cases hf : n = f
      · subst hf
        simp only [hloop.next_final, InLoop, roundsLeft, hsame]
        exact ⟨⟨hnonneg, hle⟩, by omega, fun h => absurd h hn⟩
      · obtain ⟨n', hnext, hentry', hweight, hgo⟩ :=
          hloop.next_other n env (G.fold s u) hentry hn hf
        simp only [hnext, InLoop, roundsLeft, hsame]
        refine ⟨.inr ⟨hentry', hnonneg, hle, fun h => ?_⟩, by omega, fun h => absurd h hn⟩
        have hstill := hbelow (hgo h)
        omega

/-- A step of an agent stays within its rounds and brings the run closer to its end. -/
theorem AgentLoop.round_step (hloop : AgentLoop deps G a f w)
    (hshort : ∀ env s n, G.next a env s = some n → w n ≤ w a + 1) (hone : 1 ≤ m)
    {c c' : Config ν AgentState (List PendingApproval) AgentError} {r : Request Env Json}
    {items : List StreamItem} (hm : c.state.policy.budget.maxIterations = some m)
    (hround : InLoop G a m c) (h : G.step c r = some (c', items)) :
    InLoop G a m c' ∧ roundsLeft w m c' < roundsLeft w m c := by
  have hact : ∀ (n : ν) (s : AgentState) (answer : Option Json), n ≠ a →
      ∃ u, (G.node n r.env answer s).outcome = .update u := by
    intro n s answer hn
    obtain ⟨-, u, hu, -⟩ := hloop.passive n r.env answer s hn
    exact ⟨u, hu⟩
  obtain ⟨n, hat, -, rfl, -⟩ := G.step_cases h
  cases c with
  | ended s => exact hat.elim
  | failed k s e => exact hat.elim
  | ready k s =>
      obtain rfl : k = n := hat
      cases hu : (G.node k r.env r.answer s).outcome with
      | update u =>
          obtain ⟨hround', hleft, -⟩ := hloop.round_complete hshort hone hm hround hu
          simp only [Config.state_ready, hu, StateGraph.land]
          exact ⟨hround', hleft⟩
      | interrupt payload =>
          have hk : k = a := by
            by_contra hk
            obtain ⟨u, hu'⟩ := hact k s r.answer hk
            rw [hu'] at hu
            cases hu
          simp only [Config.state_ready, hu, StateGraph.land, InLoop, roundsLeft]
          rcases hround with ⟨hentry, -⟩ | ⟨-, hnonneg, -, hlt⟩
          · exact absurd (hentry.symm.trans hk) hloop.entry_ne_act
          · exact ⟨⟨hk, hnonneg, hlt hk⟩, by omega⟩
      | error e =>
          simp only [Config.state_ready, hu, StateGraph.land, InLoop, roundsLeft]
          rcases hround with ⟨-, hzero⟩ | ⟨-, hnonneg, hle, -⟩
          · exact ⟨⟨by omega, by omega⟩, by omega⟩
          · exact ⟨⟨hnonneg, hle⟩, by omega⟩
  | paused k s payload =>
      obtain rfl : k = n := hat
      obtain ⟨rfl, hnonneg, hlt⟩ := hround
      have hready : InLoop G k m (.ready k s) :=
        .inr ⟨hloop.entry_ne_act.symm, hnonneg, by omega, fun _ => hlt⟩
      cases hu : (G.node k r.env r.answer s).outcome with
      | update u =>
          obtain ⟨hround', -, hleft⟩ := hloop.round_complete hshort hone hm hready hu
          have hless : roundsLeft w m (G.complete k r.env s u) + 2 ≤
              roundsLeft w m (.paused k s payload) + 1 := hleft rfl
          simp only [Config.state_paused, hu, StateGraph.land]
          refine ⟨hround', ?_⟩
          show roundsLeft w m (G.complete k r.env s u) < roundsLeft w m (.paused k s payload)
          omega
      | interrupt payload' =>
          -- an answered `act` does not ask again
          have hagain : (act deps r.env r.answer s).outcome = .interrupt payload' := by
            rw [← hloop.node_act]
            exact hu
          have hnone := (pass1_eq_pause (act_interrupt hagain)).2.1
          cases r with
          | exec env => cases h
          | resume value env => cases hnone
      | error e =>
          simp only [Config.state_paused, hu, StateGraph.land, InLoop, roundsLeft]
          refine ⟨⟨hnonneg, by omega⟩, ?_⟩
          have hpos : 0 < (m - s.budget.iterations).toNat := by omega
          omega

end Loop

/-- The steps from a node of the researcher to the next `act` or the end. -/
def ResearcherNode.toAct : ResearcherNode → ℕ
  | .plan => 1
  | .act => 0
  | .reflect => 1
  | .finalize => 0

def CoderNode.toAct : CoderNode → ℕ
  | .setup => 1
  | .act => 0
  | .finalize => 0

theorem researcher_rounds (deps : Deps) :
    AgentLoop deps (researcher deps) .act .finalize ResearcherNode.toAct :=
  { researcher_loop deps with
    next_entry := fun _ _ => ⟨rfl, Nat.one_pos⟩
    next_act := fun _ _ => ⟨.reflect, rfl, by simp [researcher], by decide, by simp⟩
    next_other := by
      intro n env s hentry hact hfinal
      obtain ⟨m, hnext, hne, -, hgo⟩ := (researcher_loop deps).next_other n env s hentry hact hfinal
      refine ⟨m, hnext, hne, ?_, hgo⟩
      cases n with
      | plan => exact absurd rfl hentry
      | act => exact absurd rfl hact
      | finalize => exact absurd rfl hfinal
      | reflect =>
          obtain rfl : researcherLoopOrFinish deps env s = m := Option.some.inj hnext
          unfold researcherLoopOrFinish
          split
          · decide
          · split <;> decide }

theorem coder_rounds (deps : Deps) :
    AgentLoop deps (coder deps) .act .finalize CoderNode.toAct :=
  { coder_loop deps with
    next_entry := fun _ _ => ⟨rfl, Nat.one_pos⟩
    next_act := by
      intro env s
      obtain ⟨m, hnext, hne, -, hgo⟩ := (coder_loop deps).next_act env s
      refine ⟨m, hnext, hne, ?_, hgo⟩
      cases m <;> decide
    next_other := by
      intro n env s hentry hact hfinal
      cases n with
      | setup => exact absurd rfl hentry
      | act => exact absurd rfl hact
      | finalize => exact absurd rfl hfinal }

/-! ## The turn -/

/-- Where a turn stands. -/
def InTurn (deps : Deps) (m : Int) : SupervisorConfig → Prop
  | .top (.ready .memoryRecall s) => s.budget.iterations = 0
  | .top (.ready .route s) => s.budget.iterations = 0
  | .top (.ready .direct s) => s.budget.iterations = 0
  | .top (.ready .memoryWrite s) => s.budget.iterations ≤ m
  | .top (.ended s) => s.budget.iterations ≤ m ∧ s.finished = true
  | .top _ => False
  | .within .researcher _ c => InLoop (researcher deps) .act m c ∧ ∀ t, c ≠ .ended t
  | .within .coder _ c => InLoop (coder deps) .act m c ∧ ∀ t, c ≠ .ended t
  | .within _ _ _ => False

/-- How many more steps a turn takes. -/
def turnLeft (m : Int) : SupervisorConfig → ℕ
  | .top (.ready .memoryRecall _) => 3 * m.toNat + 5
  | .top (.ready .route _) => 3 * m.toNat + 4
  | .top (.ready .direct _) => 2
  | .top (.ready .memoryWrite _) => 1
  | .within .researcher _ c => roundsLeft ResearcherNode.toAct m c + 1
  | .within .coder _ c => roundsLeft CoderNode.toAct m c + 1
  | _ => 0

/-- What is written of a turn by now. -/
def writtenBy : SupervisorConfig → List (String × String × String)
  | .top (.ended s) => remembered s
  | _ => []

/-- The session, the query and the policy are those that the turn was seeded with. -/
def SeededWith (seed s : AgentState) : Prop :=
  s.sessionId = seed.sessionId ∧ s.query = seed.query ∧ s.policy = seed.policy

section Turn

variable {deps : Deps} {m : Int} {seed : AgentState}

theorem SeededWith.fold {s : AgentState} {u : Update} (h : SeededWith seed s)
    (hu : u.KeepsSeed) : SeededWith seed (s.fold u) := by
  obtain ⟨hsession, hquery, hpolicy⟩ := hu
  unfold SeededWith AgentState.fold at *
  rw [hsession, hquery, hpolicy]
  exact h

theorem memoryWrite_update {env : Env} {s : AgentState} {u : Update}
    (hu : (memoryWrite env s).outcome = .update u) :
    u.KeepsSeed ∧ u.memoryContext = none := by
  cases hu
  exact ⟨⟨rfl, rfl, rfl⟩, rfl⟩

/-- The seed stays in force at every step. -/
theorem seeded_step (C : SupervisorConfig) (r : Request Env Json) (C' : SupervisorConfig)
    (items : List StreamItem) (hC : C.Holds (SeededWith seed))
    (h : (supervisor deps).step C r = some (C', items)) : C'.Holds (SeededWith seed) := by
  refine (supervisor deps).step_holds ?_ ?_ ?_ C r C' items hC h
  · intro n g env answer s u hg hs hu
    apply hs.fold
    cases n with
    | memoryRecall =>
        cases hg
        cases hu
        exact ⟨rfl, rfl, rfl⟩
    | route =>
        cases hg
        exact (route_discreet.update u hu).1
    | direct =>
        cases hg
        exact (direct_discreet.update u hu).1
    | memoryWrite =>
        cases hg
        exact (memoryWrite_update hu).1
    | researcher | coder => cases hg
  · intro n G k env answer s u hG hs hu
    rw [(agent_node hG).1]
    exact hs.fold ((agent_discreet hG k env answer s).update u hu).1
  · exact fun s t _ ht => ht

/-- A step inside an agent stays there or hands its final state to `memory_write`. -/
theorem leave_cases {n : SupervisorNode} {G : AgentGraph n.Inner}
    (hG : (supervisor deps).task n = .graph G) (env : Env) (s : AgentState)
    (c : Config n.Inner AgentState (List PendingApproval) AgentError) (items : List StreamItem) :
    (∃ t, c = .ended t ∧ ((supervisor deps).leave n env s (c, items)).1 =
        .top (.ready .memoryWrite (s.fold t.whole))) ∨
      (∀ t, c ≠ .ended t) ∧
        ((supervisor deps).leave n env s (c, items)).1 = .within n s c := by
  cases c with
  | ended t =>
      refine .inl ⟨t, rfl, ?_⟩
      simp only [Nested.leave, Nested.complete, (agent_node hG).2]
      rfl
  | ready k t => exact .inr ⟨by simp, rfl⟩
  | paused k t payload => exact .inr ⟨by simp, rfl⟩
  | failed k t e => exact .inr ⟨by simp, rfl⟩

/-- Where the parent goes on after its route decision. -/
theorem route_lands (deps : Deps) (env : Env) (s : AgentState) :
    ∃ u, (route deps env s).outcome = .update u ∧ (s.fold u).budget = s.budget ∧
      (supervisor deps).land .route env s (route deps env s).outcome =
        (supervisor deps).settle (.ready (dispatch (s.fold u)).node (s.fold u)) := by
  obtain ⟨-, u, hu, -, hbudget⟩ := route_passive deps env s
  refine ⟨u, hu, ?_, ?_⟩
  · rw [AgentState.fold_budget, hbudget]
    rfl
  · rw [hu]
    rfl

/-- A step writes to memory only what its place leaves written. -/
theorem step_writes {C C' : SupervisorConfig} {r : Request Env Json} {items : List StreamItem}
    (h : (supervisor deps).step C r = some (C', items)) :
    memoryWrites (emissions items) = writtenBy C' := by
  cases C with
  | top c =>
      obtain ⟨n, f, -, hf, -, rfl, rfl⟩ := (supervisor deps).step_top h
      rw [emissions_items]
      cases n with
      | memoryRecall =>
          cases hf
          rfl
      | route =>
          cases hf
          obtain ⟨u, -, -, hland⟩ := route_lands deps r.env c.state
          calc memoryWrites (route deps r.env c.state).out
              = [] := route_discreet.writes
            _ = writtenBy ((supervisor deps).land .route r.env c.state
                  (route deps r.env c.state).outcome) := by
                rw [hland]
                cases dispatch (c.state.fold u) <;> rfl
      | direct =>
          cases hf
          exact direct_discreet.writes
      | memoryWrite =>
          cases hf
          exact memoryWrite_writes r.env c.state
      | researcher | coder => cases hf
  | within n s c =>
      obtain ⟨G, c', inner, hG, hstep, hleave⟩ := (supervisor deps).step_within h
      obtain ⟨k, -, -, -, rfl⟩ := G.step_cases hstep
      have hitems := (supervisor deps).leave_emissions n r.env s c'
        ((G.node k r.env r.answer c.state).items (G.name k))
      rw [hleave, emissions_items] at hitems
      rw [hitems, (agent_discreet hG k r.env r.answer c.state).writes]
      have hC' : C' = ((supervisor deps).leave n r.env s (c', _)).1 :=
        congrArg Prod.fst hleave.symm
      rcases leave_cases hG r.env s c' _ with ⟨t, -, hleft⟩ | ⟨-, hstay⟩
      · rw [hC', hleft]
        rfl
      · rw [hC', hstay]
        rfl

/-- A configuration that is stepped from has written nothing yet. -/
theorem writtenBy_of_step {C C' : SupervisorConfig} {r : Request Env Json}
    {items : List StreamItem} (h : (supervisor deps).step C r = some (C', items)) :
    writtenBy C = [] := by
  cases C with
  | top c =>
      cases c with
      | ended s => cases h
      | ready n s => rfl
      | paused n s payload => rfl
      | failed n s e => rfl
  | within n s c => rfl

/-- What a run has written is what the place it has come to says. -/
theorem run_writes {C C' : SupervisorConfig} {requests : List (Request Env Json)}
    {items : List StreamItem}
    (hrun : (supervisor deps).system.run C requests = some (C', items))
    (hnone : writtenBy C = []) : memoryWrites (emissions items) = writtenBy C' := by
  let P : SupervisorConfig → List StreamItem → Prop := fun C items =>
    memoryWrites (emissions items) = writtenBy C
  have hlast : P C' ([] ++ items) := by
    apply System.run_induction _ (show P C [] from hnone.symm) hrun
    intro C before r C' items _ hbefore h
    show memoryWrites (emissions (before ++ items)) = writtenBy C'
    rw [emissions_append, memoryWrites_append, hbefore, writtenBy_of_step h, List.nil_append,
      step_writes h]
  exact hlast

/-- One step of a turn stays in place and comes closer to its end. -/
structure Advances (deps : Deps) (m : Int) (C C' : SupervisorConfig) : Prop where
  place : InTurn deps m C'
  closer : turnLeft m C' < turnLeft m C

theorem advances_top {s : AgentState} {n : SupervisorNode} {env : Env} {C' : SupervisorConfig}
    {items : List StreamItem} (hone : 1 ≤ m) (hC : InTurn deps m (.top (.ready n s)))
    (h : (supervisor deps).step (.top (.ready n s)) (.exec env) = some (C', items)) :
    Advances deps m (.top (.ready n s)) C' := by
  cases n with
  | researcher => exact hC.elim
  | coder => exact hC.elim
  | memoryRecall =>
      cases h
      exact ⟨hC, Nat.lt_succ_self _⟩
  | memoryWrite =>
      cases h
      exact ⟨⟨hC, rfl⟩, Nat.one_pos⟩
  | direct =>
      cases h
      have hzero : s.budget.iterations = 0 := hC
      refine ⟨?_, Nat.lt_succ_self 1⟩
      show s.budget.iterations + 1 ≤ m
      omega
  | route =>
      have hexec : (supervisor deps).exec .route env none s = some (C', items) := h
      obtain ⟨f, hf, rfl, -⟩ := (supervisor deps).exec_cases hexec
      cases hf
      obtain ⟨u, -, hbudget, hland⟩ := route_lands deps env s
      have hzero : (s.fold u).budget.iterations = 0 := by
        rw [hbudget]
        exact hC
      show Advances deps m _ ((supervisor deps).land .route env s (route deps env s).outcome)
      rw [hland]
      cases dispatch (s.fold u) with
      | direct =>
          refine ⟨hzero, ?_⟩
          show 2 < 3 * m.toNat + 4
          omega
      | researcher =>
          refine ⟨⟨.inl ⟨rfl, hzero⟩, fun t h => by cases h⟩, ?_⟩
          show 3 * (m - (s.fold u).budget.iterations).toNat + 1 + 1 + 1 < 3 * m.toNat + 4
          omega
      | coder =>
          refine ⟨⟨.inl ⟨rfl, hzero⟩, fun t h => by cases h⟩, ?_⟩
          show 3 * (m - (s.fold u).budget.iterations).toNat + 1 + 1 + 1 < 3 * m.toNat + 4
          omega

/-- A step inside an agent, in terms of the agent's own rounds. -/
theorem advances_within {n : SupervisorNode} {G : AgentGraph n.Inner} {a f : n.Inner}
    {w : n.Inner → ℕ} {s : AgentState}
    {c : Config n.Inner AgentState (List PendingApproval) AgentError} {C' : SupervisorConfig}
    {r : Request Env Json} {items : List StreamItem} (hone : 1 ≤ m)
    (hG : (supervisor deps).task n = .graph G) (hloop : AgentLoop deps G a f w)
    (hshort : ∀ env s k, G.next a env s = some k → w k ≤ w a + 1)
    (hplace : ∀ c, InTurn deps m (.within n s c) ↔ InLoop G a m c ∧ ∀ t, c ≠ .ended t)
    (hleft : ∀ c, turnLeft m (.within n s c) = roundsLeft w m c + 1)
    (hm : c.state.policy.budget.maxIterations = some m) (hC : InTurn deps m (.within n s c))
    (h : (supervisor deps).step (.within n s c) r = some (C', items)) :
    Advances deps m (.within n s c) C' := by
  obtain ⟨G', c', inner, hG', hstep, hleave⟩ := (supervisor deps).step_within h
  obtain rfl : G = G' := by
    rw [hG] at hG'
    exact Task.graph.inj hG'
  obtain ⟨hround, hless⟩ := hloop.round_step hshort hone hm ((hplace c).mp hC).1 hstep
  have hC' : C' = ((supervisor deps).leave n r.env s (c', inner)).1 :=
    congrArg Prod.fst hleave.symm
  rcases leave_cases hG r.env s c' inner with ⟨t, rfl, hleft'⟩ | ⟨hnot, hstay⟩
  · rw [hC', hleft']
    refine ⟨hround.2, ?_⟩
    rw [hleft]
    show 1 < roundsLeft w m c + 1
    omega
  · rw [hC', hstay]
    refine ⟨(hplace c').mpr ⟨hround, hnot⟩, ?_⟩
    rw [hleft, hleft]
    omega

theorem turn_step {C C' : SupervisorConfig} {r : Request Env Json} {items : List StreamItem}
    (hm : seed.policy.budget.maxIterations = some m) (hC : InTurn deps m C)
    (hseed : C.Holds (SeededWith seed))
    (h : (supervisor deps).step C r = some (C', items)) : Advances deps m C C' := by
  have hone := one_le_of_maxIterations hm
  cases C with
  | top c =>
      cases c with
      | ready n s =>
          cases r with
          | exec env => exact advances_top hone hC h
          | resume value env => cases h
      | paused n s payload => exact hC.elim
      | failed n s e => exact hC.elim
      | ended s => cases h
  | within n s c =>
      have hm : c.state.policy.budget.maxIterations = some m := by rw [hseed.2.2.2, hm]
      cases n with
      | researcher =>
          have hshort : ∀ env t k, (researcher deps).next .act env t = some k →
              k.toAct ≤ ResearcherNode.act.toAct + 1 := by
            intro _ _ k _
            cases k <;> decide
          exact advances_within hone rfl (researcher_rounds deps) hshort (fun _ => Iff.rfl)
            (fun _ => rfl) hm hC h
      | coder =>
          have hshort : ∀ env t k, (coder deps).next .act env t = some k →
              k.toAct ≤ CoderNode.act.toAct + 1 := by
            intro _ _ k _
            cases k <;> decide
          exact advances_within hone rfl (coder_rounds deps) hshort (fun _ => Iff.rfl)
            (fun _ => rfl) hm hC h
      | memoryRecall => exact hC.elim
      | route => exact hC.elim
      | direct => exact hC.elim
      | memoryWrite => exact hC.elim

/-- Inside an agent, a run goes on by a request or waits for an answer, until a node
raises. -/
theorem goes_on_within {n : SupervisorNode} {G : AgentGraph n.Inner} {s : AgentState}
    {c : Config n.Inner AgentState (List PendingApproval) AgentError}
    (hG : (supervisor deps).task n = .graph G) (hc : ∀ t, c ≠ .ended t) :
    c.raised = true ∨
      (c.pending.isSome ∧
        ∀ value env, ((supervisor deps).step (.within n s c) (.resume value env)).isSome) ∨
      ∀ env, ((supervisor deps).step (.within n s c) (.exec env)).isSome := by
  cases c with
  | failed k t e => exact .inl rfl
  | paused k t payload => exact .inr (.inl ⟨rfl, fun value env => by simp [Nested.step, hG,
      StateGraph.step]⟩)
  | ready k t => exact .inr (.inr fun env => by simp [Nested.step, hG, StateGraph.step])
  | ended t => exact absurd rfl (hc t)

/-- A turn that has neither ended nor raised takes another request. -/
theorem turn_goes_on {C : SupervisorConfig} (hC : InTurn deps m C) :
    (∃ t, C = .top (.ended t) ∧ t.finished = true) ∨ C.raised = true ∨
      (C.pending.isSome ∧
        ∀ value env, ((supervisor deps).step C (.resume value env)).isSome) ∨
      ∀ env, ((supervisor deps).step C (.exec env)).isSome := by
  cases C with
  | top c =>
      cases c with
      | ended t => exact .inl ⟨t, rfl, hC.2⟩
      | paused n s payload => exact hC.elim
      | failed n s e => exact hC.elim
      | ready n s =>
          refine .inr (.inr (.inr fun env => ?_))
          cases n with
          | researcher => exact hC.elim
          | coder => exact hC.elim
          | memoryRecall | route | direct | memoryWrite => rfl
  | within n s c =>
      apply Or.inr
      cases n with
      | researcher => exact goes_on_within rfl hC.2
      | coder => exact goes_on_within rfl hC.2
      | memoryRecall | route | direct | memoryWrite => exact hC.elim

end Turn

/-- A turn under a limit of `m` iterations, from a fresh budget, takes at most `3 m + 5`
requests, whatever the model and the tools answer and however often it is interrupted.
Until it ends nothing is written to memory, and once it has ended exactly its query and
its answer are, under the session it was seeded with.  Before that it takes any request
of its kind, or a node has raised. -/
theorem turn_ends_once (deps : Deps) (s : AgentState) (m : Int)
    (hm : s.policy.budget.maxIterations = some m) (hfresh : s.budget.Fresh)
    (requests : List (Request Env Json)) (C : SupervisorConfig) (items : List StreamItem)
    (hrun : (supervisor deps).system.run ((supervisor deps).start s) requests =
      some (C, items)) :
    requests.length ≤ 3 * m.toNat + 5 ∧
      memoryWrites (emissions items) = writtenBy C ∧
      (C.state.sessionId = s.sessionId ∧ C.state.query = s.query) ∧
      ((∃ t, C = .top (.ended t) ∧ t.finished = true) ∨ C.raised = true ∨
        (C.pending.isSome ∧
          ∀ value env, ((supervisor deps).step C (.resume value env)).isSome) ∨
        ∀ env, ((supervisor deps).step C (.exec env)).isSome) := by
  have hstart : InTurn deps m ((supervisor deps).start s) ∧
      ((supervisor deps).start s).Holds (SeededWith s) := ⟨hfresh.2.2, rfl, rfl, rfl⟩
  have hstep : ∀ C r C' items, (InTurn deps m C ∧ C.Holds (SeededWith s)) →
      (supervisor deps).system.step C r = some (C', items) →
      (InTurn deps m C' ∧ C'.Holds (SeededWith s)) ∧ turnLeft m C' < turnLeft m C := by
    intro C r C' items ⟨hC, hseed⟩ h
    have hadvances := turn_step hm hC hseed h
    exact ⟨⟨hadvances.place, seeded_step C r C' items hseed h⟩, hadvances.closer⟩
  have hlength := System.length_run_le (turnLeft m) hstep hstart hrun
  obtain ⟨hC, hseed⟩ := System.invariant_run
    (fun C r C' items hC h => (hstep C r C' items hC h).1) hstart hrun
  refine ⟨?_, ?_, ⟨hseed.state.1, hseed.state.2.1⟩, turn_goes_on hC⟩
  · have hfull : turnLeft m ((supervisor deps).start s) = 3 * m.toNat + 5 := rfl
    omega
  · exact run_writes hrun rfl

/-- The coder asks for one tool, is denied it, and answers. -/
theorem turn_ends_once_denied :
    let policy : Policy :=
      { budget := { maxIterations := some 2 },
        approvalRules := { requireApprovalOnSideEffects := true } }
    let s := stubState "q" policy
    let asks : LLMResponse :=
      { content := "", toolCalls := [{ name := "code_exec", arguments := .obj [] }] }
    let quiet := stubEnv { content := "42" } .coder
    let requests : List (Request Env Json) :=
      [.exec quiet, .exec quiet, .exec quiet, .exec (stubEnv asks),
        .resume (.bool false) (stubEnv asks), .exec quiet, .exec quiet, .exec quiet]
    ∃ C items, (supervisor stubDeps).system.run ((supervisor stubDeps).start s) requests =
        some (C, items) ∧
      memoryWrites (emissions items) =
        [(s.sessionId, "user", "q"), (s.sessionId, "assistant", "42")] := by
  intro policy s asks quiet requests
  have h := turn_ends_once stubDeps s 2 rfl ⟨rfl, rfl, rfl⟩ requests _ _ rfl
  exact ⟨_, _, rfl, h.2.1⟩

end Lour.Agents
