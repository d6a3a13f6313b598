import Lour.Agents.Budget
import Lour.Agents.Nodes
/-!
# The researcher, the coder and the supervisor

The two agents are graphs of nodes over `AgentState`, and the supervisor has
them among its own nodes.  `AgentLoop` collects what the two have in common.
-/

namespace Lour.Agents

open Lour.Lib Lour.Lib.Python

abbrev AgentGraph (ν : Type) :=
  StateGraph ν AgentState Update Env Json (List PendingApproval) AgentError Emission

abbrev StreamItem := Item Update (List PendingApproval) AgentError Emission

def canContinue (deps : Deps) (env : Env) (state : AgentState) : Bool :=
  (BudgetEnforcer.check deps.loopWindow env.now state).canContinue

/-! ## The researcher: `plan → act ↻ reflect → finish` -/

inductive ResearcherNode where
  | plan
  | act
  | reflect
  | finalize
  deriving DecidableEq

/-- The enforcer wins over the reflection verdict. -/
def researcherLoopOrFinish (deps : Deps) (env : Env) (state : AgentState) : ResearcherNode :=
  if !canContinue deps env state then .finalize
  else if (state.reflection.map Reflection.isComplete).getD false then .finalize
  else .act

def researcher (deps : Deps) : AgentGraph ResearcherNode where
  name
    | .plan => "plan"
    | .act => "act"
    | .reflect => "reflect"
    | .finalize => "finalize"
  entry := .plan
  fold := AgentState.fold
  node
    | .plan, env, _, state => plan deps env state
    | .act, env, answer, state => act deps env answer state
    | .reflect, env, _, state => reflect deps env state
    | .finalize, env, _, state => finalize env state
  next
    | .plan, _, _ => some .act
    | .act, _, _ => some .reflect
    | .reflect, env, state => some (researcherLoopOrFinish deps env state)
    | .finalize, _, _ => none

/-! ## The coder: `setup → act ↻ finish` -/

inductive CoderNode where
  | setup
  | act
  | finalize
  deriving DecidableEq

/-- Tool results were appended after a turn that asked for tools, so the model
gets to read them; a turn without a tool call was the answer. -/
def coderLoopOrFinish (deps : Deps) (env : Env) (state : AgentState) : CoderNode :=
  if !canContinue deps env state then .finalize
  else
    match lastAssistantMessage state.messages with
    | some (_, toolCalls) => if toolCalls.isEmpty then .finalize else .act
    | none => .finalize

def coder (deps : Deps) : AgentGraph CoderNode where
  name
    | .setup => "setup"
    | .act => "act"
    | .finalize => "finalize"
  entry := .setup
  fold := AgentState.fold
  node
    | .setup, env, _, state => setup deps env state
    | .act, env, answer, state => act deps env answer state
    | .finalize, env, _, state => finalize env state
  next
    | .setup, _, _ => some .act
    | .act, env, state => some (coderLoopOrFinish deps env state)
    | .finalize, _, _ => none

/-! ## The supervisor -/

inductive SupervisorNode where
  | memoryRecall
  | route
  | researcher
  | coder
  | direct
  | memoryWrite
  deriving DecidableEq

/-- The nodes of the graph that a supervisor node is. -/
def SupervisorNode.Inner : SupervisorNode → Type
  | .researcher => ResearcherNode
  | .coder => CoderNode
  | _ => Empty

def AgentName.node : AgentName → SupervisorNode
  | .researcher => .researcher
  | .coder => .coder
  | .direct => .direct

def dispatch (state : AgentState) : AgentName :=
  match state.route with
  | some route => route.agent
  | none => .direct

def supervisor (deps : Deps) :
    Nested SupervisorNode SupervisorNode.Inner AgentState Update Env Json
      (List PendingApproval) AgentError Emission where
  name
    | .memoryRecall => "memory_recall"
    | .route => "route"
    | .researcher => "researcher"
    | .coder => "coder"
    | .direct => "direct"
    | .memoryWrite => "memory_write"
  entry := .memoryRecall
  fold := AgentState.fold
  whole := AgentState.whole
  task
    | .memoryRecall => .plain fun env _ state => memoryRecall env state
    | .route => .plain fun env _ state => route deps env state
    | .researcher => .graph (researcher deps)
    | .coder => .graph (coder deps)
    | .direct => .plain fun env _ state => direct env state
    | .memoryWrite => .plain fun env _ state => memoryWrite env state
  next
    | .memoryRecall, _, _ => some .route
    | .route, _, state => some (dispatch state).node
    | .researcher, _, _ | .coder, _, _ | .direct, _, _ => some .memoryWrite
    | .memoryWrite, _, _ => none

abbrev SupervisorConfig :=
  Nested.Config SupervisorNode SupervisorNode.Inner AgentState (List PendingApproval) AgentError

/-! ## What the two agents have in common -/

/-- A graph that enters through one node, loops through `act` as long as the
enforcer lets it, and leaves through `finalize`.  `weight` goes down along every
edge, and an execution of `act` may raise it by less than three. -/
structure AgentLoop (deps : Deps) {ν : Type} (G : AgentGraph ν) (actNode finalNode : ν)
    (weight : ν → ℕ) : Prop where
  fold_eq : G.fold = AgentState.fold
  name_act : ∀ n, G.name n = "act" ↔ n = actNode
  name_final : ∀ n, G.name n = "finalize" ↔ n = finalNode
  node_act : ∀ env answer s, G.node actNode env answer s = act deps env answer s
  node_final : ∀ env answer s, G.node finalNode env answer s = finalize env s
  passive : ∀ n env answer s, n ≠ actNode → Passive (G.node n env answer s)
  entry_ne_act : G.entry ≠ actNode
  entry_ne_final : G.entry ≠ finalNode
  final_ne_act : finalNode ≠ actNode
  next_entry : ∀ env s, G.next G.entry env s = some actNode ∧ weight actNode < weight G.entry
  next_final : ∀ env s, G.next finalNode env s = none
  next_act : ∀ env s, ∃ m, G.next actNode env s = some m ∧ m ≠ G.entry ∧
    weight m < weight actNode + 3 ∧ (m = actNode → canContinue deps env s = true)
  next_other : ∀ n env s, n ≠ G.entry → n ≠ actNode → n ≠ finalNode →
    ∃ m, G.next n env s = some m ∧ m ≠ G.entry ∧
      weight m < weight n ∧ (m = actNode → canContinue deps env s = true)

def ResearcherNode.weight : ResearcherNode → ℕ
  | .plan => 2
  | .act => 1
  | .reflect => 2
  | .finalize => 0

def CoderNode.weight : CoderNode → ℕ
  | .setup => 2
  | .act => 1
  | .finalize => 0

theorem researcherLoopOrFinish_act {deps : Deps} {env : Env} {s : AgentState}
    (h : researcherLoopOrFinish deps env s = .act) : canContinue deps env s = true := by
  unfold researcherLoopOrFinish at h
  split at h
  next => cases h
  next hgo => simpa using hgo

theorem coderLoopOrFinish_act {deps : Deps} {env : Env} {s : AgentState}
    (h : coderLoopOrFinish deps env s = .act) : canContinue deps env s = true := by
  unfold coderLoopOrFinish at h
  split at h
  next => cases h
  next hgo => simpa using hgo

theorem researcher_loop (deps : Deps) :
    AgentLoop deps (researcher deps) .act .finalize ResearcherNode.weight where
  fold_eq := rfl
  name_act n := by cases n <;> simp [researcher]
  name_final n := by cases n <;> simp [researcher]
  node_act _ _ _ := rfl
  node_final _ _ _ := rfl
  passive n env answer s hn := by
    cases n with
    | plan => exact plan_passive deps env s
    | act => exact absurd rfl hn
    | reflect => exact reflect_passive deps env s
    | finalize => exact finalize_passive env s
  entry_ne_act := by simp [researcher]
  entry_ne_final := by simp [researcher]
  final_ne_act := by simp
  next_entry _ _ := ⟨rfl, Nat.lt_succ_self 1⟩
  next_final _ _ := rfl
  next_act _ _ := ⟨.reflect, rfl, by simp [researcher], by decide, by simp⟩
  next_other n env s hentry hact hfinal := by
    cases n with
    | plan => exact absurd rfl hentry
    | act => exact absurd rfl hact
    | finalize => exact absurd rfl hfinal
    | reflect =>
        refine ⟨_, rfl, ?_, ?_, researcherLoopOrFinish_act⟩ <;>
          unfold researcherLoopOrFinish <;> split <;> (try split) <;>
          simp [researcher, ResearcherNode.weight]

theorem coder_loop (deps : Deps) :
    AgentLoop deps (coder deps) .act .finalize CoderNode.weight where
  fold_eq := rfl
  name_act n := by cases n <;> simp [coder]
  name_final n := by cases n <;> simp [coder]
  node_act _ _ _ := rfl
  node_final _ _ _ := rfl
  passive n env answer s hn := by
    cases n with
    | setup => exact setup_passive deps env s
    | act => exact absurd rfl hn
    | finalize => exact finalize_passive env s
  entry_ne_act := by simp [coder]
  entry_ne_final := by simp [coder]
  final_ne_act := by simp
  next_entry _ _ := ⟨rfl, Nat.lt_succ_self 1⟩
  next_final _ _ := rfl
  next_act env s := by
    refine ⟨_, rfl, ?_, ?_, coderLoopOrFinish_act⟩
    · cases h : coderLoopOrFinish deps env s with
      | setup =>
          unfold coderLoopOrFinish at h
          split at h <;> (try split at h) <;> (try split at h) <;> cases h
      | act => simp [coder]
      | finalize => simp [coder]
    · cases coderLoopOrFinish deps env s <;> decide
  next_other n env s hentry hact hfinal := by
    cases n with
    | setup => exact absurd rfl hentry
    | act => exact absurd rfl hact
    | finalize => exact absurd rfl hfinal

end Lour.Agents
