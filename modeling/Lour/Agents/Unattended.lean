import Lour.Agents.Enforcement
import Lour.Lib.Detours
/-!
# A run whose approvals are all granted

An interrupted `act` is executed again on resume.  Approving what it asks for
gives what it would have done without approval rules: a run of the supervisor
whose every resume approves does, apart from its interrupted executions, what the
same run does under the policy that asks about nothing.
-/

namespace Lour.Core

/-- The policy without its approval rules. -/
def Policy.unattended (self : Policy) : Policy := { self with approvalRules := {} }

end Lour.Core

namespace Lour.Agents

open Lour.Core Lour.Lib Lour.Lib.Python Lour.Tools

def AgentState.unattended (self : AgentState) : AgentState :=
  { self with policy := self.policy.unattended }

def Update.unattended (u : Update) : Update := { u with policy := u.policy.map Policy.unattended }

/-- The effects of a run: the tools it runs and the memory it writes. -/
def Emission.isEffect : Emission → Bool
  | .ran _ => true
  | .wrote _ _ _ => true
  | .custom _ => false
  | .chat _ => false

namespace AgentState

variable (s t : AgentState)

@[simp] theorem unattended_policy : s.unattended.policy = s.policy.unattended := rfl

/-- An update that leaves the policy alone is folded into either state alike. -/
theorem fold_unattended {u : Update} (h : u.policy = none) :
    s.unattended.fold u = (s.fold u).unattended := by
  simp [fold, unattended, h]

theorem fold_whole_unattended :
    s.unattended.fold t.unattended.whole = (s.fold t.whole).unattended := rfl

end AgentState

/-! ## The gate and the two passes -/

section Passes

variable {deps : Deps} {policy : Policy}

@[simp] theorem check_unattended_requiresApproval (gate : ToolGate) (name : String) :
    (gate.check name policy.unattended).requiresApproval = false := by
  unfold ToolGate.check
  split
  · rfl
  · split
    · rfl
    · simp [Policy.unattended]

/-- Approval rules decide neither whether a call is allowed nor why not. -/
theorem check_unattended (gate : ToolGate) (policy : Policy) (name : String) :
    (gate.check name policy.unattended).allowed = (gate.check name policy).allowed ∧
      (gate.check name policy.unattended).reason = (gate.check name policy).reason := by
  have hsame : policy.unattended.isToolAllowed name = policy.isToolAllowed name := rfl
  unfold ToolGate.check
  rw [hsame]
  split
  · exact ⟨rfl, rfl⟩
  · split <;> exact ⟨rfl, rfl⟩

theorem needsApproval_unattended (calls : List ToolCall) :
    needsApproval deps policy.unattended calls = [] := by
  rw [List.eq_nil_iff_forall_not_mem]
  intro tc htc
  have hasks := (mem_needsApproval.mp htc).2
  rw [check_unattended_requiresApproval] at hasks
  exact Bool.false_ne_true hasks

theorem ruling_unattended (name : String) :
    ruling deps policy.unattended true name = ruling deps policy true name := by
  obtain ⟨hallowed, hreason⟩ := check_unattended deps.toolGate policy name
  unfold ruling
  simp only [hallowed, hreason, Bool.not_true, Bool.and_false, Bool.false_eq_true, if_false]

theorem pass2_unattended (env : Env) (calls : List ToolCall) :
    pass2 deps policy.unattended env true calls = pass2 deps policy env true calls := by
  have hcall : actCall deps policy.unattended env true = actCall deps policy env true := by
    funext acc tc
    unfold actCall
    simp only [ruling_unattended]
  rw [pass2, hcall, pass2]

/-- Pass 2 begins with the approval given, where every answer gives it. -/
theorem approved_of_proceed {answer : Option Json} {calls : List ToolCall} {approved : Bool}
    (hanswer : ∀ v ∈ answer, isApproved v = true)
    (h : pass1 deps policy answer calls = .proceed approved) : approved = true := by
  rcases pass1_eq_proceed h with ⟨-, happroved⟩ | ⟨-, -, decision, hdecision, happroved⟩
  · exact happroved
  · rw [happroved]
    exact hanswer decision hdecision

end Passes

/-! ## Every node follows -/

section Nodes

variable (deps : Deps)

abbrev FollowsUnattended (f : Env → Option Json → AgentState → NodeExecution) : Prop :=
  Follows f AgentState.fold AgentState.unattended (fun v => isApproved v = true)
    Emission.isEffect

theorem act_update_unattended {env : Env} {answer : Option Json} {s : AgentState} {u : Update}
    (hanswer : ∀ v ∈ answer, isApproved v = true)
    (h : (act deps env answer s).outcome = .update u) :
    act deps env none s.unattended = act deps env answer s := by
  have hrequest : actRequest deps s.unattended = actRequest deps s := rfl
  unfold act at h ⊢
  dsimp only at h ⊢
  rw [hrequest]
  split
  next hnone => rfl
  next hsome =>
    rw [if_neg hsome] at h
    rw [AgentState.unattended_policy, pass1_of_none_flagged (needsApproval_unattended _)]
    split at h
    next => cases h
    next => cases h
    next approved hpass =>
      have hyes : approved = true := approved_of_proceed hanswer hpass
      rw [hyes, pass2_unattended]
      rfl

theorem act_follows : FollowsUnattended (act deps) where
  interrupt env answer s pending h := by
    have hpass := act_interrupt h
    have hout : (act deps env answer s).out =
        [.custom (.node "act"), .chat (env.chat (actRequest deps s))] := by
      unfold act at h ⊢
      dsimp only at h ⊢
      split at h
      next => cases h
      next hsome =>
        rw [if_neg hsome]
        have hpass' : pass1 deps s.policy answer
            (env.chat (actRequest deps s)).toolCalls = .pause pending := hpass
        rw [hpass']
    rw [hout]
    intro o ho
    rcases List.mem_pair.mp ho with rfl | rfl <;> rfl
  update env answer s u hanswer h :=
    ⟨act_update_unattended deps hanswer h, s.fold_unattended (act_update h).1⟩

/-- A node that returns, asks nobody and does not look at the policy. -/
theorem follows_of_blind {f : Env → AgentState → NodeExecution}
    (hblind : ∀ env s, f env s.unattended = f env s)
    (hreturns : ∀ env s, ∃ u, (f env s).outcome = .update u ∧ u.policy = none) :
    FollowsUnattended fun env _ s => f env s where
  interrupt env _ s payload h := by
    obtain ⟨u, hu, -⟩ := hreturns env s
    rw [hu] at h
    cases h
  update env _ s u _ h := by
    obtain ⟨v, hv, hpolicy⟩ := hreturns env s
    rw [hv] at h
    cases h
    exact ⟨hblind env s, s.fold_unattended hpolicy⟩

theorem follows_of_passive {f : Env → AgentState → NodeExecution}
    (hblind : ∀ env s, f env s.unattended = f env s)
    (hpassive : ∀ env s, Passive (f env s)) : FollowsUnattended fun env _ s => f env s := by
  apply follows_of_blind hblind
  intro env s
  obtain ⟨-, u, hu, hpolicy, -⟩ := hpassive env s
  exact ⟨u, hu, hpolicy⟩

theorem researcher_follows (k : ResearcherNode) : FollowsUnattended ((researcher deps).node k) := by
  cases k with
  | plan => exact follows_of_passive (fun _ _ => rfl) (plan_passive deps)
  | act => exact act_follows deps
  | reflect => exact follows_of_passive (fun _ _ => rfl) (reflect_passive deps)
  | finalize => exact follows_of_passive (fun _ _ => rfl) finalize_passive

theorem coder_follows (k : CoderNode) : FollowsUnattended ((coder deps).node k) := by
  cases k with
  | setup => exact follows_of_passive (fun _ _ => rfl) (setup_passive deps)
  | act => exact act_follows deps
  | finalize => exact follows_of_passive (fun _ _ => rfl) finalize_passive

theorem researcher_next_unattended (k : ResearcherNode) (env : Env) (s : AgentState) :
    (researcher deps).next k env s.unattended = (researcher deps).next k env s := by
  cases k <;> rfl

theorem coder_next_unattended (k : CoderNode) (env : Env) (s : AgentState) :
    (coder deps).next k env s.unattended = (coder deps).next k env s := by
  cases k <;> rfl

/-- No edge of the supervisor or of the agents depends on the approval rules. -/
theorem supervisor_straight :
    (supervisor deps).Straight AgentState.unattended Update.unattended
      (fun v => isApproved v = true) Emission.isEffect where
  fold_eq n g h := by
    cases n with
    | researcher | coder => cases h; rfl
    | memoryRecall | route | direct | memoryWrite => cases h
  plain n f h := by
    cases n with
    | memoryRecall =>
        cases h
        exact follows_of_passive (fun _ _ => rfl) memoryRecall_passive
    | route =>
        cases h
        exact follows_of_passive (fun _ _ => rfl) (route_passive deps)
    | direct =>
        cases h
        exact follows_of_blind (fun _ _ => rfl) fun _ _ => ⟨_, rfl, rfl⟩
    | memoryWrite =>
        cases h
        exact follows_of_passive (fun _ _ => rfl) memoryWrite_passive
    | researcher | coder => cases h
  graph n g k h := by
    cases n with
    | researcher =>
        cases h
        exact researcher_follows deps k
    | coder =>
        cases h
        exact coder_follows deps k
    | memoryRecall | route | direct | memoryWrite => cases h
  next n env s := by cases n <;> rfl
  inner_next n g k env s h := by
    cases n with
    | researcher =>
        cases h
        exact researcher_next_unattended deps k env s
    | coder =>
        cases h
        exact coder_next_unattended deps k env s
    | memoryRecall | route | direct | memoryWrite => cases h
  whole_fold s t := s.fold_whole_unattended t
  whole_seen _ := rfl

end Nodes

/-! ## Whole runs -/

/-- What is seen of a run tells which tools it ran. -/
theorem ranCalls_seen (items : List StreamItem) :
    ranCalls (emissions (items.filterMap (Item.seen Emission.isEffect Update.unattended))) =
      ranCalls (emissions items) := by
  unfold ranCalls emissions
  simp only [List.filterMap_filterMap]
  apply List.filterMap_congr
  intro item _
  cases item with
  | emitted o => cases o <;> rfl
  | _ => rfl

/-- The requests of a run, every one an `exec`, without those that ended in an
interrupt. -/
def unattendedRequests (deps : Deps) (s : AgentState) (requests : List (Request Env Json)) :
    List (Request Env Json) :=
  (supervisor deps).system.straighten (fun C => C.pending.isSome) (fun r => .exec r.env)
    ((supervisor deps).start s) requests

/-- Whatever the registry, the model, the tools and the seed, a run in which every
interrupt was approved and no node raised runs the same tools, writes the same memory,
returns the same updates and ends in the same place as the run that is never
interrupted, under the policy without approval rules. -/
theorem approved_run_unattended (deps : Deps) (s : AgentState)
    (requests : List (Request Env Json)) (C : SupervisorConfig) (items : List StreamItem)
    (hrun : (supervisor deps).system.run ((supervisor deps).start s) requests = some (C, items))
    (hraised : C.raised = false)
    (happroved : ∀ r ∈ requests, ∀ v ∈ r.answer, isApproved v = true) :
    ∃ items', (supervisor deps).system.run ((supervisor deps).start s.unattended)
        (unattendedRequests deps s requests) = some (C.straight AgentState.unattended, items') ∧
      items'.filterMap (Item.seen Emission.isEffect Update.unattended) =
        items.filterMap (Item.seen Emission.isEffect Update.unattended) :=
  (supervisor_straight deps).straightens.run happroved hraised hrun

/-- The coder asks for one tool, is interrupted and resumed, and then answers. -/
theorem approved_run_unattended_coder :
    let s := stubState "q" { approvalRules := { requireApprovalOnSideEffects := true } }
    let asks : LLMResponse :=
      { content := "", toolCalls := [{ name := "code_exec", arguments := .obj [] }] }
    let quiet := stubEnv { content := "42" } .coder
    let requests : List (Request Env Json) :=
      [.exec quiet, .exec quiet, .exec quiet, .exec (stubEnv asks),
        .resume (.obj [("approved", .bool true)]) (stubEnv asks), .exec quiet, .exec quiet,
        .exec quiet]
    ∃ C items', (supervisor stubDeps).system.run ((supervisor stubDeps).start s.unattended)
        (unattendedRequests stubDeps s requests) = some (C, items') ∧
      C.pending = none ∧ ranCalls (emissions items') = [⟨0, "code_exec", []⟩] := by
  intro s asks quiet requests
  obtain ⟨items', hrun, hseen⟩ := approved_run_unattended stubDeps s requests _ _ rfl rfl
    (by simp [requests, isApproved, Dict.get?, Json.truthy])
  refine ⟨_, items', hrun, rfl, ?_⟩
  rw [← ranCalls_seen, hseen, ranCalls_seen]
  rfl

end Lour.Agents
