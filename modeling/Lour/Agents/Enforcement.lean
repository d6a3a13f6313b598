import Lour.Agents.Graphs
/-!
# What the act node owes to the policy layers

The resolver composes the layers, the gate reads the composition, and the two
passes of the node read the gate.  Here the three are put together: what runs is
stated over the layers themselves.
-/

namespace Lour.Agents

open Lour.Core Lour.Lib Lour.Lib.Python Lour.Tools

/-- Some layer asks for a human before the tool runs. -/
def LayersFlag (layers : List Policy) (tool : BaseTool) : Prop :=
  (∃ layer ∈ layers, tool.name ∈ layer.approvalRules.toolsRequiringApproval) ∨
    (∃ layer ∈ layers, layer.approvalRules.requireApprovalOnSideEffects = true) ∧
      tool.sideEffects = true

theorem flagged_composed (layers : List Policy) (tool : BaseTool) :
    ToolGate.Flagged (PolicyResolver.composed layers) tool ↔ LayersFlag layers tool := by
  rw [ToolGate.Flagged, PolicyResolver.mem_composed_toolsRequiringApproval,
    PolicyResolver.composed_requireApprovalOnSideEffects]
  rfl

theorem isToolAllowed_iff {policy : Policy} {name : String} :
    policy.isToolAllowed name = true ↔
      ∀ allowed, policy.allowedTools = some allowed → name ∈ allowed := by
  unfold Policy.isToolAllowed
  cases policy.allowedTools <;> simp

/-- What an execution of `act` owes to the layers: `pending` is the interrupt the
run waited on, `answer` the decision handed to it, `ran` the calls it ran. -/
structure Enforces (deps : Deps) (layers : List Policy) (policy : Policy)
    (calls : List ToolCall) (pending : Option (List PendingApproval)) (answer : Option Json)
    (ran : List RanCall) : Prop where
  registered : ∀ call ∈ ran, deps.toolRegistry.contains call.name = true
  permitted : ∀ call ∈ ran, ∀ layer ∈ layers, ∀ allowed, layer.allowedTools = some allowed →
    call.name ∈ allowed
  approved : ∀ call ∈ ran, ∀ tool, deps.toolRegistry.get? call.name = some tool →
    LayersFlag layers tool →
      (∃ interrupted, pending = some interrupted) ∧
        ∃ decision, answer = some decision ∧ isApproved decision = true
  /-- After a denial the allowed calls that need no approval run, each once and in
  the order of the response, and nothing else does. -/
  denied : ∀ decision, answer = some decision → isApproved decision = false →
    ran = (calls.zipIdx.filter fun tc =>
      (deps.toolGate.check tc.1.name policy).allowed &&
        !(deps.toolGate.check tc.1.name policy).requiresApproval).map ranEntry

section

variable {deps : Deps} {env : Env} {answer : Option Json} {state : AgentState}

theorem mem_act_ranCalls {call : RanCall} (h : call ∈ ranCalls (act deps env answer state).out) :
    ∃ approved, pass1 deps state.policy answer (requested deps env state) = .proceed approved ∧
      mayRun deps state.policy approved call.name = true ∧
      ∃ tc ∈ requested deps env state, tc.name = call.name ∧
        tc.arguments.asDict = call.arguments := by
  rw [act_ranCalls] at h
  split at h
  next approved hpass =>
      obtain ⟨⟨tc, i⟩, htc, rfl⟩ := List.mem_map.mp h
      obtain ⟨hmem, hmay⟩ := List.mem_filter.mp htc
      exact ⟨approved, hpass, hmay, tc, List.fst_mem_of_mem_zipIdx hmem, rfl, rfl⟩
  next => cases h

/-- A flagged call runs only in an execution that was handed an approval. -/
theorem approved_of_ran_flagged {call : RanCall}
    (h : call ∈ ranCalls (act deps env answer state).out)
    (hreq : (deps.toolGate.check call.name state.policy).requiresApproval = true) :
    ∃ decision, answer = some decision ∧ isApproved decision = true := by
  obtain ⟨approved, hpass, hmay, tc, htc, hname, -⟩ := mem_act_ranCalls h
  have happroved : approved = true := by
    simp only [mayRun, hreq, Bool.not_true, Bool.false_or, Bool.and_eq_true] at hmay
    exact hmay.2
  have hflagged : tc ∈ needsApproval deps state.policy (requested deps env state) :=
    mem_needsApproval.mpr ⟨htc, hname ▸ hreq⟩
  rcases pass1_eq_proceed hpass with ⟨hnone, -⟩ | ⟨-, -, decision, hanswer, hdecision⟩
  · rw [hnone] at hflagged
    cases hflagged
  · exact ⟨decision, hanswer, hdecision ▸ happroved⟩

/-- With dict arguments, what a denial leaves to run is what is allowed and free. -/
theorem act_ranCalls_denied {decision : Json}
    (hdict : ∀ tc ∈ requested deps env state, tc.arguments.isDict = true)
    (hdenied : isApproved decision = false) :
    ranCalls (act deps env (some decision) state).out =
      ((requested deps env state).zipIdx.filter fun tc =>
        (deps.toolGate.check tc.1.name state.policy).allowed &&
          !(deps.toolGate.check tc.1.name state.policy).requiresApproval).map ranEntry := by
  rw [act_ranCalls]
  by_cases hnone : needsApproval deps state.policy (requested deps env state) = []
  · -- nothing is flagged, so the decision was not asked for and every allowed call is free
    rw [pass1_of_none_flagged hnone]
    refine congrArg (List.map ranEntry) (List.filter_congr fun tc htc => ?_)
    have hfree : (deps.toolGate.check tc.1.name state.policy).requiresApproval = false := by
      by_contra hreq
      have hmem := mem_needsApproval.mpr ⟨List.fst_mem_of_mem_zipIdx htc, by simpa using hreq⟩
      rw [hnone] at hmem
      cases hmem
    simp [mayRun, hfree]
  · have hpass : pass1 deps state.policy (some decision) (requested deps env state) =
        .proceed (isApproved decision) :=
      pass1_answered hnone fun tc htc => hdict tc (mem_needsApproval.mp htc).1
    rw [hpass, hdenied]
    refine congrArg (List.map ranEntry) (List.filter_congr fun tc _ => ?_)
    simp [mayRun]

theorem act_enforces {defaults skill agent request : Option Policy}
    {pending : Option (List PendingApproval)}
    (hpolicy : PolicyResolver.resolve defaults skill agent request = .ok state.policy)
    (hdict : ∀ tc ∈ requested deps env state, tc.arguments.isDict = true)
    (hpending : pending.isSome ↔ answer.isSome) :
    Enforces deps (PolicyResolver.layers defaults skill agent request) state.policy
      (requested deps env state) pending answer
      (ranCalls (act deps env answer state).out) := by
  have hcomposed : state.policy =
      PolicyResolver.composed (PolicyResolver.layers defaults skill agent request) := by
    rw [PolicyResolver.resolve_eq] at hpolicy
    exact (Except.ok.inj hpolicy).symm
  have hallowed : ∀ call ∈ ranCalls (act deps env answer state).out,
      (deps.toolGate.check call.name state.policy).allowed = true := by
    intro call hcall
    obtain ⟨approved, -, hmay, -⟩ := mem_act_ranCalls hcall
    exact (Bool.and_eq_true _ _ ▸ hmay : _ ∧ _).1
  refine ⟨fun call hcall => ?_, fun call hcall layer hlayer => ?_,
    fun call hcall tool htool hflag => ?_, fun decision hanswer hdenied => ?_⟩
  · exact (ToolGate.check_allowed.mp (hallowed call hcall)).1
  · have htool := (ToolGate.check_allowed.mp (hallowed call hcall)).2
    rw [hcomposed, PolicyResolver.composed_isToolAllowed] at htool
    exact isToolAllowed_iff.mp (htool layer hlayer)
  · have hgate : deps.toolGate.registry.get? call.name = some tool := htool
    have hreq : (deps.toolGate.check call.name state.policy).requiresApproval = true := by
      refine (ToolGate.check_requiresApproval hgate).mpr ⟨?_, ?_⟩
      · exact (ToolGate.check_allowed.mp (hallowed call hcall)).2
      · rw [hcomposed, flagged_composed]
        exact hflag
    obtain ⟨decision, hanswer, hyes⟩ := approved_of_ran_flagged hcall hreq
    exact ⟨Option.isSome_iff_exists.mp (hpending.mpr (by simp [hanswer])), decision, hanswer, hyes⟩
  · subst hanswer
    exact act_ranCalls_denied hdict hdenied

end

/-! ## In a run of the supervisor -/

/-- The run stands at the `act` node of one of the two agents. -/
def AtAct (deps : Deps) (C : SupervisorConfig) : Prop :=
  (supervisor deps).leaf C = some (act deps)

/-- What a node other than `act` does. -/
def Uneventful (f : Env → Option Json → AgentState → NodeExecution) : Prop :=
  ∀ env answer state, ranCalls (f env answer state).out = [] ∧
    ∃ u, (f env answer state).outcome = .update u ∧ u.policy = none

theorem uneventful_of_passive {f : Env → Option Json → AgentState → NodeExecution}
    (h : ∀ env answer state, Passive (f env answer state)) : Uneventful f := by
  intro env answer state
  obtain ⟨hran, u, hu, hpolicy, -⟩ := h env answer state
  exact ⟨hran, u, hu, hpolicy⟩

theorem node_cases {deps : Deps} {ν : Type} {G : AgentGraph ν} {a b : ν} {w : ν → ℕ}
    (hloop : AgentLoop deps G a b w) (n : ν) : G.node n = act deps ∨ Uneventful (G.node n) := by
  by_cases hn : n = a
  · left
    funext env answer s
    rw [hn]
    exact hloop.node_act env answer s
  · right
    exact uneventful_of_passive fun env answer s => hloop.passive n env answer s hn

theorem task_plain_uneventful {deps : Deps} {n : SupervisorNode}
    {f : Env → Option Json → AgentState → NodeExecution}
    (h : (supervisor deps).task n = .plain f) : Uneventful f := by
  cases n with
  | memoryRecall =>
      cases h
      exact uneventful_of_passive fun env _ s => memoryRecall_passive env s
  | route =>
      cases h
      exact uneventful_of_passive fun env _ s => route_passive deps env s
  | direct =>
      cases h
      exact fun env _ s => ⟨direct_ranCalls env s, _, rfl, rfl⟩
  | memoryWrite =>
      cases h
      exact uneventful_of_passive fun env _ s => memoryWrite_passive env s
  | researcher => cases h
  | coder => cases h

theorem task_graph_cases {deps : Deps} {n : SupervisorNode} {g : AgentGraph n.Inner}
    (h : (supervisor deps).task n = .graph g) (k : n.Inner) :
    g.node k = act deps ∨ Uneventful (g.node k) := by
  cases n with
  | researcher =>
      cases h
      exact node_cases (researcher_loop deps) k
  | coder =>
      cases h
      exact node_cases (coder_loop deps) k
  | memoryRecall | route | direct | memoryWrite => cases h

theorem leaf_cases {deps : Deps} {C : SupervisorConfig}
    {f : Env → Option Json → AgentState → NodeExecution}
    (h : (supervisor deps).leaf C = some f) : f = act deps ∨ Uneventful f := by
  rcases (supervisor deps).leaf_cases h with ⟨n, hn⟩ | ⟨n, g, k, hg, rfl⟩
  · exact .inr (task_plain_uneventful hn)
  · exact task_graph_cases hg k

/-- An interrupt that is pending after a step is the `act` node's. -/
theorem atAct_of_pending {deps : Deps} {C C' : SupervisorConfig}
    {r : Request Env Json} {items : List StreamItem} {payload : List PendingApproval}
    (h : (supervisor deps).step C r = some (C', items)) (hp : C'.pending = some payload) :
    AtAct deps C' := by
  obtain ⟨f, hf, -, -, hlanded⟩ := (supervisor deps).step_leaf h
  obtain ⟨hinterrupt, hleaf, -⟩ := hlanded.of_pending hp
  rcases leaf_cases hf with rfl | hquiet
  · exact hleaf
  · obtain ⟨-, u, hu, -⟩ := hquiet r.env r.answer C.state
    rw [hu] at hinterrupt
    cases hinterrupt

/-- No step of a run changes the policy it was seeded with. -/
theorem step_policy {deps : Deps} {policy : Policy} (C : SupervisorConfig)
    (r : Request Env Json) (C' : SupervisorConfig) (items : List StreamItem)
    (hC : C.Holds fun s => s.policy = policy)
    (h : (supervisor deps).step C r = some (C', items)) :
    C'.Holds fun s => s.policy = policy := by
  have hfold : ∀ (x : NodeExecution) (s : AgentState) (u : Update),
      (∃ v, x.outcome = .update v ∧ v.policy = none) → x.outcome = .update u →
      s.policy = policy → (s.fold u).policy = policy := by
    rintro x s u ⟨v, hv, hnone⟩ hu hs
    rw [hu] at hv
    cases hv
    rw [AgentState.fold_policy, hnone]
    exact hs
  have hleaf : ∀ (f : Env → Option Json → AgentState → NodeExecution) env answer s u,
      (f = act deps ∨ Uneventful f) → (f env answer s).outcome = .update u →
      s.policy = policy → (s.fold u).policy = policy := by
    intro f env answer s u hf hu hs
    refine hfold _ s u ?_ hu hs
    rcases hf with rfl | hquiet
    · exact ⟨u, hu, (act_update hu).1⟩
    · exact (hquiet env answer s).2
  refine (supervisor deps).step_holds ?_ ?_ ?_ C r C' items hC h
  · intro n f env answer s u hf hs hu
    exact hleaf f env answer s u (.inr (task_plain_uneventful hf)) hu hs
  · intro n g k env answer s u hg hs hu
    have hgraph : g.fold = AgentState.fold := by
      cases n with
      | researcher => cases hg; rfl
      | coder => cases hg; rfl
      | memoryRecall | route | direct | memoryWrite => cases hg
    rw [hgraph]
    exact hleaf (g.node k) env answer s u (task_graph_cases hg k) hu hs
  · exact fun s t _ ht => ht

/-- The policy a run was started with stays in force to its end. -/
theorem run_policy {deps : Deps} {policy : Policy} {C C' : SupervisorConfig}
    {requests : List (Request Env Json)} {items : List StreamItem}
    (hC : C.Holds fun s => s.policy = policy)
    (h : (supervisor deps).system.run C requests = some (C', items)) :
    C'.Holds fun s => s.policy = policy :=
  System.invariant_run (fun C r C' items hC h => step_policy C r C' items hC h) hC h

/-- Policy enforcement end to end: whatever the layers, the registry, the
response and the decision, a step of `act` runs what every layer permits, and
what some layer asks about only after an interrupt that was approved. -/
theorem act_step_enforces_layers (deps : Deps) (C C' : SupervisorConfig)
    (r : Request Env Json) (items : List StreamItem)
    (defaults skill agent request : Option Policy) (hact : AtAct deps C)
    (hstep : (supervisor deps).step C r = some (C', items))
    (hpolicy : PolicyResolver.resolve defaults skill agent request = .ok C.state.policy)
    (hdict : ∀ tc ∈ requested deps r.env C.state, tc.arguments.isDict = true) :
    Enforces deps (PolicyResolver.layers defaults skill agent request) C.state.policy
      (requested deps r.env C.state) C.pending r.answer (ranCalls (emissions items)) := by
  obtain ⟨f, hf, hpending, hout, -⟩ := (supervisor deps).step_leaf hstep
  rw [hact] at hf
  cases hf
  rw [hout]
  exact act_enforces hpolicy hdict hpending

/-- The coder asks for a tool that one of two layers wants approved; it is. -/
theorem act_step_enforces_layers_approved :
    let layer : Policy := { approvalRules := { toolsRequiringApproval := {"code_exec"} } }
    let resolved := PolicyResolver.composed (PolicyResolver.layers (some {}) none none (some layer))
    let response : LLMResponse :=
      { content := "", toolCalls := [{ name := "code_exec", arguments := .obj [] }] }
    let state := stubState "run it" resolved
    let C : SupervisorConfig := .within .coder state (.paused .act state [{ tool := "code_exec" }])
    let r : Request Env Json := .resume (.obj [("approved", .bool true)]) (stubEnv response)
    ∃ C' items, (supervisor stubDeps).step C r = some (C', items) ∧
      ranCalls (emissions items) = [⟨0, "code_exec", []⟩] ∧
      Enforces stubDeps (PolicyResolver.layers (some {}) none none (some layer)) state.policy
        (requested stubDeps r.env state) C.pending r.answer (ranCalls (emissions items)) := by
  intro layer resolved response state C r
  refine ⟨_, _, rfl, ?_, ?_⟩
  · rfl
  · exact act_step_enforces_layers stubDeps C _ r _ (some {}) none none (some layer) rfl rfl
      PolicyResolver.resolve_eq (List.forall_mem_singleton.mpr rfl)

end Lour.Agents
