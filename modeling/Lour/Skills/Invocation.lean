import Lour.Agents.Answers
import Lour.Agents.Thread
import Lour.Lib.JsonReader
import Lour.Skills.Running
/-!
# `Skill.invoke`

A skill seeds a run of the supervisor whose route is already set, awaits it once, and makes
its result of the channels that come back: those of a finished run, or those of a run that
waits for an approval.
-/

namespace Lour.Skills

open Lour.Agents Lour.Core Lour.Lib Lour.Lib.Python

/-- The graph of a context is the compiled supervisor, given by its services and by what
the checkpointer has of the thread. -/
structure SkillContext where
  deps : Deps
  stored : Option AgentState := none
  threadId : String
  inputs : Dict := []
  rawQuery : Option String := none
  requestPolicy : Option Policy := none

structure SkillResult where
  skill : String
  agent : AgentName
  threadId : String
  answer : String
  toolsCalled : List String
  tokensUsed : Int
  metadata : Dict := []

inductive InvokeFailure where
  | query (e : QueryFailure)
  | policy (message : String)
  | node (e : AgentError)

/-! ## The run -/

/-- A run that nobody resumes; each execution of a node has its environment. -/
def awaited (deps : Deps) : System SupervisorConfig Env StreamItem :=
  ⟨fun C env => (supervisor deps).step C (.exec env)⟩

/-- What `ainvoke` comes to where a run stands: the channel values where it ended or a node
interrupted, the exception of a node, and nothing as long as it goes on. -/
def channelValues : SupervisorConfig → Option (Except AgentError AgentState)
  | .top (.ended s) => some (.ok s)
  | .top (.paused _ s _) => some (.ok s)
  | .top (.failed _ _ e) => some (.error e)
  | .top (.ready _ _) => none
  | .within _ s (.paused _ _ _) => some (.ok s)
  | .within _ _ (.failed _ _ e) => some (.error e)
  | .within _ _ (.ready _ _) => none
  | .within _ _ (.ended _) => none

def ainvoke (deps : Deps) (C : SupervisorConfig) (envs : List Env) :
    Option (Except AgentError AgentState) :=
  ((awaited deps).run C envs).bind fun reached => channelValues reached.1

/-- The seed enters the channels of the thread. -/
def SkillContext.start (self : SkillContext) (seed : AgentState) : SupervisorConfig :=
  (supervisor self.deps).start (enterThread self.stored seed)

namespace Skill

variable {O : Type} (objects : Objects O) (settings : AgentSettings) (self : Skill)

/-- The seed of a run, with the route to the agent that the skill declares. -/
def seed (ctx : SkillContext) (now : Rat) : Except InvokeFailure AgentState := do
  let query ←
    match ctx.rawQuery with
    | some query => .ok query
    | none => (buildQuery objects self.spec ctx.inputs).mapError .query
  let defaults ← (defaultPolicy settings).mapError .policy
  let policy ← (runPolicy self.spec defaults ctx.requestPolicy).mapError .policy
  let state ← (initialState settings ctx.threadId ctx.threadId query (some policy) now).mapError
    .policy
  .ok { state with route := some { agent := self.spec.agent, reasoning := s!"skill:{self.name}" } }

/-- `_result_from_state`. -/
def resultFromState (threadId : String) (state : AgentState) : SkillResult where
  skill := self.name
  agent := (state.route.map Route.agent).getD self.spec.agent
  threadId := threadId
  answer := state.finalAnswer.getD ""
  toolsCalled := state.toolsCalled.map ToolCallRecord.name
  tokensUsed := state.budget.tokensUsed

/-- Of the implementations only `ReviewCodeSkill` overrides the hook. -/
def postprocess (result : SkillResult) : SkillResult :=
  if self.className = some "ReviewCodeSkill" then
    { result with
      metadata := result.metadata.merge
        [("executed", .bool (decide ("code_exec" ∈ result.toolsCalled))),
          ("tools_used", .int result.toolsCalled.length)] }
  else result

/-- `invoke`, where the run has the given environments. -/
def invoke (ctx : SkillContext) (now : Rat) (envs : List Env) :
    Option (Except InvokeFailure SkillResult) :=
  match self.seed objects settings ctx now with
  | .error e => some (.error e)
  | .ok seed =>
      match ainvoke ctx.deps (ctx.start seed) envs with
      | none => none
      | some (.error e) => some (.error (.node e))
      | some (.ok state) => some (.ok (self.postprocess (self.resultFromState ctx.threadId state)))

/-- The run went through `memory_write` to the end of the graph, and the answer of the result
is its final answer. -/
def Finished (ctx : SkillContext) (now : Rat) (envs : List Env) (result : SkillResult) : Prop :=
  ∃ seed state items, self.seed objects settings ctx now = .ok seed ∧
    (awaited ctx.deps).run (ctx.start seed) envs = some (.top (.ended state), items) ∧
    "memory_write" ∈ executions items ∧ state.finished = true ∧
    state.finalAnswer = some result.answer ∧ result.answer ≠ ""

end Skill

/-! ## The end of a run -/

def Answered (state : AgentState) : Prop := state.finalAnswer.getD "" ≠ ""

/-- Nothing interrupted or raised so far, and whoever has left the agent has an answer. -/
def OnCourse : SupervisorConfig → Prop
  | .top (.ready .memoryWrite s) => Answered s
  | .top (.ready _ _) => True
  | .top (.ended s) => Answered s
  | .top (.paused _ _ _) => False
  | .top (.failed _ _ _) => False
  | .within _ _ (.ready _ _) => True
  | .within _ _ (.paused _ _ _) => False
  | .within _ _ (.failed _ _ _) => False
  | .within _ _ (.ended _) => False

/-- The model asks `act` for no call that needs an approval, and it has words for `direct`. -/
def Settles (deps : Deps) : SupervisorConfig → Env → Prop
  | .within .researcher _ (.ready .act t), env =>
      needsApproval deps t.policy (requested deps env t) = []
  | .within .coder _ (.ready .act t), env =>
      needsApproval deps t.policy (requested deps env t) = []
  | .top (.ready .direct s), env =>
      (env.chat { messages := directMessages s, options := directOptions }).content ≠ ""
  | _, _ => True

/-- Every step of the run settles. -/
def Skill.Unattended {O : Type} (objects : Objects O) (settings : AgentSettings) (self : Skill)
    (ctx : SkillContext) (now : Rat) (envs : List Env) : Prop :=
  ∃ seed, self.seed objects settings ctx now = .ok seed ∧
    (awaited ctx.deps).AllSteps (Settles ctx.deps) (ctx.start seed) envs

section Steps

variable {deps : Deps} {env : Env}

theorem act_returns_iff {state : AgentState} :
    (∃ u, (act deps env none state).outcome = .update u) ↔
      needsApproval deps state.policy (requested deps env state) = [] := by
  constructor
  · rintro ⟨u, hu⟩
    rcases act_update_cases hu with ⟨hnil, -⟩ | ⟨approved, hpass, -⟩
    · rw [hnil]
      rfl
    · rcases pass1_eq_proceed hpass with ⟨hnone, -⟩ | ⟨-, -, decision, hdecision, -⟩
      · exact hnone
      · cases hdecision
  · exact act_returns

theorem settle_agent_onCourse (agent : AgentName) (s : AgentState) :
    OnCourse ((supervisor deps).settle (.ready agent.node s)) := by
  cases agent with
  | researcher => trivial
  | coder => trivial
  | direct => trivial

/-- A step of an agent keeps the run on course unless `act` has calls to put to a human. -/
theorem leave_onCourse_iff {n : SupervisorNode} {G : AgentGraph n.Inner}
    {a f : n.Inner} {w : n.Inner → ℕ} (hloop : AgentLoop deps G a f w)
    (hnext : (supervisor deps).next n = fun _ _ => some .memoryWrite) (s t : AgentState)
    (k : n.Inner) (items : List StreamItem) :
    OnCourse ((supervisor deps).leave n env s
        (G.land k env t (G.node k env none t).outcome, items)).1 ↔
      (k = a → needsApproval deps t.policy (requested deps env t) = []) := by
  have hgoes : ∀ u m, G.next k env (G.fold t u) = some m →
      OnCourse ((supervisor deps).leave n env s (G.land k env t (.update u), items)).1 := by
    intro u m hm
    rw [StateGraph.land, StateGraph.complete, hm]
    trivial
  by_cases hk : k = a
  · subst hk
    rw [hloop.node_act]
    constructor
    · intro hcourse _
      apply act_returns_iff.mp
      cases ho : (act deps env none t).outcome with
      | update u => exact ⟨u, rfl⟩
      | interrupt pending =>
          rw [ho] at hcourse
          exact hcourse.elim
      | error e =>
          rw [ho] at hcourse
          exact hcourse.elim
    · intro hnone
      obtain ⟨u, hu⟩ := act_returns_iff.mpr (hnone rfl)
      obtain ⟨m, hm, -⟩ := hloop.next_act env (G.fold t u)
      rw [hu]
      exact hgoes u m hm
  · apply iff_of_true _ fun hact => absurd hact hk
    obtain ⟨-, u, hu, -⟩ := hloop.passive k env none t hk
    by_cases hf : k = f
    · subst hf
      rw [hloop.node_final] at hu
      rw [hloop.node_final, hu, StateGraph.land, StateGraph.complete, hloop.next_final,
        hloop.fold_eq]
      show OnCourse ((supervisor deps).complete n env s (t.fold u).whole)
      rw [Nested.complete, hnext]
      show Answered (t.fold u)
      obtain ⟨answer, hanswer, hne⟩ := finalize_answers env t hu
      rw [Answered, hanswer]
      exact hne
    · rw [hu]
      by_cases hentry : k = G.entry
      · subst hentry
        exact hgoes u a (hloop.next_entry env _).1
      · obtain ⟨m, hm, -⟩ := hloop.next_other k env (G.fold t u) hentry hk hf
        exact hgoes u m hm

/-- A run stays on course exactly through the steps that settle. -/
theorem step_onCourse_iff {C C' : SupervisorConfig} {items : List StreamItem} (hC : OnCourse C)
    (h : (supervisor deps).step C (.exec env) = some (C', items)) :
    OnCourse C' ↔ Settles deps C env := by
  cases C with
  | top c =>
      obtain ⟨n, f, hat, hf, hpending, rfl, -⟩ := (supervisor deps).step_top h
      cases c with
      | paused m s pending => exact hC.elim
      | failed m s e => exact hC.elim
      | ended s => exact hat.elim
      | ready m s =>
          cases hat
          cases n with
          | memoryRecall =>
              cases hf
              exact iff_of_true trivial trivial
          | route =>
              cases hf
              apply iff_of_true _ trivial
              show OnCourse ((supervisor deps).land .route env s (route deps env s).outcome)
              obtain ⟨-, u, hu, -⟩ := route_passive deps env s
              rw [hu]
              exact settle_agent_onCourse (dispatch (s.fold u)) (s.fold u)
          | researcher => cases hf
          | coder => cases hf
          | direct =>
              cases hf
              exact Iff.rfl
          | memoryWrite =>
              cases hf
              exact iff_of_true hC trivial
  | within n s c =>
      obtain ⟨G, c', inner, hG, hstep, hleave⟩ := (supervisor deps).step_within h
      cases c with
      | paused k t pending => exact hC.elim
      | failed k t e => exact hC.elim
      | ended t => exact hC.elim
      | ready k t =>
          have hafter : C' = ((supervisor deps).leave n env s
              (G.land k env t (G.node k env none t).outcome, inner)).1 := by
            obtain ⟨m, hat, -, hc', -⟩ := G.step_cases hstep
            cases hat
            rw [hc'] at hleave
            exact congrArg Prod.fst hleave.symm
          rw [hafter]
          cases n with
          | memoryRecall => exact k.elim
          | route => exact k.elim
          | direct => exact k.elim
          | memoryWrite => exact k.elim
          | researcher =>
              cases hG
              apply (leave_onCourse_iff (n := .researcher) (researcher_loop deps) rfl s t k
                inner).trans
              cases k with
              | act => exact ⟨fun hact => hact rfl, fun hnone _ => hnone⟩
              | plan => exact iff_of_true (fun hact => by cases hact) trivial
              | reflect => exact iff_of_true (fun hact => by cases hact) trivial
              | finalize => exact iff_of_true (fun hact => by cases hact) trivial
          | coder =>
              cases hG
              apply (leave_onCourse_iff (n := .coder) (coder_loop deps) rfl s t k inner).trans
              cases k with
              | act => exact ⟨fun hact => hact rfl, fun hnone _ => hnone⟩
              | setup => exact iff_of_true (fun hact => by cases hact) trivial
              | finalize => exact iff_of_true (fun hact => by cases hact) trivial

/-- A run that is off course does not get back: it stands still, or it ends unanswered. -/
theorem onCourse_of_step {C C' : SupervisorConfig} {items : List StreamItem}
    (h : (supervisor deps).step C (.exec env) = some (C', items)) (hC' : OnCourse C') :
    OnCourse C := by
  cases C with
  | top c =>
      obtain ⟨n, f, hat, hf, hpending, rfl, -⟩ := (supervisor deps).step_top h
      cases c with
      | paused m s pending => cases hpending.mp rfl
      | failed m s e => exact hat.elim
      | ended s => exact hat.elim
      | ready m s =>
          cases hat
          cases n with
          | memoryRecall => trivial
          | route => trivial
          | researcher => trivial
          | coder => trivial
          | direct => trivial
          | memoryWrite =>
              cases hf
              exact hC'
  | within n s c =>
      obtain ⟨G, c', inner, -, hstep, -⟩ := (supervisor deps).step_within h
      cases c with
      | ready k t => trivial
      | paused k t pending => cases hstep
      | failed k t e => cases hstep
      | ended t => cases hstep

/-- Only `memory_write` ends a run. -/
theorem ended_of_step {C : SupervisorConfig} {state : AgentState} {items : List StreamItem}
    (h : (supervisor deps).step C (.exec env) = some (.top (.ended state), items)) :
    "memory_write" ∈ executions items ∧ state.finished = true := by
  cases C with
  | top c =>
      obtain ⟨n, f, hat, hf, -, hland, rfl⟩ := (supervisor deps).step_top h
      rw [executions_items]
      cases n with
      | memoryRecall =>
          cases hf
          cases hland
      | route =>
          cases hf
          obtain ⟨-, u, hu, -⟩ := route_passive deps env c.state
          have hsettled : Nested.Config.top (.ended state) = (supervisor deps).settle
              (.ready (dispatch (c.state.fold u)).node (c.state.fold u)) := by
            change _ = (supervisor deps).land .route env _ (route deps env c.state).outcome at hland
            rw [hu] at hland
            exact hland
          cases hagent : dispatch (c.state.fold u) <;> rw [hagent] at hsettled <;>
            cases hsettled
      | researcher => cases hf
      | coder => cases hf
      | direct =>
          cases hf
          cases hland
      | memoryWrite =>
          cases hf
          cases hland
          exact ⟨List.mem_cons_self, rfl⟩
  | within n s c =>
      obtain ⟨G, c', inner, hG, -, hleave⟩ := (supervisor deps).step_within h
      have hnext := (agent_node hG).2
      cases c' with
      | ready k t => cases hleave
      | paused k t pending => cases hleave
      | failed k t e => cases hleave
      | ended t =>
          have hend := congrArg Prod.fst hleave
          simp only [Nested.leave, Nested.complete, hnext] at hend
          cases hend

end Steps

section Runs

variable {deps : Deps} {envs : List Env}

/-- A run that has ended went through `memory_write`. -/
def Written : SupervisorConfig → List StreamItem → Prop
  | .top (.ended s), items => "memory_write" ∈ executions items ∧ s.finished = true
  | _, _ => True

theorem run_written {C C' : SupervisorConfig} {items : List StreamItem} (hC : Written C [])
    (h : (awaited deps).run C envs = some (C', items)) : Written C' items := by
  apply System.run_induction (S := awaited deps) (P := Written) _ hC h
  intro C outs env C' out _ _ hstep
  cases C' with
  | within n s c => trivial
  | top c =>
      cases c with
      | ready n s => trivial
      | paused n s pending => trivial
      | failed n s e => trivial
      | ended s =>
          obtain ⟨hwrote, hfinished⟩ := ended_of_step hstep
          refine ⟨?_, hfinished⟩
          rw [executions_append]
          exact List.mem_append_right _ hwrote

theorem onCourse_iff_settles {C C' : SupervisorConfig} {items : List StreamItem}
    (hC : OnCourse C) (h : (awaited deps).run C envs = some (C', items)) :
    OnCourse C' ↔ (awaited deps).AllSteps (Settles deps) C envs := by
  calc OnCourse C' ↔ (awaited deps).AllStates OnCourse C envs :=
        ⟨System.AllStates.of_last (fun _ _ _ _ => onCourse_of_step) h, fun hall => hall.last h⟩
    _ ↔ (awaited deps).AllSteps (Settles deps) C envs :=
        System.allStates_iff_allSteps (I := fun _ => True) (fun _ _ _ _ _ _ _ => trivial)
          (fun _ _ _ _ _ hgood hstep => step_onCourse_iff hgood hstep) trivial hC

end Runs

section Results

variable {O : Type} {objects : Objects O} {settings : AgentSettings} {skill : Skill}
  {ctx : SkillContext} {now : Rat} {envs : List Env} {result : SkillResult}

/-- A result is made of the channel values of a run. -/
theorem invoke_eq_ok (h : skill.invoke objects settings ctx now envs = some (.ok result)) :
    ∃ seed C items state, skill.seed objects settings ctx now = .ok seed ∧
      (awaited ctx.deps).run (ctx.start seed) envs = some (C, items) ∧
      channelValues C = some (.ok state) ∧
      result = skill.postprocess (skill.resultFromState ctx.threadId state) := by
  unfold Skill.invoke at h
  split at h
  next e hseed => cases h
  next seed hseed =>
      split at h
      next => cases h
      next => cases h
      next state hstate =>
          obtain ⟨⟨C, items⟩, hrun, hvalues⟩ := Option.bind_eq_some_iff.mp hstate
          cases h
          exact ⟨seed, C, items, state, hseed, hrun, hvalues, rfl⟩

theorem postprocess_answer (result : SkillResult) :
    (skill.postprocess result).answer = result.answer := by
  unfold Skill.postprocess
  split <;> rfl

/-- The run that a result was made of is on course just where the result is finished. -/
theorem finished_iff_onCourse {seed state : AgentState} {C : SupervisorConfig}
    {items : List StreamItem} (hseed : skill.seed objects settings ctx now = .ok seed)
    (hrun : (awaited ctx.deps).run (ctx.start seed) envs = some (C, items))
    (hvalues : channelValues C = some (.ok state))
    (hanswer : result.answer = state.finalAnswer.getD "") :
    skill.Finished objects settings ctx now envs result ↔ OnCourse C := by
  have hends : skill.Finished objects settings ctx now envs result →
      ∃ s, C = .top (.ended s) ∧ s.finalAnswer = some result.answer ∧ result.answer ≠ "" := by
    rintro ⟨seed', s, items', hseed', hrun', -, -, hfinal, hne⟩
    rw [hseed] at hseed'
    cases hseed'
    rw [hrun] at hrun'
    cases hrun'
    exact ⟨s, rfl, hfinal, hne⟩
  constructor
  · intro hfinished
    obtain ⟨s, rfl, hfinal, hne⟩ := hends hfinished
    show s.finalAnswer.getD "" ≠ ""
    rw [hfinal]
    exact hne
  · intro hcourse
    have hended : C = .top (.ended state) := by
      cases C with
      | top c =>
          cases c with
          | ready n s => cases hvalues
          | paused n s pending => exact hcourse.elim
          | failed n s e => exact hcourse.elim
          | ended s =>
              cases hvalues
              rfl
      | within n s c =>
          cases c with
          | ready k t => cases hvalues
          | paused k t pending => exact hcourse.elim
          | failed k t e => exact hcourse.elim
          | ended t => exact hcourse.elim
    subst hended
    have hne : state.finalAnswer.getD "" ≠ "" := hcourse
    have hwritten : Written (.top (.ended state)) items :=
      run_written (C := ctx.start seed) trivial hrun
    refine ⟨seed, state, items, hseed, hrun, hwritten.1, hwritten.2, ?_, ?_⟩
    · rw [hanswer]
      cases hfinal : state.finalAnswer with
      | none =>
          rw [hfinal] at hne
          exact absurd rfl hne
      | some answer => rfl
    · rw [hanswer]
      exact hne

end Results

/-- A result is that of a finished run, with its final answer, exactly where no call asked
for on the way needs an approval and the model has words for `direct`. -/
theorem invoke_finished_iff {O : Type} (objects : Objects O) (settings : AgentSettings)
    (skill : Skill) (ctx : SkillContext) (now : Rat) (envs : List Env) (result : SkillResult)
    (h : skill.invoke objects settings ctx now envs = some (.ok result)) :
    skill.Finished objects settings ctx now envs result ↔
      skill.Unattended objects settings ctx now envs := by
  obtain ⟨seed, C, items, state, hseed, hrun, hvalues, rfl⟩ := invoke_eq_ok h
  have hunattended : skill.Unattended objects settings ctx now envs ↔
      (awaited ctx.deps).AllSteps (Settles ctx.deps) (ctx.start seed) envs := by
    constructor
    · rintro ⟨seed', hseed', hall⟩
      rw [hseed] at hseed'
      cases hseed'
      exact hall
    · exact fun hall => ⟨seed, hseed, hall⟩
  rw [finished_iff_onCourse hseed hrun hvalues (postprocess_answer _),
    onCourse_iff_settles (C := ctx.start seed) trivial hrun, hunattended]

/-- A skill of the coder whose declaration has `code_exec` approved. -/
def runCodeSkill : Skill where
  className := none
  spec :=
    { name := "run_code"
      description := "Run it."
      agent := .coder
      toolsAllowed := ["code_exec"]
      prompt := "Run it."
      approvalRules := { toolsRequiringApproval := {"code_exec"} }
      distinct := by exact List.nodup_nil }

def stubContext : SkillContext where
  deps := stubDeps
  threadId := "t"
  rawQuery := some "Run it."

/-- A model that answers at once. -/
theorem invoke_finished_answer :
    ∃ result, runCodeSkill.invoke plainObjects {} stubContext 0
        (List.replicate 6 (stubEnv { content := "42" })) = some (.ok result) ∧
      runCodeSkill.Finished plainObjects {} stubContext 0
        (List.replicate 6 (stubEnv { content := "42" })) result := by
  refine ⟨_, rfl, ?_⟩
  apply (invoke_finished_iff plainObjects {} runCodeSkill stubContext 0 _ _ rfl).mpr
  refine ⟨_, rfl, ?_⟩
  apply (onCourse_iff_settles (C := stubContext.start _) trivial rfl).mp
  show "42" ≠ ""
  decide

/-- A model that asks for the tool at once: the run waits, and the result is empty. -/
theorem invoke_not_finished :
    ¬ ∀ (objects : Objects Json) (settings : AgentSettings) (skill : Skill) (ctx : SkillContext)
        (now : Rat) (envs : List Env) (result : SkillResult),
      skill.invoke objects settings ctx now envs = some (.ok result) →
        skill.Finished objects settings ctx now envs result := by
  intro hall
  obtain ⟨-, -, -, -, -, -, -, -, hne⟩ := hall plainObjects {} runCodeSkill stubContext 0
    (List.replicate 4 (stubEnv { content := "", toolCalls := [⟨"code_exec", .obj []⟩] })) _ rfl
  exact hne rfl

end Lour.Skills
