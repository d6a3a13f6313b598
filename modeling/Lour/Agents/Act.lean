import Lour.Agents.Budget
/-!
# The `act` node

One reason-act iteration.  Pass 1 classifies the requested calls and interrupts
once when some of them need a human; pass 2 answers every call in the order the
model asked, running those that may run.  Executed again on resume, the node
asks the model again and goes through both passes with the new response.
-/

namespace Lour.Agents

open Lour.Core Lour.Lib Lour.Lib.Python Lour.Tools

def actOptions : Dict := [("temperature", .float .zero)]

def maxToolContent : Nat := 8000

def assistantMessage (content : String) (toolCalls : List ToolCall) : LLMMessage :=
  .assistant content toolCalls

def toolMessage (name content : String) : LLMMessage := .tool name content

def serializeResult (result : ToolResult) : String :=
  let payload :=
    if result.ok then result.data
    else .obj [("error", match result.error with
      | some e => .str e
      | none => .null)]
  slice maxToolContent payload.dumps

/-- `_is_approved`.  No character outside ASCII is lowered to a letter of the
four words. -/
def isApproved : Json → Bool
  | .bool b => b
  | .obj entries => ((Dict.get? entries "approved").getD (.bool false)).truthy
  | .str s => decide (lowerAscii (strip s) ∈ ["approve", "approved", "yes", "true"])
  | _ => false

/-- `PendingApproval(tool=..., arguments=...)`: the arguments have to be a dict. -/
def PendingApproval.make (tool : String) : Json → Except AgentError PendingApproval
  | .obj entries => .ok { tool := tool, arguments := entries }
  | _ => .error (.invalid "PendingApproval" "arguments")

section

variable (deps : Deps) (policy : Policy)

/-- Pass 1's condition on one call. -/
def callNeedsApproval (tc : ToolCall) : Bool :=
  deps.toolRegistry.contains tc.name &&
    ((deps.toolGate.check tc.name policy).allowed &&
      (deps.toolGate.check tc.name policy).requiresApproval)

def needsApproval (calls : List ToolCall) : List ToolCall :=
  calls.filter (callNeedsApproval deps policy)

/-- How pass 1 ends: go on to pass 2, interrupt, or raise on the way to it. -/
inductive Passage where
  | proceed (approved : Bool)
  | pause (pending : List PendingApproval)
  | raised (e : AgentError)

def pass1 (answer : Option Json) (calls : List ToolCall) : Passage :=
  if (needsApproval deps policy calls).isEmpty then .proceed true
  else
    match (needsApproval deps policy calls).mapM
        (fun tc => PendingApproval.make tc.name tc.arguments) with
    | .error e => .raised e
    | .ok pending =>
        match answer with
        | none => .pause pending
        | some decision => .proceed (isApproved decision)

/-- What pass 2 does with one call. -/
inductive Ruling where
  | unknown
  | blocked (reason : Option String)
  | denied
  | runs (tool : BaseTool)

def ruling (approved : Bool) (name : String) : Ruling :=
  match deps.toolRegistry.get? name with
  | none => .unknown
  | some tool =>
      let decision := deps.toolGate.check name policy
      if decision.allowed = false then .blocked decision.reason
      else if decision.requiresApproval && !approved then .denied
      else .runs tool

structure Pass2 where
  messages : List LLMMessage := []
  records : List ToolCallRecord := []
  toolCallsRun : Int := 0
  out : List Emission := []

/-- Answer a call without running it. -/
def Pass2.refuse (acc : Pass2) (name : String) (args : Dict) (content error : String) : Pass2 where
  messages := acc.messages ++ [toolMessage name content]
  records := acc.records ++ [{ name := name, arguments := args, ok := false, error := some error }]
  toolCallsRun := acc.toolCallsRun
  out := acc.out ++ [.custom (.toolCalled name args "act"),
    .custom (.toolResult name false (some error) "act")]

def Pass2.answer (acc : Pass2) (position : Nat) (name : String) (args : Dict)
    (result : ToolResult) : Pass2 where
  messages := acc.messages ++ [toolMessage name (serializeResult result)]
  records := acc.records ++
    [{ name := name, arguments := args, ok := result.ok, error := result.error }]
  toolCallsRun := acc.toolCallsRun + 1
  out := acc.out ++ [.custom (.toolCalled name args "act"), .ran ⟨position, name, args⟩,
    .custom (.toolResult name result.ok result.error "act")]

def actCall (env : Env) (approved : Bool) (acc : Pass2) (tc : ToolCall × Nat) : Pass2 :=
  let name := tc.1.name
  let args := tc.1.arguments.asDict
  match ruling deps policy approved name with
  | .unknown =>
      acc.refuse name args
        (s!"Tool '{name}' does not exist. Available tools: " ++
          s!"{pyReprList deps.toolRegistry.sortedNames}. Pick a valid tool or answer directly.")
        "unknown_tool"
  | .blocked reason =>
      let why := reason.getD "None"
      acc.refuse name args s!"Tool '{name}' is blocked by policy: {why}" "blocked"
  | .denied => acc.refuse name args s!"User denied execution of '{name}'." "denied"
  | .runs tool => acc.answer tc.2 name args (env.run tc.2 tool args)

def pass2 (env : Env) (approved : Bool) (calls : List ToolCall) : Pass2 :=
  calls.zipIdx.foldl (actCall deps policy env approved) {}

end

/-- The request for the chat call of one execution. -/
def actRequest (deps : Deps) (state : AgentState) : ChatRequest :=
  let offered := deps.toolRegistry.offered state.policy.allowedTools
  { messages := state.messages, tools := if offered.isEmpty then none else some offered,
    options := actOptions }

def act (deps : Deps) (env : Env) (answer : Option Json) (state : AgentState) : NodeExecution :=
  let response := env.chat (actRequest deps state)
  let tokens := response.promptTokens + response.completionTokens
  let assistantMsg := assistantMessage response.content response.toolCalls
  let entered : List Emission := [.custom (.node "act"), .chat response]
  if response.toolCalls.isEmpty then
    { out := entered ++
        (if response.content = "" then [] else [.custom (.token response.content "act")])
      outcome := .update
        { messages := some [assistantMsg]
          finalAnswer :=
            some (if response.content = "" then state.finalAnswer else some response.content)
          budget := some (state.budget.withDelta tokens 0 1) } }
  else
    match pass1 deps state.policy answer response.toolCalls with
    | .raised e => { out := entered, outcome := .error e }
    | .pause pending => { out := entered, outcome := .interrupt pending }
    | .proceed approved =>
        let acc := pass2 deps state.policy env approved response.toolCalls
        { out := entered ++ acc.out
          outcome := .update
            { messages := some (assistantMsg :: acc.messages)
              toolsCalled := some acc.records
              budget := some (state.budget.withDelta tokens acc.toolCallsRun 1) } }

/-! ## The two passes agree -/

section Passes

variable {deps : Deps} {policy : Policy} {answer : Option Json}

theorem callNeedsApproval_iff {tc : ToolCall} :
    callNeedsApproval deps policy tc = true ↔
      (deps.toolGate.check tc.name policy).requiresApproval = true := by
  simp only [callNeedsApproval, Bool.and_eq_true]
  constructor
  · exact fun h => h.2.2
  · intro h
    have hallowed := ToolGate.allowed_of_requiresApproval h
    exact ⟨(ToolGate.check_allowed.mp hallowed).1, hallowed, h⟩

theorem mem_needsApproval {tc : ToolCall} {calls : List ToolCall} :
    tc ∈ needsApproval deps policy calls ↔
      tc ∈ calls ∧ (deps.toolGate.check tc.name policy).requiresApproval = true := by
  rw [needsApproval, List.mem_filter, callNeedsApproval_iff]

/-- The gate allows the call, and it needs no approval or has got it. -/
def mayRun (deps : Deps) (policy : Policy) (approved : Bool) (name : String) : Bool :=
  (deps.toolGate.check name policy).allowed &&
    (!(deps.toolGate.check name policy).requiresApproval || approved)

/-- The calls pass 2 runs, each with its position in the response. -/
def runnable (deps : Deps) (policy : Policy) (approved : Bool) (calls : List ToolCall) :
    List (ToolCall × Nat) :=
  calls.zipIdx.filter fun tc => mayRun deps policy approved tc.1.name

def ranEntry (tc : ToolCall × Nat) : RanCall :=
  ⟨tc.2, tc.1.name, tc.1.arguments.asDict⟩

theorem ruling_runs_iff {approved : Bool} {name : String} :
    (∃ tool, ruling deps policy approved name = .runs tool) ↔
      mayRun deps policy approved name = true := by
  cases hget : deps.toolRegistry.get? name with
  | none =>
      have hallowed : (deps.toolGate.check name policy).allowed = false := by
        simp [ToolGate.check, Deps.toolGate, hget]
      simp [ruling, mayRun, hget, hallowed]
  | some tool =>
      cases hallowed : (deps.toolGate.check name policy).allowed with
      | false => simp [ruling, mayRun, hget, hallowed]
      | true =>
          cases hreq : (deps.toolGate.check name policy).requiresApproval <;>
            cases approved <;> simp [ruling, mayRun, hget, hallowed, hreq]

theorem actCall_ranCalls (env : Env) (approved : Bool) (acc : Pass2) (tc : ToolCall × Nat) :
    ranCalls (actCall deps policy env approved acc tc).out =
      ranCalls acc.out ++
        (if mayRun deps policy approved tc.1.name then [ranEntry tc] else []) := by
  have hiff : (∃ tool, ruling deps policy approved tc.1.name = .runs tool) ↔
      mayRun deps policy approved tc.1.name = true := ruling_runs_iff
  cases hr : ruling deps policy approved tc.1.name with
  | runs tool =>
      rw [if_pos (hiff.mp ⟨tool, hr⟩)]
      simp [actCall, hr, Pass2.answer, ranEntry]
  | _ =>
      rw [if_neg (fun h => by simpa [hr] using hiff.mpr h)]
      simp [actCall, hr, Pass2.refuse]

theorem pass2_foldl_ranCalls (env : Env) (approved : Bool) (calls : List (ToolCall × Nat))
    (acc : Pass2) :
    ranCalls (calls.foldl (actCall deps policy env approved) acc).out =
      ranCalls acc.out ++
        (calls.filter fun tc => mayRun deps policy approved tc.1.name).map ranEntry := by
  induction calls generalizing acc with
  | nil => simp
  | cons tc calls ih =>
      rw [List.foldl_cons, ih, actCall_ranCalls, List.filter_cons]
      split <;> simp

theorem pass2_ranCalls (env : Env) (approved : Bool) (calls : List ToolCall) :
    ranCalls (pass2 deps policy env approved calls).out =
      (runnable deps policy approved calls).map ranEntry := by
  rw [pass2, pass2_foldl_ranCalls]
  simp [runnable]

theorem pass2_foldl_toolCallsRun (env : Env) (approved : Bool) (calls : List (ToolCall × Nat))
    (acc : Pass2) :
    (calls.foldl (actCall deps policy env approved) acc).toolCallsRun =
      acc.toolCallsRun + ((ranCalls (calls.foldl (actCall deps policy env approved) acc).out).length
        - (ranCalls acc.out).length : Int) := by
  have hstep : ∀ (acc : Pass2) (tc : ToolCall × Nat),
      (actCall deps policy env approved acc tc).toolCallsRun - acc.toolCallsRun =
        ((ranCalls (actCall deps policy env approved acc tc).out).length : Int) -
          (ranCalls acc.out).length := by
    intro acc tc
    cases hr : ruling deps policy approved tc.1.name with
    | runs tool =>
        rw [actCall, hr]
        simp only [Pass2.answer, ranCalls_append, ranCalls_custom, ranCalls_ran,
          ranCalls_nil, List.length_append, List.length_cons, List.length_nil]
        omega
    | _ => simp [actCall, hr, Pass2.refuse]
  induction calls generalizing acc with
  | nil => simp
  | cons tc calls ih =>
      have h := hstep acc tc
      rw [List.foldl_cons, ih]
      omega

/-- The counter pass 2 returns is the number of calls it ran. -/
theorem pass2_toolCallsRun (env : Env) (approved : Bool) (calls : List ToolCall) :
    (pass2 deps policy env approved calls).toolCallsRun =
      (runnable deps policy approved calls).length := by
  have hran : (ranCalls (pass2 deps policy env approved calls).out).length =
      (runnable deps policy approved calls).length := by
    rw [pass2_ranCalls, List.length_map]
  rw [pass2, pass2_foldl_toolCallsRun, ← hran, pass2]
  simp

/-- The pending approvals of calls whose arguments are dicts. -/
def pendingApprovals (calls : List ToolCall) : List PendingApproval :=
  calls.map fun tc => { tool := tc.name, arguments := tc.arguments.asDict }

theorem make_of_isDict {tool : String} {arguments : Json} (h : arguments.isDict = true) :
    PendingApproval.make tool arguments =
      .ok { tool := tool, arguments := arguments.asDict } := by
  cases arguments <;> simp_all [PendingApproval.make, Json.isDict, Json.asDict]

theorem isDict_of_make {tool : String} {arguments : Json} {p : PendingApproval}
    (h : PendingApproval.make tool arguments = .ok p) : arguments.isDict = true := by
  cases arguments <;> simp_all [PendingApproval.make, Json.isDict]

theorem mapM_make_of_isDict {calls : List ToolCall}
    (h : ∀ tc ∈ calls, tc.arguments.isDict = true) :
    calls.mapM (fun tc => PendingApproval.make tc.name tc.arguments) =
      .ok (pendingApprovals calls) := by
  induction calls with
  | nil => rfl
  | cons tc calls ih =>
      obtain ⟨htc, hrest⟩ := List.forall_mem_cons.mp h
      rw [List.mapM_cons, make_of_isDict htc, ih hrest]
      rfl

theorem isDict_of_mapM_make {calls : List ToolCall} {pending : List PendingApproval}
    (h : calls.mapM (fun tc => PendingApproval.make tc.name tc.arguments) = .ok pending) :
    ∀ tc ∈ calls, tc.arguments.isDict = true := by
  induction calls generalizing pending with
  | nil => simp
  | cons tc calls ih =>
      rw [List.mapM_cons] at h
      cases hfirst : PendingApproval.make tc.name tc.arguments with
      | error e =>
          rw [hfirst] at h
          cases h
      | ok first =>
          cases hrest : calls.mapM fun tc => PendingApproval.make tc.name tc.arguments with
          | error e =>
              rw [hfirst, hrest] at h
              cases h
          | ok rest => exact List.forall_mem_cons.mpr ⟨isDict_of_make hfirst, ih hrest⟩

theorem pass1_of_none_flagged {calls : List ToolCall}
    (h : needsApproval deps policy calls = []) :
    pass1 deps policy answer calls = .proceed true := by
  simp [pass1, h]

theorem pass1_eq_proceed {calls : List ToolCall} {approved : Bool}
    (h : pass1 deps policy answer calls = .proceed approved) :
    needsApproval deps policy calls = [] ∧ approved = true ∨
      needsApproval deps policy calls ≠ [] ∧
        (∀ tc ∈ needsApproval deps policy calls, tc.arguments.isDict = true) ∧
        ∃ decision, answer = some decision ∧ approved = isApproved decision := by
  unfold pass1 at h
  split at h
  next hempty =>
      cases h
      exact .inl ⟨List.isEmpty_iff.mp hempty, rfl⟩
  next hne =>
      split at h
      next => cases h
      next pending hok =>
          cases answer with
          | none => cases h
          | some decision =>
              cases h
              exact .inr ⟨by simpa using hne, isDict_of_mapM_make hok, decision, rfl, rfl⟩

theorem pass1_eq_pause {calls : List ToolCall} {pending : List PendingApproval}
    (h : pass1 deps policy answer calls = .pause pending) :
    needsApproval deps policy calls ≠ [] ∧ answer = none ∧
      (∀ tc ∈ needsApproval deps policy calls, tc.arguments.isDict = true) ∧
      pending = pendingApprovals (needsApproval deps policy calls) := by
  unfold pass1 at h
  split at h
  next => cases h
  next hne =>
      split at h
      next => cases h
      next made hok =>
          have hall := isDict_of_mapM_make hok
          rw [mapM_make_of_isDict hall] at hok
          cases hok
          cases answer with
          | none =>
              cases h
              exact ⟨by simpa using hne, rfl, hall, rfl⟩
          | some decision => cases h

/-- Without an answer, flagged calls with dict arguments interrupt. -/
theorem pass1_unanswered {calls : List ToolCall}
    (hne : needsApproval deps policy calls ≠ [])
    (hdict : ∀ tc ∈ needsApproval deps policy calls, tc.arguments.isDict = true) :
    pass1 deps policy none calls =
      .pause (pendingApprovals (needsApproval deps policy calls)) := by
  unfold pass1
  rw [if_neg (by simpa using hne), mapM_make_of_isDict hdict]

/-- With dict arguments the decision a human gives is what pass 2 acts on. -/
theorem pass1_answered {calls : List ToolCall} {decision : Json}
    (hne : needsApproval deps policy calls ≠ [])
    (hdict : ∀ tc ∈ needsApproval deps policy calls, tc.arguments.isDict = true) :
    pass1 deps policy (some decision) calls = .proceed (isApproved decision) := by
  unfold pass1
  rw [if_neg (by simpa using hne), mapM_make_of_isDict hdict]

end Passes

/-! ## One execution of the node -/

section Node

variable {deps : Deps} {env : Env} {answer : Option Json} {state : AgentState}

/-- The calls the model asks for in this execution. -/
def requested (deps : Deps) (env : Env) (state : AgentState) : List ToolCall :=
  (env.chat (actRequest deps state)).toolCalls

/-- Exactly the runnable calls of the response run, and only once pass 1 lets
pass 2 begin. -/
theorem act_ranCalls :
    ranCalls (act deps env answer state).out =
      match pass1 deps state.policy answer (requested deps env state) with
      | .proceed approved =>
          (runnable deps state.policy approved (requested deps env state)).map ranEntry
      | _ => [] := by
  unfold act requested
  dsimp only
  split
  next hempty =>
      rw [List.isEmpty_iff.mp hempty, pass1_of_none_flagged (by simp [needsApproval])]
      split <;> simp [runnable]
  next =>
      split
      next h => simp [h]
      next h => simp [h]
      next approved h => simp [h, pass2_ranCalls]

theorem act_update {u : Update} (h : (act deps env answer state).outcome = .update u) :
    u.policy = none ∧ ∃ tokens, u.budget = some (state.budget.withDelta tokens
      (ranCalls (act deps env answer state).out).length 1) := by
  rw [act_ranCalls]
  unfold act at h
  dsimp only at h
  split at h
  next hempty =>
      cases h
      have hnil : requested deps env state = [] := List.isEmpty_iff.mp hempty
      rw [hnil, pass1_of_none_flagged (by simp [needsApproval])]
      exact ⟨rfl, _, rfl⟩
  next =>
      split at h
      next => cases h
      next => cases h
      next approved hpass =>
          cases h
          have hpass' : pass1 deps state.policy answer (requested deps env state) =
            .proceed approved := hpass
          have hlen : (pass2 deps state.policy env approved
              (requested deps env state)).toolCallsRun =
              ((runnable deps state.policy approved (requested deps env state)).map
                ranEntry).length := by
            rw [List.length_map]
            exact pass2_toolCallsRun env approved _
          rw [hpass']
          exact ⟨rfl, _, congrArg (fun n => some (state.budget.withDelta _ n 1)) hlen⟩

theorem act_interrupt {pending : List PendingApproval}
    (h : (act deps env answer state).outcome = .interrupt pending) :
    pass1 deps state.policy answer (requested deps env state) = .pause pending := by
  unfold act at h
  dsimp only at h
  split at h
  next => cases h
  next =>
      split at h
      next => cases h
      next p hpass =>
          cases h
          exact hpass
      next => cases h

theorem act_pauses {pending : List PendingApproval}
    (h : pass1 deps state.policy answer (requested deps env state) = .pause pending) :
    (act deps env answer state).outcome = .interrupt pending := by
  have hne : (requested deps env state).isEmpty = false := by
    rw [List.isEmpty_eq_false_iff]
    intro hnil
    rw [hnil, pass1_of_none_flagged (by simp [needsApproval])] at h
    cases h
  have hcalls : (env.chat (actRequest deps state)).toolCalls = requested deps env state := rfl
  simp only [act, hcalls, hne, Bool.false_eq_true, if_false, h]

/-- An execution that raises or is interrupted has run nothing. -/
theorem act_ranCalls_of_not_update (h : ∀ u, (act deps env answer state).outcome ≠ .update u) :
    ranCalls (act deps env answer state).out = [] := by
  rw [act_ranCalls]
  split
  next approved hpass =>
      have hpass' : pass1 deps state.policy answer
          (env.chat (actRequest deps state)).toolCalls = .proceed approved := hpass
      unfold act at h
      simp only [hpass'] at h
      split at h <;> exact absurd rfl (h _)
  next => rfl

/-- Nothing flagged, nothing in the way: the execution returns. -/
theorem act_returns (h : needsApproval deps state.policy (requested deps env state) = []) :
    ∃ u, (act deps env answer state).outcome = .update u := by
  have hpass : pass1 deps state.policy answer (env.chat (actRequest deps state)).toolCalls =
      .proceed true := pass1_of_none_flagged h
  unfold act
  simp only [hpass]
  split
  · exact ⟨_, rfl⟩
  · exact ⟨_, rfl⟩

end Node

end Lour.Agents
