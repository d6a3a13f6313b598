import Lour.Agents.Answers
/-!
# A turn of `act`

The turn begins with the schemas of the offered tools, and a schema whose
references run in a circle ends it there.  After the model has answered, only a
call that a human has to see can still raise, when its arguments are no dict.
-/

namespace Lour.Agents

open Lour.Core Lour.Lib Lour.Lib.Python Lour.Tools

def Deps.serving (deps : Deps) (catalog : ToolCatalog) : Deps :=
  { deps with toolRegistry := catalog.registry }

/-- The node with the rendering it begins with; `none` where that raises. -/
def actTurn (depth : ℕ) (catalog : ToolCatalog) (deps : Deps) (env : Env) (answer : Option Json)
    (state : AgentState) : Option NodeExecution :=
  (toOllamaSchemas depth catalog.tools state.policy.allowedTools).map fun _ =>
    act (deps.serving catalog) env answer state

/-! ## The schemas -/

def Offered (allowed : Option (Finset String)) (tool : PublishedTool) : Prop :=
  ∀ names, allowed = some names → tool.name ∈ names

theorem mem_asks {catalog : ToolCatalog} {allowed : Option (Finset String)} {name : String} :
    name ∈ (SchemaCall.toOllamaSchemas allowed).asks catalog.tools ↔
      ∃ tool ∈ catalog.tools, tool.name = name ∧ Offered allowed tool := by
  rw [SchemaCall.asks, List.mem_filter, List.mem_map]
  constructor
  · rintro ⟨⟨tool, htool, rfl⟩, hallowed⟩
    refine ⟨tool, htool, rfl, fun names hnames => ?_⟩
    rw [hnames] at hallowed
    exact of_decide_eq_true hallowed
  · rintro ⟨tool, htool, rfl, hoffered⟩
    refine ⟨⟨tool, htool, rfl⟩, ?_⟩
    cases hallowed : allowed with
    | none => rfl
    | some names => exact decide_eq_true (hoffered names hallowed)

theorem asks_nodup (catalog : ToolCatalog) (allowed : Option (Finset String)) :
    ((SchemaCall.toOllamaSchemas allowed).asks catalog.tools).Nodup :=
  catalog.distinct.filter _

theorem toOllamaSchemas_isSome {depth : ℕ} {catalog : ToolCatalog}
    {allowed : Option (Finset String)} :
    (toOllamaSchemas depth catalog.tools allowed).isSome = true ↔
      ∀ tool ∈ catalog.tools, Offered allowed tool →
        (tool.toOllamaSchema depth).isSome = true := by
  rw [toOllamaSchemas, mapM_isSome, renderAll_returns (asks_nodup catalog allowed)]
  constructor
  · intro h tool htool hoffered
    have hname : tool.name ∈ (SchemaCall.toOllamaSchemas allowed).asks catalog.tools :=
      mem_asks.mpr ⟨tool, htool, rfl, hoffered⟩
    exact h tool.name hname tool (catalog.find_of_mem htool)
  · intro h name hname tool hfound
    obtain ⟨offered, hmem, rfl, hoffered⟩ := mem_asks.mp hname
    rw [catalog.find_of_mem hmem] at hfound
    rw [← Option.some.inj hfound]
    exact h offered hmem hoffered

/-- The tool's schema can be rendered on some stack. -/
theorem toOllamaSchema_returns (tool : PublishedTool) :
    (∃ least, ∀ depth ≥ least, (tool.toOllamaSchema depth).isSome = true) ↔
      Inlinable tool.parameters.current := by
  rw [← cleanJsonSchema_returns]
  constructor
  · rintro ⟨least, h⟩
    have hsome := h least le_rfl
    rw [PublishedTool.toOllamaSchema, Option.isSome_map] at hsome
    exact ⟨least, hsome⟩
  · rintro ⟨least, hsome⟩
    obtain ⟨cleaned, hcleaned⟩ := Option.isSome_iff_exists.mp hsome
    refine ⟨least, fun depth hdepth => ?_⟩
    rw [PublishedTool.toOllamaSchema, cleanJsonSchema_mono hcleaned hdepth]
    rfl

/-- The schemas of a registry can be rendered exactly when each offered one can. -/
theorem toOllamaSchemas_returns (catalog : ToolCatalog) (allowed : Option (Finset String)) :
    (∃ depth, (toOllamaSchemas depth catalog.tools allowed).isSome = true) ↔
      ∀ tool ∈ catalog.tools, Offered allowed tool → Inlinable tool.parameters.current := by
  constructor
  · rintro ⟨least, hsome⟩ tool htool hoffered
    obtain ⟨schema, hschema⟩ := Option.isSome_iff_exists.mp
      (toOllamaSchemas_isSome.mp hsome tool htool hoffered)
    refine (toOllamaSchema_returns tool).mp ⟨least, fun depth hdepth => ?_⟩
    rw [toOllamaSchema_mono hschema hdepth]
    rfl
  · intro h
    have heach : ∀ tool ∈ catalog.tools, ∃ least, ∀ depth ≥ least,
        Offered allowed tool → (tool.toOllamaSchema depth).isSome = true := by
      intro tool htool
      by_cases hoffered : Offered allowed tool
      · obtain ⟨least, hleast⟩ := (toOllamaSchema_returns tool).mpr (h tool htool hoffered)
        exact ⟨least, fun depth hdepth _ => hleast depth hdepth⟩
      · exact ⟨0, fun depth _ hyes => absurd hyes hoffered⟩
    obtain ⟨least, hleast⟩ := exists_common_depth heach
    exact ⟨least, toOllamaSchemas_isSome.mpr fun tool htool => hleast tool htool least le_rfl⟩

theorem actTurn_isSome {depth : ℕ} {catalog : ToolCatalog} {deps : Deps} {env : Env}
    {answer : Option Json} {state : AgentState} :
    (actTurn depth catalog deps env answer state).isSome = true ↔
      (toOllamaSchemas depth catalog.tools state.policy.allowedTools).isSome = true := by
  rw [actTurn, Option.isSome_map]

/-- `_resolve` ends exactly where the references it comes to run in no circle and
have definitions to be looked up in; a registry is rendered, and a turn of `act`
gets to the model, exactly when this holds of every offered tool. -/
theorem schema_inlining_ends_iff (defs node : Json) (catalog : ToolCatalog)
    (allowed : Option (Finset String)) (deps : Deps) (env : Env) (answer : Option Json)
    (state : AgentState) :
    ((∃ depth, (resolve defs depth node).isSome = true) ↔
      (schemaDocument defs).AcyclicFrom node ∧ Lookups defs node) ∧
    ((∃ depth, (toOllamaSchemas depth catalog.tools allowed).isSome = true) ↔
      ∀ tool ∈ catalog.tools, Offered allowed tool → Inlinable tool.parameters.current) ∧
    ((∃ depth, (actTurn depth catalog deps env answer state).isSome = true) ↔
      ∀ tool ∈ catalog.tools, Offered state.policy.allowedTools tool →
        Inlinable tool.parameters.current) := by
  refine ⟨resolve_returns, toOllamaSchemas_returns catalog allowed, ?_⟩
  simp only [actTurn_isSome]
  exact toOllamaSchemas_returns catalog state.policy.allowedTools

/-- A tree: its nodes have children, which are nodes. -/
def treeDefs : Json :=
  .obj [("Node", .obj [("type", .str "object"),
    ("properties", .obj [("child", .obj [("$ref", .str "#/$defs/Node")])])])]

def treeTool : PublishedTool where
  name := "mcp_trees_insert"
  description := "Insert a tree."
  parameters := .stored [("type", .str "object"),
    ("properties", .obj [("root", .obj [("$ref", .str "#/$defs/Node")])]), ("$defs", treeDefs)]

def treeCatalog : ToolCatalog := ⟨[treeTool], List.nodup_singleton _⟩

theorem not_inlinable_tree : ¬ Inlinable treeTool.parameters.current := by
  rintro ⟨hacyclic, -⟩
  have hchild : (schemaDocument treeDefs).Mentions (.obj [("$ref", .str "#/$defs/Node")]) "Node" :=
    (mentions_ref rfl).mpr rfl
  have hproperties : ∀ key, key ≠ "title" → key ≠ "$ref" → (schemaDocument treeDefs).Mentions
      (.obj [(key, .obj [("$ref", .str "#/$defs/Node")])]) "Node" := by
    intro key htitle href
    have hplain : localRef [(key, .obj [("$ref", .str "#/$defs/Node")])] = none := by
      simp [localRef, Dict.get?, href]
    refine (mentions_object hplain).mpr
      ⟨_, List.mem_filter.mpr ⟨List.mem_singleton_self _, ?_⟩, hchild⟩
    exact bne_iff_ne.mpr htitle
  have hnode : ∀ key, key ≠ "title" → key ≠ "$ref" → (schemaDocument treeDefs).Mentions
      (.obj [("type", .str "object"),
        ("properties", .obj [(key, .obj [("$ref", .str "#/$defs/Node")])])]) "Node" := by
    intro key htitle href
    apply (mentions_object rfl).mpr
    exact ⟨_, List.mem_cons_of_mem _ List.mem_cons_self, hproperties key htitle href⟩
  have hleads : (schemaDocument treeDefs).Leads "Node" "Node" :=
    hnode "child" (by decide) (by decide)
  have hroot := hnode "root" (by decide) (by decide)
  exact hacyclic "Node" ⟨"Node", hroot, .refl⟩ (.single hleads)

/-- One tool with a tree for an argument, and no turn of the agent gets to the model. -/
theorem schema_inlining_endless :
    (∀ depth, toOllamaSchemas depth treeCatalog.tools none = none) ∧
      ∀ depth, actTurn depth treeCatalog stubDeps (stubEnv { content := "42" }) none
        (stubState "q" {}) = none := by
  have hnever : ∀ depth, toOllamaSchemas depth treeCatalog.tools none = none := by
    intro depth
    rw [← Option.not_isSome_iff_eq_none]
    intro hsome
    apply not_inlinable_tree
    exact (toOllamaSchemas_returns treeCatalog none).mp ⟨depth, hsome⟩ treeTool
      (List.mem_singleton_self _) nofun
  refine ⟨hnever, fun depth => ?_⟩
  rw [actTurn, show (stubState "q" {}).policy.allowedTools = none from rfl, hnever]
  rfl

/-! ## The calls -/

/-- One tool message and one record for each requested call, in order; or, without
an answer, an interrupt for the calls that a human has to see. -/
def Handles (deps : Deps) (policy : Policy) (answer : Option Json) (calls : List ToolCall) :
    Outcome Update (List PendingApproval) AgentError → Prop
  | .update u =>
      (∃ assistant messages, u.messages = some (assistant :: messages) ∧
        List.Forall₂ Replies calls messages) ∧
      List.Forall₂ Records calls (u.toolsCalled.getD [])
  | .interrupt pending =>
      answer = none ∧ needsApproval deps policy calls ≠ [] ∧
        pending = pendingApprovals (needsApproval deps policy calls)
  | .error _ => False

/-- Pass 1 raises exactly where a call that a human has to see has no dict for
arguments. -/
theorem pass1_raises_iff {deps : Deps} {policy : Policy} {answer : Option Json}
    {calls : List ToolCall} :
    (∃ e, pass1 deps policy answer calls = .raised e) ↔
      ¬ ∀ tc ∈ needsApproval deps policy calls, tc.arguments.isDict = true := by
  constructor
  · rintro ⟨e, hraised⟩ hdict
    by_cases hnone : needsApproval deps policy calls = []
    · rw [pass1_of_none_flagged hnone] at hraised
      cases hraised
    · cases answer with
      | none =>
          rw [pass1_unanswered hnone hdict] at hraised
          cases hraised
      | some decision =>
          rw [pass1_answered hnone hdict] at hraised
          cases hraised
  · intro hnot
    cases hpass : pass1 deps policy answer calls with
    | raised e => exact ⟨e, rfl⟩
    | pause pending => exact absurd (pass1_eq_pause hpass).2.2.1 hnot
    | proceed approved =>
        rcases pass1_eq_proceed hpass with ⟨hnone, -⟩ | ⟨-, hdict, -⟩
        · rw [hnone] at hnot
          exact absurd (fun tc htc => absurd htc List.not_mem_nil) hnot
        · exact absurd hdict hnot

theorem act_handles_iff {deps : Deps} {env : Env} {answer : Option Json} {state : AgentState} :
    Handles deps state.policy answer (requested deps env state)
        (act deps env answer state).outcome ↔
      ∀ tc ∈ needsApproval deps state.policy (requested deps env state),
        tc.arguments.isDict = true := by
  rw [act_outcome]
  split
  next hnil =>
      rw [hnil]
      refine iff_of_true ⟨⟨_, [], rfl, .nil⟩, .nil⟩ ?_
      exact fun tc htc => absurd htc List.not_mem_nil
  next =>
      cases hpass : pass1 deps state.policy answer (requested deps env state) with
      | raised e => exact iff_of_false id (pass1_raises_iff.mp ⟨e, hpass⟩)
      | pause pending =>
          obtain ⟨hne, hanswer, hdict, hpending⟩ := pass1_eq_pause hpass
          exact iff_of_true ⟨hanswer, hne, hpending⟩ hdict
      | proceed approved =>
          refine iff_of_true ⟨⟨_, _, rfl, pass2_replies _⟩, pass2_recorded _⟩ ?_
          by_contra hnot
          obtain ⟨e, hraised⟩ := (@pass1_raises_iff _ _ answer _).mpr hnot
          rw [hpass] at hraised
          cases hraised

/-- A turn handles the calls of the response, whatever a human says, exactly when
the schemas of the offered tools can be inlined and every call that a human has to
see has a dict for arguments. -/
theorem malformed_calls_handled_iff (catalog : ToolCatalog) (deps : Deps) (env : Env)
    (state : AgentState) :
    (∃ depth, ∀ answer, ∃ x, actTurn depth catalog deps env answer state = some x ∧
      Handles (deps.serving catalog) state.policy answer
        (requested (deps.serving catalog) env state) x.outcome) ↔
    (∀ tool ∈ catalog.tools, Offered state.policy.allowedTools tool →
      Inlinable tool.parameters.current) ∧
    ∀ tc ∈ needsApproval (deps.serving catalog) state.policy
        (requested (deps.serving catalog) env state), tc.arguments.isDict = true := by
  rw [← toOllamaSchemas_returns catalog state.policy.allowedTools]
  constructor
  · rintro ⟨depth, h⟩
    obtain ⟨x, hx, hhandles⟩ := h none
    obtain ⟨schemas, hschemas, rfl⟩ := Option.map_eq_some_iff.mp hx
    exact ⟨⟨depth, Option.isSome_of_eq_some hschemas⟩, act_handles_iff.mp hhandles⟩
  · rintro ⟨⟨depth, hsome⟩, hdict⟩
    obtain ⟨schemas, hschemas⟩ := Option.isSome_iff_exists.mp hsome
    refine ⟨depth, fun answer => ⟨_, ?_, act_handles_iff.mpr hdict⟩⟩
    rw [actTurn, hschemas, Option.map_some]

/-- The stubbed sandbox tool, with a schema of its own. -/
def codeExecCatalog : ToolCatalog :=
  ⟨[{ codeExec with parameters := .fresh [("type", .str "object")] }], List.nodup_singleton _⟩

/-- The model asks for the sandbox with a string for arguments. -/
def stringCall : Env :=
  stubEnv { content := "", toolCalls := [⟨"code_exec", .str "print(1)"⟩] }

def approvalState : AgentState :=
  stubState "q" { approvalRules := { requireApprovalOnSideEffects := true } }

theorem malformed_call_raises :
    ¬ ∃ depth, ∀ answer, ∃ x,
      actTurn depth codeExecCatalog stubDeps stringCall answer approvalState = some x ∧
        Handles (stubDeps.serving codeExecCatalog) approvalState.policy answer
          (requested (stubDeps.serving codeExecCatalog) stringCall approvalState) x.outcome := by
  rintro ⟨depth, h⟩
  obtain ⟨x, hx, hhandles⟩ := h none
  obtain ⟨schemas, -, rfl⟩ := Option.map_eq_some_iff.mp hx
  exact hhandles

end Lour.Agents
