import Lour.Lib.JsonReader
import Lour.Llm.Cloud
/-!
# Tools through the OpenAI provider

The schemas of a registry are in the OpenAI form already, and the provider wraps them
once more.  The arguments of a call are parsed with nothing to catch what the parser
raises.
-/

namespace Lour.Llm

open Lour.Lib Lour.Lib.Python Lour.Agents Lour.Tools

/-! ## The schemas of a registry -/

/-- The documented form of a tool: its name, its description and its cleaned
parameters. -/
def Documented (depth : ℕ) (tool : PublishedTool) (entry : Json) : Prop :=
  ∃ parameters, cleanJsonSchema depth tool.parameters.current = some parameters ∧
    entry = .obj [("type", .str "function"), ("function", .obj [("name", .str tool.name),
      ("description", .str tool.description), ("parameters", .obj parameters)])]

theorem documented_iff {depth : ℕ} {tool : PublishedTool} {entry : Json} :
    Documented depth tool entry ↔ tool.toOllamaSchema depth = some entry := by
  rw [PublishedTool.toOllamaSchema, Option.map_eq_some_iff]
  apply exists_congr
  intro parameters
  rw [eq_comm (a := entry)]

/-- The tools that the allowlist lets the model see, in the order of the registry. -/
def seen (catalog : ToolCatalog) (allowed : Option (Finset String)) : List PublishedTool :=
  catalog.tools.filter fun t =>
    match allowed with
    | none => true
    | some names => decide (t.name ∈ names)

theorem asks_eq (catalog : ToolCatalog) (allowed : Option (Finset String)) :
    (SchemaCall.toOllamaSchemas allowed).asks catalog.tools =
      (seen catalog allowed).map fun t => t.name := by
  rw [SchemaCall.asks, List.filter_map]
  rfl

/-- A tool that is not popped is rendered as before. -/
theorem renderAll_documented {depth : ℕ} {tools : List PublishedTool} {asked : List PublishedTool}
    (hdistinct : (asked.map fun t => t.name).Nodup)
    (hfound : ∀ tool ∈ asked, (tools.find? fun t => t.name == tool.name) = some tool)
    {schemas : List Json}
    (h : (renderAll depth tools (asked.map fun t => t.name)).2.mapM Rendering.schema =
      some schemas) : List.Forall₂ (Documented depth) asked schemas := by
  induction asked generalizing tools schemas with
  | nil =>
      cases h
      exact .nil
  | cons tool asked ih =>
      obtain ⟨hnew, hdistinct⟩ := List.nodup_cons.mp hdistinct
      obtain ⟨htool, hasked⟩ := List.forall_mem_cons.mp hfound
      cases hschema : tool.toOllamaSchema depth with
      | none =>
          simp only [List.map_cons, renderAll, htool, hschema] at h
          cases h
      | some schema =>
          simp only [List.map_cons, renderAll, htool, hschema] at h
          obtain ⟨first, rest, hfirst, hrest, heq⟩ := mapM_cons_eq_some.mp h
          cases hfirst
          rw [heq]
          refine .cons (documented_iff.mpr hschema) (ih hdistinct ?_ hrest)
          intro other hother
          have hne : other.name ≠ tool.name := by
            intro hname
            apply hnew
            exact List.mem_map.mpr ⟨other, hother, hname⟩
          rw [find_popTool, hasked other hother, Option.map_some, if_neg hne]

/-- What `to_ollama_schemas` gives is in the documented form. -/
theorem toOllamaSchemas_documented {depth : ℕ} {catalog : ToolCatalog}
    {allowed : Option (Finset String)} {schemas : List Json}
    (h : toOllamaSchemas depth catalog.tools allowed = some schemas) :
    List.Forall₂ (Documented depth) (seen catalog allowed) schemas := by
  rw [toOllamaSchemas, asks_eq] at h
  apply renderAll_documented _ _ h
  · exact catalog.distinct.sublist (List.filter_sublist.map _)
  · exact fun tool htool => catalog.find_of_mem (List.mem_of_mem_filter htool)

/-! ## The request -/

/-- The `tools` field has the documented form of each tool, in order; there is no such
field where no tool is seen. -/
def ToolsDocumented (depth : ℕ) (tools : List PublishedTool)
    (request : OrderedDict String Argument) : Prop :=
  match request.get? "tools" with
  | none => tools = []
  | some (.json (.arr entries)) => List.Forall₂ (Documented depth) tools entries
  | some _ => False

namespace OpenAIProvider

variable {self : OpenAIProvider} {messages : List LLMMessage}

/-- `tools=tool_schemas or None`. -/
def orNone (schemas : List Json) : Option (List Json) :=
  if schemas.isEmpty then none else some schemas

theorem request_tools (schemas : List Json) :
    (self.request messages (orNone schemas) (some actOptions)).get? "tools" =
      if schemas = [] then none else some (.json (.arr (schemas.map wrapped))) := by
  have hoption : ∀ kwargs : OrderedDict String Argument,
      (actOptions.foldl (fun kwargs option => kwargs.set option.1 (.json option.2)) kwargs).get?
        "tools" = kwargs.get? "tools" := by
    intro kwargs
    show (kwargs.set "temperature" _).get? "tools" = _
    rw [OrderedDict.get?_set, if_neg (by decide)]
  rw [request, Option.getD_some, hoption]
  cases schemas with
  | nil => rfl
  | cons schema schemas =>
      show (OrderedDict.set _ "tools" _).get? "tools" = _
      rw [OrderedDict.get?_set, if_pos rfl, if_neg (List.cons_ne_nil _ _)]
      rfl

/-- What is in the documented form is no longer so when it is wrapped again. -/
theorem not_documented_wrapped {depth : ℕ} {tool : PublishedTool} {entry : Json}
    (h : Documented depth tool entry) : ¬ Documented depth tool (wrapped entry) := by
  rintro ⟨parameters, -, hwrapped⟩
  obtain ⟨_, -, hentry⟩ := h
  rw [hentry, wrapped] at hwrapped
  simp at hwrapped

theorem toolsDocumented_iff {depth : ℕ} {catalog : ToolCatalog} {allowed : Option (Finset String)}
    {schemas : List Json} (h : toOllamaSchemas depth catalog.tools allowed = some schemas) :
    ToolsDocumented depth (seen catalog allowed)
        (self.request messages (orNone schemas) (some actOptions)) ↔ seen catalog allowed = [] := by
  have hdocumented := toOllamaSchemas_documented h
  rw [ToolsDocumented, request_tools]
  generalize seen catalog allowed = tools at hdocumented
  cases hdocumented with
  | nil => exact Iff.rfl
  | cons htool hrest =>
      rw [if_neg (List.cons_ne_nil _ _)]
      refine iff_of_false ?_ (List.cons_ne_nil _ _)
      intro hwrapped
      cases hwrapped with
      | cons hfirst _ => exact not_documented_wrapped htool hfirst

/-! ## The reply -/

/-- `chat` returns the calls of the reply, each with its arguments as parsed, or raises
an `LLMError`. -/
def AnswersCalls (loads : String → Except String Json) (calls : List OpenAICall) :
    Except ChatFailure CloudResponse → Prop
  | .ok response => List.Forall₂ (fun call entry =>
      entry.name = call.name ∧ loads call.arguments = .ok entry.arguments) calls response.toolCalls
  | .error (.llmError _) => True
  | .error (.raised _) => False

/-- The arguments of every call can be parsed. -/
def Parsed (loads : String → Except String Json) (calls : List OpenAICall) : Prop :=
  ∀ call ∈ calls, ∃ arguments, loads call.arguments = .ok arguments

theorem mapM_toolCall {calls : List OpenAICall} {toolCalls : List ToolCall}
    (h : calls.mapM self.toolCall = .ok toolCalls) :
    List.Forall₂ (fun call entry =>
      entry.name = call.name ∧ self.loads call.arguments = .ok entry.arguments) calls toolCalls := by
  induction calls generalizing toolCalls with
  | nil =>
      cases h
      exact .nil
  | cons call calls ih =>
      obtain ⟨first, rest, hfirst, hrest, heq⟩ := mapM_cons_eq_ok.mp h
      rw [heq]
      refine .cons ?_ (ih hrest)
      rw [toolCall] at hfirst
      cases hloads : self.loads call.arguments with
      | error exc =>
          rw [hloads] at hfirst
          cases hfirst
      | ok arguments =>
          rw [hloads] at hfirst
          cases hfirst
          exact ⟨rfl, rfl⟩

theorem answersCalls_iff {tools : Option (List Json)} {options : Option Dict}
    {reply : OpenAIReply} (hreply : self.create (self.request messages tools options) = .ok reply) :
    AnswersCalls self.loads reply.toolCalls (self.chat messages tools options) ↔
      Parsed self.loads reply.toolCalls := by
  have hcall : ∀ call, (∃ entry, self.toolCall call = .ok entry) ↔
      ∃ arguments, self.loads call.arguments = .ok arguments := by
    intro call
    rw [toolCall]
    cases self.loads call.arguments with
    | error exc => simp
    | ok arguments => simp
  have hparsed : Parsed self.loads reply.toolCalls ↔
      ∃ toolCalls, reply.toolCalls.mapM self.toolCall = .ok toolCalls := by
    rw [exists_mapM_ok, Parsed]
    simp only [hcall]
  rw [chat, hreply, hparsed]
  simp only
  cases hcalls : reply.toolCalls.mapM self.toolCall with
  | ok toolCalls =>
      refine iff_of_true ?_ ⟨toolCalls, rfl⟩
      show List.Forall₂ _ reply.toolCalls toolCalls
      exact mapM_toolCall hcalls
  | error e =>
      refine iff_of_false ?_ (by simp)
      obtain ⟨before, call, after, -, -, hraised⟩ := mapM_eq_error.mp hcalls
      rw [toolCall] at hraised
      cases hloads : self.loads call.arguments with
      | ok arguments =>
          rw [hloads] at hraised
          cases hraised
      | error exc =>
          rw [hloads] at hraised
          cases hraised
          exact fun h => h

/-- The tools reach the model in the documented form, and the calls come back or an
`LLMError` does, exactly where no tool is offered and all arguments can be parsed. -/
theorem chat_keeps_tools_iff (self : OpenAIProvider) (depth : ℕ) (catalog : ToolCatalog)
    (allowed : Option (Finset String)) (schemas : List Json) (messages : List LLMMessage)
    (reply : OpenAIReply) (hschemas : toOllamaSchemas depth catalog.tools allowed = some schemas)
    (hreply : self.create (self.request messages (orNone schemas) (some actOptions)) =
      .ok reply) :
    ToolsDocumented depth (seen catalog allowed)
        (self.request messages (orNone schemas) (some actOptions)) ∧
      AnswersCalls self.loads reply.toolCalls
        (self.chat messages (orNone schemas) (some actOptions)) ↔
    seen catalog allowed = [] ∧ Parsed self.loads reply.toolCalls := by
  rw [toolsDocumented_iff hschemas, answersCalls_iff hreply]

/-- A provider whose model asks for one tool, with these arguments. -/
def asking (arguments : String) : OpenAIProvider where
  create _ := .ok
    { content := none
      toolCalls := [⟨"web_search", arguments⟩]
      usage := none
      model := "gpt-4o" }
  loads s :=
    match Json.loads s with
    | none => .error "JSONDecodeError"
    | some x => .ok x

theorem chat_keeps_tools_none :
    ToolsDocumented 8 [] ((asking "\x7b\x7d").request [.user "Hello"] none (some actOptions)) ∧
      AnswersCalls (asking "\x7b\x7d").loads [⟨"web_search", "\x7b\x7d"⟩]
        ((asking "\x7b\x7d").chat [.user "Hello"] none (some actOptions)) := by
  have hparsed : Parsed (asking "\x7b\x7d").loads [⟨"web_search", "\x7b\x7d"⟩] :=
    List.forall_mem_singleton.mpr ⟨.obj [], rfl⟩
  exact (chat_keeps_tools_iff (asking "\x7b\x7d") 8 ⟨[], List.nodup_nil⟩ none [] [.user "Hello"] _
    rfl rfl).mpr ⟨rfl, hparsed⟩

/-- One tool without arguments. -/
def oneTool : ToolCatalog where
  tools := [{ name := "web_search"
              description := "Search the web."
              parameters := .fresh [("type", .str "object")] }]
  distinct := List.nodup_singleton _

/-- It is offered as a function that has a function. -/
theorem chat_loses_tools :
    ¬ ∀ (self : OpenAIProvider) (depth : ℕ) (catalog : ToolCatalog)
      (allowed : Option (Finset String)) (schemas : List Json) (messages : List LLMMessage)
      (reply : OpenAIReply), toOllamaSchemas depth catalog.tools allowed = some schemas →
      self.create (self.request messages (orNone schemas) (some actOptions)) = .ok reply →
      ToolsDocumented depth (seen catalog allowed)
          (self.request messages (orNone schemas) (some actOptions)) ∧
        AnswersCalls self.loads reply.toolCalls
          (self.chat messages (orNone schemas) (some actOptions)) := by
  intro hall
  have hschemas : toOllamaSchemas 8 oneTool.tools none =
      some [.obj [("type", .str "function"), ("function", .obj [("name", .str "web_search"),
        ("description", .str "Search the web."),
        ("parameters", .obj [("type", .str "object")])])]] := rfl
  have hkept := (hall (asking "\x7b\x7d") 8 oneTool none _ [.user "Hello"] _ hschemas rfl).1
  exact absurd ((toolsDocumented_iff hschemas).mp hkept) (List.cons_ne_nil _ _)

end OpenAIProvider

end Lour.Llm
