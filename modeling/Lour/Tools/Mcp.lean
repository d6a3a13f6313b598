import Lour.Tools.Registry
import Mathlib.Data.List.DropRight
/-!
# Tools of remote servers

An adapter registers each remote tool under a name made from its server's name and
its own, and a later adapter replaces an earlier one of the same name.  The names of
two tools may come out the same: the first of them cannot be called any more.
-/

namespace Lour.Tools

open Lour.Lib.Python

/-! ## Names -/

/-- The characters that `_NAME_RE` leaves alone. -/
def isNameChar (c : Char) : Bool :=
  ('a' ≤ c && c ≤ 'z') || ('0' ≤ c && c ≤ '9') || c == '_'

/-- `_NAME_RE.sub("_", ...)`; `inRun` says that the run goes on. -/
def subName (inRun : Bool) : List Char → List Char
  | [] => []
  | c :: cs =>
      if isNameChar c then c :: subName false cs
      else if inRun then subName true cs
      else '_' :: subName true cs

/-- `str.strip("_")`. -/
def stripUnderscores (cs : List Char) : List Char :=
  (cs.dropWhile (· == '_')).rdropWhile (· == '_')

/-- `_sanitize`. -/
def sanitize (raw : String) : String :=
  String.ofList ((stripUnderscores (subName false (raw.toList.flatMap lowerChar))).take 30)

/-! ## Adapters -/

structure RemoteTool where
  server : String
  name : String
  description : String
  inputSchema : Dict

structure McpToolAdapter extends BaseTool where
  server : String
  remoteName : String
  inputSchema : Dict

/-- `McpToolAdapter(remote, client)`. -/
def McpToolAdapter.init (remote : RemoteTool) : McpToolAdapter where
  name := sanitize s!"mcp_{remote.server}_{remote.name}"
  description := slice 1024
    (if remote.description = "" then s!"Remote MCP tool {remote.name}" else remote.description)
  server := remote.server
  remoteName := remote.name
  inputSchema := remote.inputSchema

/-- `execute`; `call` is the client's, and raises where it has an error. -/
def McpToolAdapter.execute (self : McpToolAdapter)
    (call : String → String → Dict → Except String Json) (args : Dict) :
    Except String ToolResult :=
  (call self.server self.remoteName args).map fun data =>
    .success data [("server", .str self.server), ("remote_tool", .str self.remoteName)]

/-- `adapt_mcp_tools`. -/
def adaptMcpTools (discovered : List RemoteTool) : List McpToolAdapter :=
  discovered.map McpToolAdapter.init

/-! ## The registry -/

inductive RegisteredTool where
  | builtin (tool : BaseTool)
  | mcp (adapter : McpToolAdapter)

def RegisteredTool.name : RegisteredTool → String
  | .builtin tool => tool.name
  | .mcp adapter => adapter.name

/-- The dict of a `ToolRegistry`. -/
structure ToolTable where
  tools : List RegisteredTool
  distinct : (tools.map RegisteredTool.name).Nodup

namespace ToolTable

def empty : ToolTable := ⟨[], List.nodup_nil⟩

def contains (self : ToolTable) (name : String) : Bool :=
  self.tools.any fun t => t.name == name

def get? (self : ToolTable) (name : String) : Option RegisteredTool :=
  self.tools.find? fun t => t.name == name

/-- `self._tools[tool.name] = tool`: a tool that is replaced keeps its place. -/
def set (self : ToolTable) (tool : RegisteredTool) : ToolTable :=
  if h : self.contains tool.name = true then
    { tools := self.tools.map fun t => if t.name = tool.name then tool else t
      distinct := by
        have hnames : (self.tools.map fun t => if t.name = tool.name then tool else t).map
            RegisteredTool.name = self.tools.map RegisteredTool.name := by
          rw [List.map_map]
          refine List.map_congr_left fun t _ => ?_
          by_cases ht : t.name = tool.name
          · simp [ht]
          · simp [ht]
        rw [hnames]
        exact self.distinct }
  else
    { tools := self.tools ++ [tool]
      distinct := by
        rw [List.map_append, List.nodup_append]
        refine ⟨self.distinct, List.nodup_singleton _, fun a ha b hb => ?_⟩
        obtain ⟨t, ht, rfl⟩ := List.mem_map.mp ha
        have hb : b = tool.name := by simpa using hb
        rw [hb]
        intro heq
        exact h (List.any_eq_true.mpr ⟨t, ht, beq_iff_eq.mpr heq⟩) }

/-- `register`. -/
def register (replace : Bool) (self : ToolTable) (tool : RegisteredTool) :
    Except String ToolTable :=
  if self.contains tool.name && !replace then
    .error s!"Tool {pyRepr tool.name} is already registered"
  else .ok (self.set tool)

theorem contains_eq_false {self : ToolTable} {name : String} :
    self.contains name = false ↔ self.get? name = none := by
  rw [contains, get?, List.any_eq_false, List.find?_eq_none]

/-- The tools that are not replaced stay as they are. -/
theorem find?_replace (tools : List RegisteredTool) (tool : RegisteredTool) (name : String) :
    (tools.map fun t => if t.name = tool.name then tool else t).find? (fun t => t.name == name) =
      (tools.find? fun t => t.name == name).map fun t =>
        if t.name = tool.name then tool else t := by
  rw [List.find?_map]
  congr 2
  funext t
  by_cases ht : t.name = tool.name
  · simp [ht]
  · simp [ht]

theorem get?_set (self : ToolTable) (tool : RegisteredTool) (name : String) :
    (self.set tool).get? name = if tool.name = name then some tool else self.get? name := by
  unfold set
  split
  next htaken =>
      show (self.tools.map fun t => if t.name = tool.name then tool else t).find?
        (fun t => t.name == name) = _
      rw [find?_replace]
      cases hfound : self.tools.find? fun t => t.name == name with
      | none =>
          have hnot : tool.name ≠ name := by
            intro heq
            rw [heq] at htaken
            rw [contains_eq_false.mpr hfound] at htaken
            cases htaken
          rw [if_neg hnot, get?, hfound]
          rfl
      | some t =>
          have hname := List.find?_some hfound
          rw [Option.map_some, beq_iff_eq.mp hname, get?, hfound]
          by_cases heq : tool.name = name
          · rw [if_pos heq.symm, if_pos heq]
          · rw [if_neg (Ne.symm heq), if_neg heq]
  next hfree =>
      show (self.tools ++ [tool]).find? (fun t => t.name == name) = _
      rw [List.find?_append]
      by_cases heq : tool.name = name
      · have hnone : self.get? name = none := by
          rw [← heq]
          exact contains_eq_false.mp (Bool.eq_false_of_not_eq_true hfree)
        rw [show self.tools.find? (fun t => t.name == name) = none from hnone]
        simp [heq]
      · simp [heq, get?]

/-- The last tool registered under a name is the one it has. -/
theorem get?_foldl_set (tools : List RegisteredTool) (self : ToolTable) (name : String) :
    (tools.foldl set self).get? name =
      (tools.reverse.find? fun t => t.name == name).or (self.get? name) := by
  induction tools generalizing self with
  | nil => rfl
  | cons tool tools ih =>
      rw [List.foldl_cons, ih, get?_set, List.reverse_cons, List.find?_append]
      by_cases heq : tool.name = name
      · simp [heq]
      · simp [heq]

/-- Of tools with different names every one is there afterwards. -/
theorem get?_foldl_set_mem {tools : List RegisteredTool} (self : ToolTable)
    (hdistinct : (tools.map RegisteredTool.name).Nodup) {tool : RegisteredTool}
    (htool : tool ∈ tools) : (tools.foldl set self).get? tool.name = some tool := by
  have hreverse : (tools.reverse.map RegisteredTool.name).Nodup := by
    rw [List.map_reverse]
    exact List.nodup_reverse.mpr hdistinct
  rw [get?_foldl_set, find?_of_nodup hreverse (List.mem_reverse.mpr htool)]
  rfl

theorem get?_foldl_set_other {tools : List RegisteredTool} (self : ToolTable) {name : String}
    (hother : ∀ tool ∈ tools, tool.name ≠ name) :
    (tools.foldl set self).get? name = self.get? name := by
  have hnone : tools.reverse.find? (fun t => t.name == name) = none := by
    rw [List.find?_eq_none]
    intro tool htool heq
    exact hother tool (List.mem_reverse.mp htool) (beq_iff_eq.mp heq)
  rw [get?_foldl_set, hnone, Option.none_or]

theorem foldlM_replace (tools : List RegisteredTool) (self : ToolTable) :
    tools.foldlM (register true) self = .ok (tools.foldl set self) := by
  induction tools generalizing self with
  | nil => rfl
  | cons tool tools ih =>
      rw [List.foldlM_cons, List.foldl_cons, register, Bool.not_true, Bool.and_false]
      exact ih (self.set tool)

/-- Tools of different names register without replacing any. -/
theorem foldlM_register {tools : List RegisteredTool} (self : ToolTable)
    (hdistinct : (tools.map RegisteredTool.name).Nodup)
    (hfree : ∀ tool ∈ tools, self.get? tool.name = none) :
    tools.foldlM (register false) self = .ok (tools.foldl set self) := by
  induction tools generalizing self with
  | nil => rfl
  | cons tool tools ih =>
      obtain ⟨hnot, hrest⟩ := List.nodup_cons.mp hdistinct
      obtain ⟨hfirst, hothers⟩ := List.forall_mem_cons.mp hfree
      rw [List.foldlM_cons, List.foldl_cons, register, contains_eq_false.mpr hfirst,
        Bool.false_and, if_neg Bool.false_ne_true]
      refine ih (self.set tool) hrest fun other hother => ?_
      have hne : tool.name ≠ other.name := fun heq =>
        hnot (heq ▸ List.mem_map_of_mem hother)
      rw [get?_set, if_neg hne]
      exact hothers other hother

end ToolTable

/-- The tool registration of the lifespan: the builtins, and what the servers have. -/
def lifespanTools (builtins : List BaseTool) (discovered : List RemoteTool) :
    Except String ToolTable := do
  let table ← (builtins.map RegisteredTool.builtin).foldlM (ToolTable.register false) .empty
  ((adaptMcpTools discovered).map RegisteredTool.mcp).foldlM (ToolTable.register true) table

/-- The adapter calls this tool of this server, with the arguments it is given. -/
def Calls (adapter : McpToolAdapter) (remote : RemoteTool) : Prop :=
  ∀ call args, adapter.execute call args =
    (call remote.server remote.name args).map fun data =>
      .success data [("server", .str remote.server), ("remote_tool", .str remote.name)]

/-- The registry has an adapter that calls the tool under the name of the tool's own. -/
def Reachable (table : ToolTable) (remote : RemoteTool) : Prop :=
  ∃ adapter, table.get? (McpToolAdapter.init remote).name = some (.mcp adapter) ∧
    Calls adapter remote

/-! ## The names of adapters -/

theorem calls_init (remote : RemoteTool) : Calls (McpToolAdapter.init remote) remote :=
  fun _ _ => rfl

/-- An adapter calls one tool only. -/
theorem Calls.unique {adapter : McpToolAdapter} {a b : RemoteTool} (ha : Calls adapter a)
    (hb : Calls adapter b) : (a.server, a.name) = (b.server, b.name) := by
  have hmeta := (ha (fun _ _ _ => .ok .null) []).symm.trans (hb (fun _ _ _ => .ok .null) [])
  simpa [Except.map, ToolResult.success] using hmeta

/-- The prefix of an adapter's name survives. -/
theorem mcp_isPrefix_sanitize {raw : String} (h : "mcp_".toList <+: raw.toList) :
    "mcp".toList <+: (sanitize raw).toList := by
  obtain ⟨rest, hrest⟩ := h
  have hlower : raw.toList.flatMap lowerChar =
      'm' :: 'c' :: 'p' :: '_' :: rest.flatMap lowerChar := by
    rw [← hrest]
    rfl
  have hsub : subName false (raw.toList.flatMap lowerChar) =
      ['m', 'c'] ++ 'p' :: '_' :: subName false (rest.flatMap lowerChar) := by
    rw [hlower]
    rfl
  have hstrip : stripUnderscores (subName false (raw.toList.flatMap lowerChar)) =
      ['m', 'c'] ++
        'p' :: ('_' :: subName false (rest.flatMap lowerChar)).rdropWhile (· == '_') := by
    rw [hsub, stripUnderscores]
    exact rdropWhile_append_of_not (by decide) ['m', 'c'] _
  have htext : (sanitize raw).toList =
      (stripUnderscores (subName false (raw.toList.flatMap lowerChar))).take 30 :=
    String.toList_ofList
  rw [htext, hstrip]
  exact ⟨_, rfl⟩

theorem mcp_isPrefix_init (remote : RemoteTool) :
    "mcp".toList <+: (McpToolAdapter.init remote).name.toList := by
  apply mcp_isPrefix_sanitize
  simp only [String.toList_append, List.append_assoc]
  exact List.prefix_append "mcp_".toList _

/-! ## Who can be reached -/

/-- All builtins stay, and every remote tool can be called under its name exactly when
no two names come out the same. -/
theorem mcp_tools_reachable_iff (builtins : List BaseTool) (discovered : List RemoteTool)
    (hdistinct : (builtins.map BaseTool.name).Nodup)
    (hnames : ∀ tool ∈ builtins, ¬ "mcp".toList <+: tool.name.toList)
    (hpairs : (discovered.map fun r => (r.server, r.name)).Nodup) :
    ∃ table, lifespanTools builtins discovered = .ok table ∧
      (∀ tool ∈ builtins, table.get? tool.name = some (.builtin tool)) ∧
      ((∀ remote ∈ discovered, Reachable table remote) ↔
        (discovered.map fun r => sanitize s!"mcp_{r.server}_{r.name}").Nodup) := by
  have hbuiltins : ((builtins.map RegisteredTool.builtin).map RegisteredTool.name).Nodup := by
    rw [List.map_map]
    exact hdistinct
  let known := (builtins.map RegisteredTool.builtin).foldl ToolTable.set .empty
  let adapters := (adaptMcpTools discovered).map RegisteredTool.mcp
  have hadapters : adapters.map RegisteredTool.name =
      discovered.map fun r => sanitize s!"mcp_{r.server}_{r.name}" := by
    simp [adapters, adaptMcpTools, List.map_map, Function.comp_def, RegisteredTool.name,
      McpToolAdapter.init]
  refine ⟨adapters.foldl ToolTable.set known, ?_, fun tool htool => ?_, ?_, ?_⟩
  · rw [lifespanTools, ToolTable.foldlM_register .empty hbuiltins fun _ _ => rfl]
    exact ToolTable.foldlM_replace adapters known
  · rw [ToolTable.get?_foldl_set_other known]
    · exact ToolTable.get?_foldl_set_mem .empty hbuiltins (List.mem_map_of_mem htool)
    · intro t ht heq
      obtain ⟨adapter, hadapter, rfl⟩ := List.mem_map.mp ht
      obtain ⟨remote, -, rfl⟩ := List.mem_map.mp hadapter
      apply hnames tool htool
      rw [← heq]
      exact mcp_isPrefix_init remote
  · intro hreachable
    have hnodup : discovered.Nodup := hpairs.of_map
    refine (List.nodup_map_iff_inj_on hnodup).mpr fun a ha b hb hname => ?_
    obtain ⟨adapter, hadapter, hcalls⟩ := hreachable a ha
    obtain ⟨adapter', hadapter', hcalls'⟩ := hreachable b hb
    have hsame : (McpToolAdapter.init a).name = (McpToolAdapter.init b).name := hname
    rw [hsame, hadapter'] at hadapter
    cases hadapter
    exact List.inj_on_of_nodup_map hpairs ha hb (hcalls.unique hcalls')
  · intro hnodup remote hremote
    have hmem : RegisteredTool.mcp (McpToolAdapter.init remote) ∈ adapters :=
      List.mem_map_of_mem (List.mem_map_of_mem hremote)
    rw [← hadapters] at hnodup
    refine ⟨McpToolAdapter.init remote, ?_, calls_init remote⟩
    show (adapters.foldl ToolTable.set known).get?
      (RegisteredTool.mcp (McpToolAdapter.init remote)).name = _
    exact ToolTable.get?_foldl_set_mem known hnodup hmem

def githubTool (name : String) : RemoteTool where
  server := "github"
  name := name
  description := ""
  inputSchema := []

theorem mcp_tools_reachable_iff_github :
    ∃ table, lifespanTools [⟨"code_exec", "Run code.", true⟩]
        [githubTool "create_issue", githubTool "list_issues"] = .ok table ∧
      (∀ tool ∈ [(⟨"code_exec", "Run code.", true⟩ : BaseTool)],
        table.get? tool.name = some (.builtin tool)) ∧
      ((∀ remote ∈ [githubTool "create_issue", githubTool "list_issues"],
          Reachable table remote) ↔
        ([githubTool "create_issue", githubTool "list_issues"].map fun r =>
          sanitize s!"mcp_{r.server}_{r.name}").Nodup) :=
  mcp_tools_reachable_iff _ _ (by decide) (by decide) (by decide)

/-- Two tools of one server, whose names differ after thirty characters. -/
theorem remote_tool_replaced :
    ¬ ∀ (builtins : List BaseTool) (discovered : List RemoteTool),
      (builtins.map BaseTool.name).Nodup →
      (∀ tool ∈ builtins, ¬ "mcp".toList <+: tool.name.toList) →
      (discovered.map fun r => (r.server, r.name)).Nodup →
      ∃ table, lifespanTools builtins discovered = .ok table ∧
        (∀ tool ∈ builtins, table.get? tool.name = some (.builtin tool)) ∧
        ∀ remote ∈ discovered, Reachable table remote := by
  intro h
  obtain ⟨table, htable, -, hreachable⟩ := h []
    [githubTool "create_pull_request", githubTool "create_pull_request_review"]
    (by decide) (by decide) (by decide)
  obtain ⟨adapter, hadapter, hcalls⟩ := hreachable _ List.mem_cons_self
  obtain ⟨adapter', hadapter', hcalls'⟩ :=
    hreachable _ (List.mem_cons_of_mem _ List.mem_cons_self)
  have hname : (McpToolAdapter.init (githubTool "create_pull_request")).name =
      (McpToolAdapter.init (githubTool "create_pull_request_review")).name := by decide
  rw [hname, hadapter'] at hadapter
  cases hadapter
  exact absurd (hcalls.unique hcalls') (by decide)

end Lour.Tools
