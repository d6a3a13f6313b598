import Lour.Lib.Doubles
import Lour.Lib.Fallible
import Lour.Lib.JsonReader
import Lour.Lib.OrderedDict
import Lour.Tools.Mcp
/-!
# Starting the MCP client

What the lifespan does with `MCP_SERVERS_JSON`: parse it, connect to each server, adapt
what the servers list, register the adapters.  Only what a server does is caught.
-/

namespace Lour.Tools

open Lour.Lib Lour.Lib.Python

/-! ## The configured servers -/

/-- A hashable value as a key; numbers are one key where they are equal, a float being the
double that it stands for. -/
inductive Key where
  | none
  | str (s : String)
  | number (q : Rat)
  | inf (neg : Bool)
  | nan
  deriving DecidableEq

/-- `hash(x)`; `none` where it raises. -/
def hashKey : Json → Option Key
  | .null => some .none
  | .bool b => some (.number (if b then 1 else 0))
  | .int i => some (.number i)
  | .float (.finite d) => some (.number (toDouble d.toRat))
  | .float (.inf neg) => some (.inf neg)
  | .float .nan => some .nan
  | .str s => some (.str s)
  | .arr _ => none
  | .obj _ => none

/-- `iter(x)`; `none` where it raises. -/
def iterate : Json → Option (List Json)
  | .arr xs => some xs
  | .str s => some (s.toList.map fun c => .str (String.singleton c))
  | .obj entries => some (entries.map fun e => .str e.1)
  | _ => none

/-- One entry of a dict made from an iterable. -/
def dictPair (item : Json) : Except String (Key × Json) :=
  match iterate item with
  | none => .error "cannot convert dictionary update sequence element to a sequence"
  | some [k, v] =>
      match hashKey k with
      | none => .error "unhashable type"
      | some key => .ok (key, v)
  | some _ => .error "dictionary update sequence element has the wrong length; 2 is required"

/-- `dict(x)`. -/
def toDict (x : Json) : Except String (OrderedDict Key Json) :=
  match x with
  | .obj entries => .ok (entries.foldl (fun d e => d.set (.str e.1) e.2) .empty)
  | x =>
      match iterate x with
      | none => .error "object is not iterable"
      | some items => do
          let pairs ← items.mapM dictPair
          .ok (pairs.foldl (fun d e => d.set e.1 e.2) .empty)

/-! ## `McpClient` -/

structure ServerParams where
  command : Json
  args : Json
  env : Json

structure ListedTool where
  name : String
  description : Option String := none
  inputSchema : Option Dict := none

/-- How far a server gets. -/
inductive Launch where
  /-- The parameters are refused, or the launch or `initialize` raises. -/
  | failed (exc : String)
  /-- `list_tools` raises. -/
  | unlisted (exc : String)
  | listed (tools : List ListedTool)

structure McpHost where
  /-- `json.loads`. -/
  loads : String → Except String Json
  /-- `StdioServerParameters`, the session and `list_tools`. -/
  launch : Key → ServerParams → Launch

/-- `McpSettings.servers`. -/
def McpHost.servers (self : McpHost) (serversJson : String) : Except String Json :=
  if strip serversJson = "" then .ok (.obj []) else self.loads serversJson

/-- `cfg["command"]`, `cfg.get("args", [])` and `cfg.get("env")`. -/
def serverParams : Json → Except String ServerParams
  | .obj entries =>
      match Dict.get? entries "command" with
      | none => .error "'command'"
      | some command =>
          .ok ⟨command, (Dict.get? entries "args").getD (.arr []),
            (Dict.get? entries "env").getD .null⟩
  | _ => .error "not a mapping"

/-- `RemoteTool(server=name, ...)`: the server's name has to be a string. -/
def remoteTool (name : Key) (t : ListedTool) : Except String RemoteTool :=
  match name with
  | .str server => .ok ⟨server, t.name, t.description.getD "", t.inputSchema.getD []⟩
  | _ => .error "Input should be a valid string"

structure McpClient where
  sessions : List Key := []
  tools : List RemoteTool := []

namespace McpClient

/-- The loop over the listed tools, up to one that raises. -/
def appendTools (name : Key) : List ListedTool → List RemoteTool → List RemoteTool
  | [], tools => tools
  | t :: listed, tools =>
      match remoteTool name t with
      | .error _ => tools
      | .ok remote => appendTools name listed (tools ++ [remote])

def connectServer (host : McpHost) (self : McpClient) (server : Key × Json) : McpClient :=
  match serverParams server.2 with
  | .error _ => self
  | .ok params =>
      match host.launch server.1 params with
      | .failed _ => self
      | .unlisted _ => { self with sessions := self.sessions ++ [server.1] }
      | .listed listed =>
          { sessions := self.sessions ++ [server.1]
            tools := appendTools server.1 listed self.tools }

/-- `connect`; without servers the client stays as it is. -/
def connect (host : McpHost) (servers : OrderedDict Key Json) : McpClient :=
  servers.entries.foldl (connectServer host) {}

end McpClient

/-- The lifespan's part: the registry that has the builtins already comes out with the
adapters. -/
def startMcp (host : McpHost) (serversJson : String) (table : ToolTable) :
    Except String ToolTable := do
  let parsed ← host.servers serversJson
  let servers ← toDict parsed
  let client := McpClient.connect host servers
  ((adaptMcpTools client.tools).map RegisteredTool.mcp).foldlM (ToolTable.register true) table

/-! ## What the client finds -/

/-- The tools of a server whose listing succeeds. -/
def listedTools (host : McpHost) (server : Key × Json) : List ListedTool :=
  match serverParams server.2 with
  | .error _ => []
  | .ok params =>
      match host.launch server.1 params with
      | .listed listed => listed
      | _ => []

/-- The tools that the client finds on a server: all, if the server has a name. -/
def found (host : McpHost) (server : Key × Json) : List RemoteTool :=
  (listedTools host server).filterMap fun t => (remoteTool server.1 t).toOption

theorem remoteTool_str (name : String) (t : ListedTool) :
    remoteTool (.str name) t =
      .ok ⟨name, t.name, t.description.getD "", t.inputSchema.getD []⟩ := rfl

theorem remoteTool_other {name : Key} (h : ∀ server, name ≠ .str server) (t : ListedTool) :
    ∃ exc, remoteTool name t = .error exc := by
  cases name with
  | str server => exact absurd rfl (h server)
  | none => exact ⟨_, rfl⟩
  | number q => exact ⟨_, rfl⟩
  | inf neg => exact ⟨_, rfl⟩
  | nan => exact ⟨_, rfl⟩

/-- Whether a tool gets through depends on the server alone. -/
theorem appendTools_eq (name : Key) (listed : List ListedTool) (tools : List RemoteTool) :
    McpClient.appendTools name listed tools =
      tools ++ listed.filterMap fun t => (remoteTool name t).toOption := by
  by_cases hname : ∃ server, name = .str server
  · obtain ⟨server, hserver⟩ := hname
    subst hserver
    induction listed generalizing tools with
    | nil => exact (List.append_nil _).symm
    | cons t listed ih =>
        rw [McpClient.appendTools, remoteTool_str]
        simp only
        rw [ih, List.filterMap_cons, remoteTool_str, List.append_assoc]
        rfl
  · have hother : ∀ server, name ≠ .str server := fun server h => hname ⟨server, h⟩
    have hnone : (listed.filterMap fun t => (remoteTool name t).toOption) = [] := by
      rw [List.filterMap_eq_nil_iff]
      intro t _
      obtain ⟨exc, hexc⟩ := remoteTool_other hother t
      rw [hexc]
      rfl
    rw [hnone, List.append_nil]
    cases listed with
    | nil => rfl
    | cons t listed =>
        obtain ⟨exc, hexc⟩ := remoteTool_other hother t
        rw [McpClient.appendTools, hexc]

theorem connectServer_tools (host : McpHost) (client : McpClient) (server : Key × Json) :
    (client.connectServer host server).tools = client.tools ++ found host server := by
  cases hparams : serverParams server.2 with
  | error e =>
      simp only [McpClient.connectServer, found, listedTools, hparams]
      exact (List.append_nil _).symm
  | ok params =>
      cases hlaunch : host.launch server.1 params with
      | failed exc =>
          simp only [McpClient.connectServer, found, listedTools, hparams, hlaunch]
          exact (List.append_nil _).symm
      | unlisted exc =>
          simp only [McpClient.connectServer, found, listedTools, hparams, hlaunch]
          exact (List.append_nil _).symm
      | listed listed =>
          simp only [McpClient.connectServer, found, listedTools, hparams, hlaunch]
          exact appendTools_eq server.1 listed client.tools

theorem connect_tools (host : McpHost) (servers : OrderedDict Key Json) :
    (McpClient.connect host servers).tools = servers.entries.flatMap (found host) := by
  have hfold : ∀ (entries : List (Key × Json)) (client : McpClient),
      (entries.foldl (McpClient.connectServer host) client).tools =
        client.tools ++ entries.flatMap (found host) := by
    intro entries
    induction entries with
    | nil => exact fun client => (List.append_nil _).symm
    | cons server entries ih =>
        intro client
        rw [List.foldl_cons, ih, connectServer_tools, List.flatMap_cons, List.append_assoc]
  exact hfold servers.entries {}

/-! ## What gets into the registry -/

theorem contains_foldl_set (tools : List RegisteredTool) (table : ToolTable) {name : String}
    (h : ∃ tool ∈ tools, tool.name = name) : (tools.foldl ToolTable.set table).contains name := by
  apply Bool.eq_true_of_not_eq_false
  rw [ToolTable.contains_eq_false, ToolTable.get?_foldl_set, Option.or_eq_none_iff,
    List.find?_eq_none]
  intro hnone
  obtain ⟨tool, htool, hname⟩ := h
  exact hnone.1 tool (List.mem_reverse.mpr htool) (beq_iff_eq.mpr hname)

/-- The registry has the name of an adapter for the tool; there can be one only where the
server has a name. -/
def Registered (table : ToolTable) (server : Key) (t : ListedTool) : Prop :=
  ∃ name, server = .str name ∧ table.contains (sanitize s!"mcp_{name}_{t.name}") = true

/-- Starting MCP raises nothing, and every tool that a server lists is registered. -/
def FailSoft (host : McpHost) (serversJson : String) (table : ToolTable) : Prop :=
  ∃ after, startMcp host serversJson table = .ok after ∧
    ∀ parsed servers, host.servers serversJson = .ok parsed → toDict parsed = .ok servers →
      ∀ server ∈ servers.entries, ∀ t ∈ listedTools host server, Registered after server.1 t

/-- The text is blank, or JSON that makes a dict in which no server without a name lists
a tool. -/
def Configured (host : McpHost) (serversJson : String) : Prop :=
  strip serversJson = "" ∨
    ∃ parsed servers, host.loads serversJson = .ok parsed ∧ toDict parsed = .ok servers ∧
      ∀ server ∈ servers.entries, (∀ name, server.1 ≠ .str name) → listedTools host server = []

theorem startMcp_eq {host : McpHost} {serversJson : String} {parsed : Json}
    {servers : OrderedDict Key Json} (hparsed : host.servers serversJson = .ok parsed)
    (hservers : toDict parsed = .ok servers) (table : ToolTable) :
    startMcp host serversJson table =
      .ok (((adaptMcpTools (servers.entries.flatMap (found host))).map RegisteredTool.mcp).foldl
        ToolTable.set table) := by
  rw [startMcp, hparsed]
  show (toDict parsed >>= _) = _
  rw [hservers]
  show ((adaptMcpTools (McpClient.connect host servers).tools).map RegisteredTool.mcp).foldlM
    (ToolTable.register true) table = _
  rw [ToolTable.foldlM_replace, connect_tools]

theorem mem_found {host : McpHost} {server : Key × Json} {name : String}
    (hname : server.1 = .str name) {t : ListedTool} (ht : t ∈ listedTools host server) :
    ∃ remote ∈ found host server, remote.server = name ∧ remote.name = t.name := by
  refine ⟨⟨name, t.name, t.description.getD "", t.inputSchema.getD []⟩, ?_, rfl, rfl⟩
  apply List.mem_filterMap.mpr
  refine ⟨t, ht, ?_⟩
  rw [hname]
  rfl

/-- Every tool of a server with a name is registered. -/
theorem registered_of_found {host : McpHost} {servers : OrderedDict Key Json} (table : ToolTable)
    {server : Key × Json} (hserver : server ∈ servers.entries) {name : String}
    (hname : server.1 = .str name) {t : ListedTool} (ht : t ∈ listedTools host server) :
    Registered (((adaptMcpTools (servers.entries.flatMap (found host))).map
      RegisteredTool.mcp).foldl ToolTable.set table) server.1 t := by
  refine ⟨name, hname, ?_⟩
  apply contains_foldl_set
  obtain ⟨remote, hremote, hserverName, htoolName⟩ := mem_found hname ht
  refine ⟨.mcp (McpToolAdapter.init remote), ?_, ?_⟩
  · apply List.mem_map_of_mem
    apply List.mem_map_of_mem
    exact List.mem_flatMap.mpr ⟨server, hserver, hremote⟩
  · show sanitize s!"mcp_{remote.server}_{remote.name}" = _
    rw [hserverName, htoolName]

/-- Where the text makes a dict and only servers with a name list tools, the start is
fail-soft. -/
theorem failSoft_of_named {host : McpHost} {serversJson : String} {parsed : Json}
    {servers : OrderedDict Key Json} (hparsed : host.servers serversJson = .ok parsed)
    (hservers : toDict parsed = .ok servers)
    (hnamed : ∀ server ∈ servers.entries, (∀ name, server.1 ≠ .str name) →
      listedTools host server = []) (table : ToolTable) : FailSoft host serversJson table := by
  refine ⟨_, startMcp_eq hparsed hservers table, ?_⟩
  intro parsed' servers' hparsed' hservers' server hserver t ht
  rw [hparsed] at hparsed'
  cases hparsed'
  rw [hservers] at hservers'
  cases hservers'
  by_cases hname : ∃ name, server.1 = .str name
  · obtain ⟨name, hname⟩ := hname
    exact registered_of_found table hserver hname ht
  · have hnone := hnamed server hserver fun name h => hname ⟨name, h⟩
    rw [hnone] at ht
    exact absurd ht List.not_mem_nil

/-- Starting MCP is fail-soft exactly for the texts that configure servers. -/
theorem mcp_failSoft_iff (host : McpHost) (serversJson : String) (table : ToolTable) :
    FailSoft host serversJson table ↔ Configured host serversJson := by
  rw [Configured]
  by_cases hblank : strip serversJson = ""
  · apply iff_of_true _ (.inl hblank)
    have hservers : host.servers serversJson = .ok (.obj []) := by
      rw [McpHost.servers, if_pos hblank]
    have hdict : toDict (.obj []) = .ok .empty := rfl
    apply failSoft_of_named hservers hdict
    exact fun server hserver => absurd hserver List.not_mem_nil
  · have hservers : host.servers serversJson = host.loads serversJson := by
      rw [McpHost.servers, if_neg hblank]
    rw [or_iff_right hblank]
    constructor
    · rintro ⟨after, hstart, hregistered⟩
      obtain ⟨parsed, hparsed, hrest⟩ := bind_eq_ok.mp hstart
      obtain ⟨servers, hdict, -⟩ := bind_eq_ok.mp hrest
      refine ⟨parsed, servers, hservers ▸ hparsed, hdict, ?_⟩
      intro server hserver hother
      apply List.eq_nil_iff_forall_not_mem.mpr
      intro t ht
      obtain ⟨name, hname, -⟩ := hregistered parsed servers hparsed hdict server hserver t ht
      exact hother name hname
    · rintro ⟨parsed, servers, hloads, hdict, hnamed⟩
      exact failSoft_of_named (hservers.trans hloads) hdict hnamed table

/-- No server gets through. -/
def offline : McpHost where
  loads s :=
    match Json.loads s with
    | none => .error "JSONDecodeError"
    | some x => .ok x
  launch _ _ := .failed "No such file or directory"

/-- A text that is no JSON ends the startup. -/
theorem mcp_not_failSoft :
    ¬ ∀ (host : McpHost) (serversJson : String) (table : ToolTable),
      FailSoft host serversJson table := by
  intro hall
  obtain ⟨after, hstart, -⟩ := hall offline "github" .empty
  have hraised : startMcp offline "github" .empty = .error "JSONDecodeError" := by rfl
  rw [hraised] at hstart
  cases hstart

end Lour.Tools
