import Mathlib.Algebra.Order.BigOperators.Group.List
import Lour.Agents.Nodes
import Lour.Lib.OrderedDict
import Lour.Tools.Rendering
/-!
# The cloud providers

What the two cloud providers send for a list of messages and tools, and what they make
of a reply.  The SDK's call is a parameter: it returns a reply or raises.
-/

namespace Lour.Llm

open Lour.Lib Lour.Lib.Python Lour.Agents Lour.Tools

structure CloudResponse extends LLMResponse where
  model : String

/-- What a call of the SDK raises. -/
inductive SdkFailure where
  | apiError (exc : String)
  | other (exc : String)

inductive ChatFailure where
  | llmError (message : String)
  | raised (exc : String)

/-! ## `AnthropicProvider` -/

structure AnthropicRequest where
  model : String
  maxTokens : Json
  messages : List LLMMessage
  system : Option String := none
  tools : Option (List Json) := none

inductive Block where
  | text (text : String)
  | toolUse (name : String) (input : Json)
  | other (type : String)

structure AnthropicReply where
  content : List Block
  model : String
  inputTokens : Int
  outputTokens : Int

structure AnthropicProvider where
  model : String := "claude-3-5-sonnet-20241022"
  create : AnthropicRequest → Except SdkFailure AnthropicReply

namespace AnthropicProvider

variable (self : AnthropicProvider)

/-- One round of the loop over the messages: the system text so far, and the others. -/
def splitMessage (acc : String × List LLMMessage) (m : LLMMessage) : String × List LLMMessage :=
  match m with
  | .system content => (content, acc.2)
  | m => (acc.1, acc.2 ++ [m])

def request (messages : List LLMMessage) (tools : Option (List Json)) (options : Option Dict) :
    AnthropicRequest :=
  let (system, filtered) := messages.foldl splitMessage ("", [])
  { model := self.model
    maxTokens := (Dict.get? (options.getD []) "max_tokens").getD (.int 4096)
    messages := filtered
    system := if system = "" then none else some system
    tools := if (tools.getD []).isEmpty then none else tools }

/-- One round of the loop over the blocks. -/
def readBlock (acc : String × List ToolCall) (block : Block) : String × List ToolCall :=
  match block with
  | .text text => (text, acc.2)
  | .toolUse name input => (acc.1, acc.2 ++ [⟨name, input⟩])
  | .other _ => acc

def response (reply : AnthropicReply) : CloudResponse :=
  let (content, toolCalls) := reply.content.foldl readBlock ("", [])
  { content, toolCalls
    promptTokens := reply.inputTokens
    completionTokens := reply.outputTokens
    model := reply.model }

def chat (messages : List LLMMessage) (tools : Option (List Json)) (options : Option Dict) :
    Except ChatFailure CloudResponse :=
  match self.create (self.request messages tools options) with
  | .error (.apiError exc) => .error (.llmError s!"Anthropic API error: {exc}")
  | .error (.other exc) => .error (.raised exc)
  | .ok reply => .ok (response reply)

end AnthropicProvider

/-! ## `OpenAIProvider` -/

/-- A keyword argument of the SDK's call. -/
inductive Argument where
  | json (x : Json)
  | messages (messages : List LLMMessage)

structure OpenAICall where
  name : String
  arguments : String

structure OpenAIReply where
  content : Option String
  /-- Of the first choice's message. -/
  toolCalls : List OpenAICall
  usage : Option (Int × Int)
  model : String

structure OpenAIProvider where
  model : String := "gpt-4o"
  create : OrderedDict String Argument → Except SdkFailure OpenAIReply
  /-- `json.loads`, with what it raises. -/
  loads : String → Except String Json

namespace OpenAIProvider

variable (self : OpenAIProvider)

/-- `{"type": "function", "function": t}`. -/
def wrapped (t : Json) : Json := .obj [("type", .str "function"), ("function", t)]

def request (messages : List LLMMessage) (tools : Option (List Json)) (options : Option Dict) :
    OrderedDict String Argument :=
  let kwargs := (OrderedDict.empty.set "model" (.json (.str self.model))).set "messages"
    (.messages messages)
  let kwargs :=
    if (tools.getD []).isEmpty then kwargs
    else kwargs.set "tools" (.json (.arr ((tools.getD []).map wrapped)))
  (options.getD []).foldl (fun kwargs option => kwargs.set option.1 (.json option.2)) kwargs

def toolCall (tc : OpenAICall) : Except ChatFailure ToolCall :=
  match self.loads tc.arguments with
  | .error exc => .error (.raised exc)
  | .ok arguments => .ok ⟨tc.name, arguments⟩

def chat (messages : List LLMMessage) (tools : Option (List Json)) (options : Option Dict) :
    Except ChatFailure CloudResponse :=
  match self.create (self.request messages tools options) with
  | .error (.apiError exc) => .error (.llmError s!"OpenAI API error: {exc}")
  | .error (.other exc) => .error (.raised exc)
  | .ok reply => do
      let toolCalls ← reply.toolCalls.mapM self.toolCall
      let (promptTokens, completionTokens) := reply.usage.getD (0, 0)
      .ok
        { content := reply.content.getD ""
          toolCalls, promptTokens, completionTokens
          model := reply.model }

end OpenAIProvider

/-! ## Texts carried in order -/

/-- The parts stand in the text, in order and without overlap. -/
def CarriesInOrder : List (List Char) → List Char → Prop
  | [], _ => True
  | part :: parts, text => ∃ gap rest, text = gap ++ part ++ rest ∧ CarriesInOrder parts rest

theorem CarriesInOrder.length_le {parts : List (List Char)} {text : List Char}
    (h : CarriesInOrder parts text) : (parts.map List.length).sum ≤ text.length := by
  induction parts generalizing text with
  | nil => exact Nat.zero_le _
  | cons part parts ih =>
      obtain ⟨gap, rest, htext, hrest⟩ := h
      have hle := ih hrest
      rw [htext, List.map_cons, List.sum_cons, List.length_append, List.length_append]
      omega

/-- Nothing but the last part has any text. -/
def OnlyLast (parts : List String) : Prop := ∀ part ∈ parts.dropLast, part = ""

theorem carriesInOrder_last {parts : List String} {last : String}
    (h : ∀ part ∈ parts, part = "") :
    CarriesInOrder ((parts ++ [last]).map String.toList) last.toList := by
  induction parts with
  | nil => exact ⟨[], [], by simp, trivial⟩
  | cons part parts ih =>
      obtain ⟨hpart, hparts⟩ := List.forall_mem_cons.mp h
      refine ⟨[], last.toList, ?_, ih hparts⟩
      rw [hpart]
      rfl

/-- The last part carries them all exactly where the others are empty. -/
theorem carriesInOrder_getLast_iff (parts : List String) :
    CarriesInOrder (parts.map String.toList) (parts.getLast?.getD "").toList ↔
      OnlyLast parts := by
  rcases List.eq_nil_or_concat parts with hnil | ⟨front, last, hconcat⟩
  · subst hnil
    refine iff_of_true trivial ?_
    exact fun part hpart => absurd hpart List.not_mem_nil
  · subst hconcat
    rw [OnlyLast, List.concat_eq_append, List.dropLast_concat, List.getLast?_concat,
      Option.getD_some]
    constructor
    · intro h part hpart
      have hle := h.length_le
      rw [List.map_append, List.map_append, List.sum_append, List.map_singleton,
        List.map_singleton, List.sum_singleton] at hle
      have hmem : part.toList.length ∈ (front.map String.toList).map List.length :=
        List.mem_map_of_mem (List.mem_map_of_mem hpart)
      have hpart := List.le_sum_of_mem hmem
      have hzero : part.toList.length = 0 := by omega
      rw [← String.toList_eq_nil_iff]
      exact List.length_eq_zero_iff.mp hzero
    · exact carriesInOrder_last

/-! ## What Anthropic is sent and what it answers -/

namespace AnthropicProvider

def systemText : LLMMessage → Option String
  | .system content => some content
  | _ => none

def isTurn : LLMMessage → Bool
  | .system _ => false
  | _ => true

def blockText : Block → Option String
  | .text text => some text
  | _ => none

def blockCall : Block → Option ToolCall
  | .toolUse name input => some ⟨name, input⟩
  | _ => none

theorem splitMessage_turn {m : LLMMessage} (h : isTurn m = true)
    (acc : String × List LLMMessage) :
    splitMessage acc m = (acc.1, acc.2 ++ [m]) ∧ systemText m = none := by
  cases m with
  | system content => cases h
  | user content => exact ⟨rfl, rfl⟩
  | assistant content toolCalls => exact ⟨rfl, rfl⟩
  | tool name content => exact ⟨rfl, rfl⟩

/-- The loop keeps the last system message and all others. -/
theorem foldl_splitMessage (messages : List LLMMessage) (system : String)
    (filtered : List LLMMessage) :
    messages.foldl splitMessage (system, filtered) =
      ((messages.filterMap systemText).getLast?.getD system,
        filtered ++ messages.filter isTurn) := by
  induction messages generalizing system filtered with
  | nil => simp
  | cons m messages ih =>
      rw [List.foldl_cons, List.filterMap_cons]
      by_cases hturn : isTurn m = true
      · obtain ⟨hsplit, htext⟩ := splitMessage_turn hturn (system, filtered)
        rw [hsplit, htext, ih, List.filter_cons_of_pos hturn, List.append_assoc,
          List.singleton_append]
      · cases m with
        | system content =>
            show messages.foldl splitMessage (content, filtered) = _
            rw [ih, List.filter_cons_of_neg hturn]
            simp [systemText, List.getLast?_cons]
        | _ => exact absurd rfl hturn

/-- The loop keeps the last text and all calls. -/
theorem foldl_readBlock (blocks : List Block) (content : String) (toolCalls : List ToolCall) :
    blocks.foldl readBlock (content, toolCalls) =
      ((blocks.filterMap blockText).getLast?.getD content,
        toolCalls ++ blocks.filterMap blockCall) := by
  induction blocks generalizing content toolCalls with
  | nil => simp
  | cons block blocks ih =>
      rw [List.foldl_cons]
      cases block with
      | text text =>
          rw [readBlock, ih]
          simp [blockText, blockCall, List.filterMap_cons, List.getLast?_cons]
      | toolUse name input =>
          rw [readBlock, ih]
          simp [blockText, blockCall, List.filterMap_cons]
      | other type =>
          rw [readBlock, ih]
          simp [blockText, blockCall, List.filterMap_cons]

/-- The request carries every system message in order, and all other messages. -/
def KeepsPrompt (messages : List LLMMessage) (request : AnthropicRequest) : Prop :=
  CarriesInOrder ((messages.filterMap systemText).map String.toList)
      (request.system.getD "").toList ∧
    request.messages = messages.filter isTurn

/-- The response carries every text in order, and all tool calls. -/
def KeepsAnswer (blocks : List Block) (response : CloudResponse) : Prop :=
  CarriesInOrder ((blocks.filterMap blockText).map String.toList) response.content.toList ∧
    response.toolCalls = blocks.filterMap blockCall

variable {self : AnthropicProvider} {messages : List LLMMessage} {tools : Option (List Json)}
  {options : Option Dict}

theorem request_system : ((self.request messages tools options).system.getD "") =
    (messages.filterMap systemText).getLast?.getD "" := by
  rw [request, foldl_splitMessage]
  dsimp only
  split
  next hempty => rw [hempty]; rfl
  next => rfl

theorem keepsPrompt_iff :
    KeepsPrompt messages (self.request messages tools options) ↔
      OnlyLast (messages.filterMap systemText) := by
  have hmessages : (self.request messages tools options).messages = messages.filter isTurn := by
    rw [request, foldl_splitMessage]
    rfl
  rw [KeepsPrompt, request_system, carriesInOrder_getLast_iff]
  exact and_iff_left hmessages

theorem keepsAnswer_iff (reply : AnthropicReply) :
    KeepsAnswer reply.content (response reply) ↔
      OnlyLast (reply.content.filterMap blockText) := by
  have hresponse : response reply =
      { content := (reply.content.filterMap blockText).getLast?.getD ""
        toolCalls := reply.content.filterMap blockCall
        promptTokens := reply.inputTokens
        completionTokens := reply.outputTokens
        model := reply.model } := by
    rw [response, foldl_readBlock]
    rfl
  rw [KeepsAnswer, hresponse, carriesInOrder_getLast_iff]
  exact and_iff_left rfl

/-- A chat keeps the prompt and the answer exactly where no system message and no text
block has any text, the last one of each apart. -/
theorem chat_keeps_iff (self : AnthropicProvider) (messages : List LLMMessage)
    (tools : Option (List Json)) (options : Option Dict) (reply : AnthropicReply)
    (hreply : self.create (self.request messages tools options) = .ok reply) :
    ∃ response, self.chat messages tools options = .ok response ∧
      (KeepsPrompt messages (self.request messages tools options) ∧
          KeepsAnswer reply.content response ↔
        OnlyLast (messages.filterMap systemText) ∧
          OnlyLast (reply.content.filterMap blockText)) := by
  refine ⟨response reply, ?_, ?_⟩
  · rw [chat, hreply]
  · rw [keepsPrompt_iff, keepsAnswer_iff]

/-- A client that answers each request in one text block. -/
def replying (text : String) : AnthropicProvider where
  create _ := .ok
    { content := [.text text]
      model := "claude-3-5-sonnet-20241022"
      inputTokens := 12
      outputTokens := 3 }

theorem chat_keeps_hello :
    ∃ response, (replying "Hi.").chat [.system "Be brief.", .user "Hello"] none none =
        .ok response ∧
      KeepsPrompt [.system "Be brief.", .user "Hello"]
        ((replying "Hi.").request [.system "Be brief.", .user "Hello"] none none) ∧
      KeepsAnswer [.text "Hi."] response := by
  obtain ⟨response, hchat, hkeeps⟩ := chat_keeps_iff (replying "Hi.")
    [.system "Be brief.", .user "Hello"] none none _ rfl
  refine ⟨response, hchat, hkeeps.mpr ⟨?_, ?_⟩⟩
  · exact fun part hpart => absurd hpart List.not_mem_nil
  · exact fun part hpart => absurd hpart List.not_mem_nil

theorem onlyLast_cons {part : String} (hpart : part ≠ "") (parts : List String) :
    OnlyLast (part :: parts) ↔ parts = [] := by
  constructor
  · intro h
    by_contra hne
    apply hpart
    apply h part
    rw [List.dropLast_cons_of_ne_nil hne]
    exact List.mem_cons_self
  · intro hnil part hmem
    rw [hnil] at hmem
    exact absurd hmem List.not_mem_nil

def summaryText (summary : String) : String := s!"Context: {summary}"

/-- What the direct node tells the model of a recalled context. -/
def contextTexts (ctx : Memory.MemoryContext) : List String :=
  (if ctx.summary.getD "" = "" then [] else [summaryText (ctx.summary.getD "")]) ++
    ctx.longTerm.map fun item => s!"Known: {item.content}"

theorem contextTexts_eq_nil_iff {ctx : Memory.MemoryContext} :
    contextTexts ctx = [] ↔ ctx.summary.getD "" = "" ∧ ctx.longTerm = [] := by
  rw [contextTexts, List.append_eq_nil_iff, List.map_eq_nil_iff]
  apply and_congr_left
  intro _
  split
  next hempty => exact iff_of_true rfl hempty
  next hsummary => exact iff_of_false (List.cons_ne_nil _ _) hsummary

theorem systemTexts_direct (state : AgentState) :
    (directMessages state).filterMap systemText =
      directSystem :: (state.memoryContext.map contextTexts).getD [] := by
  have hknown : ∀ items : List Memory.MemoryItem,
      (items.map fun item => LLMMessage.system s!"Known: {item.content}").filterMap systemText =
        items.map fun item => s!"Known: {item.content}" := by
    intro items
    rw [List.filterMap_map]
    exact congrFun List.filterMap_eq_map' items
  rw [directMessages, List.filterMap_append, List.filterMap_append]
  show directSystem :: _ ++ [] = _
  rw [List.append_nil]
  congr 1
  cases state.memoryContext with
  | none => rfl
  | some ctx =>
      show _ = contextTexts ctx
      by_cases hempty : ctx.isEmpty = true
      · have hparts : ctx.summary.getD "" = "" ∧ ctx.longTerm = [] := by
          simp only [Memory.MemoryContext.isEmpty, Bool.and_eq_true, beq_iff_eq,
            List.isEmpty_iff] at hempty
          exact ⟨hempty.1.1, hempty.2⟩
        simp only [if_pos hempty]
        exact (contextTexts_eq_nil_iff.mpr hparts).symm
      · simp only [if_neg hempty]
        rw [List.filterMap_append, hknown, contextTexts]
        by_cases hsummary : ctx.summary.getD "" = ""
        · rw [if_pos hsummary, if_pos hsummary]
          rfl
        · rw [if_neg hsummary, if_neg hsummary]
          rfl

/-- Of the direct node's prompt everything is kept only where nothing was recalled. -/
theorem keepsPrompt_direct_iff (state : AgentState) :
    KeepsPrompt (directMessages state) (self.request (directMessages state) tools options) ↔
      ∀ ctx, state.memoryContext = some ctx → ctx.summary.getD "" = "" ∧ ctx.longTerm = [] := by
  have hsystem : directSystem ≠ "" := by decide
  rw [keepsPrompt_iff, systemTexts_direct, onlyLast_cons hsystem]
  cases state.memoryContext with
  | none => exact iff_of_true rfl fun ctx h => by cases h
  | some ctx =>
      rw [Option.map_some, Option.getD_some, contextTexts_eq_nil_iff]
      constructor
      · intro hparts other heq
        rwa [← Option.some.inj heq]
      · exact fun h => h ctx rfl

/-- The prompt of the direct node for a user of whom one fact is known. -/
def greeting : List LLMMessage :=
  directMessages { stubState "Where do I live?" {} with
    memoryContext := some { longTerm := [⟨"The user lives in Lyon."⟩] } }

/-- The fact is sent without the node's own instruction. -/
theorem chat_loses_prompt :
    ¬ ∀ (self : AnthropicProvider) (messages : List LLMMessage) (tools : Option (List Json))
      (options : Option Dict) (reply : AnthropicReply),
      self.create (self.request messages tools options) = .ok reply →
      ∃ response, self.chat messages tools options = .ok response ∧
        KeepsPrompt messages (self.request messages tools options) ∧
        KeepsAnswer reply.content response := by
  intro hall
  obtain ⟨response, -, hprompt, -⟩ :=
    hall (replying "In Lyon.") greeting none (some directOptions) _ rfl
  have hrecalled := (keepsPrompt_direct_iff _).mp hprompt _ rfl
  exact absurd hrecalled.2 (List.cons_ne_nil _ _)

end AnthropicProvider

end Lour.Llm
