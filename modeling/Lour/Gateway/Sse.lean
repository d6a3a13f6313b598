import Lour.Gateway.Streaming
import Lour.Lib.JsonReader
import Lour.Lib.Lines
/-!
# Server-Sent Events

The frames a run is sent as, and the two clients that parse them.  A client splits
the text into lines at every boundary of `str.splitlines`, and `json.dumps` leaves
three of them in a payload as they are.
-/

namespace Lour.Gateway

open Lour.Lib.Python

def EventType.value : EventType → String
  | .nodeStarted => "node_started"
  | .nodeFinished => "node_finished"
  | .routeDecided => "route_decided"
  | .token => "token"
  | .toolCalled => "tool_called"
  | .toolResult => "tool_result"
  | .approvalRequired => "approval_required"
  | .final => "final"
  | .error => "error"
  | .done => "done"

namespace AgentEvent

variable (self : AgentEvent)

/-- `{"node": self.node, **self.data}`. -/
def payload : Dict := Dict.merge [("node", (self.node.map Json.str).getD .null)] self.data

/-- `to_sse`. -/
def toSse : String :=
  "event: " ++ self.type.value ++ "\ndata: " ++ (Json.obj self.payload).dumps ++ "\n\n"

/-- Everything the event says: its data, and its node unless the data has one. -/
def chars : List Char :=
  (if "node" ∈ self.data.map (·.1) then [] else (self.node.getD "").toList) ++
    Json.charsEntries self.data

end AgentEvent

/-! ## The clients -/

/-- One parsed event: its `event:` type and its JSON `data:`. -/
structure SSEEvent where
  event : String
  data : Dict

/-- What a line that is not blank holds for the parser. -/
inductive Field where
  | event (value : List Char)
  | data (value : List Char)
  | ignored

/-- What the two parsers do differently: how they read a line, what becomes of a
payload that `json.loads` refuses, and whether a frame without its blank line counts. -/
structure Dialect where
  field : List Char → Field
  refused : String → Dict
  flushes : Bool

/-- The frame that is being read. -/
structure Frame where
  event : List Char := "message".toList
  buf : List (List Char) := []

namespace Dialect

variable (self : Dialect)

def decode (body : String) : Dict :=
  match Json.loads body with
  | some (.obj d) => d
  | some x => [("value", x)]
  | none => self.refused body

/-- What a frame yields where it ends. -/
def emit (frame : Frame) : List SSEEvent :=
  if frame.buf.isEmpty then []
  else
    [⟨String.ofList frame.event, self.decode (String.ofList (['\n'].intercalate frame.buf))⟩]

def parse (frame : Frame) : List (List Char) → List SSEEvent
  | [] => if self.flushes then self.emit frame else []
  | raw :: lines =>
      let line := rstripNewlines raw
      if line.isEmpty then self.emit frame ++ parse {} lines
      else
        match self.field line with
        | .event value => parse { frame with event := value } lines
        | .data value => parse { frame with buf := frame.buf ++ [value] } lines
        | .ignored => parse frame lines

end Dialect

/-- A line as `iter_sse` reads it. -/
def iterSseField (line : List Char) : Field :=
  if line.head? = some ':' then .ignored
  else
    -- `line.partition(":")`
    let field := line.takeWhile (· != ':')
    let rest := (line.dropWhile (· != ':')).drop 1
    let value := if rest.head? = some ' ' then rest.drop 1 else rest
    if String.ofList field = "event" then .event value
    else if String.ofList field = "data" then .data value
    else .ignored

def Dialect.streamlit : Dialect where
  field := iterSseField
  refused body := [("raw", .str body)]
  flushes := true

/-- `iter_sse`. -/
def iterSse (lines : List (List Char)) : List SSEEvent := Dialect.streamlit.parse {} lines

/-- A line as `_async_sse` reads it. -/
def asyncSseField (line : List Char) : Field :=
  if "event:".toList.isPrefixOf line then .event (stripChars (line.drop 6))
  else if "data:".toList.isPrefixOf line then .data ((line.drop 5).dropWhile (· == ' '))
  else .ignored

def Dialect.demo : Dialect where
  field := asyncSseField
  refused _ := []
  flushes := false

/-- `_async_sse`. -/
def asyncSse (lines : List (List Char)) : List SSEEvent := Dialect.demo.parse {} lines

/-- The pair of type and payload that an event should be parsed as. -/
def AgentEvent.sent (self : AgentEvent) : SSEEvent where
  event := self.type.value
  data := self.payload

/-- The line boundaries that `json.dumps` writes as they are: NEL, LINE SEPARATOR and
PARAGRAPH SEPARATOR. -/
def isSeparator (c : Char) : Bool := c.toNat == 0x85 || c.toNat == 0x2028 || c.toNat == 0x2029

theorem isLineBreak_of_separator {c : Char} (h : isSeparator c = true) :
    isLineBreak c = true ∧ 0x80 ≤ c.toNat := by
  simp only [isSeparator, isLineBreak, Bool.or_eq_true, beq_iff_eq] at h ⊢
  omega

/-- In the text of a payload there are no other boundaries. -/
theorem isSeparator_of_lineBreak {c : Char} (h : isLineBreak c = true) (hc : 0x20 ≤ c.toNat) :
    isSeparator c = true := by
  simp only [isSeparator, isLineBreak, Bool.or_eq_true, Bool.and_eq_true, beq_iff_eq,
    decide_eq_true_eq] at h ⊢
  omega

/-! ## Payloads -/

namespace AgentEvent

variable {self : AgentEvent}

theorem payload_wellFormed (h : (Json.obj self.data).WellFormed) :
    (Json.obj self.payload).WellFormed := by
  refine ⟨Dict.merge_keys_nodup (List.nodup_singleton _), Json.wellFormedEntries_iff.mpr ?_⟩
  intro e he
  rcases (Dict.mem_merge h.1).mp he with hdata | ⟨hnode, -⟩
  · exact Json.wellFormedEntries_iff.mp h.2 e hdata
  · rw [List.mem_singleton.mp hnode]
    cases self.node with
    | none => trivial
    | some node => trivial

theorem node_mem_payload : "node" ∈ self.payload.map (·.1) :=
  Dict.mem_merge_keys List.mem_cons_self

/-- Beyond ASCII the payload says what the event does. -/
theorem mem_payload_chars (h : (Json.obj self.data).WellFormed) {c : Char}
    (hc : 0x80 ≤ c.toNat) : c ∈ (Json.obj self.payload).chars ↔ c ∈ self.chars := by
  have hkey : c ∉ "node".toList := by
    intro hmem
    have hall : "node".toList.all Json.isPrintable = true := rfl
    have hlt := (Json.isPrintable_iff.mp (List.all_eq_true.mp hall c hmem)).2
    omega
  have hnode : c ∈ ((self.node.map Json.str).getD .null).chars ↔
      c ∈ (self.node.getD "").toList := by
    cases self.node with
    | none => exact Iff.rfl
    | some node => exact Iff.rfl
  rw [Json.chars, Json.mem_charsEntries, AgentEvent.chars, List.mem_append, Json.mem_charsEntries]
  constructor
  · rintro ⟨e, he, hmem⟩
    rcases (Dict.mem_merge h.1).mp he with hdata | ⟨hown, hfresh⟩
    · exact .inr ⟨e, hdata, hmem⟩
    · rw [List.mem_singleton] at hown
      subst hown
      rw [if_neg hfresh]
      exact .inl (hnode.mp (hmem.resolve_left hkey))
  · rintro (hmem | ⟨e, hdata, hmem⟩)
    · split at hmem
      · cases hmem
      next hfresh =>
          refine ⟨_, (Dict.mem_merge h.1).mpr (.inr ⟨List.mem_singleton_self _, hfresh⟩), ?_⟩
          exact .inr (hnode.mpr hmem)
    · exact ⟨e, (Dict.mem_merge h.1).mpr (.inl hdata), hmem⟩

/-- The text of the payload, as a list. -/
def body (self : AgentEvent) : List Char := (Json.obj self.payload).dumps.toList

theorem body_head : ∃ cs, self.body = '{' :: cs := by
  rw [body, Json.dumps, Json.dumpsWith, String.toList_append, String.toList_append]
  exact ⟨_, rfl⟩

/-- The line that names the type. -/
def eventLine (self : AgentEvent) : List Char := "event: ".toList ++ self.type.value.toList

theorem toSse_append (cs : List Char) : self.toSse.toList ++ cs =
    self.eventLine ++ '\n' :: ("data: ".toList ++ (self.body ++ '\n' :: '\n' :: cs)) := by
  have hdata : "\ndata: ".toList = '\n' :: "data: ".toList := by decide
  have hend : "\n\n".toList = ['\n', '\n'] := by decide
  unfold eventLine
  simp only [toSse, body, String.toList_append, hdata, hend, List.append_assoc, List.cons_append,
    List.nil_append]

/-- A payload is on one line unless the event has a separator. -/
theorem body_break_iff (h : (Json.obj self.data).WellFormed) :
    (∀ c ∈ self.body, isLineBreak c = false) ↔ ∀ c ∈ self.chars, isSeparator c = false := by
  have hshows := Json.Shows.dumps (Json.obj self.payload)
  have hmem : ∀ c, 0x80 ≤ c.toNat → (c ∈ self.body ↔ c ∈ self.chars) :=
    fun c hc => (hshows.beyond c hc).trans (mem_payload_chars h hc)
  constructor
  · intro hbody c hc
    rw [Bool.eq_false_iff]
    intro hsep
    obtain ⟨hbreak, hbeyond⟩ := isLineBreak_of_separator hsep
    have hfree := hbody c ((hmem c hbeyond).mpr hc)
    rw [hbreak] at hfree
    cases hfree
  · intro hchars c hc
    rw [Bool.eq_false_iff]
    intro hbreak
    have hsep := isSeparator_of_lineBreak hbreak (hshows.printable c hc)
    have hfree := hchars c ((hmem c (isLineBreak_of_separator hsep).2).mp hc)
    rw [hsep] at hfree
    cases hfree

theorem eventLine_break : ∀ c ∈ self.eventLine, isLineBreak c = false := by
  have hall : ∀ type : EventType,
      ("event: ".toList ++ type.value.toList).any isLineBreak = false := by
    intro type
    cases type <;> rfl
  intro c hc
  exact Bool.eq_false_of_not_eq_true (List.any_eq_false.mp (hall self.type) c hc)

theorem dataPrefix_break {p : List Char} (hp : ∀ c ∈ p, isLineBreak c = false) :
    ∀ c ∈ "data: ".toList ++ p, isLineBreak c = false := by
  have hall : "data: ".toList.any isLineBreak = false := rfl
  intro c hc
  rcases List.mem_append.mp hc with hc | hc
  · exact Bool.eq_false_of_not_eq_true (List.any_eq_false.mp hall c hc)
  · exact hp c hc

/-- A frame whose payload is on one line is three lines. -/
theorem linesFrom_toSse (hbody : ∀ c ∈ self.body, isLineBreak c = false) (cs : List Char) :
    linesFrom [] (self.toSse.toList ++ cs) =
      self.eventLine :: ("data: ".toList ++ self.body) :: [] :: linesFrom [] cs := by
  rw [toSse_append, linesFrom_line eventLine_break isLineBreak_newline newline_ne_return,
    ← List.append_assoc, linesFrom_line (dataPrefix_break hbody) isLineBreak_newline
      newline_ne_return, linesFrom_break isLineBreak_newline newline_ne_return]

/-- Where a payload is not on one line, its data line stops at the first boundary. -/
theorem linesFrom_cut {p q : List Char} {c : Char} (hbody : self.body = p ++ c :: q)
    (hp : ∀ d ∈ p, isLineBreak d = false) (hc : isLineBreak c = true) (hcr : c ≠ '\r')
    (cs : List Char) : ∃ lines, linesFrom [] (self.toSse.toList ++ cs) =
      self.eventLine :: ("data: ".toList ++ p) :: lines := by
  refine ⟨linesFrom [] (q ++ '\n' :: '\n' :: cs), ?_⟩
  rw [toSse_append, linesFrom_line eventLine_break isLineBreak_newline newline_ne_return, hbody,
    List.append_assoc, List.cons_append, ← List.append_assoc,
    linesFrom_line (dataPrefix_break hp) hc hcr]

end AgentEvent

/-! ## What the clients parse -/

/-- What the parsers have in common. -/
structure Dialect.Lawful (dialect : Dialect) : Prop where
  event : ∀ event : AgentEvent, dialect.field event.eventLine = .event event.type.value.toList
  data : ∀ p, p.head? ≠ some ' ' → dialect.field ("data: ".toList ++ p) = .data p
  refused : ∀ body, "node" ∉ (dialect.refused body).map (·.1)

theorem streamlit_lawful : Dialect.streamlit.Lawful where
  event event := by
    have hall : ∀ type : EventType, iterSseField ("event: ".toList ++ type.value.toList) =
        .event type.value.toList := by
      intro type
      cases type <;> rfl
    exact hall event.type
  data p hp := by
    have hfield : ("data: ".toList ++ p).takeWhile (· != ':') = "data".toList := rfl
    have hrest : (("data: ".toList ++ p).dropWhile (· != ':')).drop 1 = ' ' :: p := rfl
    show iterSseField ("data: ".toList ++ p) = .data p
    unfold iterSseField
    rw [hfield, hrest]
    rfl
  refused body := by
    intro hmem
    have hraw : "node" ∈ ["raw"] := hmem
    revert hraw
    decide

theorem demo_lawful : Dialect.demo.Lawful where
  event event := by
    have hall : ∀ type : EventType, asyncSseField ("event: ".toList ++ type.value.toList) =
        .event type.value.toList := by
      intro type
      cases type <;> rfl
    exact hall event.type
  data p hp := by
    have hvalue : (' ' :: p).dropWhile (· == ' ') = p := by
      rw [List.dropWhile_cons_of_pos (by decide)]
      cases p with
      | nil => rfl
      | cons c p =>
          apply List.dropWhile_cons_of_neg
          intro heq
          apply hp
          rw [List.head?_cons, beq_iff_eq.mp heq]
    calc asyncSseField ("data: ".toList ++ p) = .data ((' ' :: p).dropWhile (· == ' ')) := rfl
      _ = .data p := by rw [hvalue]
  refused _ := List.not_mem_nil

namespace Dialect

variable {self : Dialect}

theorem parse_line {line : List Char} (hline : ∀ c ∈ line, isLineBreak c = false)
    (hne : line ≠ []) (frame : Frame) (lines : List (List Char)) :
    self.parse frame (line :: lines) =
      match self.field line with
      | .event value => self.parse { frame with event := value } lines
      | .data value => self.parse { frame with buf := frame.buf ++ [value] } lines
      | .ignored => self.parse frame lines := by
  have hempty : line.isEmpty = false := List.isEmpty_eq_false_iff.mpr hne
  rw [parse, rstripNewlines_of_line hline, hempty, if_neg Bool.false_ne_true]

theorem parse_event (h : self.Lawful) (event : AgentEvent) (lines : List (List Char)) :
    self.parse {} (event.eventLine :: lines) =
      self.parse { event := event.type.value.toList } lines := by
  rw [parse_line AgentEvent.eventLine_break (by exact List.cons_ne_nil _ _), h.event]

theorem parse_data (h : self.Lawful) {p : List Char} (hp : ∀ c ∈ p, isLineBreak c = false)
    (hhead : p.head? ≠ some ' ') (frame : Frame) (lines : List (List Char)) :
    self.parse frame (("data: ".toList ++ p) :: lines) =
      self.parse { frame with buf := frame.buf ++ [p] } lines := by
  rw [parse_line (AgentEvent.dataPrefix_break hp) (by exact List.cons_ne_nil _ _),
    h.data p hhead]

theorem parse_blank (frame : Frame) (lines : List (List Char)) :
    self.parse frame ([] :: lines) = self.emit frame ++ self.parse {} lines := by
  rw [parse]
  rfl

/-- A frame whose payload is on one line is parsed as it was sent. -/
theorem parse_toSse (h : self.Lawful) {event : AgentEvent}
    (hdata : (Json.obj event.data).WellFormed)
    (hbody : ∀ c ∈ event.body, isLineBreak c = false) (cs : List Char) :
    self.parse {} (linesFrom [] (event.toSse.toList ++ cs)) =
      event.sent :: self.parse {} (linesFrom [] cs) := by
  have hhead : event.body.head? ≠ some ' ' := by
    obtain ⟨rest, hrest⟩ := event.body_head
    rw [hrest, List.head?_cons]
    decide
  have hdecode : self.decode (String.ofList event.body) = event.payload := by
    rw [AgentEvent.body, String.ofList_toList, decode,
      Json.loads_dumps (AgentEvent.payload_wellFormed hdata)]
  rw [AgentEvent.linesFrom_toSse hbody, parse_event h, parse_data h hbody hhead, parse_blank]
  have hemit : self.emit { event := event.type.value.toList, buf := [] ++ [event.body] } =
      [event.sent] := by
    have hjoin : ['\n'].intercalate [event.body] = event.body := List.intercalate_singleton
    simp only [emit, List.nil_append, List.isEmpty_cons, Bool.false_eq_true, if_false, hjoin,
      hdecode, String.ofList_toList, AgentEvent.sent]
  rw [hemit, List.singleton_append]

/-- A payload that `json.loads` refuses, with whatever lines come after it. -/
def Refused (p : List Char) : Prop :=
  Json.loads (String.ofList p) = none ∧
    ∀ rest, Json.loads (String.ofList (p ++ '\n' :: rest)) = none

theorem emit_refused (h : self.Lawful) {p : List Char} (hp : Refused p) (event : List Char)
    (more : List (List Char)) (rest : List SSEEvent) :
    ∀ e ∈ (self.emit ⟨event, p :: more⟩ ++ rest).head?, "node" ∉ e.data.map (·.1) := by
  have hjoin : Json.loads (String.ofList (['\n'].intercalate (p :: more))) = none := by
    cases more with
    | nil =>
        rw [List.intercalate_singleton]
        exact hp.1
    | cons m more =>
        rw [List.intercalate_cons_cons, List.append_assoc, List.singleton_append]
        exact hp.2 _
  intro e he
  rw [emit, List.isEmpty_cons, if_neg Bool.false_ne_true, decode, hjoin,
    List.singleton_append] at he
  cases he
  exact h.refused _

/-- Once such a payload is in the buffer, what is parsed next has no node. -/
theorem parse_refused (h : self.Lawful) {p : List Char} (hp : Refused p) (event : List Char)
    (more lines : List (List Char)) :
    ∀ e ∈ (self.parse ⟨event, p :: more⟩ lines).head?, "node" ∉ e.data.map (·.1) := by
  induction lines generalizing event more with
  | nil =>
      rw [parse]
      split
      · rw [← List.append_nil (self.emit _)]
        exact emit_refused h hp event more []
      · intro e he
        cases he
  | cons raw lines ih =>
      rw [parse]
      split
      · exact emit_refused h hp event more _
      · split
        next value _ => exact ih value more
        next value _ => exact ih event (more ++ [value])
        next => exact ih event more

/-- A frame whose payload is not on one line is parsed as something without a node. -/
theorem parse_cut (h : self.Lawful) {event : AgentEvent}
    (hdata : (Json.obj event.data).WellFormed)
    (hbody : ¬ ∀ c ∈ event.body, isLineBreak c = false) (cs : List Char) :
    ∀ e ∈ (self.parse {} (linesFrom [] (event.toSse.toList ++ cs))).head?,
      "node" ∉ e.data.map (·.1) := by
  push Not at hbody
  obtain ⟨c, hmem, hc⟩ := hbody
  rw [ne_eq, Bool.not_eq_false] at hc
  obtain ⟨p, d, q, hsplit, hp, hd⟩ := exists_first_break hmem hc
  have hloads : Json.loads (String.ofList (p ++ d :: q)) = some (.obj event.payload) := by
    rw [← hsplit, AgentEvent.body, String.ofList_toList]
    exact Json.loads_dumps (AgentEvent.payload_wellFormed hdata)
  have hprintable : 0x20 ≤ d.toNat := by
    apply (Json.Shows.dumps (Json.obj event.payload)).printable
    show d ∈ event.body
    rw [hsplit]
    exact List.mem_append_right p List.mem_cons_self
  have hbeyond : 0x80 ≤ d.toNat :=
    (isLineBreak_of_separator (isSeparator_of_lineBreak hd hprintable)).2
  have hcr : d ≠ '\r' := by
    rintro rfl
    revert hbeyond
    decide
  have hhead : p.head? ≠ some ' ' := by
    obtain ⟨rest, hrest⟩ := event.body_head
    rw [hsplit] at hrest
    cases p with
    | nil => simp
    | cons c p =>
        have hbrace : c = '{' := (List.cons.inj hrest).1
        rw [hbrace, List.head?_cons]
        decide
  obtain ⟨lines, hlines⟩ := AgentEvent.linesFrom_cut hsplit hp hd hcr cs
  rw [hlines, parse_event h, parse_data h hp hhead]
  exact parse_refused h (Json.loads_cut hloads hbeyond) _ [] lines

/-- A lawful parser takes back what was sent unless a separator is somewhere in it. -/
theorem parse_frames_iff (h : self.Lawful) (events : List AgentEvent)
    (hdata : ∀ event ∈ events, (Json.obj event.data).WellFormed) :
    self.parse {} (splitlines (String.join (events.map AgentEvent.toSse))) =
        events.map AgentEvent.sent ↔
      ∀ event ∈ events, ∀ c ∈ event.chars, isSeparator c = false := by
  rw [splitlines, String.toList_join, List.flatMap_map]
  induction events with
  | nil =>
      have hempty : self.parse {} (linesFrom [] []) = [] := by
        rw [linesFrom, List.isEmpty_nil, if_pos rfl, parse]
        split
        · rfl
        · rfl
      simpa using hempty
  | cons event events ih =>
      obtain ⟨hevent, hrest⟩ := List.forall_mem_cons.mp hdata
      have hone := AgentEvent.body_break_iff hevent
      rw [List.flatMap_cons, List.map_cons, List.forall_mem_cons, ← hone]
      by_cases hbody : ∀ c ∈ event.body, isLineBreak c = false
      · rw [parse_toSse h hevent hbody, List.cons_inj_right, and_iff_right hbody]
        exact ih hrest
      · constructor
        · intro heq
          have hcut := parse_cut h hevent hbody (events.flatMap fun event => event.toSse.toList)
          rw [heq] at hcut
          exact absurd AgentEvent.node_mem_payload (hcut event.sent rfl)
        · intro hboth
          exact absurd hboth.1 hbody

end Dialect

/-- Both clients take back the events that were sent, type by type and payload by
payload, if and only if no key and no string of an event has a separator. -/
theorem sse_decoded_iff (events : List AgentEvent)
    (hdata : ∀ event ∈ events, (Json.obj event.data).WellFormed) :
    (iterSse (splitlines (String.join (events.map AgentEvent.toSse))) =
        events.map AgentEvent.sent ↔
      ∀ event ∈ events, ∀ c ∈ event.chars, isSeparator c = false) ∧
    (asyncSse (splitlines (String.join (events.map AgentEvent.toSse))) =
        events.map AgentEvent.sent ↔
      ∀ event ∈ events, ∀ c ∈ event.chars, isSeparator c = false) :=
  ⟨Dialect.parse_frames_iff streamlit_lawful events hdata,
    Dialect.parse_frames_iff demo_lawful events hdata⟩

/-- An answer in two lines, which `json.dumps` escapes. -/
theorem sse_decoded_token :
    iterSse (splitlines (String.join ([AgentEvent.token (.str "a\nb") none].map
        AgentEvent.toSse))) = [AgentEvent.token (.str "a\nb") none].map AgentEvent.sent := by
  have hdata : ∀ event ∈ [AgentEvent.token (.str "a\nb") none],
      (Json.obj event.data).WellFormed := by
    intro event hevent
    rw [List.mem_singleton.mp hevent]
    exact ⟨List.nodup_singleton _, trivial, trivial⟩
  apply (sse_decoded_iff _ hdata).1.mpr
  intro event hevent
  rw [List.mem_singleton.mp hevent]
  have hfree : (AgentEvent.token (.str "a\nb") none).chars.any isSeparator = false := rfl
  exact fun c hc => Bool.eq_false_of_not_eq_true (List.any_eq_false.mp hfree c hc)

/-- An answer with a LINE SEPARATOR in it is parsed as something else by both clients. -/
theorem sse_separator_lost :
    ¬ ∀ events : List AgentEvent, (∀ event ∈ events, (Json.obj event.data).WellFormed) →
      iterSse (splitlines (String.join (events.map AgentEvent.toSse))) =
          events.map AgentEvent.sent ∧
        asyncSse (splitlines (String.join (events.map AgentEvent.toSse))) =
          events.map AgentEvent.sent := by
  intro hall
  have hdata : ∀ event ∈ [AgentEvent.token (.str "a\u2028b") none],
      (Json.obj event.data).WellFormed := by
    intro event hevent
    rw [List.mem_singleton.mp hevent]
    exact ⟨List.nodup_singleton _, trivial, trivial⟩
  have hkeys := congrArg (List.map fun e => e.data.map (·.1)) (hall _ hdata).1
  revert hkeys
  decide +kernel

end Lour.Gateway
