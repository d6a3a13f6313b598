import Lour.Gateway.Streaming
import Lour.Lib.Fallible
/-!
# `stream_run`

A run of the graph as the generator sees it, and the frames it makes of it.  What
raises while the chunks are taken in ends the stream with an ERROR; the final
snapshot is read after that.
-/

namespace Lour.Gateway

open Lour.Agents Lour.Lib Lour.Lib.Python

/-! ## What the graph streams -/

/-- The value of `route` in a node's update. -/
inductive RouteValue where
  | missing
  | decision (agent reasoning : String)
  | json (value : Json)

/-- What a node is reported to have returned. -/
inductive NodeUpdate where
  | dict (route : RouteValue)
  | other

/-- An item of `graph.astream`; the entry `__interrupt__` of an `updates` chunk is
`interrupts`, the values of the interrupts. -/
inductive Chunk where
  | custom (chunk : Dict)
  | updates (chunk : List (String × NodeUpdate)) (interrupts : Option (List Json))
  | other

/-- What a chunk can raise while it is turned into events. -/
inductive ChunkError where
  /-- The `node` of an event is neither a text nor `None`. -/
  | invalidNode
  /-- `get` on something that is not a dict. -/
  | attribute
  /-- A dict has no key `0`. -/
  | key

/-- How Python prints what is not a text: values, and the exceptions of a chunk. -/
structure Printing where
  value : Json → String
  error : ChunkError → String

/-- `str(x)`. -/
def Printing.str (self : Printing) : Json → String
  | .str s => s
  | x => self.value x

/-- `x or default`. -/
def orElse (x default : Json) : Json := if x.truthy then x else default

section

variable (print : Printing)

/-- The field `node` of an event. -/
def eventNode : Json → Except ChunkError (Option String)
  | .null => .ok none
  | .str s => .ok (some s)
  | _ => .error .invalidNode

/-- `_custom_event`. -/
def customEvent (chunk : Dict) : Except ChunkError (Option AgentEvent) :=
  let node := (chunk.get? "node").getD .null
  match chunk.get? "event" with
  | some (.str "node") => do
      let node ← eventNode (orElse node (.str ""))
      .ok (some (.nodeStarted (node.getD "")))
  | some (.str "token") => do
      let node ← eventNode node
      .ok (some (.token ((chunk.get? "text").getD (.str "")) node))
  | some (.str "tool_called") => do
      let name := print.str ((chunk.get? "name").getD (.str ""))
      let node ← eventNode node
      let arguments := orElse ((chunk.get? "arguments").getD (.obj [])) (.obj [])
      .ok (some (.toolCalled name arguments node))
  | some (.str "tool_result") => do
      let name := print.str ((chunk.get? "name").getD (.str ""))
      let node ← eventNode node
      .ok (some (.toolResult name ((chunk.get? "ok").getD (.bool true)).truthy
        ((chunk.get? "error").getD .null) node))
  | _ => .ok none

/-- The events of a route.  A decision has attributes and no `get`, a dict has `get`
and no attributes, and nothing else has either. -/
def routeEvents : RouteValue → Except ChunkError (List AgentEvent)
  | .missing | .json .null => .ok []
  | .decision agent reasoning =>
      if agent = "" then .error .attribute else .ok [.routeDecided agent reasoning]
  | .json (.obj route) =>
      .ok [.routeDecided (print.str ((Dict.get? route "agent").getD (.str ""))) ""]
  | .json _ => .error .attribute

/-- `_update_events`. -/
def updateEvents : List (String × NodeUpdate) → Except ChunkError (List AgentEvent)
  | [] => .ok []
  | (node, .dict route) :: rest => do
      let events ← routeEvents print route
      let later ← updateEvents rest
      .ok (events ++ .nodeFinished node :: later)
  | (node, .other) :: rest => do
      let later ← updateEvents rest
      .ok (.nodeFinished node :: later)

/-- The pending call to show.  An index or attribute that is not there is caught; the
key of a dict is not. -/
def firstPending (interrupts : List Json) : Except ChunkError Json :=
  match interrupts with
  | [] => .ok (.obj [])
  | interrupt :: _ =>
      match orElse interrupt (.obj []) with
      | .obj value =>
          match orElse ((Dict.get? value "pending").getD .null) (.arr [.obj []]) with
          | .arr (first :: _) => .ok first
          | .str s => .ok ((s.toList.head?.map fun c => Json.str c.toString).getD (.obj []))
          | .obj _ => .error .key
          | _ => .ok (.obj [])
      | _ => .ok (.obj [])

/-- `_interrupt_event`. -/
def interruptFrame (interrupts : List Json) : Except ChunkError AgentEvent := do
  match ← firstPending interrupts with
  | .obj first =>
      .ok
        { type := .approvalRequired
          data :=
            [("tool", .str (print.str ((Dict.get? first "tool").getD (.str "")))),
              ("arguments", orElse ((Dict.get? first "arguments").getD (.obj [])) (.obj [])),
              ("reason",
                .str (print.str ((Dict.get? first "reason").getD (.str "Approval required"))))] }
  | _ => .error .attribute

/-- The events of one item, up to what it raises. -/
def Chunk.events : Chunk → List AgentEvent × Option ChunkError
  | .custom chunk =>
      match customEvent print chunk with
      | .error e => ([], some e)
      | .ok event => (event.toList, none)
  | .updates chunk interrupts =>
      match updateEvents print chunk with
      | .error e => ([], some e)
      | .ok events =>
          match interrupts with
          | none => (events, none)
          | some interrupts =>
              match interruptFrame print interrupts with
              | .error e => (events, some e)
              | .ok event => (events ++ [event], none)
  | .other => ([], none)

/-- The item has the key `__interrupt__`. -/
def Chunk.interrupts : Chunk → Bool
  | .updates _ (some _) => true
  | _ => false

/-! ## The generator -/

/-- What `aget_state` reports; `values` is the state of the graph. -/
structure FinalState where
  next : List String
  values : Dict

/-- A run: its items, the exception that ended it, if any, and what reading the
snapshot would give. -/
structure GraphRun where
  chunks : List Chunk
  raised : Option String := none
  snapshot : Except String FinalState

/-- The events of which frames were sent, and the exception that came out of the
generator. -/
structure Streamed where
  events : List AgentEvent
  raised : Option String := none

/-- The loop over the items: the events, whether an interrupt was seen, and the text
of the exception that ended it. -/
def streamChunks (raised : Option String) : List Chunk → List AgentEvent × Bool × Option String
  | [] => ([], false, raised)
  | chunk :: rest =>
      match chunk.events print with
      | (events, some e) => (events, chunk.interrupts, some (print.error e))
      | (events, none) =>
          let (later, interrupted, failure) := streamChunks raised rest
          (events ++ later, chunk.interrupts || interrupted, failure)

/-- The FINAL of a run that has ended. -/
def finalEvents (state : FinalState) : List AgentEvent :=
  match state.values.get? "final_answer" with
  | some answer => if answer.truthy then [.final (print.str answer)] else []
  | none => []

/-- `stream_run`. -/
def streamRun (run : GraphRun) : Streamed :=
  match streamChunks print run.raised run.chunks with
  | (events, _, some message) => ⟨events ++ [.error message, .done], none⟩
  | (events, true, none) => ⟨events ++ [.done], none⟩
  | (events, false, none) =>
      match run.snapshot with
      | .error message => ⟨events, some message⟩
      | .ok state =>
          if state.next.isEmpty then ⟨events ++ finalEvents print state ++ [.done], none⟩
          else ⟨events ++ [.done], none⟩

/-! ## How a run ended -/

/-- The text of the exception that ended the items, if one did. -/
def GraphRun.failure (run : GraphRun) : Option String :=
  (run.chunks.findSome? fun chunk => (chunk.events print).2.map print.error).or run.raised

/-- An interrupt was streamed. -/
def GraphRun.interrupted (run : GraphRun) : Bool := run.chunks.any Chunk.interrupts

/-- The events of one type. -/
def ofType (type : EventType) (events : List AgentEvent) : List AgentEvent :=
  events.filter fun e => e.type = type

end

@[simp] theorem ofType_nil (type : EventType) : ofType type [] = [] := rfl

@[simp] theorem ofType_append (type : EventType) (xs ys : List AgentEvent) :
    ofType type (xs ++ ys) = ofType type xs ++ ofType type ys := by
  simp [ofType]

/-- An event of the run itself: neither a pause, nor an end. -/
def AgentEvent.progress (e : AgentEvent) : Prop :=
  e.type ≠ .approvalRequired ∧ e.type ≠ .final ∧ e.type ≠ .error ∧ e.type ≠ .done

theorem ofType_progress {type : EventType} {events : List AgentEvent}
    (h : ∀ e ∈ events, e.progress)
    (htype : type = .approvalRequired ∨ type = .final ∨ type = .error ∨ type = .done) :
    ofType type events = [] := by
  rw [ofType, List.filter_eq_nil_iff]
  intro e he heq
  have heq : e.type = type := of_decide_eq_true heq
  obtain ⟨happroval, hfinal, herror, hdone⟩ := h e he
  rcases htype with rfl | rfl | rfl | rfl
  · exact happroval heq
  · exact hfinal heq
  · exact herror heq
  · exact hdone heq

section

variable {print : Printing}

theorem customEvent_progress {chunk : Dict} {event : Option AgentEvent}
    (h : customEvent print chunk = .ok event) : ∀ e ∈ event, e.progress := by
  unfold customEvent at h
  dsimp only at h
  split at h
  · obtain ⟨node, -, h⟩ := bind_eq_ok.mp h
    cases h
    simp [AgentEvent.progress, AgentEvent.nodeStarted]
  · obtain ⟨node, -, h⟩ := bind_eq_ok.mp h
    cases h
    simp [AgentEvent.progress, AgentEvent.token]
  · obtain ⟨node, -, h⟩ := bind_eq_ok.mp h
    cases h
    simp [AgentEvent.progress, AgentEvent.toolCalled]
  · obtain ⟨node, -, h⟩ := bind_eq_ok.mp h
    cases h
    simp [AgentEvent.progress, AgentEvent.toolResult]
  · cases h
    simp

theorem routeEvents_progress {route : RouteValue} {events : List AgentEvent}
    (h : routeEvents print route = .ok events) : ∀ e ∈ events, e.progress := by
  unfold routeEvents at h
  split at h
  · cases h
    simp
  · cases h
    simp
  · split at h
    · cases h
    · cases h
      simp [AgentEvent.progress, AgentEvent.routeDecided]
  · cases h
    simp [AgentEvent.progress, AgentEvent.routeDecided]
  · cases h

theorem updateEvents_progress {chunk : List (String × NodeUpdate)} {events : List AgentEvent}
    (h : updateEvents print chunk = .ok events) : ∀ e ∈ events, e.progress := by
  have hfinished : ∀ node, (AgentEvent.nodeFinished node).progress := by
    simp [AgentEvent.progress, AgentEvent.nodeFinished]
  induction chunk generalizing events with
  | nil =>
      cases h
      simp
  | cons entry rest ih =>
      obtain ⟨node, update⟩ := entry
      cases update with
      | dict route =>
          obtain ⟨first, hroute, h⟩ := bind_eq_ok.mp h
          obtain ⟨later, hlater, h⟩ := bind_eq_ok.mp h
          cases h
          intro e he
          rcases List.mem_append.mp he with he | he
          · exact routeEvents_progress hroute e he
          · rcases List.mem_cons.mp he with rfl | he
            · exact hfinished node
            · exact ih hlater e he
      | other =>
          obtain ⟨later, hlater, h⟩ := bind_eq_ok.mp h
          cases h
          intro e he
          rcases List.mem_cons.mp he with rfl | he
          · exact hfinished node
          · exact ih hlater e he

theorem interruptFrame_type {interrupts : List Json} {event : AgentEvent}
    (h : interruptFrame print interrupts = .ok event) : event.type = .approvalRequired := by
  unfold interruptFrame at h
  obtain ⟨first, -, h⟩ := bind_eq_ok.mp h
  split at h
  · cases h
    rfl
  · cases h

/-! ## The frames of a stream -/

/-- What one item adds: an APPROVAL_REQUIRED for an interrupt, and progress. -/
structure Adds (chunk : Chunk) (events : List AgentEvent) : Prop where
  done : ofType .done events = []
  final : ofType .final events = []
  error : ofType .error events = []
  quiet : chunk.interrupts = false → ofType .approvalRequired events = []

theorem adds_progress {chunk : Chunk} {events : List AgentEvent}
    (h : ∀ e ∈ events, e.progress) : Adds chunk events where
  done := ofType_progress h (by simp)
  final := ofType_progress h (by simp)
  error := ofType_progress h (by simp)
  quiet _ := ofType_progress h (by simp)

theorem adds_approval {chunk : Chunk} {events : List AgentEvent} {approval : AgentEvent}
    (h : ∀ e ∈ events, e.progress) (htype : approval.type = .approvalRequired)
    (hinterrupts : chunk.interrupts = true) :
    Adds chunk (events ++ [approval]) ∧
      (ofType .approvalRequired (events ++ [approval])).length = 1 := by
  have hothers : ∀ type, type ≠ .approvalRequired → ofType type [approval] = [] := by
    intro type hne
    simp [ofType, htype, hne.symm]
  have hself : ofType .approvalRequired [approval] = [approval] := by
    simp [ofType, htype]
  refine ⟨⟨?_, ?_, ?_, fun hquiet => ?_⟩, ?_⟩
  · rw [ofType_append, ofType_progress h (by simp), hothers _ (by simp), List.nil_append]
  · rw [ofType_append, ofType_progress h (by simp), hothers _ (by simp), List.nil_append]
  · rw [ofType_append, ofType_progress h (by simp), hothers _ (by simp), List.nil_append]
  · rw [hinterrupts] at hquiet
    cases hquiet
  · rw [ofType_append, ofType_progress h (.inl rfl), hself, List.nil_append]
    rfl

/-- The events of an item, and its one approval where it was taken in as a whole. -/
theorem chunk_adds {chunk : Chunk} {events : List AgentEvent} {failure : Option ChunkError}
    (h : chunk.events print = (events, failure)) :
    Adds chunk events ∧ (failure = none →
      (ofType .approvalRequired events).length = if chunk.interrupts then 1 else 0) := by
  have hplain : ∀ events : List AgentEvent, (∀ e ∈ events, e.progress) →
      chunk.interrupts = false → Adds chunk events ∧ (failure = none →
        (ofType .approvalRequired events).length = if chunk.interrupts then 1 else 0) := by
    intro events hprogress hquiet
    refine ⟨adds_progress hprogress, fun _ => ?_⟩
    rw [ofType_progress hprogress (.inl rfl), hquiet]
    rfl
  have hfailed : ∀ (events : List AgentEvent) (e : ChunkError), failure = some e →
      (∀ e ∈ events, e.progress) → Adds chunk events ∧ (failure = none →
        (ofType .approvalRequired events).length = if chunk.interrupts then 1 else 0) := by
    intro events e hfailure hprogress
    refine ⟨adds_progress hprogress, fun hnone => ?_⟩
    rw [hfailure] at hnone
    cases hnone
  cases chunk with
  | custom chunk =>
      simp only [Chunk.events] at h
      split at h
      next e hevent =>
          cases h
          exact hfailed [] e rfl (by simp)
      next event hevent =>
          cases h
          apply hplain _ _ rfl
          exact fun e he => customEvent_progress hevent e (Option.mem_toList.mp he)
  | other =>
      cases h
      exact hplain [] (by simp) rfl
  | updates chunk interrupts =>
      simp only [Chunk.events] at h
      split at h
      next e hevents =>
          cases h
          exact hfailed [] e rfl (by simp)
      next events hevents =>
          have hprogress := updateEvents_progress hevents
          cases interrupts with
          | none =>
              cases h
              exact hplain _ hprogress rfl
          | some interrupts =>
              dsimp only at h
              split at h
              next e hframe =>
                  cases h
                  exact hfailed _ e rfl hprogress
              next approval hframe =>
                  cases h
                  have happroval : (Chunk.updates chunk (some interrupts)).interrupts = true := rfl
                  obtain ⟨hadds, hone⟩ :=
                    adds_approval hprogress (interruptFrame_type hframe) happroval
                  exact ⟨hadds, fun _ => hone⟩

/-- The loop over the items sends no DONE, no FINAL and no ERROR, and where it comes
to its end an APPROVAL_REQUIRED for each interrupt. -/
structure Loops (print : Printing) (run : GraphRun) (events : List AgentEvent)
    (interrupted : Bool) (failure : Option String) : Prop where
  done : ofType .done events = []
  final : ofType .final events = []
  error : ofType .error events = []
  quiet : run.interrupted = false → ofType .approvalRequired events = []
  failed : failure = run.failure print
  whole : failure = none → interrupted = run.interrupted ∧
    (ofType .approvalRequired events).length = (run.chunks.filter Chunk.interrupts).length

theorem streamChunks_loops (run : GraphRun) {events : List AgentEvent} {interrupted : Bool}
    {failure : Option String}
    (h : streamChunks print run.raised run.chunks = (events, interrupted, failure)) :
    Loops print run events interrupted failure := by
  obtain ⟨chunks, raised, snapshot⟩ := run
  dsimp only at h
  induction chunks generalizing events interrupted failure with
  | nil =>
      cases h
      exact ⟨rfl, rfl, rfl, fun _ => rfl, rfl, fun _ => ⟨rfl, rfl⟩⟩
  | cons chunk rest ih =>
      simp only [streamChunks] at h
      split at h
      next first e hfirst =>
          cases h
          obtain ⟨⟨hdone, hfinal, herror, hquiet⟩, -⟩ := chunk_adds hfirst
          refine ⟨hdone, hfinal, herror, fun hnone => ?_, ?_, fun hnone => ?_⟩
          · rw [GraphRun.interrupted, List.any_cons, Bool.or_eq_false_iff] at hnone
            exact hquiet hnone.1
          · simp [GraphRun.failure, hfirst]
          · cases hnone
      next first hfirst =>
          cases h
          obtain ⟨⟨hdone, hfinal, herror, hquiet⟩, hone⟩ := chunk_adds hfirst
          have hlater := ih rfl
          refine ⟨?_, ?_, ?_, fun hnone => ?_, ?_, fun hnone => ?_⟩
          · rw [ofType_append, hdone, hlater.done, List.nil_append]
          · rw [ofType_append, hfinal, hlater.final, List.nil_append]
          · rw [ofType_append, herror, hlater.error, List.nil_append]
          · rw [GraphRun.interrupted, List.any_cons, Bool.or_eq_false_iff] at hnone
            rw [ofType_append, hquiet hnone.1, hlater.quiet hnone.2, List.nil_append]
          · rw [hlater.failed]
            simp [GraphRun.failure, hfirst]
          · obtain ⟨hinterrupted, hlength⟩ := hlater.whole hnone
            refine ⟨?_, ?_⟩
            · rw [hinterrupted]
              rfl
            · rw [ofType_append, List.length_append, hone rfl, hlength, List.filter_cons]
              split
              · rw [List.length_cons, Nat.add_comm]
              · rw [Nat.zero_add]

end

/-- The terminal signals of a run that was brought to its end: an ERROR that comes last
where it failed, otherwise an APPROVAL_REQUIRED for each interrupt, and where there was
none the answer of the run that has ended. -/
def Signals (print : Printing) (run : GraphRun) (before : List AgentEvent) : Prop :=
  match run.failure print with
  | some message =>
      ofType .error before = [.error message] ∧ before.getLast? = some (.error message) ∧
        ofType .final before = [] ∧
        (run.interrupted = false → ofType .approvalRequired before = [])
  | none =>
      ofType .error before = [] ∧
        (ofType .approvalRequired before).length = (run.chunks.filter Chunk.interrupts).length ∧
        (run.interrupted = true → ofType .final before = []) ∧
        (run.interrupted = false → ∀ state, run.snapshot = .ok state →
          (state.next ≠ [] → ofType .final before = []) ∧
          ∀ answer, state.next = [] → state.values.get? "final_answer" = some answer →
            answer.truthy = true → ofType .final before = [.final (print.str answer)])

/-- The run neither failed nor paused on an interrupt, and its snapshot cannot be read. -/
def GraphRun.unreadable (print : Printing) (run : GraphRun) : Prop :=
  run.failure print = none ∧ run.interrupted = false ∧ ∃ message, run.snapshot = .error message

section

variable {print : Printing} {run : GraphRun} {events : List AgentEvent}

/-- The four ways the generator ends. -/
inductive Ends (print : Printing) (run : GraphRun) : Streamed → Prop
  | failed {events : List AgentEvent} {interrupted : Bool} {message : String}
      (hloops : Loops print run events interrupted (some message)) :
      Ends print run ⟨events ++ [.error message] ++ [.done], none⟩
  | paused {events : List AgentEvent} (hloops : Loops print run events true none) :
      Ends print run ⟨events ++ [.done], none⟩
  | unreadable {events : List AgentEvent} {message : String}
      (hloops : Loops print run events false none) (hsnapshot : run.snapshot = .error message) :
      Ends print run ⟨events, some message⟩
  | answered {events : List AgentEvent} {state : FinalState}
      (hloops : Loops print run events false none) (hsnapshot : run.snapshot = .ok state) :
      Ends print run
        ⟨events ++ (if state.next.isEmpty then finalEvents print state else []) ++ [.done], none⟩

theorem streamRun_ends (print : Printing) (run : GraphRun) :
    Ends print run (streamRun print run) := by
  unfold streamRun
  split
  next events interrupted message hloop =>
      have hends := Ends.failed (streamChunks_loops run hloop)
      rwa [List.append_assoc] at hends
  next events hloop => exact .paused (streamChunks_loops run hloop)
  next events hloop =>
      have hloops := streamChunks_loops run hloop
      split
      next message hsnapshot => exact .unreadable hloops hsnapshot
      next state hsnapshot =>
          have hends := Ends.answered hloops hsnapshot
          split
          next hend => rwa [if_pos hend] at hends
          next hend => rwa [if_neg hend, List.append_nil] at hends

theorem finalEvents_type (print : Printing) (state : FinalState) {type : EventType}
    (hne : type ≠ .final) : ofType type (finalEvents print state) = [] := by
  unfold finalEvents
  split
  · split
    · simp [ofType, AgentEvent.final, hne.symm]
    · rfl
  · rfl

theorem Loops.signals_failed {interrupted : Bool} {message : String}
    (h : Loops print run events interrupted (some message)) :
    ofType .done (events ++ [.error message]) = [] ∧
      Signals print run (events ++ [.error message]) := by
  have herror : ofType .error [AgentEvent.error message] = [AgentEvent.error message] := rfl
  constructor
  · rw [ofType_append, h.done]
    rfl
  · rw [Signals, ← h.failed]
    refine ⟨?_, List.getLast?_concat, ?_, fun hnone => ?_⟩
    · rw [ofType_append, h.error, herror, List.nil_append]
    · rw [ofType_append, h.final]
      rfl
    · rw [ofType_append, h.quiet hnone]
      rfl

theorem Loops.signals_paused (h : Loops print run events true none) : Signals print run events := by
  obtain ⟨hinterrupted, hlength⟩ := h.whole rfl
  rw [Signals, ← h.failed, ← hinterrupted]
  exact ⟨h.error, hlength, fun _ => h.final, fun hnone => by cases hnone⟩

theorem Loops.signals_answered {state : FinalState} (h : Loops print run events false none)
    (hsnapshot : run.snapshot = .ok state) :
    let before := events ++ (if state.next.isEmpty then finalEvents print state else [])
    ofType .done before = [] ∧ Signals print run before := by
  intro before
  obtain ⟨hinterrupted, hlength⟩ := h.whole rfl
  have hlater : ∀ type, type ≠ .final → ofType type before = ofType type events := by
    intro type hne
    rw [ofType_append]
    split
    · rw [finalEvents_type print state hne, List.append_nil]
    · rw [ofType_nil, List.append_nil]
  constructor
  · rw [hlater _ (by simp), h.done]
  · rw [Signals, ← h.failed, ← hinterrupted]
    refine ⟨?_, ?_, fun hnone => (by cases hnone), fun _ state' hstate' => ?_⟩
    · rw [hlater _ (by simp), h.error]
    · rw [hlater _ (by simp), hlength]
    · rw [hsnapshot] at hstate'
      cases hstate'
      refine ⟨fun hnext => ?_, fun answer hnext hanswer htruthy => ?_⟩
      · have hbusy : ¬ state.next.isEmpty = true := fun hend => hnext (List.isEmpty_iff.mp hend)
        rw [ofType_append, h.final, if_neg hbusy]
        rfl
      · have hsent : finalEvents print state = [.final (print.str answer)] := by
          simp [finalEvents, hanswer, htruthy]
        rw [ofType_append, h.final, if_pos (List.isEmpty_iff.mpr hnext), hsent]
        rfl

end

/-- A stream whose snapshot can be read, where it is, ends with its only DONE, and what
comes before has the signals of the run. -/
theorem stream_closes (print : Printing) (run : GraphRun) (hread : ¬ run.unreadable print) :
    ∃ before, streamRun print run = ⟨before ++ [.done], none⟩ ∧ ofType .done before = [] ∧
      Signals print run before := by
  have hends := streamRun_ends print run
  generalize streamRun print run = streamed at hends ⊢
  cases hends with
  | failed hloops => exact ⟨_, rfl, hloops.signals_failed⟩
  | paused hloops => exact ⟨_, rfl, hloops.done, hloops.signals_paused⟩
  | unreadable hloops hsnapshot =>
      have hinterrupted := (hloops.whole rfl).1
      exact absurd ⟨hloops.failed.symm, hinterrupted.symm, _, hsnapshot⟩ hread
  | answered hloops hsnapshot => exact ⟨_, rfl, hloops.signals_answered hsnapshot⟩

/-- An exception comes out of the generator exactly where reading the snapshot raises. -/
theorem stream_raises_iff (print : Printing) (run : GraphRun) :
    (streamRun print run).raised ≠ none ↔ run.unreadable print := by
  have hends := streamRun_ends print run
  generalize streamRun print run = streamed at hends ⊢
  cases hends with
  | failed hloops =>
      refine iff_of_false (not_not.mpr rfl) fun hunreadable => ?_
      have hfailed := hloops.failed
      rw [hunreadable.1] at hfailed
      cases hfailed
  | paused hloops =>
      refine iff_of_false (not_not.mpr rfl) fun hunreadable => ?_
      have hinterrupted := (hloops.whole rfl).1
      rw [hunreadable.2.1] at hinterrupted
      cases hinterrupted
  | unreadable hloops hsnapshot =>
      have hinterrupted := (hloops.whole rfl).1
      exact iff_of_true (Option.some_ne_none _)
        ⟨hloops.failed.symm, hinterrupted.symm, _, hsnapshot⟩
  | answered hloops hsnapshot =>
      refine iff_of_false (not_not.mpr rfl) fun ⟨_, _, message, hmessage⟩ => ?_
      rw [hsnapshot] at hmessage
      cases hmessage

/-- The claimed grammar: one DONE, at the end, and one kind of terminal signal. -/
def OneSignal (print : Printing) (run : GraphRun) : Prop :=
  ∃ before, streamRun print run = ⟨before ++ [.done], none⟩ ∧ ofType .done before = [] ∧
    ((run.failure print ≠ none ∨ run.unreadable print) ∧ ofType .error before ≠ [] ∧
        ofType .approvalRequired before = [] ∧ ofType .final before = [] ∨
      run.failure print = none ∧ run.interrupted = true ∧ ofType .approvalRequired before ≠ [] ∧
        ofType .error before = [] ∧ ofType .final before = [] ∨
      run.failure print = none ∧ run.interrupted = false ∧
        ofType .approvalRequired before = [] ∧ ofType .error before = [] ∧
        ∃ state answer, run.snapshot = .ok state ∧
          state.values.get? "final_answer" = some answer ∧
          ofType .final before = [.final (print.str answer)])

def printing : Printing := ⟨Json.dumps, fun _ => "error"⟩

theorem stream_closes_answered :
    ∃ before, streamRun printing
        { chunks := [.updates [("direct", .dict .missing)] none]
          snapshot := .ok { next := [], values := [("final_answer", .str "42")] } } =
          ⟨before ++ [.done], none⟩ ∧ ofType .final before = [.final "42"] := by
  obtain ⟨before, hstream, -, hsignals⟩ := stream_closes printing
    { chunks := [.updates [("direct", .dict .missing)] none]
      snapshot := .ok { next := [], values := [("final_answer", .str "42")] } }
    (by
      rintro ⟨-, -, message, hsnapshot⟩
      cases hsnapshot)
  refine ⟨before, hstream, ?_⟩
  obtain ⟨-, -, -, hended⟩ := hsignals
  exact (hended rfl _ rfl).2 (.str "42") rfl rfl rfl

/-- A run that stopped before a node without an interrupt is closed by the DONE alone,
and so is one that ended with an empty answer; one that failed after an interrupt has
both signals. -/
theorem stream_closes_otherwise :
    ¬ OneSignal printing
        { chunks := [], snapshot := .ok { next := ["act"], values := [("final_answer", .null)] } } ∧
      ¬ OneSignal printing
        { chunks := [], snapshot := .ok { next := [], values := [("final_answer", .str "")] } } ∧
      ¬ OneSignal printing
        { chunks := [.updates [] (some [.obj []])]
          raised := some "connection lost"
          snapshot := .ok { next := ["act"], values := [] } } := by
  have hbare : ∀ run : GraphRun, streamRun printing run = ⟨[.done], none⟩ →
      run.interrupted = false → ¬ OneSignal printing run := by
    rintro run hrun hquiet ⟨before, hstream, -, hsignals⟩
    have hevents := congrArg Streamed.events (hrun.symm.trans hstream)
    have hempty : before = [] := List.self_eq_append_left.mp hevents
    subst hempty
    rcases hsignals with ⟨-, herror, -⟩ | ⟨-, -, hpaused, -⟩ |
      ⟨-, -, -, -, state, answer, -, -, hfinal⟩
    · exact herror rfl
    · exact hpaused rfl
    · cases hfinal
  refine ⟨hbare _ rfl rfl, hbare _ rfl rfl, ?_⟩
  rintro ⟨before, hstream, -, hsignals⟩
  have hevents : [_, _] ++ [AgentEvent.done] = before ++ [.done] :=
    congrArg Streamed.events hstream
  rw [← List.append_cancel_right hevents] at hsignals
  rcases hsignals with ⟨-, -, hquiet, -⟩ | ⟨hfailure, -⟩ | ⟨hfailure, -⟩
  · cases hquiet
  · cases hfailure
  · cases hfailure

end Lour.Gateway
