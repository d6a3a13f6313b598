import Lour.Agents.Answers
import Lour.Agents.Thread
import Lour.Gateway.StreamRun
/-!
# The routing decision in the stream

`_update_events` takes every update with a route for the decision of the route node.
A subgraph hands its whole state back as its update, and the route is in it.
-/

namespace Lour.Gateway

open Lour.Agents Lour.Lib Lour.Lib.Python

/-! ## What the supervisor streams -/

/-- The literal of an agent. -/
def agentText : AgentName → String
  | .researcher => "researcher"
  | .coder => "coder"
  | .direct => "direct"

/-- The dict that `emit` writes. -/
def customDict : CustomEvent → Dict
  | .node node => [("event", .str "node"), ("node", .str node)]
  | .token text node => [("event", .str "token"), ("text", .str text), ("node", .str node)]
  | .toolCalled name arguments node =>
      [("event", .str "tool_called"), ("name", .str name), ("arguments", .obj arguments),
        ("node", .str node)]
  | .toolResult name ok error node =>
      [("event", .str "tool_result"), ("name", .str name), ("ok", .bool ok),
        ("error", (error.map Json.str).getD .null), ("node", .str node)]

/-- The dict a node returned, of which `_update_events` reads the route. -/
def nodeUpdate (u : Update) : NodeUpdate :=
  .dict
    (match u.route with
    | none => .missing
    | some none => .json .null
    | some (some route) => .decision (agentText route.agent) route.reasoning)

/-- `PendingApproval.model_dump()`. -/
def approvalDict (pending : PendingApproval) : Dict :=
  [("tool", .str pending.tool), ("arguments", .obj pending.arguments),
    ("reason", .str pending.reason)]

/-- The value of the interrupt. -/
def interruptValue (pending : List PendingApproval) : Json :=
  .obj [("pending", .arr (pending.map fun p => .obj (approvalDict p)))]

/-- The chunks an item is reported as in the modes `updates` and `custom`.  A subgraph that
was left has returned its final channels.  The nodes that interrupt are the subgraphs', and
the supervisor reports the interrupt once more. -/
def chunksOf : StreamItem → List Chunk
  | .emitted (.custom e) => [.custom (customDict e)]
  | .emitted _ => []
  | .finished node u | .left node u => [.updates [(node, nodeUpdate u)] none]
  | .interrupted _ pending => List.replicate 2 (.updates [] (some [interruptValue pending]))
  | .raised _ _ => []

/-- One call of `stream_run`: the value its `Command` resumes with, if it is not the
call with the seed, what the environment answers to each node, the exception that ended
the items, if any, and the snapshot read at the end. -/
structure StreamCall where
  command : Option Json := none
  envs : List Env
  raised : Option String := none
  snapshot : Except String FinalState

def StreamCall.requests (self : StreamCall) : List (Request Env Json) :=
  match self.command, self.envs with
  | _, [] => []
  | none, envs => envs.map .exec
  | some value, env :: envs => .resume value env :: envs.map .exec

section

variable (print : Printing) (deps : Deps)

/-- The frames of one call, and where it leaves the run. -/
def streamCall (C : SupervisorConfig) (call : StreamCall) :
    Option (SupervisorConfig × List AgentEvent) :=
  ((supervisor deps).system.run C call.requests).map fun (C', items) =>
    (C', (streamRun print
      { chunks := items.flatMap chunksOf, raised := call.raised,
        snapshot := call.snapshot }).events)

/-- The calls of one supervisor run: the one that starts it and those that resume it. -/
def streamSystem : System SupervisorConfig StreamCall AgentEvent := ⟨streamCall print deps⟩

end

/-- The frame of a decision. -/
def announce (route : Route) : AgentEvent :=
  .routeDecided (agentText route.agent) route.reasoning

/-- The frames have one ROUTE_DECIDED, that of the route, and the route node finishes
right after it. -/
def Once (route : Route) (frames : List AgentEvent) : Prop :=
  ∃ before after, frames = before ++ [announce route, .nodeFinished "route"] ++ after ∧
    ofType .routeDecided before = [] ∧ ofType .routeDecided after = []

/-- The frames of a run announce its decision once, and nothing before it is taken. -/
def OneDecision (C : SupervisorConfig) (frames : List AgentEvent) : Prop :=
  match C.state.route with
  | none => ofType .routeDecided frames = []
  | some route => Once route frames

/-- The run has come past an agent that is a subgraph. -/
def LeftAgent : SupervisorConfig → Prop
  | .top (.ready .memoryWrite s) | .top (.ended s) => dispatch s ≠ .direct
  | _ => False

/-! ## The frames of an item -/

section Frames

variable {print : Printing}

/-- What an item adds to the stream. -/
def itemFrames (print : Printing) (item : StreamItem) : List AgentEvent :=
  (chunksOf item).flatMap fun chunk => (chunk.events print).1

/-- The decision in an update, if there is one. -/
def decidedBy (u : Update) : List Route :=
  ((u.route.getD none).map fun route => [route]).getD []

/-- The decisions that `_update_events` sees in the items. -/
def decisions (items : List StreamItem) : List Route :=
  items.flatMap fun
    | .finished _ u | .left _ u => decidedBy u
    | _ => []

@[simp] theorem decisions_append (xs ys : List StreamItem) :
    decisions (xs ++ ys) = decisions xs ++ decisions ys :=
  List.flatMap_append

theorem decisions_items (name : String) (x : NodeExecution) :
    decisions (x.items name) = x.outcome.returned decidedBy := by
  have hout : decisions (x.out.map .emitted) = [] := by
    rw [decisions, List.flatMap_map]
    exact List.flatMap_eq_nil_iff.mpr fun _ _ => rfl
  have hitem : decisions [x.outcome.item name] = x.outcome.returned decidedBy := by
    cases x.outcome <;> simp [decisions, Outcome.item, Outcome.returned]
  rw [Execution.items, decisions_append, hout, hitem, List.nil_append]

theorem customEvent_dict (e : CustomEvent) :
    ∃ event : AgentEvent, customEvent print (customDict e) = .ok (some event) ∧
      event.type ≠ .routeDecided := by
  cases e with
  | node node =>
      by_cases hnode : node = "" <;>
        simp [customDict, customEvent, Dict.get?, orElse, Json.truthy, hnode, eventNode,
          AgentEvent.nodeStarted, bind, Except.bind]
  | token text node => exact ⟨_, rfl, by simp [AgentEvent.token]⟩
  | toolCalled name arguments node => exact ⟨_, rfl, by simp [AgentEvent.toolCalled]⟩
  | toolResult name ok error node => exact ⟨_, rfl, by simp [AgentEvent.toolResult]⟩

theorem updateEvents_nodeUpdate (u : Update) (node : String) :
    updateEvents print [(node, nodeUpdate u)] =
      .ok ((decidedBy u).map announce ++ [.nodeFinished node]) := by
  have hnamed : ∀ agent, agentText agent ≠ "" := by
    intro agent
    cases agent <;> simp [agentText]
  unfold nodeUpdate decidedBy
  cases u.route with
  | none => rfl
  | some value =>
      cases value with
      | none => rfl
      | some route =>
          simp [updateEvents, routeEvents, hnamed, announce, bind, Except.bind]

theorem interruptFrame_value (pending : List PendingApproval) :
    ∃ event, interruptFrame print [interruptValue pending] = .ok event ∧
      event.type = .approvalRequired := by
  cases pending with
  | nil => exact ⟨_, rfl, rfl⟩
  | cons first rest => exact ⟨_, rfl, rfl⟩

theorem interruptChunk_events (pending : List PendingApproval) :
    ∃ event : AgentEvent, event.type = .approvalRequired ∧
      (Chunk.updates [] (some [interruptValue pending])).events print = ([event], none) := by
  obtain ⟨event, hevent, htype⟩ := @interruptFrame_value print pending
  have hnone : updateEvents print [] = .ok [] := rfl
  refine ⟨event, htype, ?_⟩
  simp only [Chunk.events, hnone, hevent, List.nil_append]

/-- Nothing the supervisor streams raises in the generator. -/
theorem chunksOf_events {item : StreamItem} {chunk : Chunk} (h : chunk ∈ chunksOf item) :
    (chunk.events print).2 = none := by
  cases item with
  | emitted o =>
      cases o with
      | custom e =>
          rw [List.mem_singleton.mp h]
          obtain ⟨event, hevent, -⟩ := @customEvent_dict print e
          rw [Chunk.events, hevent]
      | chat response => cases h
      | ran call => cases h
      | wrote sessionId role content => cases h
  | finished node u =>
      rw [List.mem_singleton.mp h, Chunk.events, updateEvents_nodeUpdate]
  | left node u =>
      rw [List.mem_singleton.mp h, Chunk.events, updateEvents_nodeUpdate]
  | interrupted node pending =>
      rw [List.eq_of_mem_replicate h]
      obtain ⟨event, -, hevents⟩ := @interruptChunk_events print pending
      rw [hevents]
  | raised node e => cases h

theorem itemFrames_finished (node : String) (u : Update) :
    itemFrames print (.finished node u) = (decidedBy u).map announce ++ [.nodeFinished node] := by
  simp only [itemFrames, chunksOf, List.flatMap_cons, List.flatMap_nil, List.append_nil,
    Chunk.events, updateEvents_nodeUpdate]

theorem ofType_single {type : EventType} {event : AgentEvent} (h : event.type ≠ type) :
    ofType type [event] = [] := by
  simp [ofType, h]

theorem ofType_announced (routes : List Route) :
    ofType .routeDecided (routes.map announce) = routes.map announce := by
  apply List.filter_eq_self.mpr
  intro event hevent
  obtain ⟨route, -, rfl⟩ := List.mem_map.mp hevent
  rfl

/-- A ROUTE_DECIDED is sent for each update with a decision, and for nothing else. -/
theorem ofType_itemFrames (item : StreamItem) :
    ofType .routeDecided (itemFrames print item) = (decisions [item]).map announce := by
  have hupdate : ∀ node u, ofType .routeDecided (itemFrames print (.finished node u)) =
      (decidedBy u).map announce := by
    intro node u
    rw [itemFrames_finished, ofType_append, ofType_announced,
      ofType_single (by simp [AgentEvent.nodeFinished]), List.append_nil]
  have hdecided : ∀ u, decidedBy u ++ [] = decidedBy u := fun u => List.append_nil _
  cases item with
  | emitted o =>
      cases o with
      | custom e =>
          obtain ⟨event, hevent, htype⟩ := @customEvent_dict print e
          have hframes : itemFrames print (.emitted (.custom e)) = [event] := by
            simp only [itemFrames, chunksOf, List.flatMap_cons, List.flatMap_nil,
              List.append_nil, Chunk.events, hevent, Option.toList_some]
          rw [hframes, ofType_single htype]
          rfl
      | chat response => rfl
      | ran call => rfl
      | wrote sessionId role content => rfl
  | finished node u =>
      rw [hupdate]
      exact congrArg _ (hdecided u).symm
  | left node u =>
      calc ofType .routeDecided (itemFrames print (.left node u))
          = ofType .routeDecided (itemFrames print (.finished node u)) := rfl
        _ = (decidedBy u).map announce := hupdate node u
        _ = (decisions [.left node u]).map announce := congrArg _ (hdecided u).symm
  | interrupted node pending =>
      obtain ⟨event, htype, hevents⟩ := @interruptChunk_events print pending
      have hframes : itemFrames print (.interrupted node pending) = [event] ++ [event] := by
        simp only [itemFrames, chunksOf, List.replicate, List.flatMap_cons, List.flatMap_nil,
          List.append_nil, hevents]
      rw [hframes, ofType_append, ofType_single (by rw [htype]; simp)]
      rfl
  | raised node e => rfl

/-- The ROUTE_DECIDED frames of the items, in order. -/
theorem ofType_frames (items : List StreamItem) :
    ofType .routeDecided (items.flatMap (itemFrames print)) = (decisions items).map announce := by
  induction items with
  | nil => rfl
  | cons item rest ih =>
      calc ofType .routeDecided ((item :: rest).flatMap (itemFrames print))
          = ofType .routeDecided (itemFrames print item) ++
              ofType .routeDecided (rest.flatMap (itemFrames print)) := by
            rw [List.flatMap_cons, ofType_append]
        _ = (decisions [item]).map announce ++ (decisions rest).map announce := by
            rw [ofType_itemFrames, ih]
        _ = (decisions (item :: rest)).map announce := by
            rw [← List.map_append, ← decisions_append, List.singleton_append]

/-! ## The frames of a call -/

/-- Where no chunk raises, the loop sends the events of all of them. -/
theorem streamChunks_eq (raised : Option String) {chunks : List Chunk}
    (hfine : ∀ chunk ∈ chunks, (chunk.events print).2 = none) :
    (streamChunks print raised chunks).1 = chunks.flatMap fun chunk => (chunk.events print).1 := by
  induction chunks with
  | nil => rfl
  | cons chunk rest ih =>
      obtain ⟨hfirst, hrest⟩ := List.forall_mem_cons.mp hfine
      rw [streamChunks, List.flatMap_cons, ← ih hrest]
      split
      next events e hevents =>
          rw [hevents] at hfirst
          cases hfirst
      next events hevents => rw [hevents]

/-- The supervisor's items are all sent. -/
theorem streamChunks_events (raised : Option String) (items : List StreamItem) :
    (streamChunks print raised (items.flatMap chunksOf)).1 =
      items.flatMap (itemFrames print) := by
  rw [streamChunks_eq, List.flatMap_assoc]
  · rfl
  · intro chunk hchunk
    obtain ⟨item, -, hitem⟩ := List.mem_flatMap.mp hchunk
    exact chunksOf_events hitem

/-- Past its items a call sends no ROUTE_DECIDED. -/
theorem streamRun_events (run : GraphRun) :
    ∃ tail, (streamRun print run).events =
      (streamChunks print run.raised run.chunks).1 ++ tail ∧ ofType .routeDecided tail = [] := by
  unfold streamRun
  split
  next events _ message hloop => exact ⟨[.error message, .done], by rw [hloop], rfl⟩
  next events hloop => exact ⟨[.done], by rw [hloop], rfl⟩
  next events hloop =>
      split
      next message hsnapshot => exact ⟨[], by rw [hloop, List.append_nil], rfl⟩
      next state hsnapshot =>
          split
          next hended =>
              refine ⟨finalEvents print state ++ [.done], by rw [hloop, List.append_assoc], ?_⟩
              rw [ofType_append, finalEvents_type print state (by simp)]
              rfl
          next hnext => exact ⟨[.done], by rw [hloop], rfl⟩

end Frames

/-! ## Where the run stands, and what was announced -/

section Runs

variable {deps : Deps} {print : Printing}

theorem Once.length {route : Route} {frames : List AgentEvent} (h : Once route frames) :
    (ofType .routeDecided frames).length = 1 := by
  obtain ⟨before, after, rfl, hbefore, hafter⟩ := h
  rw [ofType_append, ofType_append, hbefore, hafter, List.append_nil]
  rfl

theorem Once.quiet {route : Route} {frames more : List AgentEvent} (h : Once route frames)
    (hmore : ofType .routeDecided more = []) : Once route (frames ++ more) := by
  obtain ⟨before, after, rfl, hbefore, hafter⟩ := h
  refine ⟨before, after ++ more, List.append_assoc .., hbefore, ?_⟩
  rw [ofType_append, hafter, hmore, List.append_nil]

/-- The announcements of a run past its agent: a subgraph has sent a second one. -/
structure Past (route : Route) (frames : List AgentEvent) : Prop where
  direct : route.agent = .direct → Once route frames
  subgraph : route.agent ≠ .direct → (ofType .routeDecided frames).length = 2

theorem Past.quiet {route : Route} {frames more : List AgentEvent} (h : Past route frames)
    (hmore : ofType .routeDecided more = []) : Past route (frames ++ more) where
  direct hagent := (h.direct hagent).quiet hmore
  subgraph hagent := by rw [ofType_append, hmore, List.append_nil, h.subgraph hagent]

/-- Where a run that started without a route stands, and what it has announced. -/
def Stage (frames : List AgentEvent) : SupervisorConfig → Prop
  | .top (.ready .memoryRecall s) | .top (.ready .route s) =>
      s.route = none ∧ ofType .routeDecided frames = []
  | .top (.ready .direct s) =>
      ∃ route : Route, s.route = some route ∧ route.agent = .direct ∧ Once route frames
  | .within _ s c =>
      ∃ route : Route, s.route = some route ∧ c.state.route = some route ∧
        route.agent ≠ .direct ∧ Once route frames
  | .top (.ready .memoryWrite s) | .top (.ended s) =>
      ∃ route, s.route = some route ∧ Past route frames
  | _ => False

theorem Stage.quiet {frames more : List AgentEvent} {C : SupervisorConfig}
    (h : Stage frames C) (hmore : ofType .routeDecided more = []) : Stage (frames ++ more) C := by
  have hnone : ofType .routeDecided frames = [] → ofType .routeDecided (frames ++ more) = [] := by
    intro hframes
    rw [ofType_append, hframes, hmore, List.append_nil]
  cases C with
  | within n s c =>
      obtain ⟨route, hs, hc, hagent, honce⟩ := h
      exact ⟨route, hs, hc, hagent, honce.quiet hmore⟩
  | top c =>
      cases c with
      | ended s =>
          obtain ⟨route, hs, hpast⟩ := h
          exact ⟨route, hs, hpast.quiet hmore⟩
      | ready n s =>
          cases n with
          | memoryRecall => exact ⟨h.1, hnone h.2⟩
          | route => exact ⟨h.1, hnone h.2⟩
          | direct =>
              obtain ⟨route, hs, hagent, honce⟩ := h
              exact ⟨route, hs, hagent, honce.quiet hmore⟩
          | memoryWrite =>
              obtain ⟨route, hs, hpast⟩ := h
              exact ⟨route, hs, hpast.quiet hmore⟩
          | researcher => exact h.elim
          | coder => exact h.elim
      | paused n s payload => exact h.elim
      | failed n s e => exact h.elim

/-- No node of the graph writes a route. -/
def Unrouted {ν : Type} (G : AgentGraph ν) : Prop :=
  ∀ n env answer s u, (G.node n env answer s).outcome = .update u → u.route = none

theorem act_unrouted {env : Env} {answer : Option Json} {state : AgentState} {u : Update}
    (h : (act deps env answer state).outcome = .update u) : u.route = none := by
  rcases act_update_cases h with ⟨-, rfl⟩ | ⟨approved, -, rfl⟩
  · rfl
  · rfl

theorem finalize_unrouted (env : Env) {state : AgentState} {u : Update}
    (h : (finalize env state).outcome = .update u) : u.route = none := by
  unfold finalize at h
  split at h <;> cases h <;> rfl

theorem researcher_unrouted (deps : Deps) : Unrouted (researcher deps) := by
  intro n env answer s u h
  cases n with
  | plan => cases h; rfl
  | act => exact act_unrouted h
  | reflect => cases h; rfl
  | finalize => exact finalize_unrouted env h

theorem coder_unrouted (deps : Deps) : Unrouted (coder deps) := by
  intro n env answer s u h
  cases n with
  | setup => cases h; rfl
  | act => exact act_unrouted h
  | finalize => exact finalize_unrouted env h

theorem agent_unrouted {n : SupervisorNode} {G : AgentGraph n.Inner}
    (h : (supervisor deps).task n = .graph G) : Unrouted G := by
  cases n with
  | researcher =>
      cases h
      exact researcher_unrouted deps
  | coder =>
      cases h
      exact coder_unrouted deps
  | memoryRecall => cases h
  | route => cases h
  | direct => cases h
  | memoryWrite => cases h

/-- A step inside a subgraph keeps the route and announces nothing. -/
theorem Unrouted.step {ν : Type} {G : AgentGraph ν} (hG : Unrouted G)
    (hfold : G.fold = AgentState.fold)
    {c c' : Config ν AgentState (List PendingApproval) AgentError} {r : Request Env Json}
    {items : List StreamItem} (h : G.step c r = some (c', items)) :
    c'.state.route = c.state.route ∧ decisions items = [] := by
  obtain ⟨n, -, -, rfl, rfl⟩ := G.step_cases h
  rw [decisions_items]
  cases houtcome : (G.node n r.env r.answer c.state).outcome with
  | update u =>
      have hroute := hG n r.env r.answer c.state u houtcome
      constructor
      · show (G.complete n r.env c.state u).state.route = c.state.route
        rw [StateGraph.complete_state, hfold]
        show u.route.getD c.state.route = c.state.route
        rw [hroute, Option.getD_none]
      · rw [Outcome.returned, decidedBy, hroute]
        rfl
  | interrupt payload => exact ⟨rfl, rfl⟩
  | error e => exact ⟨rfl, rfl⟩

/-- A step inside a subgraph; at its end the route goes to the parent once more. -/
theorem Stage.leave {frames : List AgentEvent} {n : SupervisorNode} {s : AgentState}
    {G : AgentGraph n.Inner} {c c' : Config n.Inner AgentState (List PendingApproval) AgentError}
    {r : Request Env Json} {inner : List StreamItem} (hC : Stage frames (.within n s c))
    (hG : Unrouted G) (hfold : G.fold = AgentState.fold)
    (hnext : (supervisor deps).next n = fun _ _ => some .memoryWrite)
    (hstep : G.step c r = some (c', inner)) :
    Stage (frames ++ ((supervisor deps).leave n r.env s (c', inner)).2.flatMap
      (itemFrames print)) ((supervisor deps).leave n r.env s (c', inner)).1 := by
  obtain ⟨route, hs, hc, hagent, honce⟩ := hC
  obtain ⟨hroute, hquiet⟩ := hG.step hfold hstep
  have hinner : ofType .routeDecided (inner.flatMap (itemFrames print)) = [] := by
    rw [ofType_frames, hquiet, List.map_nil]
  have hwithin : Stage (frames ++ inner.flatMap (itemFrames print)) (.within n s c') :=
    ⟨route, hs, hroute.trans hc, hagent, honce.quiet hinner⟩
  cases c' with
  | ready m t => exact hwithin
  | paused m t payload => exact hwithin
  | failed m t e => exact hwithin
  | ended t =>
      have ht : t.route = some route := hroute.trans hc
      let last : List StreamItem := [.left ((supervisor deps).name n) t.whole]
      have hlast : decisions last = [route] := by
        show (t.route.map fun route => [route]).getD [] ++ [] = [route]
        rw [ht]
        rfl
      have hcount : (ofType .routeDecided
          (frames ++ (inner ++ last).flatMap (itemFrames print))).length = 2 := by
        rw [ofType_append, List.length_append, honce.length, ofType_frames, decisions_append,
          hquiet, hlast]
        rfl
      simp only [Nested.leave, Nested.complete, hnext]
      exact ⟨route, ht, fun hdirect => absurd hdirect hagent, fun _ => hcount⟩

/-- Where the run goes with the agent of its decision. -/
theorem stage_dispatch {frames : List AgentEvent} {s : AgentState} {route : Route}
    (hs : s.route = some route) (honce : Once route frames) :
    Stage frames ((supervisor deps).settle (.ready route.agent.node s)) := by
  cases hagent : route.agent with
  | researcher => exact ⟨route, hs, hs, by rw [hagent]; simp, honce⟩
  | coder => exact ⟨route, hs, hs, by rw [hagent]; simp, honce⟩
  | direct => exact ⟨route, hs, hagent, honce⟩

theorem Stage.step {frames : List AgentEvent} {C C' : SupervisorConfig} {r : Request Env Json}
    {items : List StreamItem} (hC : Stage frames C)
    (h : (supervisor deps).step C r = some (C', items)) :
    Stage (frames ++ items.flatMap (itemFrames print)) C' := by
  have hquiet : ∀ name (x : NodeExecution), x.outcome.returned decidedBy = [] →
      ofType .routeDecided ((x.items name).flatMap (itemFrames print)) = [] := by
    intro name x hx
    rw [ofType_frames, decisions_items, hx, List.map_nil]
  cases C with
  | within n s c =>
      obtain ⟨G, c', inner, hG, hstep, hleave⟩ := (supervisor deps).step_within h
      obtain ⟨hfold, hnext⟩ := agent_node hG
      obtain ⟨rfl, rfl⟩ := Prod.mk.inj hleave
      exact hC.leave (agent_unrouted hG) hfold hnext hstep
  | top c =>
      cases c with
      | paused n s payload => exact hC.elim
      | failed n s e => exact hC.elim
      | ended s => cases r <;> cases h
      | ready n s =>
          cases r with
          | resume value env => cases h
          | exec env =>
              cases n with
              | memoryRecall =>
                  cases h
                  exact Stage.quiet (C := .top (.ready .route _)) hC (hquiet _ _ rfl)
              | route =>
                  obtain ⟨hroute, hnone⟩ := hC
                  have hdecided := @step_route deps s hroute env
                  obtain ⟨rfl, rfl⟩ := Prod.mk.inj (Option.some.inj (hdecided.symm.trans h))
                  apply stage_dispatch rfl
                  refine ⟨frames, [], ?_, hnone, rfl⟩
                  rw [List.flatMap_singleton, itemFrames_finished, List.append_nil]
                  rfl
              | direct =>
                  obtain ⟨route, hs, hagent, honce⟩ := hC
                  cases h
                  have hmore := honce.quiet (hquiet "direct" (direct env s) rfl)
                  exact ⟨route, hs, fun _ => hmore, fun hne => absurd hagent hne⟩
              | memoryWrite =>
                  obtain ⟨route, hs, hpast⟩ := hC
                  cases h
                  exact ⟨route, hs, hpast.quiet (hquiet "memory_write" (memoryWrite env s) rfl)⟩
              | researcher => exact hC.elim
              | coder => exact hC.elim

/-- What a whole call leaves behind. -/
theorem Stage.call {frames out : List AgentEvent} {C C' : SupervisorConfig} {call : StreamCall}
    (hC : Stage frames C) (h : streamCall print deps C call = some (C', out)) :
    Stage (frames ++ out) C' := by
  obtain ⟨⟨D, items⟩, hrun, heq⟩ := Option.map_eq_some_iff.mp h
  obtain ⟨rfl, rfl⟩ := Prod.mk.inj heq
  obtain ⟨tail, hevents, htail⟩ := @streamRun_events print
    { chunks := items.flatMap chunksOf, raised := call.raised, snapshot := call.snapshot }
  have hitems : Stage (frames ++ ([] ++ items).flatMap (itemFrames print)) D := by
    refine System.run_induction (P := fun C items =>
      Stage (frames ++ items.flatMap (itemFrames print)) C) ?_ ?_ hrun
    · intro C items r C' out _ hstage hstep
      rw [List.flatMap_append, ← List.append_assoc]
      exact hstage.step hstep
    · rw [List.flatMap_nil, List.append_nil]
      exact hC
  rw [List.nil_append] at hitems
  rw [hevents, streamChunks_events, ← List.append_assoc]
  exact hitems.quiet htail

theorem stage_run {s : AgentState} (hroute : s.route = none) {calls : List StreamCall}
    {C : SupervisorConfig} {frames : List AgentEvent}
    (h : (streamSystem print deps).run ((supervisor deps).start s) calls = some (C, frames)) :
    Stage frames C := by
  have hstart : Stage [] ((supervisor deps).start s) := ⟨hroute, rfl⟩
  have hrun := System.run_induction (P := fun C frames => Stage frames C)
    (fun C frames call C' out _ hstage hcall => Stage.call hstage hcall) hstart h
  exact hrun

theorem oneDecision_none {frames : List AgentEvent} (C : SupervisorConfig)
    (h : C.state.route = none) : OneDecision C frames ↔ ofType .routeDecided frames = [] := by
  rw [OneDecision, h]

theorem oneDecision_some {frames : List AgentEvent} (C : SupervisorConfig) {route : Route}
    (h : C.state.route = some route) : OneDecision C frames ↔ Once route frames := by
  rw [OneDecision, h]

theorem Past.once_iff {route : Route} {frames : List AgentEvent} (h : Past route frames) :
    Once route frames ↔ route.agent = .direct := by
  constructor
  · intro honce
    by_contra hagent
    have hone := honce.length
    have htwo := h.subgraph hagent
    omega
  · exact h.direct

/-- The decision was announced once exactly where the run has not come past a subgraph. -/
theorem Stage.oneDecision_iff {frames : List AgentEvent} {C : SupervisorConfig}
    (h : Stage frames C) : OneDecision C frames ↔ ¬ LeftAgent C := by
  -- past its agent a run is in the state that `dispatch` is read off
  have hpast : ∀ {C : SupervisorConfig} {s : AgentState} {route : Route},
      C.state = s → s.route = some route → Past route frames →
      (OneDecision C frames ↔ ¬ dispatch s ≠ .direct) := by
    intro C s route hstate hs hpast
    have hagent : dispatch s = route.agent := by rw [dispatch, hs]
    rw [oneDecision_some C (hstate ▸ hs), hpast.once_iff, hagent, not_ne_iff]
  cases C with
  | within n s c =>
      obtain ⟨route, -, hc, -, honce⟩ := h
      exact iff_of_true ((oneDecision_some (.within n s c) hc).mpr honce) id
  | top c =>
      cases c with
      | ended s =>
          obtain ⟨route, hs, hroute⟩ := h
          exact hpast rfl hs hroute
      | paused n s payload => exact h.elim
      | failed n s e => exact h.elim
      | ready n s =>
          cases n with
          | memoryRecall =>
              obtain ⟨hs, hnone⟩ := h
              exact iff_of_true ((oneDecision_none (.top (.ready .memoryRecall s)) hs).mpr hnone) id
          | route =>
              obtain ⟨hs, hnone⟩ := h
              exact iff_of_true ((oneDecision_none (.top (.ready .route s)) hs).mpr hnone) id
          | direct =>
              obtain ⟨route, hs, -, honce⟩ := h
              exact iff_of_true ((oneDecision_some (.top (.ready .direct s)) hs).mpr honce) id
          | memoryWrite =>
              obtain ⟨route, hs, hroute⟩ := h
              exact hpast rfl hs hroute
          | researcher => exact h.elim
          | coder => exact h.elim

end Runs

/-- However a run that starts without a route is streamed, in however many calls, its
decision is announced once exactly where it has not come past an agent that is a
subgraph. -/
theorem route_decided_once_iff (print : Printing) (deps : Deps) (s : AgentState)
    (hroute : s.route = none) (calls : List StreamCall) (C : SupervisorConfig)
    (frames : List AgentEvent)
    (h : (streamSystem print deps).run ((supervisor deps).start s) calls = some (C, frames)) :
    OneDecision C frames ↔ ¬ LeftAgent C :=
  (stage_run hroute h).oneDecision_iff

/-- A call with the seed, whose nodes are all answered alike. -/
def seededCall (agent : AgentName) (requests : Nat) : StreamCall where
  envs := List.replicate requests (stubEnv { content := "42" } agent)
  snapshot := .ok { next := [], values := [("final_answer", .str "42")] }

theorem route_decided_once_iff_direct :
    ∃ t frames, (streamSystem printing stubDeps).run
        ((supervisor stubDeps).start (stubState "q" {})) [seededCall .direct 4] =
          some (.top (.ended t), frames) ∧
      OneDecision (.top (.ended t)) frames := by
  refine ⟨_, _, rfl, ?_⟩
  exact (route_decided_once_iff printing stubDeps (stubState "q" {}) rfl
    [seededCall .direct 4] _ _ rfl).mpr fun hleft => hleft rfl

/-- The coder is a subgraph, and its run announces the decision twice. -/
theorem route_decided_twice :
    ¬ ∀ (print : Printing) (deps : Deps) (s : AgentState) (calls : List StreamCall)
      (C : SupervisorConfig) (frames : List AgentEvent), s.route = none →
      (streamSystem print deps).run ((supervisor deps).start s) calls = some (C, frames) →
        OneDecision C frames := by
  intro h
  have honce := h printing stubDeps (stubState "q" {}) [seededCall .coder 6] _ _ rfl rfl
  have hlength : (2 : ℕ) = 1 := Once.length honce
  omega

end Lour.Gateway
