import Lour.Agents.Enforcement
/-!
# A thread of chat turns

The transcript and the tool ledger accumulate in the checkpoint of a thread.  A
subgraph starts from the parent's channels and hands all of them back, and the
parent appends: what it already held is in the returned lists once more.
-/

namespace Lour.Agents

open Lour.Core Lour.Lib Lour.Lib.Python

/-- One chat turn: the arguments its seed is built from, and the requests that
drive the graph from there. -/
structure Turn where
  settings : AgentSettings := {}
  sessionId : String
  threadId : String
  query : String
  policy : Option Policy := none
  now : Rat
  requests : List (Request Env Json)

def Turn.seed (self : Turn) : Except String AgentState :=
  initialState self.settings self.sessionId self.threadId self.query self.policy self.now

/-- The seed written to the channels of the thread. -/
def enterThread (stored : Option AgentState) (seed : AgentState) : AgentState :=
  match stored with
  | none => seed
  | some s => s.fold seed.whole

/-- A turn runs from the seeded channels to the end of the graph, and the final
channels are what the checkpoint keeps. -/
def turnStep (deps : Deps) (stored : Option AgentState) (turn : Turn) :
    Option (Option AgentState × List StreamItem) :=
  match turn.seed with
  | .error _ => none
  | .ok seed =>
      match (supervisor deps).system.run ((supervisor deps).start (enterThread stored seed))
          turn.requests with
      | some (.top (.ended s), items) => some (some s, items)
      | _ => none

def threadSystem (deps : Deps) : System (Option AgentState) Turn StreamItem := ⟨turnStep deps⟩

/-- The agent the structured route decision of the turn names. -/
def Turn.routed (deps : Deps) (self : Turn) : Option AgentName :=
  match self.requests with
  | .exec first :: .exec second :: _ =>
      let context := first.recalled self.sessionId self.query
      let prompt := deps.prompts.supervisor self.query (some context)
      some (second.route [.user prompt]).agent
  | _ => none

def messagesOf (u : Update) : List LLMMessage := u.messages.getD []

def recordsOf (u : Update) : List ToolCallRecord := u.toolsCalled.getD []

/-! ## One turn -/

/-- `f` is a channel with the append reducer, `g` the part of an update it takes. -/
structure AppendChannel {β : Type} (f : AgentState → List β) (g : Update → List β) : Prop where
  fold : ∀ s u, f (s.fold u) = f s ++ g u
  whole : ∀ s, g s.whole = f s
  onRecall : ∀ context, g { memoryContext := context } = []
  onRoute : ∀ route, g { route := route } = []

theorem messages_channel : AppendChannel AgentState.messages messagesOf where
  fold _ _ := rfl
  whole _ := rfl
  onRecall _ := rfl
  onRoute _ := rfl

theorem toolsCalled_channel : AppendChannel AgentState.toolsCalled recordsOf where
  fold _ _ := rfl
  whole _ := rfl
  onRecall _ := rfl
  onRoute _ := rfl

section Turn

variable {deps : Deps} {β : Type} {f : AgentState → List β} {g : Update → List β}

/-- What the parent's channel holds besides what the turn produced: a subgraph
hands back the channel it started from. -/
def carried (agent : AgentName) (base : List β) : List β :=
  match agent with
  | .direct => base
  | _ => base ++ base

/-- A turn after its route decision: `base` is the channel at that point, `out`
what was produced since. -/
def Relay (f : AgentState → List β) (agent : AgentName) (base out : List β) :
    SupervisorConfig → Prop
  | .within _ s c => agent ≠ .direct ∧ f s = base ∧ f c.state = base ++ out
  | .top (.ready .direct s) => agent = .direct ∧ f s = base ++ out
  | .top (.ready .memoryWrite s) => f s = carried agent base ++ out
  | .top (.ended s) => f s = carried agent base ++ out
  | _ => False

theorem carried_of_ne {agent : AgentName} {base : List β} (h : agent ≠ .direct) :
    carried agent base = base ++ base := by
  cases agent <;> simp_all [carried]

theorem relay_dispatch (agent : AgentName) (s : AgentState) :
    Relay f agent (f s) [] ((supervisor deps).settle (.ready agent.node s)) := by
  cases agent with
  | researcher => exact ⟨by simp, rfl, (List.append_nil _).symm⟩
  | coder => exact ⟨by simp, rfl, (List.append_nil _).symm⟩
  | direct => exact ⟨rfl, (List.append_nil _).symm⟩

/-- Both agents fold as the supervisor does, which goes on to `memory_write` after them. -/
theorem agent_node {n : SupervisorNode} {G : AgentGraph n.Inner}
    (h : (supervisor deps).task n = .graph G) :
    G.fold = AgentState.fold ∧ (supervisor deps).next n = fun _ _ => some .memoryWrite := by
  cases n with
  | researcher =>
      cases h
      exact ⟨rfl, rfl⟩
  | coder =>
      cases h
      exact ⟨rfl, rfl⟩
  | memoryRecall => cases h
  | route => cases h
  | direct => cases h
  | memoryWrite => cases h

/-- A step inside a subgraph; at its end all its channels go to the parent. -/
theorem Relay.leave (hchannel : AppendChannel f g) {agent : AgentName} {base out : List β}
    {n : SupervisorNode} {s : AgentState} {k : AgentGraph n.Inner}
    {c c' : Config n.Inner AgentState (List PendingApproval) AgentError} {r : Request Env Json}
    {inner : List StreamItem} (hC : Relay f agent base out (.within n s c))
    (hfold : k.fold = AgentState.fold)
    (hnext : (supervisor deps).next n = fun _ _ => some .memoryWrite)
    (hstep : k.step c r = some (c', inner)) :
    Relay f agent base (out ++ produced g ((supervisor deps).leave n r.env s (c', inner)).2)
      ((supervisor deps).leave n r.env s (c', inner)).1 := by
  obtain ⟨hagent, hs, hc⟩ := hC
  have hgrown := k.step_produced (f := f) (g := g)
    (fun t u => by rw [hfold, hchannel.fold]) hstep
  cases c' with
  | ended t =>
      have ht : f t = base ++ (out ++ produced g inner) := by
        rw [← List.append_assoc, ← hc]
        exact hgrown
      have hback : f (s.fold t.whole) = carried agent base ++ (out ++ produced g inner) := by
        rw [hchannel.fold, hchannel.whole, hs, ht, carried_of_ne hagent, List.append_assoc]
      simp only [Nested.leave, Nested.complete, hnext, produced_append, produced_left,
        List.append_nil]
      exact hback
  | ready m t => exact ⟨hagent, hs, by rw [hgrown, hc, List.append_assoc]; rfl⟩
  | paused m t payload => exact ⟨hagent, hs, by rw [hgrown, hc, List.append_assoc]; rfl⟩
  | failed m t e => exact ⟨hagent, hs, by rw [hgrown, hc, List.append_assoc]; rfl⟩

theorem Relay.step (hchannel : AppendChannel f g) {agent : AgentName} {base out : List β}
    {C C' : SupervisorConfig} {r : Request Env Json} {items : List StreamItem}
    (hC : Relay f agent base out C) (h : (supervisor deps).step C r = some (C', items)) :
    Relay f agent base (out ++ produced g items) C' := by
  cases C with
  | top c =>
      cases c with
      | ready n s =>
          cases r with
          | resume value env => cases h
          | exec env =>
              cases n with
              | direct =>
                  obtain ⟨rfl, hs⟩ := hC
                  cases h
                  simp [supervisor, Nested.land, Nested.complete, Nested.settle, Relay, direct,
                    returns, Outcome.returned, hchannel.fold, hs, carried]
              | memoryWrite =>
                  have hs : f s = carried agent base ++ out := hC
                  cases h
                  simp [supervisor, Nested.land, Nested.complete, Relay, memoryWrite,
                    returns, Outcome.returned, hchannel.fold, hs]
              | memoryRecall => exact hC.elim
              | route => exact hC.elim
              | researcher => exact hC.elim
              | coder => exact hC.elim
      | paused n s payload => exact hC.elim
      | failed n s e => exact hC.elim
      | ended s => cases r <;> cases h
  | within n s c =>
      obtain ⟨G, c', inner, hG, hstep, hleave⟩ := (supervisor deps).step_within h
      obtain ⟨hfold, hnext⟩ := agent_node hG
      obtain ⟨rfl, rfl⟩ := Prod.mk.inj hleave
      exact hC.leave hchannel hfold hnext hstep

/-- The first node of every agent writes to the transcript. -/
theorem dispatch_speaks {agent : AgentName} {s : AgentState} {C : SupervisorConfig}
    {r : Request Env Json} {items : List StreamItem}
    (h : (supervisor deps).step ((supervisor deps).settle (.ready agent.node s)) r =
      some (C, items)) :
    produced messagesOf items ≠ [] := by
  cases r with
  | resume value env => cases agent <;> cases h
  | exec env =>
      cases agent with
      | researcher =>
          cases h
          exact List.cons_ne_nil _ _
      | coder =>
          cases h
          exact List.cons_ne_nil _ _
      | direct =>
          cases h
          rw [produced_items]
          exact List.cons_ne_nil _ _

theorem seed_fields {turn : Turn} {seed : AgentState} (h : turn.seed = .ok seed) :
    seed.sessionId = turn.sessionId ∧ seed.query = turn.query ∧ seed.route = none ∧
      seed.messages = [] ∧ seed.toolsCalled = [] := by
  unfold Turn.seed initialState at h
  dsimp only at h
  split at h
  · cases h
    exact ⟨rfl, rfl, rfl, rfl, rfl⟩
  · cases hresolve : resolveRunPolicy turn.settings none with
    | error e =>
        rw [hresolve] at h
        cases h
    | ok p =>
        rw [hresolve] at h
        cases h
        exact ⟨rfl, rfl, rfl, rfl, rfl⟩

theorem enterThread_fields {turn : Turn} {seed : AgentState} (h : turn.seed = .ok seed)
    (stored : Option AgentState) :
    (enterThread stored seed).sessionId = turn.sessionId ∧
      (enterThread stored seed).query = turn.query ∧ (enterThread stored seed).route = none := by
  obtain ⟨hid, hquery, hroute, -, -⟩ := seed_fields h
  cases stored with
  | none => exact ⟨hid, hquery, hroute⟩
  | some s => exact ⟨hid, hquery, hroute⟩

/-- Where the state has no route yet, the route node asks for one and the run goes
on at the agent it names. -/
theorem step_route {s : AgentState} (hroute : s.route = none) (env : Env) :
    let decision := env.route [.user (deps.prompts.supervisor s.query s.memoryContext)]
    (supervisor deps).step (.top (.ready .route s)) (.exec env) =
      some ((supervisor deps).settle (.ready decision.agent.node
        (s.fold { route := some (some decision) })),
        [.finished "route" { route := some (some decision) }]) := by
  have hnode : route deps env s = returns
      { route := some (some (env.route
        [.user (deps.prompts.supervisor s.query s.memoryContext)])) } := by
    simp only [route, hroute]
  simp only [Nested.step, Nested.exec, supervisor, hnode]
  rfl

/-- The first two requests of a turn that ends recall memory and take the route
decision. -/
theorem run_to_dispatch {turn : Turn} {s t : AgentState} {items : List StreamItem}
    (hid : s.sessionId = turn.sessionId) (hquery : s.query = turn.query) (hroute : s.route = none)
    (h : (supervisor deps).system.run ((supervisor deps).start s) turn.requests =
      some (.top (.ended t), items)) :
    ∃ context decision requests before rest, turn.routed deps = some decision.agent ∧
      items = before ++ rest ∧
      before = [.finished "memory_recall" { memoryContext := some (some context) },
        .finished "route" { route := some (some decision) }] ∧
      (supervisor deps).system.run ((supervisor deps).settle (.ready decision.agent.node
        ((s.fold { memoryContext := some (some context) }).fold
          { route := some (some decision) }))) requests = some (.top (.ended t), rest) := by
  cases hrequests : turn.requests with
  | nil =>
      rw [hrequests] at h
      cases h
  | cons first requests =>
      rw [hrequests] at h
      obtain ⟨C, out, rest, hstep, hrun, rfl⟩ := (supervisor deps).system.run_cons.mp h
      cases first with
      | resume value env => cases hstep
      | exec env₁ =>
          cases hstep
          cases requests with
          | nil => cases hrun
          | cons second requests =>
              obtain ⟨C, out, rest, hstep, hrest, rfl⟩ := (supervisor deps).system.run_cons.mp hrun
              cases second with
              | resume value env => cases hstep
              | exec env =>
                  have hdecided := @step_route deps
                    (s.fold { memoryContext := some (some (env₁.recalled s.sessionId s.query)) })
                    hroute env
                  obtain ⟨rfl, rfl⟩ := Prod.mk.inj (Option.some.inj (hdecided.symm.trans hstep))
                  refine ⟨_, _, requests, _, rest, ?_, rfl, rfl, hrest⟩
                  rw [Turn.routed, hrequests, ← hid, ← hquery]
                  rfl

/-- A turn that ends: its seed, and what ran up to the agent and from there on. -/
theorem turn_to_dispatch {turn : Turn} {stored after : Option AgentState}
    {items : List StreamItem} (h : turnStep deps stored turn = some (after, items)) :
    ∃ seed t context decision requests rest, turn.seed = .ok seed ∧ after = some t ∧
      turn.routed deps = some decision.agent ∧
      items = [.finished "memory_recall" { memoryContext := some (some context) },
        .finished "route" { route := some (some decision) }] ++ rest ∧
      (supervisor deps).system.run ((supervisor deps).settle (.ready decision.agent.node
        (((enterThread stored seed).fold { memoryContext := some (some context) }).fold
          { route := some (some decision) }))) requests = some (.top (.ended t), rest) := by
  unfold turnStep at h
  split at h
  next => cases h
  next seed hseed =>
      split at h
      next t items' hrun =>
          cases h
          obtain ⟨hid, hquery, hroute⟩ := enterThread_fields hseed stored
          obtain ⟨context, decision, requests, before, rest, hrouted, rfl, rfl, hrest⟩ :=
            run_to_dispatch hid hquery hroute hrun
          exact ⟨seed, t, context, decision, requests, rest, hseed, rfl, hrouted, rfl, hrest⟩
      next => cases h

/-- After a turn a channel holds what the agent carried over from the seeded
channel, and then what the turn's nodes produced. -/
theorem turn_channel (hchannel : AppendChannel f g) {turn : Turn}
    {stored after : Option AgentState} {items : List StreamItem}
    (h : turnStep deps stored turn = some (after, items)) :
    ∃ seed t agent, turn.seed = .ok seed ∧ after = some t ∧ turn.routed deps = some agent ∧
      f t = carried agent (f (enterThread stored seed)) ++ produced g items := by
  obtain ⟨seed, t, context, decision, requests, rest, hseed, hafter, hrouted, rfl, hrest⟩ :=
    turn_to_dispatch h
  have hbase : f (((enterThread stored seed).fold
      { memoryContext := some (some context) }).fold { route := some (some decision) }) =
      f (enterThread stored seed) := by
    rw [hchannel.fold, hchannel.fold, hchannel.onRecall, hchannel.onRoute, List.append_nil,
      List.append_nil]
  have hproduced : produced g ([.finished "memory_recall"
      { memoryContext := some (some context) },
      .finished "route" { route := some (some decision) }] ++ rest : List StreamItem) =
      produced g rest := by
    simp [produced, hchannel.onRecall, hchannel.onRoute]
  have hstart : Relay f decision.agent (f (enterThread stored seed))
      (produced g ([] : List StreamItem)) ((supervisor deps).settle
        (.ready decision.agent.node (((enterThread stored seed).fold
          { memoryContext := some (some context) }).fold
            { route := some (some decision) }))) :=
    hbase ▸ relay_dispatch decision.agent _
  have hrelay := System.run_induction
    (P := fun C out => Relay f decision.agent (f (enterThread stored seed))
      (produced g out) C)
    (fun C out r C' new _ hC hstep => by
      rw [produced_append]
      exact hC.step hchannel hstep)
    hstart hrest
  refine ⟨seed, t, decision.agent, hseed, hafter, hrouted, ?_⟩
  rw [hproduced]
  exact hrelay

theorem turn_speaks {turn : Turn} {stored after : Option AgentState} {items : List StreamItem}
    (h : turnStep deps stored turn = some (after, items)) : produced messagesOf items ≠ [] := by
  obtain ⟨seed, t, context, decision, requests, rest, -, -, -, rfl, hrest⟩ := turn_to_dispatch h
  cases requests with
  | nil =>
      generalize decision.agent = agent at hrest
      cases agent <;> cases hrest
  | cons r requests =>
      obtain ⟨C, out, rest, hstep, -, rfl⟩ := (supervisor deps).system.run_cons.mp hrest
      have hout := dispatch_speaks hstep
      rw [produced_append, produced_append]
      exact List.append_ne_nil_of_right_ne_nil _ (List.append_ne_nil_of_left_ne_nil hout _)

end Turn

/-! ## Whole threads -/

section Thread

variable {deps : Deps} {β : Type} {f : AgentState → List β} {g : Update → List β}

theorem enterThread_channel (hchannel : AppendChannel f g) {stored seed : AgentState}
    (hseed : f seed = []) : f (enterThread (some stored) seed) = f stored := by
  rw [enterThread, hchannel.fold, hchannel.whole, hseed, List.append_nil]

/-- A later turn appends to the channel what it produced, after what its agent
carried over. -/
theorem laterTurn_channel (hchannel : AppendChannel f g)
    (hseeds : ∀ (turn : Turn) seed, turn.seed = .ok seed → f seed = []) {turn : Turn}
    {stored : AgentState} {after : Option AgentState} {items : List StreamItem}
    (h : turnStep deps (some stored) turn = some (after, items)) :
    ∃ t agent, after = some t ∧ turn.routed deps = some agent ∧
      f t = carried agent (f stored) ++ produced g items := by
  obtain ⟨seed, t, agent, hseed, rfl, hrouted, ht⟩ := turn_channel hchannel h
  rw [enterThread_channel hchannel (hseeds turn seed hseed)] at ht
  exact ⟨t, agent, rfl, hrouted, ht⟩

/-- Turns answered directly append what they produced, and nothing else. -/
theorem directTurns_channel (hchannel : AppendChannel f g)
    (hseeds : ∀ (turn : Turn) seed, turn.seed = .ok seed → f seed = []) {turns : List Turn}
    {stored t : AgentState} {items : List StreamItem}
    (hdirect : ∀ turn ∈ turns, turn.routed deps = some .direct)
    (h : (threadSystem deps).run (some stored) turns = some (some t, items)) :
    f t = f stored ++ produced g items := by
  induction turns generalizing stored items with
  | nil =>
      cases h
      simp
  | cons turn turns ih =>
      obtain ⟨hfirst, hrest⟩ := List.forall_mem_cons.mp hdirect
      obtain ⟨after, out, rest, hstep, hrun, rfl⟩ := (threadSystem deps).run_cons.mp h
      obtain ⟨t', agent, rfl, hrouted, ht'⟩ := laterTurn_channel hchannel hseeds hstep
      rw [hfirst] at hrouted
      cases hrouted
      calc f t = f t' ++ produced g rest := ih hrest hrun
        _ = (f stored ++ produced g out) ++ produced g rest := by rw [ht', carried]
        _ = f stored ++ produced g (out ++ rest) := by rw [produced_append, List.append_assoc]

/-- The transcript never falls behind what was produced, and it runs ahead for
good once a later turn went through a subgraph. -/
theorem laterTurns_length {turns : List Turn} {stored t : AgentState} {items : List StreamItem}
    (hstored : stored.messages ≠ [])
    (h : (threadSystem deps).run (some stored) turns = some (some t, items)) :
    stored.messages.length + (produced messagesOf items).length ≤ t.messages.length ∧
      (t.messages.length = stored.messages.length + (produced messagesOf items).length →
        ∀ turn ∈ turns, turn.routed deps = some .direct) := by
  induction turns generalizing stored items with
  | nil =>
      cases h
      simp
  | cons turn turns ih =>
      obtain ⟨after, out, rest, hstep, hrun, rfl⟩ := (threadSystem deps).run_cons.mp h
      obtain ⟨t', agent, rfl, hrouted, ht'⟩ := laterTurn_channel messages_channel
        (fun turn seed hseed => (seed_fields hseed).2.2.2.1) hstep
      have hlen := congrArg List.length ht'
      have hpos : 0 < stored.messages.length := List.length_pos_iff.mpr hstored
      have ht'ne : t'.messages ≠ [] := by
        rw [ht']
        simp [turn_speaks hstep]
      obtain ⟨hle, hall⟩ := ih ht'ne hrun
      rw [List.length_append] at hlen
      rw [produced_append, List.length_append]
      by_cases hagent : agent = .direct
      · subst hagent
        rw [carried] at hlen
        refine ⟨by omega, fun heq => ?_⟩
        exact List.forall_mem_cons.mpr ⟨hrouted, hall (by omega)⟩
      · rw [carried_of_ne hagent, List.length_append] at hlen
        exact ⟨by omega, fun heq => absurd heq (by omega)⟩

end Thread

/-- Over any sequence of turns on a fresh thread, the stored transcript and ledger
are the concatenation of what the turns' nodes produced exactly when every turn
after the first is answered directly. -/
theorem transcript_accumulates_iff (deps : Deps) (turns : List Turn) (stored : AgentState)
    (items : List StreamItem)
    (h : (threadSystem deps).run none turns = some (some stored, items)) :
    (stored.messages = produced messagesOf items ∧
        stored.toolsCalled = produced recordsOf items) ↔
      ∀ turn ∈ turns.tail, turn.routed deps = some .direct := by
  cases turns with
  | nil => cases h
  | cons turn turns =>
      obtain ⟨after, out, rest, hstep, hrun, rfl⟩ := (threadSystem deps).run_cons.mp h
      -- the first turn starts from empty channels, so nothing is carried over
      have hfirst : ∀ {β : Type} {f : AgentState → List β} {g : Update → List β},
          AppendChannel f g → (∀ (turn : Turn) seed, turn.seed = .ok seed → f seed = []) →
          ∃ t, after = some t ∧ f t = produced g out := by
        intro β f g hchannel hseeds
        obtain ⟨seed, t, agent, hseed, rfl, -, ht⟩ := turn_channel hchannel hstep
        rw [enterThread, hseeds turn seed hseed] at ht
        exact ⟨t, rfl, by cases agent <;> simpa [carried] using ht⟩
      have hmessages : ∀ (turn : Turn) seed, turn.seed = .ok seed → seed.messages = [] :=
        fun turn seed hseed => (seed_fields hseed).2.2.2.1
      have hrecords : ∀ (turn : Turn) seed, turn.seed = .ok seed → seed.toolsCalled = [] :=
        fun turn seed hseed => (seed_fields hseed).2.2.2.2
      obtain ⟨t, rfl, htm⟩ := hfirst messages_channel hmessages
      obtain ⟨_, hsame, htr⟩ := hfirst toolsCalled_channel hrecords
      cases hsame
      rw [produced_append, produced_append, ← htm, ← htr]
      constructor
      · rintro ⟨heq, -⟩
        have htne : t.messages ≠ [] := by
          rw [htm]
          exact turn_speaks hstep
        exact (laterTurns_length htne hrun).2 (by rw [heq, List.length_append])
      · intro hdirect
        exact ⟨directTurns_channel messages_channel hmessages hdirect hrun,
          directTurns_channel toolsCalled_channel hrecords hdirect hrun⟩

/-- A turn of the given number of requests in which every decision names `agent`
and the model answers at once. -/
def answeredTurn (agent : AgentName) (requests : Nat) : Turn where
  sessionId := "s"
  threadId := "t"
  query := "q"
  now := 0
  requests := List.replicate requests (.exec (stubEnv { content := "42" } agent))

theorem transcript_accumulates_two_direct :
    ∃ stored items, (threadSystem stubDeps).run none
        [answeredTurn .direct 4, answeredTurn .direct 4] = some (some stored, items) ∧
      stored.messages = produced messagesOf items ∧
      stored.toolsCalled = produced recordsOf items := by
  refine ⟨_, _, rfl, ?_⟩
  exact (transcript_accumulates_iff stubDeps [answeredTurn .direct 4, answeredTurn .direct 4]
    _ _ rfl).mpr (List.forall_mem_singleton.mpr rfl)

/-- The second turn goes to the coder, and the first turn's message is there twice. -/
theorem transcript_not_accumulated :
    ¬ ∀ (deps : Deps) (turns : List Turn) (stored : AgentState) (items : List StreamItem),
      (threadSystem deps).run none turns = some (some stored, items) →
        stored.messages = produced messagesOf items ∧
          stored.toolsCalled = produced recordsOf items := by
  intro h
  have hlast := h stubDeps [answeredTurn .direct 4, answeredTurn .coder 6] _ _ rfl
  have hlength : (5 : ℕ) = 4 := congrArg List.length hlast.1
  exact absurd hlength (by decide)

end Lour.Agents
